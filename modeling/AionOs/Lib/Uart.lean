import Mathlib.Data.List.Basic

/-!
# The 16550 transmitter

The registers that a transmission depends on, the transmitter FIFO, the shift register, and the
line.  The other bits of the line status tell about the receiver, which is not kept.

* `stream_tick`: the bytes on the line, in the shift register and in the FIFO are the same when a
  byte moves on.
* `push_empty`: a byte that finds the FIFO empty is alone there.
-/

structure Uart where
  /-- Interrupt enable, FIFO control, line control and modem control. -/
  ier : BitVec 8
  fcr : BitVec 8
  lcr : BitVec 8
  mcr : BitVec 8
  divisorLow : BitVec 8
  divisorHigh : BitVec 8
  fifo : List (BitVec 8)
  shift : Option (BitVec 8)
  /-- The bytes that have left the transmitter. -/
  line : List (BitVec 8)
  /-- What the line status says about the receiver. -/
  received : BitVec 8

namespace Uart

/-- The divisor latch is behind the first two registers. -/
def dlab (u : Uart) : Bool := u.lcr.getLsbD 7

def loopback (u : Uart) : Bool := u.mcr.getLsbD 4

/-- The room of the transmitter FIFO; without FIFOs there is one holding register. -/
def room (u : Uart) : Nat := if u.fcr.getLsbD 0 then 16 else 1

/-- The bits of a character that are sent: 5 to 8. -/
def wordMask (u : Uart) : BitVec 8 := 0xFF#8 >>> (3 - (u.lcr &&& 0x03).toNat)

/-- A byte that finds no room takes the place of the last one. -/
def push (u : Uart) (v : BitVec 8) : Uart :=
  { u with fifo := if u.fifo.length < u.room then u.fifo ++ [v] else u.fifo.dropLast ++ [v] }

def write (u : Uart) (offset : Nat) (v : BitVec 8) : Uart :=
  match offset with
  | 0 => if u.dlab then { u with divisorLow := v } else u.push v
  | 1 => if u.dlab then { u with divisorHigh := v } else { u with ier := v }
  | 2 => { u with fcr := v, fifo := if v.getLsbD 2 || v.getLsbD 0 != u.fcr.getLsbD 0 then [] else u.fifo }
  | 3 => { u with lcr := v }
  | 4 => { u with mcr := v }
  | _ => u

theorem write_zero_latch {u : Uart} (h : u.dlab = true) (v : BitVec 8) :
    u.write 0 v = { u with divisorLow := v } := if_pos h

theorem write_zero_data {u : Uart} (h : u.dlab = false) (v : BitVec 8) : u.write 0 v = u.push v :=
  if_neg (by rw [h]; exact Bool.false_ne_true)

theorem write_one (u : Uart) (v : BitVec 8) : u.write 1 v = { u with
    ier := if u.dlab then u.ier else v, divisorHigh := if u.dlab then v else u.divisorHigh } := by
  unfold write
  cases u.dlab <;> rfl

theorem write_fifo_clear (u : Uart) {v : BitVec 8} (h : v.getLsbD 2 = true) :
    u.write 2 v = { u with fcr := v, fifo := [] } := by
  unfold write
  simp only [h, Bool.true_or, if_true]

/-- Bit 5: the FIFO is empty; bit 6: the shift register is empty as well. -/
def lineStatus (u : Uart) : BitVec 8 :=
  (u.received &&& 0x9F) ||| (if u.fifo = [] then 0x20 else 0) |||
    if u.fifo = [] ∧ u.shift = none then 0x40 else 0

/-- Time passes: a byte leaves the shift register, or the next one goes into it. -/
def tick (u : Uart) : Uart :=
  match u.shift, u.fifo with
  | some v, _ => { u with shift := none, line := if u.loopback then u.line else u.line ++ [v &&& u.wordMask] }
  | none, v :: fifo => { u with shift := some v, fifo := fifo }
  | none, [] => u

/-- All bytes that were sent or will be, in order. -/
def stream (u : Uart) : List (BitVec 8) := u.line ++ u.shift.toList ++ u.fifo

/-- Characters of eight bits go out on the line. -/
structure Open (u : Uart) : Prop where
  data : u.dlab = false
  out : u.loopback = false
  full : u.wordMask = 0xFF#8

theorem Open.tick {u : Uart} (h : u.Open) : u.tick.Open := by
  unfold Uart.tick
  split <;> exact ⟨h.1, h.2, h.3⟩

/-- **A byte that moves on** keeps its place. -/
theorem stream_tick {u : Uart} (h : u.Open) : u.tick.stream = u.stream := by
  unfold tick stream
  cases hshift : u.shift with
  | some v =>
    have hmask : v &&& u.wordMask = v := by
      rw [h.full, show 0xFF#8 = BitVec.allOnes 8 from rfl, BitVec.and_allOnes]
    simp [h.out, hmask]
  | none =>
    cases hfifo : u.fifo with
    | nil => simp [hshift, hfifo]
    | cons v fifo => simp

theorem tick_ne {u : Uart} (h : u.fifo ≠ [] ∨ u.shift ≠ none) : u.tick ≠ u := by
  intro htick
  have hmoved := congrArg shift htick
  unfold tick at hmoved
  cases hshift : u.shift with
  | some v =>
    rw [hshift] at hmoved
    cases hmoved
  | none =>
    cases hfifo : u.fifo with
    | nil => exact h.elim (fun hne => hne hfifo) fun hne => hne hshift
    | cons v fifo =>
      rw [hshift, hfifo] at hmoved
      cases hmoved

theorem push_empty {u : Uart} (h : u.fifo = []) (v : BitVec 8) : u.push v = { u with fifo := [v] } := by
  have hroom : u.fifo.length < u.room := by
    rw [h, room]
    split <;> decide
  rw [push, if_pos hroom, h, List.nil_append]

theorem and_bit5 : ∀ v : BitVec 8, v &&& 0x20 ≠ 0 ↔ v.getLsbD 5 = true := by decide

theorem lineStatus_ready (u : Uart) : u.lineStatus &&& 0x20 ≠ 0 ↔ u.fifo = [] := by
  have hreceived : (u.received &&& 0x9F).getLsbD 5 = false := by
    rw [BitVec.getLsbD_and, show (0x9F : BitVec 8).getLsbD 5 = false by decide, Bool.and_false]
  rw [and_bit5, lineStatus, BitVec.getLsbD_or, BitVec.getLsbD_or, hreceived, Bool.false_or]
  by_cases hfifo : u.fifo = []
  · simp [hfifo]
  · simp [hfifo]

end Uart
