import AionOs.Drivers.Serial
import AionOs.Lib.Fair
import AionOs.Lib.Uart

/-!
# The serial driver and its transmitter

`serial_init`, `serial_tx_ready` and `serial_putc` of `kernel/drivers/serial.c` at the ports of a
16550, which moves its bytes on at its own pace while the driver polls it.

* `serialInit_spec`: the transmitter after `serial_init`, whatever the firmware left in it.
* `sent_inOrder`: in every interleaving the bytes come out in order, and none is lost.
* `sent_fair`: a schedule in which both sides take enough steps sends everything.
* `printf_fair`: so does one while `serial_printf` runs.
-/

namespace AionOs

open Bytes

def com1 : BitVec 16 := 0x3F8

namespace SerialLine

/-! ### The code -/

/-- `outb` to a port of the transmitter. -/
def outb (port : BitVec 16) (v : U8) (u : Uart) : Uart := u.write (port - com1).toNat v

/-- `inb`: only the line status is read. -/
def inb (port : BitVec 16) (u : Uart) : U8 := if port = com1 + 5 then u.lineStatus else 0

def serialInit (u : Uart) : Uart :=
  let u := outb (com1 + 3) 0x80 (outb (com1 + 1) 0x00 u)
  let u := outb (com1 + 1) 0x00 (outb (com1 + 0) 0x03 u)
  let u := outb (com1 + 2) 0xC7 (outb (com1 + 3) 0x03 u)
  outb (com1 + 4) 0x0B u

def serialTxReady (u : Uart) : U8 := inb (com1 + 5) u &&& 0x20

/-- Where `serial_putc` is: polling, or about to write. -/
inductive PutcPc where
  | idle
  | poll (c : U8)
  | send (c : U8)
  | pollCr
  | sendCr

/-- The transmitter, and the driver with the characters that `serial_putc` is yet to be called
with. -/
structure Sender where
  uart : Uart
  pc : PutcPc
  text : List U8

def drive (s : Sender) : Sender :=
  match s.pc with
  | .idle =>
    match s.text with
    | [] => s
    | c :: text => { s with pc := .poll c, text := text }
  | .poll c => if serialTxReady s.uart ≠ 0 then { s with pc := .send c } else s
  | .send c => { s with uart := outb com1 c s.uart, pc := if c = charByte '\n' then .pollCr else .idle }
  | .pollCr => if serialTxReady s.uart ≠ 0 then { s with pc := .sendCr } else s
  | .sendCr => { s with uart := outb com1 (charByte '\r') s.uart, pc := .idle }

inductive Event where
  | tick
  | drive

def step (s : Sender) : Event → Sender
  | .tick => { s with uart := s.uart.tick }
  | .drive => drive s

def machine : Machine Sender Event := ⟨step, fun _ _ => True⟩

def start (u : Uart) (text : List U8) : Sender := ⟨serialInit u, .idle, text⟩

/-! ### `serial_init` -/

/-- **The transmitter after `serial_init`**: 8N1 at divisor 3 and nothing in the FIFO.  The first
write goes to the divisor latch instead of the interrupt register if the firmware left that in
front. -/
theorem serialInit_spec (u : Uart) : (serialInit u).Open ∧ (serialInit u).fifo = [] ∧
    (serialInit u).divisorLow = 3 ∧ (serialInit u).divisorHigh = 0 ∧ (serialInit u).line = u.line ∧
    (serialInit u).shift = u.shift ∧ (serialInit u).ier = if u.dlab then u.ier else 0 := by
  have hports : serialInit u = (((((((u.write 1 0x00).write 3 0x80).write 0 0x03).write 1 0x00).write 3
      0x03).write 2 0xC7).write 4 0x0B) := rfl
  have hlatch : ∀ t : Uart, t.lcr = 0x80 → t.dlab = true := fun t ht => by rw [Uart.dlab, ht]; decide
  have hclosed : (0x03 : U8).getLsbD 7 = false ∧ (0x0B : U8).getLsbD 4 = false ∧
    0xFF#8 >>> (3 - ((0x03 : U8) &&& 0x03).toNat) = 0xFF#8 := by decide
  have hinit : serialInit u = { u with
      ier := if u.dlab then u.ier else 0
      fcr := 0xC7, lcr := 0x03, mcr := 0x0B, divisorLow := 3, divisorHigh := 0, fifo := [] } := by
    have hthree : ∀ t : Uart, ∀ v, t.write 3 v = { t with lcr := v } := fun _ _ => rfl
    rw [hports, Uart.write_one, hthree, Uart.write_zero_latch (hlatch _ rfl), Uart.write_one, hlatch _ rfl,
      hthree, Uart.write_fifo_clear _ (by decide)]
    rfl
  rw [hinit]
  exact ⟨⟨hclosed.1, hclosed.2.1, hclosed.2.2⟩, rfl, rfl, rfl, rfl, rfl, rfl⟩

/-! ### What every step keeps -/

/-- The driver writes only where it found the FIFO empty. -/
structure Sound (s : Sender) : Prop where
  opened : s.uart.Open
  empty : (s.pc = .sendCr ∨ ∃ c, s.pc = .send c) → s.uart.fifo = []
  room : s.uart.fifo.length ≤ 1

theorem ready_iff (u : Uart) : serialTxReady u ≠ 0 ↔ u.fifo = [] := by
  have hread : serialTxReady u = u.lineStatus &&& 0x20 := rfl
  rw [hread]
  exact u.lineStatus_ready

theorem start_sound (u : Uart) (text : List U8) : Sound (start u text) := by
  obtain ⟨hopen, hfifo, _⟩ := serialInit_spec u
  refine ⟨hopen, fun _ => hfifo, ?_⟩
  show (serialInit u).fifo.length ≤ 1
  rw [hfifo]
  exact Nat.zero_le 1

theorem fifo_tick (u : Uart) : u.tick.fifo = u.fifo ∨ u.tick.fifo = u.fifo.tail := by
  unfold Uart.tick
  cases u.shift with
  | some v => exact .inl rfl
  | none =>
    cases hfifo : u.fifo with
    | nil => exact .inl hfifo
    | cons v fifo => exact .inr rfl

theorem Sound.tick {s : Sender} (h : Sound s) : Sound (step s .tick) := by
  obtain ⟨hopen, hempty, hroom⟩ := h
  have hle : s.uart.tick.fifo.length ≤ s.uart.fifo.length := by
    rcases fifo_tick s.uart with heq | heq
    · rw [heq]
    · rw [heq, List.length_tail]
      omega
  refine ⟨hopen.tick, fun hpc => ?_, hle.trans hroom⟩
  rw [hempty hpc, List.length_nil] at hle
  exact List.length_eq_zero_iff.mp (Nat.le_zero.mp hle)

/-- **What the driver does with a byte**: it goes into the empty FIFO. -/
theorem Sound.outb {s : Sender} (h : Sound s) (hpc : s.pc = .sendCr ∨ ∃ c, s.pc = .send c) (v : U8) :
    outb com1 v s.uart = { s.uart with fifo := [v] } := by
  have hwrite : SerialLine.outb com1 v s.uart = s.uart.write 0 v := rfl
  rw [hwrite, Uart.write_zero_data h.opened.data, Uart.push_empty (h.empty hpc)]

theorem Sound.pushed {s : Sender} (h : Sound s) (v : U8) {pc : PutcPc}
    (hnext : ¬ (pc = .sendCr ∨ ∃ c, pc = .send c)) (text : List U8) :
    Sound ⟨{ s.uart with fifo := [v] }, pc, text⟩ :=
  ⟨⟨h.opened.1, h.opened.2, h.opened.3⟩, fun hpc => absurd hpc hnext, Nat.le_refl 1⟩

theorem Sound.moved {s : Sender} (h : Sound s) {pc : PutcPc}
    (hnext : (pc = .sendCr ∨ ∃ c, pc = .send c) → s.uart.fifo = []) (text : List U8) :
    Sound ⟨s.uart, pc, text⟩ := ⟨h.opened, hnext, h.room⟩

theorem Sound.drive {s : Sender} (h : Sound s) : Sound (step s .drive) := by
  have hstep : step s .drive = SerialLine.drive s := rfl
  rw [hstep, SerialLine.drive]
  cases hpc : s.pc with
  | idle =>
    cases s.text with
    | nil => exact h
    | cons c text => exact h.moved (by simp) text
  | poll c =>
    by_cases hready : serialTxReady s.uart ≠ 0
    · simp only [if_pos hready]
      exact h.moved (fun _ => (ready_iff _).mp hready) s.text
    · simp only [if_neg hready]
      exact h
  | send c =>
    simp only [h.outb (.inr ⟨c, hpc⟩)]
    exact h.pushed c (by split <;> simp) s.text
  | pollCr =>
    by_cases hready : serialTxReady s.uart ≠ 0
    · simp only [if_pos hready]
      exact h.moved (fun _ => (ready_iff _).mp hready) s.text
    · simp only [if_neg hready]
      exact h
  | sendCr =>
    simp only [h.outb (.inl hpc)]
    exact h.pushed _ (by simp) s.text

theorem Sound.step {s : Sender} (h : Sound s) (e : Event) : Sound (step s e) := by
  cases e with
  | tick => exact h.tick
  | drive => exact h.drive

/-! ### Nothing is lost -/

/-- What the running call of `serial_putc` is yet to write. -/
def rest : PutcPc → List U8
  | .idle => []
  | .poll c => serialPutc c
  | .send c => serialPutc c
  | .pollCr => [charByte '\r']
  | .sendCr => [charByte '\r']

/-- All bytes, from the ones on the line to those that are not written yet. -/
def stream (s : Sender) : List U8 := s.uart.stream ++ rest s.pc ++ s.text.flatMap serialPutc

theorem stream_fifo {u : Uart} (h : u.fifo = []) (v : U8) :
    ({ u with fifo := [v] } : Uart).stream = u.stream ++ [v] := by
  rw [Uart.stream, Uart.stream, h, List.append_nil]

/-- **No step loses a byte**, or moves one past another. -/
theorem stream_step {s : Sender} (h : Sound s) (e : Event) : stream (step s e) = stream s := by
  cases e with
  | tick =>
    have htick : stream (step s .tick) = s.uart.tick.stream ++ rest s.pc ++ s.text.flatMap serialPutc := rfl
    rw [htick, Uart.stream_tick h.opened]
    rfl
  | drive =>
    have hstep : step s .drive = drive s := rfl
    rw [hstep, drive, stream]
    cases hpc : s.pc with
    | idle =>
      cases htext : s.text with
      | nil => simp [stream, hpc, htext]
      | cons c text => simp [stream, rest, hpc, htext]
    | poll c =>
      by_cases hready : serialTxReady s.uart ≠ 0
      · simp only [if_pos hready, stream, rest, hpc]
      · simp only [if_neg hready, stream, hpc]
    | send c =>
      simp only [h.outb (.inr ⟨c, hpc⟩), stream, stream_fifo (h.empty (.inr ⟨c, hpc⟩))]
      by_cases hnewline : c = charByte '\n'
      · simp [rest, serialPutc, hpc, hnewline]
      · simp [rest, serialPutc, hpc, hnewline]
    | pollCr =>
      by_cases hready : serialTxReady s.uart ≠ 0
      · simp only [if_pos hready, stream, rest, hpc]
      · simp only [if_neg hready, stream, hpc]
    | sendCr =>
      simp only [h.outb (.inl hpc), stream, stream_fifo (h.empty (.inl hpc))]
      simp [rest, hpc]

theorem stream_start (u : Uart) (text : List U8) :
    stream (start u text) = u.line ++ u.shift.toList ++ text.flatMap serialPutc := by
  obtain ⟨_, hfifo, _, _, hline, hshift, _⟩ := serialInit_spec u
  have hstart : stream (start u text) = (serialInit u).line ++ (serialInit u).shift.toList ++
      (serialInit u).fifo ++ [] ++ text.flatMap serialPutc := rfl
  rw [hstart, hfifo, hline, hshift, List.append_nil, List.append_nil]

/-- **The bytes come out in order**: in every interleaving, what has left the transmitter is a
beginning of the bytes of the calls, and the rest is on its way; the FIFO never overflows. -/
theorem sent_inOrder (u : Uart) (text : List U8) (events : List Event) :
    let s := machine.run (start u text) events
    s.uart.line ++ (s.uart.shift.toList ++ s.uart.fifo ++ rest s.pc ++ s.text.flatMap serialPutc) =
      u.line ++ u.shift.toList ++ text.flatMap serialPutc ∧ s.uart.fifo.length ≤ 1 := by
  intro s
  obtain ⟨hsound, hstream⟩ : Sound s ∧ stream s = stream (start u text) :=
    Machine.run_keeps (I := fun t => Sound t ∧ stream t = stream (start u text))
      (fun t e ht => ⟨ht.1.step e, (stream_step ht.1 e).trans ht.2⟩) events ⟨start_sound u text, rfl⟩
  refine ⟨?_, hsound.room⟩
  rw [← stream_start u text, ← hstream, stream, Uart.stream]
  simp only [List.append_assoc]

/-! ### Everything is sent -/

/-- The steps that a character takes at most. -/
def charWork (c : U8) : Nat := 4 * (serialPutc c).length

def pcWork : PutcPc → Nat
  | .idle => 0
  | .poll c => charWork c
  | .send c => charWork c - 1
  | .pollCr => 4
  | .sendCr => 3

/-- The steps that are left at most, without those in which the driver polls in vain. -/
def work (s : Sender) : Nat :=
  2 * s.uart.fifo.length + s.uart.shift.toList.length + pcWork s.pc + (s.text.map fun c => charWork c + 1).sum

theorem charWork_eq (c : U8) : charWork c = if c = charByte '\n' then 8 else 4 := by
  unfold charWork serialPutc
  split <;> rfl

theorem work_pushed {s : Sender} (hfifo : s.uart.fifo = []) (v : U8) {pc : PutcPc} (h : pcWork pc + 2 < pcWork s.pc) :
    work ⟨{ s.uart with fifo := [v] }, pc, s.text⟩ < work s := by
  unfold work
  rw [hfifo]
  simp only [List.length_singleton, List.length_nil]
  omega

/-- **A step changes nothing or leaves less to do.** -/
theorem work_step {s : Sender} (h : Sound s) (e : Event) : step s e = s ∨ work (step s e) < work s := by
  cases e with
  | tick =>
    have hstep : step s .tick = { s with uart := s.uart.tick } := rfl
    rw [hstep, Uart.tick]
    cases hshift : s.uart.shift with
    | some v =>
      right
      simp only [work, hshift, Option.toList_some, Option.toList_none, List.length_singleton, List.length_nil]
      omega
    | none =>
      cases hfifo : s.uart.fifo with
      | nil => exact .inl rfl
      | cons v fifo =>
        right
        simp only [work, hshift, hfifo, Option.toList_some, Option.toList_none, List.length_nil, List.length_cons]
        omega
  | drive =>
    have hstep : step s .drive = drive s := rfl
    rw [hstep, drive]
    cases hpc : s.pc with
    | idle =>
      cases htext : s.text with
      | nil => exact .inl rfl
      | cons c text =>
        right
        simp only [work, hpc, htext, pcWork, List.map_cons, List.sum_cons]
        omega
    | poll c =>
      by_cases hready : serialTxReady s.uart ≠ 0
      · right
        have hpos : 0 < charWork c := by
          rw [charWork_eq]
          split <;> decide
        simp only [if_pos hready, work, hpc, pcWork]
        omega
      · left
        simp only [if_neg hready]
    | send c =>
      right
      have hsend : s.pc = .sendCr ∨ ∃ c, s.pc = .send c := .inr ⟨c, hpc⟩
      simp only [h.outb hsend]
      refine work_pushed (h.empty hsend) c ?_
      rw [hpc, pcWork, charWork_eq]
      by_cases hnewline : c = charByte '\n'
      · rw [if_pos hnewline, if_pos hnewline]
        decide
      · rw [if_neg hnewline, if_neg hnewline]
        decide
    | pollCr =>
      by_cases hready : serialTxReady s.uart ≠ 0
      · right
        simp only [if_pos hready, work, hpc, pcWork]
        omega
      · left
        simp only [if_neg hready]
    | sendCr =>
      right
      have hsend : s.pc = .sendCr ∨ ∃ c, s.pc = .send c := .inl hpc
      simp only [h.outb hsend]
      refine work_pushed (h.empty hsend) _ ?_
      rw [hpc]
      decide

theorem drive_ne {s : Sender} (hready : serialTxReady s.uart ≠ 0) (h : s.pc ≠ .idle ∨ s.text ≠ []) :
    drive s ≠ s := by
  intro hdrive
  have hmoved := congrArg Sender.pc hdrive
  unfold drive at hmoved
  cases hpc : s.pc with
  | idle =>
    cases htext : s.text with
    | nil => exact h.elim (fun hne => hne hpc) fun hne => hne htext
    | cons c text => simp [hpc, htext] at hmoved
  | poll c =>
    simp only [hpc, if_pos hready] at hmoved
    cases hmoved
  | send c =>
    rw [hpc] at hmoved
    revert hmoved
    show (if c = charByte '\n' then PutcPc.pollCr else PutcPc.idle) ≠ PutcPc.send c
    split <;> simp
  | pollCr =>
    simp only [hpc, if_pos hready] at hmoved
    cases hmoved
  | sendCr => simp [hpc] at hmoved

/-- **While something is left to do**, the transmitter or the driver goes on. -/
theorem work_fair {s : Sender} (h : Sound s) (hwork : work s ≠ 0) :
    ∃ e ∈ [Event.tick, Event.drive], work (step s e) < work s := by
  by_cases hbusy : s.uart.fifo ≠ [] ∨ s.uart.shift ≠ none
  · refine ⟨.tick, List.mem_cons_self, (work_step h .tick).resolve_left fun hsame => ?_⟩
    exact Uart.tick_ne hbusy (congrArg Sender.uart hsame)
  · obtain ⟨hfifo, hshift⟩ : s.uart.fifo = [] ∧ s.uart.shift = none := by
      rw [not_or, not_not, not_not] at hbusy
      exact hbusy
    refine ⟨.drive, List.mem_cons_of_mem _ List.mem_cons_self, (work_step h .drive).resolve_left ?_⟩
    refine drive_ne ((ready_iff s.uart).mpr hfifo) ?_
    by_contra hidle
    rw [not_or, not_not, not_not] at hidle
    exact hwork (by simp [work, hfifo, hshift, hidle, pcWork])

theorem line_of_work {s : Sender} (h : work s = 0) : s.uart.line = stream s ∧ s.pc = .idle ∧ s.text = [] := by
  unfold work at h
  have hfifo : s.uart.fifo = [] := List.length_eq_zero_iff.mp (by omega)
  have hshift : s.uart.shift = none := by
    cases hshift : s.uart.shift with
    | none => rfl
    | some v => simp [hshift] at h
  have htext : s.text = [] := by
    cases htext : s.text with
    | nil => rfl
    | cons c text => simp [htext] at h
  have hpc : s.pc = .idle := by
    have hzero : pcWork s.pc = 0 := by omega
    cases hpc : s.pc with
    | idle => rfl
    | poll c =>
      rw [hpc, pcWork, charWork_eq] at hzero
      split at hzero <;> cases hzero
    | send c =>
      rw [hpc, pcWork, charWork_eq] at hzero
      split at hzero <;> cases hzero
    | pollCr => simp [hpc, pcWork] at hzero
    | sendCr => simp [hpc, pcWork] at hzero
  refine ⟨?_, hpc, htext⟩
  simp [stream, Uart.stream, rest, hfifo, hshift, hpc, htext]

/-- A schedule in so many blocks that both sides take a step in each of them. -/
def Fair (n : Nat) (blocks : List (List Event)) : Prop :=
  n ≤ blocks.length ∧ ∀ b ∈ blocks, Event.tick ∈ b ∧ Event.drive ∈ b

theorem fair_done (u : Uart) (text : List U8) {blocks : List (List Event)}
    (h : Fair (work (start u text)) blocks) :
    work (machine.run (start u text) blocks.flatten) = 0 ∧
      stream (machine.run (start u text) blocks.flatten) = u.line ++ u.shift.toList ++ text.flatMap serialPutc := by
  obtain ⟨hlength, hblocks⟩ := h
  have hsound := start_sound u text
  refine ⟨?_, ?_⟩
  · exact Machine.measure_fair (M := machine) (I := Sound) (fun _ e ht => ht.step e)
      (fun _ e ht => work_step ht e) (fun _ ht hwork => work_fair ht hwork) blocks (start u text) hsound
      (fun b hb e he => by
        rcases List.mem_pair.mp he with rfl | rfl
        · exact (hblocks b hb).1
        · exact (hblocks b hb).2) hlength
  · have hkept := Machine.run_keeps (M := machine) (I := fun t => Sound t ∧ stream t = stream (start u text))
      (fun t e ht => ⟨ht.1.step e, (stream_step ht.1 e).trans ht.2⟩) blocks.flatten ⟨hsound, rfl⟩
    rw [hkept.2, stream_start]

/-- **Everything is sent**: a schedule in which both sides go on often enough, in any order and
with any steps between, puts on the line what was in the shift register, and then the
characters of all calls. -/
theorem sent_fair (u : Uart) (text : List U8) {blocks : List (List Event)}
    (h : Fair (work (start u text)) blocks) :
    let s := machine.run (start u text) blocks.flatten
    s.uart.line = u.line ++ u.shift.toList ++ text.flatMap serialPutc ∧ s.pc = .idle ∧ s.text = [] := by
  intro s
  obtain ⟨hdone, hstream⟩ := fair_done u text h
  obtain ⟨hline, hrest⟩ := line_of_work hdone
  exact ⟨hline.trans hstream, hrest⟩

/-! ### `serial_printf` -/

/-- The bytes that some calls of `serial_putc` write. -/
def Called (out : List U8) : Prop := ∃ text : List U8, text.flatMap serialPutc = out

theorem called_nil : Called [] := ⟨[], rfl⟩

theorem called_putc (c : U8) : Called (serialPutc c) := ⟨[c], List.append_nil _⟩

theorem Called.append {out out' : List U8} (h : Called out) (h' : Called out') : Called (out ++ out') := by
  obtain ⟨text, rfl⟩ := h
  obtain ⟨text', rfl⟩ := h'
  exact ⟨text ++ text', List.flatMap_append⟩

theorem called_numeral {base n : Nat} (hbase : 1 < base) (hsmall : base ≤ 16) : Called (numeral base n) :=
  ⟨numeral base n, flatMap_putc_numeral hbase hsmall⟩

theorem called_printInt {v : U64} {out : List U8} (h : printInt v = some out) : Called out := by
  unfold printInt at h
  rw [printUint_ten, printUint_ten] at h
  split at h
  · cases h
    exact (called_putc _).append (called_numeral (by decide) (by decide))
  · cases h
    exact called_numeral (by decide) (by decide)

theorem called_directive {strAt : U64 → CString} {d : U8} {arg : U64} {out : List U8} {n : Nat}
    (h : directive strAt d arg = some (out, n)) : Called out := by
  have hint : ∀ {v : U64}, (printInt v).map (·, 1) = some (out, n) → Called out := fun hprint => by
    obtain ⟨sent, hsent, heq⟩ := Option.map_eq_some_iff.mp hprint
    cases heq
    exact called_printInt hsent
  unfold directive at h
  rw [printUint_ten, printUint_sixteen] at h
  split_ifs at h
  · cases h
    exact ⟨_, rfl⟩
  · exact hint h
  · cases h
    exact called_numeral (by decide) (by decide)
  · cases h
    exact called_numeral (by decide) (by decide)
  · cases h
    exact called_putc _
  · cases h
    exact called_putc _
  · cases h
    exact called_nil

theorem called_longDirective {d : U8} {arg : U64} {out : List U8} {n : Nat}
    (h : longDirective d arg = some (out, n)) : Called out := by
  unfold longDirective at h
  rw [printUint_ten] at h
  split_ifs at h
  · cases h
    exact called_numeral (by decide) (by decide)
  · obtain ⟨sent, hsent, heq⟩ := Option.map_eq_some_iff.mp h
    cases heq
    exact called_printInt hsent
  · cases h
    exact called_nil

theorem called_next {sent : Option (List U8 × Nat)} {next : Nat → Option (List (List U8) × Nat)} {k : Nat}
    {outs : List (List U8)} {n : Nat} (h : printfNext sent next k = some (outs, n))
    (hsent : ∀ out m, sent = some (out, m) → Called out)
    (hnext : ∀ k outs n, next k = some (outs, n) → Called outs.flatten) : Called outs.flatten := by
  unfold printfNext at h
  cases hout : sent with
  | none =>
    rw [hout] at h
    cases h
  | some p =>
    obtain ⟨out, m⟩ := p
    rw [hout, Option.bind_eq_bind, Option.bind_some] at h
    dsimp only at h
    cases hrest : next (k + m) with
    | none =>
      rw [hrest] at h
      cases h
    | some q =>
      rw [hrest] at h
      cases h
      exact (hsent out m hout).append (hnext _ _ _ hrest)

theorem whole_of_some {strAt : U64 → CString} {args : Nat → U64} {fmt : List U8} (h0 : ∀ b ∈ fmt, b ≠ 0) {k : Nat}
    {p : List (List U8) × Nat} (h : printfLoop strAt args (fmt ++ [0]) k = some p) : Whole fmt :=
  (printfLoop_isSome_iff h0 k).mp (by rw [h]; rfl)

/-- **All that `serial_printf` sends** goes through `serial_putc`. -/
theorem called_printf {strAt : U64 → CString} {args : Nat → U64} {fmt : List U8} (h0 : ∀ b ∈ fmt, b ≠ 0) {k : Nat}
    {outs : List (List U8)} {n : Nat} (h : printfLoop strAt args (fmt ++ [0]) k = some (outs, n)) :
    Called outs.flatten := by
  induction fmt using format_induct generalizing k outs n with
  | nil =>
    cases h
    exact called_nil
  | lit c fmt hc ih =>
    rw [List.cons_append, printfLoop_lit (h0 c List.mem_cons_self) hc] at h
    refine called_next h (fun _ _ hsent => ?_) fun _ _ _ => ih (ne_zero_of_suffix h0 (List.suffix_cons _ _))
    cases hsent
    exact called_putc c
  | percent => exact absurd (whole_of_some h0 h) not_whole_percent
  | short d fmt hd ih =>
    rw [List.cons_append, List.cons_append, printfLoop_short hd] at h
    exact called_next h (fun _ _ => called_directive) fun _ _ _ => ih (ne_zero_of_suffix h0 ⟨[_, _], rfl⟩)
  | percentL => exact absurd (whole_of_some h0 h) not_whole_long
  | long e fmt he ih =>
    rw [List.cons_append, List.cons_append, List.cons_append, printfLoop_long he] at h
    exact called_next h (fun _ _ => called_longDirective) fun _ _ _ => ih (ne_zero_of_suffix h0 ⟨[_, _, _], rfl⟩)
  | percentLL => exact absurd (whole_of_some h0 h) not_whole_longLong
  | longLong f fmt ih =>
    rw [List.cons_append, List.cons_append, List.cons_append, List.cons_append, printfLoop_longLong] at h
    exact called_next h (fun _ _ => called_longDirective)
      fun _ _ _ => ih (ne_zero_of_suffix h0 ⟨[_, _, _, _], rfl⟩)

/-- **What `serial_printf` prints** comes out whole and in order after what the transmitter held, in
every schedule in which the transmitter and the driver go on often enough. -/
theorem printf_fair {strAt : U64 → CString} {args : Nat → U64} {fmt : CString} {outs : List (List U8)} {n : Nat}
    (h : serialPrintf strAt args fmt = some (outs, n)) : ∃ text : List U8, ∀ (u : Uart) (blocks : List (List Event)),
      Fair (work (start u text)) blocks →
        (machine.run (start u text) blocks.flatten).uart.line = u.line ++ u.shift.toList ++ outs.flatten := by
  obtain ⟨text, htext⟩ := called_printf fmt.ne_zero h
  refine ⟨text, fun u blocks hfair => ?_⟩
  obtain ⟨hdone, hstream⟩ := fair_done u text hfair
  rw [(line_of_work hdone).1, hstream, htext]

/-- A transmitter with a byte of the firmware in it. -/
def sampleUart : Uart := ⟨0x01, 0x07, 0x83, 0x13, 0x01, 0x00, [0x41, 0x42], some 0x43, [0x44], 0x01⟩

/-- A line of text, sent in fifteen blocks. -/
theorem sample_sent : (machine.run (start sampleUart [0x48, 0x0A])
      (List.replicate 15 [Event.drive, .tick, .drive]).flatten).uart.line =
    [0x44] ++ [0x43] ++ [0x48, 0x0A].flatMap serialPutc := by
  refine (sent_fair sampleUart [0x48, 0x0A] ⟨by decide, fun b hb => ?_⟩).1
  rw [List.eq_of_mem_replicate hb]
  exact ⟨List.mem_cons_of_mem _ List.mem_cons_self, List.mem_cons_self⟩

end SerialLine

end AionOs
