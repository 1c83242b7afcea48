/-!
# The 8259A interrupt controller

One chip: its registers behind a command and a data port.  A command byte with bit 4 set
starts an initialization, and the data bytes after it are its other words; at any other time
a data byte is the interrupt mask.

What is in service is not kept: no mask depends on it.

* `init_ready`: after an initialization of four words the data port is the mask again.
-/

/-- What the chip takes the next data byte for. -/
inductive PicPhase where
  | ready
  | icw2
  | icw3
  | icw4
  deriving DecidableEq

structure Pic where
  phase : PicPhase
  /-- No other chip is attached: ICW3 is left out. -/
  single : Bool
  needsIcw4 : Bool
  mask : BitVec 8
  /-- The vector of line 0. -/
  offset : BitVec 8
  cascade : BitVec 8
  mode : BitVec 8

namespace Pic

def afterIcw3 (p : Pic) : PicPhase := if p.needsIcw4 then .icw4 else .ready

/-- ICW1 clears the mask; other commands change no register that is kept here. -/
def writeCommand (p : Pic) (v : BitVec 8) : Pic :=
  if v.getLsbD 4 then { p with phase := .icw2, needsIcw4 := v.getLsbD 0, single := v.getLsbD 1, mask := 0 }
  else p

def writeData (p : Pic) (v : BitVec 8) : Pic :=
  match p.phase with
  | .ready => { p with mask := v }
  | .icw2 => { p with offset := v, phase := if p.single then p.afterIcw3 else .icw3 }
  | .icw3 => { p with cascade := v, phase := p.afterIcw3 }
  | .icw4 => { p with mode := v, phase := .ready }

def readData (p : Pic) : BitVec 8 := p.mask

def vector (p : Pic) (i : Nat) : BitVec 8 := p.offset + BitVec.ofNat 8 i

theorem writeData_ready {p : Pic} (h : p.phase = .ready) (v : BitVec 8) :
    (p.writeData v).mask = v ∧ (p.writeData v).phase = .ready ∧ (p.writeData v).offset = p.offset := by
  unfold writeData
  rw [h]
  exact ⟨rfl, rfl, rfl⟩

/-- **An initialization of four words** in any phase. -/
theorem init_ready (p : Pic) (offset cascade mode : BitVec 8) :
    let q := (((p.writeCommand 0x11).writeData offset).writeData cascade).writeData mode
    q.phase = .ready ∧ q.offset = offset := ⟨rfl, rfl⟩

end Pic
