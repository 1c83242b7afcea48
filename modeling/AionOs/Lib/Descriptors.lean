import Mathlib.Tactic.IntervalCases

/-!
# The descriptor tables of the x86-64

How the processor reads the words of a descriptor table: segments, the task segment, and the gates
that it enters on an interrupt.

* `Table.word`: a selector or a vector beyond the limit reads nothing.
* `readSegment_pack`: a segment descriptor is read as it was packed.
* `enterGate`: the code and the stack that an interrupt goes on with.
-/

namespace Descriptors

abbrev Word := BitVec 64

/-- A table: its words of eight bytes, and the limit in its register. -/
structure Table where
  words : Nat → Word
  limit : BitVec 16

/-- A word of the table, if its last byte is within the limit. -/
def Table.word (t : Table) (i : Nat) : Option Word := if 8 * i + 7 ≤ t.limit.toNat then some (t.words i) else none

/-! ### Segments -/

@[ext] structure Segment where
  base : BitVec 32
  limit : BitVec 20
  access : BitVec 8
  flags : BitVec 4
  deriving DecidableEq

def readSegment (d : Word) : Segment where
  base := d.extractLsb' 56 8 ++ d.extractLsb' 16 24
  limit := d.extractLsb' 48 4 ++ d.extractLsb' 0 16
  access := d.extractLsb' 40 8
  flags := d.extractLsb' 52 4

def Segment.pack (s : Segment) : Word :=
  s.base.extractLsb' 24 8 ++ (s.flags ++ (s.limit.extractLsb' 16 4 ++ (s.access ++
    (s.base.extractLsb' 0 24 ++ s.limit.extractLsb' 0 16))))

/-- **A segment descriptor is read as it was packed.** -/
theorem readSegment_pack (s : Segment) : readSegment s.pack = s := by
  refine Segment.ext ?_ ?_ ?_ ?_ <;>
  · refine BitVec.eq_of_getLsbD_eq fun i hi => ?_
    simp only [readSegment, Segment.pack, BitVec.getLsbD_append, BitVec.getLsbD_extractLsb']
    interval_cases i <;> simp

def Segment.present (s : Segment) : Bool := s.access.getLsbD 7

def Segment.dpl (s : Segment) : BitVec 2 := s.access.extractLsb' 5 2

/-- A code segment of 64 bits: not a system segment, executable, with L and without D. -/
def Segment.IsCode64 (s : Segment) : Prop :=
  s.access.getLsbD 4 = true ∧ s.access.getLsbD 3 = true ∧ s.flags.getLsbD 1 = true ∧ s.flags.getLsbD 2 = false

instance (s : Segment) : Decidable s.IsCode64 := inferInstanceAs (Decidable (_ ∧ _ ∧ _ ∧ _))

/-- The segment that a selector selects: neither the null selector nor one of a local table. -/
def segmentAt (gdt : Table) (sel : BitVec 16) : Option Segment :=
  if sel.extractLsb' 3 13 = 0 ∨ sel.getLsbD 2 = true then none
  else (gdt.word (sel.extractLsb' 3 13).toNat).map readSegment

/-- The segment that a gate enters, at a level of at most `cpl`. -/
def codeAt (gdt : Table) (cpl : BitVec 2) (sel : BitVec 16) : Option Segment :=
  (segmentAt gdt sel).filter fun s => decide s.IsCode64 && s.present && decide (s.dpl ≤ cpl)

/-- The address of the task segment: its descriptor takes two words. -/
def taskBase (low high : Word) : Word := high.extractLsb' 0 32 ++ (readSegment low).base

/-! ### Gates -/

@[ext] structure Gate where
  offset : Word
  selector : BitVec 16
  ist : BitVec 3
  kind : BitVec 4
  present : Bool
  deriving DecidableEq

def readGate (low high : Word) : Gate where
  offset := high.extractLsb' 0 32 ++ (low.extractLsb' 48 16 ++ low.extractLsb' 0 16)
  selector := low.extractLsb' 16 16
  ist := low.extractLsb' 32 3
  kind := low.extractLsb' 40 4
  present := low.getLsbD 47

structure Task where
  rsp0 : Word
  /-- The interrupt stacks, from the first one on. -/
  ist : Fin 7 → Word

@[ext] structure Entered where
  rip : Word
  cs : BitVec 16
  rsp : Word
  /-- Interrupts stay as they were. -/
  flagKept : Bool
  deriving DecidableEq

/-- The stack of a gate: one of the interrupt stacks, the stack of the inner level, or the present one. -/
def gateStack (task : Task) (ist : BitVec 3) (inner : Bool) (rsp : Word) : Word :=
  if h : ist = 0 then (if inner then task.rsp0 else rsp)
  else task.ist ⟨ist.toNat - 1, by
    have hlt := ist.isLt
    have hne : ist.toNat ≠ 0 := fun hz => h (BitVec.eq_of_toNat_eq hz)
    omega⟩

/-- **The processor enters a gate** for a vector, or faults. -/
def enterGate (gdt idt : Table) (task : Task) (cpl : BitVec 2) (rsp : Word) (vec : BitVec 8) :
    Option Entered :=
  match idt.word (2 * vec.toNat), idt.word (2 * vec.toNat + 1) with
  | some low, some high =>
    let g := readGate low high
    if g.present = true ∧ (g.kind = 0xE ∨ g.kind = 0xF) then
      (codeAt gdt cpl g.selector).map fun s =>
        ⟨g.offset, g.selector, gateStack task g.ist (decide (s.dpl < cpl)) rsp &&& ~~~0xF, decide (g.kind = 0xF)⟩
    else none
  | _, _ => none

end Descriptors
