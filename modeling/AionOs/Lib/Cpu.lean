import Mathlib.Tactic.IntervalCases
import Mathlib.Data.Nat.Basic

/-!
# A part of the x86-64

The instructions that an entry point needs before there is any compiled code: moves, the stack,
the far return and the string store.  The arithmetic flags are left out, as no instruction here
reads them.

* `load64_store64`, `load64_store64_below`: a word that is pushed is popped again.
* `run_straight`: code without jumps comes to its end.
* `stos_spec`, `stos_regs`, `stos_kept`: what the string store leaves behind.
-/

namespace Cpu

abbrev Word := BitVec 64

inductive Reg where
  | rax | rbx | rcx | rdx | rsi | rdi | rbp | rsp
  | r8 | r9 | r10 | r11 | r12 | r13 | r14 | r15
  deriving DecidableEq

inductive Seg where
  | cs | ds | es | fs | gs | ss
  deriving DecidableEq

structure State where
  rip : Word
  regs : Reg → Word
  segs : Seg → BitVec 16
  /-- The direction flag. -/
  down : Bool
  /-- The ten bytes of the descriptor of the table. -/
  gdtr : Nat → BitVec 8
  mem : Word → BitVec 8

/-! ### Memory -/

/-- Eight bytes, the lowest first. -/
def store64 (mem : Word → BitVec 8) (p v : Word) : Word → BitVec 8 := fun a =>
  if a - p < 8 then v.extractLsb' (8 * (a - p).toNat) 8 else mem a

def load64 (mem : Word → BitVec 8) (p : Word) : Word :=
  mem (p + 7) ++ mem (p + 6) ++ mem (p + 5) ++ mem (p + 4) ++ mem (p + 3) ++ mem (p + 2) ++
    mem (p + 1) ++ mem p

theorem store64_at (mem : Word → BitVec 8) (p v : Word) {k : Word} (hk : k < 8) :
    store64 mem p v (p + k) = v.extractLsb' (8 * k.toNat) 8 := by
  have hsub : p + k - p = k := by
    rw [BitVec.add_comm, BitVec.add_sub_cancel]
  rw [store64, hsub, if_pos hk]

theorem store64_apart (mem : Word → BitVec 8) {p v a : Word} (h : ¬ a - p < 8) :
    store64 mem p v a = mem a := if_neg h

/-- **A stored word is loaded again.** -/
theorem load64_store64 (mem : Word → BitVec 8) (p v : Word) : load64 (store64 mem p v) p = v := by
  have hzero : store64 mem p v p = v.extractLsb' 0 8 := by
    rw [store64, BitVec.sub_self]
    rfl
  rw [load64, store64_at _ _ _ (by decide), store64_at _ _ _ (by decide), store64_at _ _ _ (by decide),
    store64_at _ _ _ (by decide), store64_at _ _ _ (by decide), store64_at _ _ _ (by decide),
    store64_at _ _ _ (by decide), hzero]
  refine BitVec.eq_of_getLsbD_eq fun i hi => ?_
  simp only [BitVec.getLsbD_append, BitVec.getLsbD_extractLsb']
  interval_cases i <;> rfl

theorem load64_store64_below (mem : Word → BitVec 8) (p v : Word) :
    load64 (store64 mem p v) (p + 8) = load64 mem (p + 8) := by
  have hkeep : ∀ k : Word, k < 8 → store64 mem p v (p + 8 + k) = mem (p + 8 + k) := by
    intro k hk
    refine store64_apart mem ?_
    bv_omega
  have hzero : store64 mem p v (p + 8) = mem (p + 8) := store64_apart mem (by bv_omega)
  rw [load64, load64, hkeep 7 (by decide), hkeep 6 (by decide), hkeep 5 (by decide),
    hkeep 4 (by decide), hkeep 3 (by decide), hkeep 2 (by decide), hkeep 1 (by decide), hzero]

/-! ### Instructions -/

/-- One instruction; the operands are registers, segments, addresses and constants. -/
inductive Instr where
  | mov (r : Reg) (v : Word)
  | and (r : Reg) (v : Word)
  | cld
  | lgdt (p : Word)
  | push (v : Word)
  | retfq
  /-- The low 16 bits of a register. -/
  | mov16 (r : Reg) (v : BitVec 16)
  | movSeg (sg : Seg) (r : Reg)
  | sub (r r' : Reg)
  /-- `xor` of the low 8 bits of a register with themselves. -/
  | zero8 (r : Reg)
  | repStosb

namespace State

def setReg (s : State) (r : Reg) (v : Word) : State :=
  { s with regs := fun r' => if r' = r then v else s.regs r' }

def setSeg (s : State) (sg : Seg) (v : BitVec 16) : State :=
  { s with segs := fun sg' => if sg' = sg then v else s.segs sg' }

section Fields

variable (s : State) (r : Reg) (v : Word)

@[simp] theorem setReg_same : (s.setReg r v).regs r = v := if_pos rfl

theorem setReg_other {r' : Reg} (h : r' ≠ r) : (s.setReg r v).regs r' = s.regs r' := if_neg h

end Fields

/-- `stosb`, and the count of the prefix. -/
def stosb (s : State) : State :=
  let at_ := s.regs .rdi
  let s := { s with mem := fun a => if a = at_ then (s.regs .rax).truncate 8 else s.mem a }
  let s := s.setReg .rdi (if s.down then at_ - 1 else at_ + 1)
  s.setReg .rcx (s.regs .rcx - 1)

/-- `rep stosb`, `n` times. -/
def stos : Nat → State → State
  | 0, s => s
  | n + 1, s => stos n s.stosb

end State

/-- The state after an instruction; `next` is the address of the one behind it. -/
def Instr.exec (next : Word) (s : State) : Instr → State
  | .mov r v => { s.setReg r v with rip := next }
  | .and r v => { s.setReg r (s.regs r &&& v) with rip := next }
  | .cld => { s with down := false, rip := next }
  | .lgdt p => { s with gdtr := fun i => s.mem (p + BitVec.ofNat 64 i), rip := next }
  | .push v =>
    let p := s.regs .rsp - 8
    { s.setReg .rsp p with mem := store64 s.mem p v, rip := next }
  | .retfq =>
    let p := s.regs .rsp
    { (s.setReg .rsp (p + 16)).setSeg .cs ((load64 s.mem (p + 8)).truncate 16) with
      rip := load64 s.mem p }
  | .mov16 r v => { s.setReg r ((s.regs r).extractLsb' 16 48 ++ v) with rip := next }
  | .movSeg sg r => { s.setSeg sg ((s.regs r).truncate 16) with rip := next }
  | .sub r r' => { s.setReg r (s.regs r - s.regs r') with rip := next }
  | .zero8 r => { s.setReg r ((s.regs r).extractLsb' 8 56 ++ (0 : BitVec 8)) with rip := next }
  | .repStosb => { s.stos (s.regs .rcx).toNat with rip := next }

/-- A straight run through a program: `addr k` is the address of its instruction `k`.  There is
no result where control does not come to the next instruction. -/
def run (addr : Nat → Word) : List Instr → Nat → State → Option State
  | [], k, s => if s.rip = addr k then some s else none
  | i :: is, k, s => if s.rip = addr k then run addr is (k + 1) (i.exec (addr (k + 1)) s) else none

def execs (addr : Nat → Word) : List Instr → Nat → State → State
  | [], _, s => s
  | i :: is, k, s => execs addr is (k + 1) (i.exec (addr (k + 1)) s)

theorem run_nil {addr : Nat → Word} {k : Nat} {s : State} (h : s.rip = addr k) :
    run addr [] k s = some s := if_pos h

theorem run_cons {addr : Nat → Word} {i : Instr} {is : List Instr} {k : Nat} {s : State}
    (h : s.rip = addr k) : run addr (i :: is) k s = run addr is (k + 1) (i.exec (addr (k + 1)) s) :=
  if_pos h

theorem exec_rip {i : Instr} (hi : i ≠ .retfq) (next : Word) (s : State) :
    (i.exec next s).rip = next := by
  cases i with
  | retfq => exact absurd rfl hi
  | _ => rfl

/-- **Straight code** comes to its end. -/
theorem run_straight {addr : Nat → Word} {is : List Instr} (his : ∀ i ∈ is, i ≠ .retfq)
    (rest : List Instr) {k : Nat} {s : State} (h : s.rip = addr k) :
    run addr (is ++ rest) k s = run addr rest (k + is.length) (execs addr is k s) ∧
      (execs addr is k s).rip = addr (k + is.length) := by
  induction is generalizing k s with
  | nil => exact ⟨rfl, h⟩
  | cons i is ih =>
    have hnext := exec_rip (his i List.mem_cons_self) (addr (k + 1)) s
    have hlen : k + (i :: is).length = k + 1 + is.length := by
      rw [List.length_cons, Nat.add_right_comm, Nat.add_assoc]
    rw [List.cons_append, run_cons h, execs, hlen]
    exact ih (fun j hj => his j (List.mem_cons_of_mem i hj)) hnext

/-! ### The string store -/

theorem stos_regs (n : Nat) (s : State) {r : Reg} (hrdi : r ≠ .rdi) (hrcx : r ≠ .rcx) :
    (s.stos n).regs r = s.regs r := by
  induction n generalizing s with
  | zero => rfl
  | succ n ih =>
    rw [State.stos, ih, State.stosb]
    dsimp only
    rw [State.setReg_other _ _ _ hrcx, State.setReg_other _ _ _ hrdi]

theorem stos_kept (n : Nat) (s : State) :
    (s.stos n).segs = s.segs ∧ (s.stos n).down = s.down ∧ (s.stos n).gdtr = s.gdtr := by
  induction n generalizing s with
  | zero => exact ⟨rfl, rfl, rfl⟩
  | succ n ih => exact ih s.stosb

/-- **The string store**, upwards: the bytes from `rdi` on, the two registers, and nothing else. -/
theorem stos_spec (n : Nat) (s : State) (hn : n ≤ 2 ^ 64) (hdown : s.down = false) :
    (s.stos n).regs .rdi = s.regs .rdi + BitVec.ofNat 64 n ∧
    (∀ a, (s.stos n).mem a =
      if (a - s.regs .rdi).toNat < n then (s.regs .rax).truncate 8 else s.mem a) := by
  induction n generalizing s with
  | zero => exact ⟨(BitVec.add_zero _).symm, fun a => rfl⟩
  | succ n ih =>
    have hrdi : s.stosb.regs .rdi = s.regs .rdi + 1 := by
      rw [State.stosb]
      dsimp only
      rw [State.setReg_other _ _ _ (by decide), State.setReg_same, hdown]
      rfl
    have hrax : s.stosb.regs .rax = s.regs .rax := rfl
    obtain ⟨hend, hmem⟩ := ih s.stosb (by omega) hdown
    rw [State.stos]
    refine ⟨?_, fun a => ?_⟩
    · rw [hend, hrdi, BitVec.add_assoc, BitVec.add_comm 1]
      exact congrArg _ (BitVec.ofNat_add n 1).symm
    · rw [hmem a, hrdi, hrax]
      have hfirst : s.stosb.mem a = if a = s.regs .rdi then (s.regs .rax).truncate 8 else s.mem a := rfl
      rw [hfirst]
      by_cases ha : a = s.regs .rdi
      · subst ha
        rw [if_pos rfl, BitVec.sub_self, ite_self]
        exact (if_pos (Nat.succ_pos n)).symm
      · have hstep : (a - (s.regs .rdi + 1)).toNat < n ↔ (a - s.regs .rdi).toNat < n + 1 := by
          bv_omega
        rw [if_neg ha]
        exact if_congr hstep rfl rfl

end Cpu
