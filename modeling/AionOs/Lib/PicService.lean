import AionOs.Lib.ByteSet
import AionOs.Lib.Pic8259
import Mathlib.Data.List.Nodup

/-!
# Requests and service in two cascaded 8259A chips

A line that is raised waits in the request register of its chip until the processor
acknowledges it; from then on it is in service until the software ends it.  While a line is
in service, its chip holds back the lines of the same and of lower priority.  The second
chip's output is line 2 of the first one.

The order of priority is the fixed one: its rotations are not kept.

* `endOf_inService`: an end of interrupt for the only line in service.
* `pending_eq_find?`: with nothing in service, the line that is acknowledged is the first in the
  order of priority among those that ask.
* `waiting_acknowledge`: the others go on waiting.
-/

/-- The request and the in-service register of a chip. -/
structure PicService where
  irr : BitVec 8
  isr : BitVec 8

namespace PicService

def raise (p : PicService) (i : Nat) : PicService := { p with irr := p.irr ||| 1#8 <<< i }

/-- Line `i` waits, is open, and no line of its priority or a higher one is in service. -/
def asks (p : PicService) (mask : BitVec 8) (i : Nat) : Bool :=
  p.irr.getLsbD i && !mask.getLsbD i && (List.range (i + 1)).all fun j => !p.isr.getLsbD j

def request (p : PicService) (mask : BitVec 8) : Option Nat := (List.range 8).find? (p.asks mask)

/-- With automatic end of interrupt the line is not kept in service. -/
def acknowledge (p : PicService) (auto : Bool) (i : Nat) : PicService where
  irr := p.irr &&& ~~~(1#8 <<< i)
  isr := if auto then p.isr else p.isr ||| 1#8 <<< i

/-- ICW1 clears both registers; an unspecific end of interrupt is for the line of the highest
priority in service. -/
def writeCommand (p : PicService) (v : BitVec 8) : PicService :=
  if v.getLsbD 4 then ⟨0, 0⟩
  else if v.getLsbD 3 then p
  else if v &&& 0xE0 = 0x20 then { p with isr := p.isr &&& (p.isr - 1) }
  else if v &&& 0xE0 = 0x60 then { p with isr := p.isr &&& ~~~(1#8 <<< (v &&& 0x07).toNat) }
  else p

/-- **An end of interrupt for the only line in service** leaves none. -/
theorem endOf_inService {p : PicService} {i : Nat} (hi : i < 8) (h : p.isr = 1#8 <<< i) :
    p.writeCommand 0x20 = ⟨p.irr, 0⟩ := by
  have hclear : ∀ i < 8, (1#8 <<< i) &&& (1#8 <<< i - 1#8) = 0#8 := by decide
  have hwrite : p.writeCommand 0x20 = { p with isr := p.isr &&& (p.isr - 1) } := rfl
  rw [hwrite, h]
  exact congrArg (PicService.mk p.irr) (hclear i hi)

theorem asks_of_idle {p : PicService} (h : p.isr = 0) (mask : BitVec 8) (i : Nat) :
    p.asks mask i = (p.irr.getLsbD i && !mask.getLsbD i) := by
  have hidle : (List.range (i + 1)).all (fun j => !p.isr.getLsbD j) = true := by
    rw [List.all_eq_true]
    intro j _
    rw [h]
    simp
  rw [asks, hidle, Bool.and_true]

end PicService

/-! ### Two chips -/

structure PicServices where
  first : PicService
  second : PicService

namespace PicServices

/-- The line of the first chip that the second one is wired to. -/
def cascadeLine : Nat := 2

def requested (s : PicServices) (i : Nat) : Bool :=
  if i < 8 then s.first.irr.getLsbD i else s.second.irr.getLsbD (i - 8)

def raise (s : PicServices) (i : Nat) : PicServices :=
  if i < 8 then { s with first := s.first.raise i } else { s with second := s.second.raise (i - 8) }

/-- The first chip with the output of the second one on its line. -/
def wired (b : Pic) (s : PicServices) : PicService :=
  { s.first with irr :=
      if (s.second.request b.mask).isSome then s.first.irr ||| 1#8 <<< cascadeLine
      else s.first.irr &&& ~~~(1#8 <<< cascadeLine) }

/-- The line that an acknowledgement is for: where the first chip knows of another one behind its
line, that chip tells. -/
def pending (a b : Pic) (s : PicServices) : Option Nat :=
  match (wired b s).request a.mask with
  | none => none
  | some i => if a.cascade.getLsbD i then (s.second.request b.mask).map (8 + ·) else some i

def autoEnd (p : Pic) : Bool := p.mode.getLsbD 1

/-- Line `i` is acknowledged; for the second chip, the first one serves its cascade line. -/
def acknowledge (a b : Pic) (s : PicServices) (i : Nat) : PicServices :=
  if i < 8 then { s with first := s.first.acknowledge (autoEnd a) i }
  else ⟨s.first.acknowledge (autoEnd a) cascadeLine, s.second.acknowledge (autoEnd b) (i - 8)⟩

def vector (a b : Pic) (i : Nat) : BitVec 8 := if i < 8 then a.vector i else b.vector (i - 8)

/-- The mask bit of line `i` of 16; a line of the second chip needs the cascade line. -/
def opened (a b : Pic) (i : Nat) : Bool :=
  if i < 8 then !a.mask.getLsbD i else !a.mask.getLsbD cascadeLine && !b.mask.getLsbD (i - 8)

def waits (a b : Pic) (s : PicServices) (i : Nat) : Bool := s.requested i && opened a b i

/-- The lines that devices are on, the first in priority first. -/
def priority : List Nat := [0, 1, 8, 9, 10, 11, 12, 13, 14, 15, 3, 4, 5, 6, 7]

def waiting (a b : Pic) (s : PicServices) : List Nat := priority.filter (waits a b s)

def Idle (s : PicServices) : Prop := s.first.isr = 0 ∧ s.second.isr = 0

section Registers

variable {a b : Pic} {s : PicServices}

theorem requested_raise {i j : Nat} (hi : i < 16) (hj : j < 16) :
    (s.raise i).requested j = (s.requested j || decide (j = i)) := by
  unfold raise requested PicService.raise
  by_cases hi8 : i < 8
  · have hbit := ByteSet.getLsbD_one_shift hi8 j
    by_cases hj8 : j < 8
    · simp only [if_pos hi8, if_pos hj8, BitVec.getLsbD_or, hbit]
    · have hne : ¬ j = i := by omega
      simp only [if_pos hi8, if_neg hj8, hne, decide_false, Bool.or_false]
  · have hbit := ByteSet.getLsbD_one_shift (show i - 8 < 8 by omega) (j - 8)
    by_cases hj8 : j < 8
    · have hne : ¬ j = i := by omega
      simp only [if_neg hi8, if_pos hj8, hne, decide_false, Bool.or_false]
    · have hsame : j - 8 = i - 8 ↔ j = i := by omega
      simp only [if_neg hi8, if_neg hj8, BitVec.getLsbD_or, hbit, hsame]

theorem getLsbD_acknowledge (p : PicService) (auto : Bool) {i j : Nat} (hi : i < 8) (hj : j < 8) :
    (p.acknowledge auto i).irr.getLsbD j = (p.irr.getLsbD j && !decide (j = i)) := by
  rw [PicService.acknowledge, BitVec.getLsbD_and, BitVec.getLsbD_not, ByteSet.getLsbD_one_shift hi,
    decide_eq_true hj, Bool.true_and]

theorem requested_acknowledge {i j : Nat} (hi : i < 16) (hj : j < 16) (hcascade : j ≠ cascadeLine) :
    (acknowledge a b s i).requested j = (s.requested j && !decide (j = i)) := by
  unfold acknowledge requested
  by_cases hi8 : i < 8
  · by_cases hj8 : j < 8
    · simp only [if_pos hi8, if_pos hj8, getLsbD_acknowledge _ _ hi8 hj8]
    · have hne : ¬ j = i := by omega
      simp only [if_pos hi8, if_neg hj8, hne, decide_false, Bool.not_false, Bool.and_true]
  · by_cases hj8 : j < 8
    · have hne : ¬ j = i := by omega
      simp only [if_neg hi8, if_pos hj8, getLsbD_acknowledge _ _ (show cascadeLine < 8 by decide) hj8,
        hcascade, hne, decide_false, Bool.not_false, Bool.and_true]
    · have hsame : j - 8 = i - 8 ↔ j = i := by omega
      simp only [if_neg hi8, if_neg hj8, getLsbD_acknowledge _ _ (show i - 8 < 8 by omega)
        (show j - 8 < 8 by omega), hsame]

theorem isr_acknowledge (hidle : s.Idle) (ha : autoEnd a = false) (hb : autoEnd b = false) (i : Nat) :
    (acknowledge a b s i).first.isr = 1#8 <<< (if i < 8 then i else cascadeLine) ∧
      (acknowledge a b s i).second.isr = if i < 8 then 0 else 1#8 <<< (i - 8) := by
  obtain ⟨hfirst, hsecond⟩ := hidle
  unfold acknowledge PicService.acknowledge
  by_cases hi8 : i < 8
  · simp only [if_pos hi8, ha, hfirst, hsecond, Bool.false_eq_true, if_false]
    exact ⟨BitVec.zero_or, trivial⟩
  · simp only [if_neg hi8, ha, hb, hfirst, hsecond, Bool.false_eq_true, if_false]
    exact ⟨BitVec.zero_or, BitVec.zero_or⟩

end Registers

/-! ### Which line is next -/

section Next

variable {a b : Pic} {s : PicServices}

theorem find?_congr {p q : Nat → Bool} {l : List Nat} (h : ∀ i ∈ l, p i = q i) : l.find? p = l.find? q := by
  rw [← List.head?_filter, ← List.head?_filter, List.filter_congr h]

/-- The lines of the second chip, in the order of priority of both. -/
theorem find?_second (hmask : a.mask.getLsbD cascadeLine = false) (hidle : s.second.isr = 0) :
    (((List.range 8).map (8 + ·)).find? (waits a b s)) = (s.second.request b.mask).map (8 + ·) := by
  rw [List.find?_map, PicService.request]
  refine congrArg _ (find?_congr fun i _ => ?_)
  have hhigh : ¬ 8 + i < 8 := by omega
  rw [Function.comp_apply, waits, requested, opened, if_neg hhigh, if_neg hhigh, hmask,
    PicService.asks_of_idle hidle, Nat.add_sub_cancel_left, Bool.not_false, Bool.true_and]

/-- What the first chip asks for, on its cascade line and on another one. -/
theorem asks_wired (hidle : s.first.isr = 0) {i : Nat} (hi : i < 8) :
    (wired b s).asks a.mask i = if i = cascadeLine then
      (s.second.request b.mask).isSome && !a.mask.getLsbD cascadeLine else waits a b s i := by
  have hbit := ByteSet.getLsbD_one_shift (show cascadeLine < 8 by decide) i
  have hasks : (wired b s).asks a.mask i = ((wired b s).irr.getLsbD i && !a.mask.getLsbD i) :=
    PicService.asks_of_idle (p := wired b s) hidle a.mask i
  have hirr : (wired b s).irr = if (s.second.request b.mask).isSome then s.first.irr ||| 1#8 <<< cascadeLine
    else s.first.irr &&& ~~~(1#8 <<< cascadeLine) := rfl
  rw [hasks, hirr]
  by_cases hcascade : i = cascadeLine
  · subst hcascade
    rw [if_pos rfl]
    cases (s.second.request b.mask).isSome with
    | true => rw [if_pos rfl, BitVec.getLsbD_or, hbit, decide_eq_true rfl, Bool.or_true]
    | false =>
      rw [if_neg Bool.false_ne_true, BitVec.getLsbD_and, BitVec.getLsbD_not, hbit, decide_eq_true rfl,
        Bool.not_true, Bool.and_false, Bool.and_false]
  · rw [decide_eq_false hcascade] at hbit
    rw [if_neg hcascade, waits, requested, opened, if_pos hi, if_pos hi]
    cases (s.second.request b.mask).isSome with
    | true => rw [if_pos rfl, BitVec.getLsbD_or, hbit, Bool.or_false]
    | false =>
      rw [if_neg Bool.false_ne_true, BitVec.getLsbD_and, BitVec.getLsbD_not, hbit, decide_eq_true hi,
        Bool.not_false, Bool.and_true, Bool.and_true]

/-- **The line that is acknowledged** with nothing in service is the first that waits and is open. -/
theorem pending_eq_find? (hidle : s.Idle) (hcascade : a.cascade = 1#8 <<< cascadeLine) :
    pending a b s = (waiting a b s).head? := by
  obtain ⟨hfirst, hsecond⟩ := hidle
  have hcode : ∀ i, a.cascade.getLsbD i = decide (i = cascadeLine) := fun i => by
    rw [hcascade, ByteSet.getLsbD_one_shift (by decide)]
  have hsame : ∀ l : List Nat, (∀ i ∈ l, i < 8 ∧ i ≠ cascadeLine) →
      l.find? ((wired b s).asks a.mask) = l.find? (waits a b s) := fun l hl =>
    find?_congr fun i hi => by rw [asks_wired hfirst (hl i hi).1, if_neg (hl i hi).2]
  have hbefore := hsame [0, 1] (by decide)
  have hafter := hsame [3, 4, 5, 6, 7] (by decide)
  have hplain : ∀ {l : List Nat} {p : Nat → Bool} {i : Nat}, cascadeLine ∉ l → l.find? p = some i →
      a.cascade.getLsbD i = false := fun hl hfind => by
    rw [hcode, decide_eq_false]
    rintro rfl
    exact hl (List.mem_of_find?_eq_some hfind)
  -- both orders of priority are cut at the cascade line
  have hrange : List.range 8 = [0, 1] ++ ([cascadeLine] ++ [3, 4, 5, 6, 7]) := rfl
  have horder : priority = [0, 1] ++ ((List.range 8).map (8 + ·) ++ [3, 4, 5, 6, 7]) := rfl
  have hrequest : (wired b s).request a.mask = ([0, 1].find? (waits a b s)).or
      (([cascadeLine].find? ((wired b s).asks a.mask)).or ([3, 4, 5, 6, 7].find? (waits a b s))) := by
    rw [PicService.request, hrange, List.find?_append, List.find?_append, hbefore, hafter]
  have hcascades : [cascadeLine].find? ((wired b s).asks a.mask) =
      if (s.second.request b.mask).isSome && !a.mask.getLsbD cascadeLine then some cascadeLine else none := by
    rw [List.find?_singleton, asks_wired hfirst (by decide), if_pos rfl]
  rw [waiting, List.head?_filter, horder, List.find?_append, List.find?_append, pending, hrequest, hcascades]
  cases hfind : [0, 1].find? (waits a b s) with
  | some i => simp only [Option.some_or, hplain (by decide) hfind, Bool.false_eq_true, if_false]
  | none =>
    have hlast : ∀ o, [3, 4, 5, 6, 7].find? (waits a b s) = o → (match o with
        | none => none
        | some i => if a.cascade.getLsbD i then (s.second.request b.mask).map (8 + ·) else some i) = o := by
      rintro (_ | i) ho
      · rfl
      · simp only [hplain (by decide) ho, Bool.false_eq_true, if_false]
    cases hmask : a.mask.getLsbD cascadeLine with
    | true =>
      have hclosed : ((List.range 8).map (8 + ·)).find? (waits a b s) = none := by
        rw [List.find?_eq_none]
        intro i hi
        obtain ⟨k, _, rfl⟩ := List.mem_map.mp hi
        have hhigh : ¬ 8 + k < 8 := by omega
        simp only [waits, opened, if_neg hhigh, hmask, Bool.not_true, Bool.false_and, Bool.and_false,
          Bool.false_eq_true, not_false_iff]
      simp only [hclosed, Bool.not_true, Bool.and_false, Bool.false_eq_true, if_false, Option.none_or]
      exact hlast _ rfl
    | false =>
      rw [find?_second hmask hsecond]
      cases hreq : s.second.request b.mask with
      | some j =>
        simp only [Option.isSome_some, Bool.not_false, Bool.and_self, if_true, Option.none_or, Option.some_or,
          hcode, decide_true, Option.map_some]
      | none =>
        rw [hreq] at hlast
        simp only [Option.isSome_none, Bool.false_and, Bool.false_eq_true, if_false, Option.none_or,
          Option.map_none]
        exact hlast _ rfl

theorem nodup_priority : priority.Nodup := by decide

/-- **After an acknowledgement** the other lines go on waiting in the same order. -/
theorem waiting_acknowledge {i : Nat} {rest : List Nat} (h : waiting a b s = i :: rest) :
    waiting a b (acknowledge a b s i) = rest := by
  have hmem : ∀ j ∈ priority, j < 16 ∧ j ≠ cascadeLine := by decide
  have hi : i ∈ priority := List.mem_of_mem_filter (h ▸ List.mem_cons_self)
  have hwaits : ∀ j ∈ priority, waits a b (acknowledge a b s i) j = (!decide (j = i) && waits a b s j) := by
    intro j hj
    rw [waits, requested_acknowledge (hmem i hi).1 (hmem j hj).1 (hmem j hj).2, waits, Bool.and_right_comm,
      Bool.and_comm]
  have hnodup : (i :: rest).Nodup := h ▸ nodup_priority.filter _
  have hkeep : rest.filter (fun j => !decide (j = i)) = rest := List.filter_eq_self.mpr fun j hj => by
    have hne : j ≠ i := fun he => (List.nodup_cons.mp hnodup).1 (he ▸ hj)
    simp [hne]
  calc waiting a b (acknowledge a b s i)
      = (waiting a b s).filter (fun j => !decide (j = i)) := by
        rw [waiting, waiting, List.filter_filter, List.filter_congr hwaits]
    _ = rest := by rw [h, List.filter_cons_of_neg (by simp), hkeep]

end Next

end PicServices
