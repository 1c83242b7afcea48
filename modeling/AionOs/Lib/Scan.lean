import Mathlib.Data.Nat.Basic

/-!
# Linear scans

Two loops over the natural numbers `i, i + 1, …, i + k - 1`.

* `firstFrom p k i` stops at the first number that satisfies `p`.
* `runFrom p n k i start len` stops at the end of the first run of `n` numbers in
  a row that satisfy `p`; it carries the start and the length of the run it is in.

`firstFrom_eq_some`, `firstFrom_eq_none`, `runFrom_eq_some` and `runFrom_eq_none`
say exactly what each returns: the least number, the least start of a run.
`firstSeen_lt_iff` and `runSeen_lt_iff` say when all that is looked at stays below a bound.
-/

namespace Scan

/-- The first of the `k` numbers from `i` on that satisfies `p`. -/
def firstFrom (p : Nat → Bool) : Nat → Nat → Option Nat
  | 0, _ => none
  | k + 1, i => if p i then some i else firstFrom p k (i + 1)

theorem firstFrom_eq_none {p : Nat → Bool} : ∀ (k i : Nat),
    firstFrom p k i = none ↔ ∀ m, i ≤ m → m < i + k → p m = false := by
  intro k
  induction k with
  | zero => intro i; simp only [firstFrom, true_iff]; omega
  | succ k ih =>
    intro i
    rw [firstFrom]
    by_cases hp : p i
    · rw [if_pos hp]
      simp only [reduceCtorEq, false_iff, not_forall]
      exact ⟨i, le_refl i, by omega, by simp [hp]⟩
    · rw [if_neg hp, ih]
      constructor
      · intro h m hm hlt
        rcases Nat.eq_or_lt_of_le hm with rfl | hlt'
        · simpa using hp
        · exact h m hlt' (by omega)
      · intro h m hm hlt
        exact h m (by omega) (by omega)

theorem firstFrom_eq_some {p : Nat → Bool} : ∀ (k i j : Nat),
    firstFrom p k i = some j ↔
      i ≤ j ∧ j < i + k ∧ p j = true ∧ ∀ m, i ≤ m → m < j → p m = false := by
  intro k
  induction k with
  | zero => intro i j; simp only [firstFrom, reduceCtorEq, false_iff]; omega
  | succ k ih =>
    intro i j
    rw [firstFrom]
    by_cases hp : p i
    · rw [if_pos hp, Option.some.injEq]
      constructor
      · rintro rfl
        exact ⟨le_refl i, by omega, hp, fun m h1 h2 => by omega⟩
      · rintro ⟨h1, _, _, h4⟩
        by_contra hne
        have := h4 i (le_refl i) (by omega)
        simp [hp] at this
    · rw [if_neg hp, ih]
      constructor
      · rintro ⟨h1, h2, h3, h4⟩
        refine ⟨by omega, by omega, h3, fun m hm hlt => ?_⟩
        rcases Nat.eq_or_lt_of_le hm with rfl | hlt'
        · simpa using hp
        · exact h4 m hlt' hlt
      · rintro ⟨h1, h2, h3, h4⟩
        have hij : i ≠ j := fun he => hp (he ▸ h3)
        exact ⟨by omega, by omega, h3, fun m hm hlt => h4 m (by omega) hlt⟩

/-! ### Runs -/

/-- The first run of `n` numbers in a row that satisfy `p`, among the `k` numbers
from `i` on; the run that ends just before `i` starts at `start` and has length `len`. -/
def runFrom (p : Nat → Bool) (n : Nat) : Nat → Nat → Nat → Nat → Option Nat
  | 0, _, _, _ => none
  | k + 1, i, start, len =>
    if p i then
      let start' := if len = 0 then i else start
      if len + 1 = n then some start' else runFrom p n k (i + 1) start' (len + 1)
    else runFrom p n k (i + 1) start 0

def Run (p : Nat → Bool) (n s : Nat) : Prop := ∀ m, s ≤ m → m < s + n → p m = true

/-- What `runFrom` knows when it looks at `i`, having started at `lo`: the `len`
numbers before `i` are the run it is in, and no run of `n` starts before that run. -/
structure ScanInv (p : Nat → Bool) (n lo i start len : Nat) : Prop where
  start_eq : len ≠ 0 → start + len = i
  lo_le : lo + len ≤ i
  short : len < n
  here : ∀ m, i ≤ m + len → m < i → p m = true
  before : ∀ s, lo ≤ s → s + len < i → ¬ Run p n s

theorem ScanInv.start (p : Nat → Bool) {n : Nat} (hn : 0 < n) (lo start : Nat) :
    ScanInv p n lo lo start 0 :=
  ⟨fun h => absurd rfl h, le_refl lo, hn, fun m h1 h2 => by omega, fun s h1 h2 => by omega⟩

theorem ScanInv.hit {p : Nat → Bool} {n lo i start len : Nat} (h : ScanInv p n lo i start len)
    (hp : p i = true) (hlen : len + 1 ≠ n) :
    ScanInv p n lo (i + 1) (if len = 0 then i else start) (len + 1) := by
  refine ⟨fun _ => ?_, by have := h.lo_le; omega, by have := h.short; omega, ?_, ?_⟩
  · split
    · omega
    · next h0 => have := h.start_eq h0; omega
  · intro m h1 h2
    by_cases hm : m = i
    · rw [hm]; exact hp
    · exact h.here m (by omega) (by omega)
  · intro s h1 h2
    exact h.before s h1 (by omega)

theorem ScanInv.miss {p : Nat → Bool} {n lo i start len : Nat} (h : ScanInv p n lo i start len)
    (hp : p i = false) : ScanInv p n lo (i + 1) start 0 := by
  have hshort := h.short
  refine ⟨fun h0 => absurd rfl h0, by have := h.lo_le; omega, by omega,
    fun m h1 h2 => by omega, fun s h1 h2 hr => ?_⟩
  by_cases hs : s + len < i
  · exact h.before s h1 hs hr
  · have := hr i (by omega) (by omega)
    rw [hp] at this
    exact absurd this (by simp)

/-- From a state that satisfies its invariant the scan returns the least start of
a run, if there is one that ends in time. -/
theorem runFrom_of_inv {p : Nat → Bool} {n lo : Nat} : ∀ (k i start len : Nat),
    ScanInv p n lo i start len →
    (∀ s, runFrom p n k i start len = some s →
      lo ≤ s ∧ s + n ≤ i + k ∧ Run p n s ∧ ∀ s', lo ≤ s' → s' < s → ¬ Run p n s') ∧
    (runFrom p n k i start len = none → ∀ s, lo ≤ s → s + n ≤ i + k → ¬ Run p n s) := by
  intro k
  induction k with
  | zero =>
    intro i start len h
    refine ⟨fun s hs => by simp [runFrom] at hs, fun _ s h1 h2 => h.before s h1 ?_⟩
    have := h.short
    omega
  | succ k ih =>
    intro i start len h
    rw [runFrom]
    by_cases hp : p i = true
    · by_cases hlen : len + 1 = n
      · rw [if_pos hp]
        simp only [if_pos hlen]
        refine ⟨fun s hs => ?_, fun hs => by simp at hs⟩
        have hstart : s + len = i := by
          rw [← Option.some.inj hs]
          split
          · omega
          · next h0 => exact h.start_eq h0
        have hlo := h.lo_le
        refine ⟨by omega, by omega, fun m h1 h2 => ?_, fun s' h1 h2 => h.before s' h1 (by omega)⟩
        by_cases hm : m = i
        · rw [hm]; exact hp
        · exact h.here m (by omega) (by omega)
      · rw [if_pos hp]
        simp only [if_neg hlen]
        have hnext := ih (i + 1) _ (len + 1) (h.hit hp hlen)
        rw [Nat.add_right_comm i 1 k] at hnext
        exact hnext
    · rw [if_neg hp]
      have hnext := ih (i + 1) start 0 (h.miss (by simpa using hp))
      rw [Nat.add_right_comm i 1 k] at hnext
      exact hnext

theorem runFrom_eq_some {p : Nat → Bool} {n k lo s : Nat} (hn : 0 < n) (start : Nat)
    (h : runFrom p n k lo start 0 = some s) :
    lo ≤ s ∧ s + n ≤ lo + k ∧ Run p n s ∧ ∀ s', lo ≤ s' → s' < s → ¬ Run p n s' :=
  (runFrom_of_inv k lo start 0 (ScanInv.start p hn lo start)).1 s h

theorem runFrom_eq_none {p : Nat → Bool} {n k lo : Nat} (hn : 0 < n) (start : Nat)
    (h : runFrom p n k lo start 0 = none) : ∀ s, lo ≤ s → s + n ≤ lo + k → ¬ Run p n s :=
  (runFrom_of_inv k lo start 0 (ScanInv.start p hn lo start)).2 h

/-- A run of no numbers is never found: the length is compared only after it grew. -/
theorem runFrom_zero {p : Nat → Bool} : ∀ (k i start len : Nat),
    runFrom p 0 k i start len = none := by
  intro k
  induction k with
  | zero => intro i start len; rfl
  | succ k ih =>
    intro i start len
    rw [runFrom]
    split
    · simp only [Nat.add_eq_zero_iff, Nat.one_ne_zero, and_false, if_false]
      exact ih _ _ _
    · exact ih _ _ _

theorem runFrom_one {p : Nat → Bool} : ∀ (k i start : Nat),
    runFrom p 1 k i start 0 = firstFrom p k i := by
  intro k
  induction k with
  | zero => intro i start; rfl
  | succ k ih =>
    intro i start
    rw [runFrom, firstFrom]
    by_cases hp : p i
    · rw [if_pos hp, if_pos hp]
      rfl
    · rw [if_neg hp, if_neg hp, ih]

/-! ### What a scan looks at -/

def firstSeen (p : Nat → Bool) : Nat → Nat → List Nat
  | 0, _ => []
  | k + 1, i => i :: if p i then [] else firstSeen p k (i + 1)

def runSeen (p : Nat → Bool) (n : Nat) : Nat → Nat → Nat → List Nat
  | 0, _, _ => []
  | k + 1, i, len =>
    i :: if p i then if len + 1 = n then [] else runSeen p n k (i + 1) (len + 1)
      else runSeen p n k (i + 1) 0

theorem firstFrom_isSome_lt {p : Nat → Bool} {k i m : Nat} (hp : ∀ j, p j = true → j < m)
    (h : (firstFrom p k i).isSome) : i < m := by
  obtain ⟨j, hj⟩ := Option.isSome_iff_exists.mp h
  obtain ⟨hle, _, hfound, _⟩ := (firstFrom_eq_some k i j).mp hj
  exact Nat.lt_of_le_of_lt hle (hp j hfound)

/-- **A scan stays below a bound** that holds for the numbers that satisfy `p`: if it ends in time,
or finds one of them. -/
theorem firstSeen_lt_iff {p : Nat → Bool} {m : Nat} (hp : ∀ j, p j = true → j < m) : ∀ (k i : Nat),
    i ≤ m → ((∀ j ∈ firstSeen p k i, j < m) ↔ i + k ≤ m ∨ (firstFrom p k i).isSome) := by
  intro k
  induction k with
  | zero => intro i hi; exact iff_of_true (fun j hj => by cases hj) (.inl hi)
  | succ k ih =>
    intro i hi
    rw [firstSeen, List.forall_mem_cons, firstFrom]
    by_cases hpi : p i = true
    · rw [if_pos hpi, if_pos hpi]
      exact iff_of_true ⟨hp i hpi, fun j hj => by cases hj⟩ (.inr rfl)
    · rw [if_neg hpi, if_neg hpi]
      rcases Nat.lt_or_eq_of_le hi with hlt | rfl
      · rw [ih (i + 1) hlt, and_iff_right hlt, Nat.add_right_comm i 1 k, Nat.add_assoc i k 1]
      · refine iff_of_false (fun h => Nat.lt_irrefl _ h.1) ?_
        rintro (h | h)
        · omega
        · have := firstFrom_isSome_lt hp h
          omega

theorem runFrom_isSome_lt {p : Nat → Bool} {n k i start m : Nat} (hn : 0 < n)
    (hp : ∀ j, p j = true → j < m) (h : (runFrom p n k i start 0).isSome) : i < m := by
  obtain ⟨s, hs⟩ := Option.isSome_iff_exists.mp h
  obtain ⟨hle, _, hrun, _⟩ := runFrom_eq_some hn start hs
  exact Nat.lt_of_le_of_lt hle (hp s (hrun s (Nat.le_refl s) (by omega)))

theorem runSeen_lt_iff {p : Nat → Bool} {n m : Nat} (hn : 0 < n) (hp : ∀ j, p j = true → j < m) :
    ∀ (k i start len : Nat), i ≤ m →
      ((∀ j ∈ runSeen p n k i len, j < m) ↔ i + k ≤ m ∨ (runFrom p n k i start len).isSome) := by
  intro k
  induction k with
  | zero => intro i start len hi; exact iff_of_true (fun j hj => by cases hj) (.inl hi)
  | succ k ih =>
    intro i start len hi
    rw [runSeen, List.forall_mem_cons, runFrom]
    by_cases hpi : p i = true
    · rw [if_pos hpi, if_pos hpi]
      have hlt := hp i hpi
      by_cases hlen : len + 1 = n
      · rw [if_pos hlen]
        simp only [if_pos hlen]
        exact iff_of_true ⟨hlt, fun j hj => by cases hj⟩ (.inr rfl)
      · rw [if_neg hlen]
        simp only [if_neg hlen]
        rw [ih (i + 1) _ (len + 1) hlt, and_iff_right hlt, Nat.add_right_comm i 1 k,
          Nat.add_assoc i k 1]
    · rw [if_neg hpi, if_neg hpi]
      rcases Nat.lt_or_eq_of_le hi with hlt | rfl
      · rw [ih (i + 1) start 0 hlt, and_iff_right hlt, Nat.add_right_comm i 1 k, Nat.add_assoc i k 1]
      · refine iff_of_false (fun h => Nat.lt_irrefl _ h.1) ?_
        rintro (h | h)
        · omega
        · have := runFrom_isSome_lt hn hp h
          omega

theorem runSeen_zero_lt_iff {p : Nat → Bool} {m : Nat} : ∀ (k i len : Nat), i ≤ m →
    ((∀ j ∈ runSeen p 0 k i len, j < m) ↔ i + k ≤ m) := by
  intro k
  induction k with
  | zero => intro i len hi; exact iff_of_true (fun j hj => by cases hj) hi
  | succ k ih =>
    intro i len hi
    have hnext : ∀ l, (∀ j ∈ i :: runSeen p 0 k (i + 1) l, j < m) ↔ i + (k + 1) ≤ m := by
      intro l
      rw [List.forall_mem_cons]
      rcases Nat.lt_or_eq_of_le hi with hlt | rfl
      · rw [ih (i + 1) l hlt, and_iff_right hlt, Nat.add_right_comm i 1 k, Nat.add_assoc i k 1]
      · exact iff_of_false (fun h => Nat.lt_irrefl _ h.1) (by omega)
    rw [runSeen, if_neg (Nat.succ_ne_zero len)]
    split
    · exact hnext (len + 1)
    · exact hnext 0

end Scan
