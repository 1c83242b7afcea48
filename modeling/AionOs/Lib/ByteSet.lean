import Mathlib.Data.Finset.Card
import Mathlib.Order.Interval.Finset.Nat

/-!
# Sets of numbers kept as bits of bytes

A `ByteSet n` is an array of `n` bytes; the number `i` is a member when bit `i % 8`
of byte `i / 8` is set.  `setBit`, `clearBit` and `testBit` work on the byte the way
C does, with shifts and masks.  Beyond the array nothing is a member, and setting or
clearing a bit there changes nothing.

* `testBit_setBit`, `testBit_clearBit`: membership after an update.
* `eq_of_testBit`: an array is told by its members.
* `count`: the number of members, with `count_setBit` and `count_clearBit`.
-/

/-- `n` bytes, read as a set of numbers below `8 * n`. -/
abbrev ByteSet (n : Nat) := Fin n → BitVec 8

namespace ByteSet

variable {n : Nat}

/-- The byte at an index, `0` past the end. -/
def byteAt (b : ByteSet n) (k : Nat) : BitVec 8 := if h : k < n then b ⟨k, h⟩ else 0#8

/-- `bytes[i / 8] |= 1 << (i % 8)` -/
def setBit (b : ByteSet n) (i : Nat) : ByteSet n := fun k =>
  if k.val = i / 8 then b k ||| (1#8 <<< (i % 8)) else b k

/-- `bytes[i / 8] &= ~(1 << (i % 8))` -/
def clearBit (b : ByteSet n) (i : Nat) : ByteSet n := fun k =>
  if k.val = i / 8 then b k &&& ~~~(1#8 <<< (i % 8)) else b k

/-- `(bytes[i / 8] >> (i % 8)) & 1` -/
def testBit (b : ByteSet n) (i : Nat) : Bool :=
  ((b.byteAt (i / 8) >>> (i % 8)) &&& 1#8) != 0#8

/-! ### One byte -/

theorem shift_and_one (x : BitVec 8) (k : Nat) :
    (((x >>> k) &&& 1#8) != 0#8) = x.getLsbD k := by
  have hone : ∀ i, (1#8).getLsbD i = decide (i = 0) := by
    intro i
    cases i with
    | zero => rfl
    | succ i => simp [BitVec.getLsbD_one]
  rw [Bool.eq_iff_iff, bne_iff_ne, Ne, BitVec.eq_of_getLsbD_eq_iff]
  simp only [BitVec.getLsbD_and, BitVec.getLsbD_ushiftRight, hone, BitVec.getLsbD_zero,
    Bool.and_eq_false_iff, decide_eq_false_iff_not, not_forall, not_or, Bool.not_eq_false,
    not_not]
  constructor
  · rintro ⟨i, _, hx, rfl⟩
    simpa using hx
  · intro hx
    exact ⟨0, by omega, by simpa using hx, rfl⟩

theorem getLsbD_one_shift {k : Nat} (hk : k < 8) (i : Nat) :
    (1#8 <<< k).getLsbD i = decide (i = k) := by
  rw [BitVec.getLsbD_shiftLeft, BitVec.getLsbD_one, Bool.eq_iff_iff]
  simp only [Bool.and_eq_true, decide_eq_true_eq, Bool.not_eq_eq_eq_not, Bool.not_true,
    decide_eq_false_iff_not]
  omega

theorem testBit_eq (b : ByteSet n) (i : Nat) :
    b.testBit i = (b.byteAt (i / 8)).getLsbD (i % 8) := shift_and_one _ _

/-! ### Membership -/

theorem testBit_lt {b : ByteSet n} {i : Nat} (h : b.testBit i = true) : i < 8 * n := by
  rw [testBit_eq, byteAt] at h
  split at h
  · omega
  · simp at h

@[simp] theorem testBit_empty (i : Nat) : testBit (fun _ => 0#8 : ByteSet n) i = false := by
  rw [testBit_eq, byteAt]
  split <;> simp

/-- **Setting a bit adds exactly that number.** -/
theorem testBit_setBit (b : ByteSet n) {i : Nat} (hi : i < 8 * n) (j : Nat) :
    (b.setBit i).testBit j = (decide (j = i) || b.testBit j) := by
  rw [testBit_eq, testBit_eq, byteAt, byteAt]
  by_cases hj : j / 8 < n
  · rw [dif_pos hj, dif_pos hj, setBit]
    by_cases hk : j / 8 = i / 8
    · rw [if_pos hk, BitVec.getLsbD_or, getLsbD_one_shift (Nat.mod_lt _ (by omega)), Bool.or_comm]
      congr 1
      rw [decide_eq_decide]
      omega
    · rw [if_neg hk]
      have : j ≠ i := fun he => hk (by rw [he])
      simp [this]
  · rw [dif_neg hj, dif_neg hj]
    have : j ≠ i := by omega
    simp [this]

/-- **Clearing a bit removes exactly that number.** -/
theorem testBit_clearBit (b : ByteSet n) (i j : Nat) :
    (b.clearBit i).testBit j = (!decide (j = i) && b.testBit j) := by
  rw [testBit_eq, testBit_eq, byteAt, byteAt]
  by_cases hj : j / 8 < n
  · rw [dif_pos hj, dif_pos hj, clearBit]
    by_cases hk : j / 8 = i / 8
    · have hlt : j % 8 < 8 := Nat.mod_lt _ (by omega)
      rw [if_pos hk, BitVec.getLsbD_and, BitVec.getLsbD_not,
        getLsbD_one_shift (Nat.mod_lt _ (by omega)), Bool.and_comm]
      simp only [hlt, decide_true, Bool.true_and]
      congr 2
      rw [decide_eq_decide]
      omega
    · rw [if_neg hk]
      have : j ≠ i := fun he => hk (by rw [he])
      simp [this]
  · rw [dif_neg hj, dif_neg hj]
    simp

/-- **Two arrays with the same members are the same.** -/
theorem eq_of_testBit {b c : ByteSet n} (h : ∀ i, b.testBit i = c.testBit i) : b = c := by
  funext k
  refine BitVec.eq_of_getLsbD_eq fun j hj => ?_
  have hbit := h (8 * k.val + j)
  have hdiv : (8 * k.val + j) / 8 = k.val := by omega
  have hmod : (8 * k.val + j) % 8 = j := by omega
  rw [testBit_eq, testBit_eq, hdiv, hmod, byteAt, byteAt, dif_pos k.isLt, dif_pos k.isLt] at hbit
  exact hbit

/-! ### Counting -/

def members (b : ByteSet n) : Finset Nat := (Finset.range (8 * n)).filter (fun i => b.testBit i)

def count (b : ByteSet n) : Nat := b.members.card

@[simp] theorem mem_members {b : ByteSet n} {i : Nat} : i ∈ b.members ↔ b.testBit i = true := by
  rw [members, Finset.mem_filter, Finset.mem_range]
  exact ⟨fun h => h.2, fun h => ⟨testBit_lt h, h⟩⟩

theorem count_le (b : ByteSet n) : b.count ≤ 8 * n := by
  have h := Finset.card_filter_le (Finset.range (8 * n)) (fun i => b.testBit i)
  rwa [Finset.card_range] at h

theorem members_setBit (b : ByteSet n) {i : Nat} (hi : i < 8 * n) :
    (b.setBit i).members = insert i b.members := by
  ext j
  rw [mem_members, testBit_setBit b hi, Finset.mem_insert, mem_members, Bool.or_eq_true,
    decide_eq_true_eq]

theorem members_clearBit (b : ByteSet n) (i : Nat) :
    (b.clearBit i).members = b.members.erase i := by
  ext j
  rw [mem_members, testBit_clearBit, Finset.mem_erase, mem_members, Bool.and_eq_true,
    Bool.not_eq_true', decide_eq_false_iff_not]

theorem count_setBit {b : ByteSet n} {i : Nat} (hi : i < 8 * n) (h : b.testBit i = false) :
    (b.setBit i).count = b.count + 1 := by
  rw [count, members_setBit b hi, Finset.card_insert_of_notMem, count]
  rw [mem_members, h]
  simp

theorem count_clearBit {b : ByteSet n} {i : Nat} (h : b.testBit i = true) :
    (b.clearBit i).count + 1 = b.count := by
  rw [count, members_clearBit, count]
  exact Finset.card_erase_add_one (mem_members.mpr h)

theorem count_eq_card {b : ByteSet n} {s : Finset Nat} (h : ∀ i, b.testBit i = true ↔ i ∈ s) :
    b.count = s.card := by
  rw [count]
  congr 1
  ext i
  rw [mem_members, h]

end ByteSet
