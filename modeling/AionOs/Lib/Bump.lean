import Mathlib.Algebra.Order.Ring.Nat
import Mathlib.Order.Interval.Set.Basic
import Mathlib.Data.Set.Lattice
import Mathlib.Order.CompletePartialOrder

/-!
# Blocks cut off one after another

A bump allocator holds a pointer into an interval, rounds it up to an alignment and cuts
the next block off there.

* `toNat_and_not_mask`: rounding down a machine word by a mask.
* `toNat_align`: rounding it up, as long as the sum does not wrap.
* `Cut`: blocks inside an interval, below the pointer and pairwise disjoint.
-/

def roundUp (n a : Nat) : Nat := (n + (a - 1)) / a * a

theorem le_roundUp (n : Nat) {a : Nat} (ha : 0 < a) : n ≤ roundUp n a := by
  have h := Nat.div_add_mod (n + (a - 1)) a
  have hlt := Nat.mod_lt (n + (a - 1)) ha
  rw [Nat.mul_comm] at h
  unfold roundUp
  omega

theorem roundUp_le (n a : Nat) : roundUp n a ≤ n + (a - 1) := Nat.div_mul_le_self _ _

theorem dvd_roundUp (n a : Nat) : a ∣ roundUp n a := Nat.dvd_mul_left _ _

theorem roundUp_eq_self {n a : Nat} (ha : 0 < a) (h : a ∣ n) : roundUp n a = n := by
  obtain ⟨q, rfl⟩ := h
  rw [roundUp, Nat.mul_add_div ha, Nat.div_eq_of_lt (by omega), Nat.add_zero, Nat.mul_comm]

/-! ### Words -/

theorem toNat_and_not_mask {w : Nat} (x : BitVec w) {k : Nat} (hk : k < w) :
    (x &&& ~~~(BitVec.ofNat w (2 ^ k) - 1)).toNat = x.toNat / 2 ^ k * 2 ^ k := by
  have hpow : 2 ^ k < 2 ^ w := Nat.pow_lt_pow_right (by omega) hk
  have hpos : 0 < 2 ^ k := Nat.two_pow_pos k
  have hone : (1 : BitVec w).toNat = 1 := BitVec.toNat_one (by omega)
  have hmask : (BitVec.ofNat w (2 ^ k) - 1 : BitVec w) = BitVec.ofNat w (2 ^ k - 1) := by
    refine BitVec.eq_of_toNat_eq ?_
    rw [BitVec.toNat_sub, BitVec.toNat_ofNat, BitVec.toNat_ofNat, hone, Nat.mod_eq_of_lt hpow,
      Nat.mod_eq_of_lt (by omega : 2 ^ k - 1 < 2 ^ w),
      show 2 ^ w - 1 + 2 ^ k = 2 ^ w + (2 ^ k - 1) by omega, Nat.add_mod_left,
      Nat.mod_eq_of_lt (by omega)]
  have hshift : x &&& ~~~(BitVec.ofNat w (2 ^ k - 1)) = (x >>> k) <<< k := by
    refine BitVec.eq_of_getLsbD_eq fun i hi => ?_
    simp only [BitVec.getLsbD_and, BitVec.getLsbD_not, BitVec.getLsbD_ofNat,
      Nat.testBit_two_pow_sub_one, BitVec.getLsbD_shiftLeft, BitVec.getLsbD_ushiftRight]
    by_cases h : i < k
    · simp [h]
    · simp [h, hi, show k + (i - k) = i by omega]
  have hle : x.toNat / 2 ^ k * 2 ^ k < 2 ^ w := Nat.lt_of_le_of_lt (Nat.div_mul_le_self _ _) x.isLt
  rw [hmask, hshift, BitVec.toNat_shiftLeft, BitVec.toNat_ushiftRight, Nat.shiftRight_eq_div_pow,
    Nat.shiftLeft_eq, Nat.mod_eq_of_lt hle]

theorem toNat_align {w : Nat} (x : BitVec w) {k : Nat} (hk : k < w)
    (h : roundUp x.toNat (2 ^ k) < 2 ^ w) :
    ((x + BitVec.ofNat w (2 ^ k) - 1) &&& ~~~(BitVec.ofNat w (2 ^ k) - 1)).toNat =
      roundUp x.toNat (2 ^ k) := by
  have hpow : 2 ^ k < 2 ^ w := Nat.pow_lt_pow_right (by omega) hk
  have hpos : 0 < 2 ^ k := Nat.two_pow_pos k
  have hone : (1 : BitVec w).toNat = 1 := BitVec.toNat_one (by omega)
  have hw : 2 ^ w = 2 ^ (w - k) * 2 ^ k := by rw [← Nat.pow_add, Nat.sub_add_cancel (by omega)]
  have hsum : x.toNat + (2 ^ k - 1) < 2 ^ w := by
    have hdiv : (x.toNat + (2 ^ k - 1)) / 2 ^ k < 2 ^ (w - k) := by
      rw [roundUp, hw] at h
      exact Nat.lt_of_mul_lt_mul_right h
    rw [hw]
    exact (Nat.div_lt_iff_lt_mul hpos).mp hdiv
  have hadd : (x + BitVec.ofNat w (2 ^ k) - 1 : BitVec w).toNat = x.toNat + (2 ^ k - 1) := by
    have hx := x.isLt
    rw [BitVec.toNat_sub, BitVec.toNat_add, BitVec.toNat_ofNat, hone, Nat.mod_eq_of_lt hpow]
    by_cases hc : x.toNat + 2 ^ k < 2 ^ w
    · rw [Nat.mod_eq_of_lt hc,
        show 2 ^ w - 1 + (x.toNat + 2 ^ k) = 2 ^ w + (x.toNat + (2 ^ k - 1)) by omega,
        Nat.add_mod_left, Nat.mod_eq_of_lt hsum]
    · rw [show x.toNat + 2 ^ k = 2 ^ w by omega, Nat.mod_self, Nat.add_zero, Nat.mod_eq_of_lt (by omega)]
      omega
  rw [toNat_and_not_mask _ hk, hadd, roundUp]

/-- Rounding up any word: the sum may wrap, and then the result is zero. -/
theorem toNat_align_mod {w : Nat} (x : BitVec w) {k : Nat} (hk : k < w) :
    ((x + BitVec.ofNat w (2 ^ k) - 1) &&& ~~~(BitVec.ofNat w (2 ^ k) - 1)).toNat =
      roundUp x.toNat (2 ^ k) % 2 ^ w := by
  rcases Nat.lt_or_ge (roundUp x.toNat (2 ^ k)) (2 ^ w) with hlt | hge
  · rw [toNat_align x hk hlt, Nat.mod_eq_of_lt hlt]
  · have hpow : 2 ^ k < 2 ^ w := Nat.pow_lt_pow_right (by omega) hk
    have hpos : 0 < 2 ^ k := Nat.two_pow_pos k
    have hone : (1 : BitVec w).toNat = 1 := BitVec.toNat_one (by omega)
    have hx := x.isLt
    have hle := roundUp_le x.toNat (2 ^ k)
    have hsum : (x + BitVec.ofNat w (2 ^ k) - 1 : BitVec w).toNat = x.toNat + (2 ^ k - 1) - 2 ^ w := by
      rw [BitVec.toNat_sub, BitVec.toNat_add, BitVec.toNat_ofNat, hone, Nat.mod_eq_of_lt hpow,
        Nat.mod_eq_sub_mod (by omega : 2 ^ w ≤ x.toNat + 2 ^ k),
        Nat.mod_eq_of_lt (by omega : x.toNat + 2 ^ k - 2 ^ w < 2 ^ w),
        Nat.mod_eq_sub_mod (by omega), Nat.mod_eq_of_lt (by omega)]
      omega
    have hend : roundUp x.toNat (2 ^ k) = 2 ^ w := by
      obtain ⟨m, hm⟩ := Nat.pow_dvd_pow 2 (by omega : k ≤ w)
      obtain ⟨q, hq⟩ := dvd_roundUp x.toNat (2 ^ k)
      have hmq : m ≤ q := Nat.le_of_mul_le_mul_left (hm ▸ hq ▸ hge) hpos
      have hqm : q < m + 1 := by
        refine Nat.lt_of_mul_lt_mul_left (a := 2 ^ k) ?_
        rw [← hq, Nat.mul_add, ← hm]
        omega
      rw [hq, hm, Nat.le_antisymm (Nat.le_of_lt_succ hqm) hmq]
    rw [toNat_and_not_mask _ hk, hsum, hend, Nat.mod_self, Nat.div_eq_of_lt (by omega), Nat.zero_mul]

/-! ### Blocks -/

def blockRange (b : Nat × Nat) : Set Nat := Set.Ico b.1 (b.1 + b.2)

/-- Blocks, given by start and size, that lie in `[lo, hi)` and overlap nowhere. -/
structure BlocksInside (lo hi : Nat) (blocks : List (Nat × Nat)) : Prop where
  inside : ∀ b ∈ blocks, lo ≤ b.1 ∧ b.1 + b.2 ≤ hi
  disjoint : blocks.Pairwise fun b c => Disjoint (blockRange b) (blockRange c)

/-- Such blocks with a pointer above them. -/
structure Cut (lo hi ptr : Nat) (blocks : List (Nat × Nat)) : Prop extends
    BlocksInside lo hi blocks where
  start : lo ≤ ptr
  below : ∀ b ∈ blocks, b.1 + b.2 ≤ ptr

theorem Cut.nil (lo hi : Nat) : Cut lo hi lo [] where
  inside b hb := by cases hb
  disjoint := List.Pairwise.nil
  start := Nat.le_refl lo
  below b hb := by cases hb

theorem Cut.skip {lo hi ptr ptr' : Nat} {blocks : List (Nat × Nat)} (h : Cut lo hi ptr blocks)
    (hp : ptr ≤ ptr') : Cut lo hi ptr' blocks where
  inside := h.inside
  disjoint := h.disjoint
  start := Nat.le_trans h.start hp
  below b hb := Nat.le_trans (h.below b hb) hp

theorem Cut.take {lo hi ptr n m : Nat} {blocks : List (Nat × Nat)} (h : Cut lo hi ptr blocks)
    (hn : n ≤ m) (hhi : ptr + m ≤ hi) : Cut lo hi (ptr + m) ((ptr, n) :: blocks) where
  inside b hb := by
    rcases List.mem_cons.mp hb with rfl | hb
    · exact ⟨h.start, by omega⟩
    · exact h.inside b hb
  disjoint := by
    apply List.Pairwise.cons _ h.disjoint
    intro b hb
    refine Set.disjoint_left.mpr fun a ha hb' => ?_
    have hbelow := h.below b hb
    have h1 : ptr ≤ a := ha.1
    have h2 : a < b.1 + b.2 := hb'.2
    omega
  start := Nat.le_trans h.start (Nat.le_add_right _ _)
  below b hb := by
    rcases List.mem_cons.mp hb with rfl | hb
    · exact Nat.add_le_add_left hn ptr
    · exact Nat.le_trans (h.below b hb) (Nat.le_add_right _ _)
