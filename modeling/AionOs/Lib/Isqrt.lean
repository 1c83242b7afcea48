import Mathlib.Tactic.Ring
import Mathlib.Data.Nat.Sqrt

/-!
# Square roots, bit by bit

The root of a number is found from its highest bit down, with additions and shifts only.

* `digits k x r`: the last `k` bits of a root.
* `digits_spec`: the invariant of the loop.
* `digits_eq_sqrt`: the root of a number below `4 ^ k`.
-/

namespace Isqrt

/-- The last `k` bits: `x` is what is left of the number, `r` is the root so far, shifted left
by one more than the bits that are still to come. -/
def digits : Nat → Nat → Nat → Nat
  | 0, _, r => r
  | k + 1, x, r =>
    if r + 4 ^ k ≤ x then digits k (x - (r + 4 ^ k)) (r / 2 + 4 ^ k) else digits k x (r / 2)

theorem four_pow (k : Nat) : 4 ^ k = 2 ^ k * 2 ^ k := by
  rw [← Nat.mul_pow]

/-- **The invariant**: `q` is the root so far, and the bits to come are enough. -/
theorem digits_spec {k q x r : Nat} (hr : r = q * 2 ^ k) (hx : q * q + x < (q + 2 ^ k) * (q + 2 ^ k)) :
    digits k x r = Nat.sqrt (q * q + x) := by
  induction k generalizing q x r with
  | zero =>
    rw [Nat.pow_zero, Nat.mul_one] at hr
    rw [Nat.pow_zero] at hx
    rw [digits, hr]
    exact (Nat.eq_sqrt.mpr ⟨Nat.le_add_right _ _, hx⟩)
  | succ k ih =>
    have hhalf : r / 2 = q * 2 ^ k := by
      rw [hr, Nat.pow_succ, ← Nat.mul_assoc, Nat.mul_div_cancel _ (by omega)]
    have hsum : r + 4 ^ k + q * q = (q + 2 ^ k) * (q + 2 ^ k) := by
      rw [hr, four_pow, Nat.pow_succ]
      ring
    rw [digits]
    by_cases hbit : r + 4 ^ k ≤ x
    · -- the next bit is one
      have hnext : r / 2 + 4 ^ k = (q + 2 ^ k) * 2 ^ k := by
        rw [hhalf, four_pow, Nat.add_mul]
      have htotal : (q + 2 ^ k) * (q + 2 ^ k) + (x - (r + 4 ^ k)) = q * q + x := by
        rw [← hsum]
        omega
      have htwice : q + 2 ^ k + 2 ^ k = q + 2 ^ (k + 1) := by
        rw [Nat.pow_succ]
        ring
      rw [if_pos hbit, ih hnext (by rw [htotal, htwice]; exact hx), htotal]
    · rw [if_neg hbit]
      exact ih hhalf (by omega)

/-- **The root of a number** is found if its bits are enough. -/
theorem digits_eq_sqrt {k x : Nat} (h : x < 4 ^ k) : digits k x 0 = Nat.sqrt x := by
  have hspec := @digits_spec k 0 x 0 (Nat.zero_mul _).symm
  rw [Nat.zero_mul, Nat.zero_add, Nat.zero_add, ← four_pow] at hspec
  exact hspec h

/-- The root so far and the next bit are no longer than twice the bits of the number. -/
theorem sqrt_lt {k x : Nat} (h : x < 4 ^ k) : Nat.sqrt x < 2 ^ k := by
  rw [Nat.sqrt_lt, ← four_pow]
  exact h

end Isqrt
