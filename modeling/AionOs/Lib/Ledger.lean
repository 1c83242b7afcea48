import Mathlib.Data.List.Basic

/-!
# A ledger of resources

What a program holds after it has acquired and released resources.  The ledger fails when
something is released that is not held: that was never acquired, or is released twice.

* `held_append`: the ledger of a program in two parts.
* `held_release`, `held_release_under`: the latest resource, or the one before it, is given back.
-/

namespace Ledger

universe u

variable {ρ : Type u} [DecidableEq ρ]

inductive Use (ρ : Type u) where
  | acquire (r : ρ)
  | release (r : ρ)

/-- What is held after the uses, the latest first, beside what was held before. -/
def held : List ρ → List (Use ρ) → Option (List ρ)
  | l, [] => some l
  | l, .acquire r :: uses => held (r :: l) uses
  | l, .release r :: uses => if r ∈ l then held (l.erase r) uses else none

@[simp] theorem held_release (l : List ρ) (r : ρ) (uses : List (Use ρ)) :
    held (r :: l) (.release r :: uses) = held l uses := by
  rw [held, if_pos List.mem_cons_self, List.erase_cons_head]

/-- The one before the latest is given back. -/
theorem held_release_under (l : List ρ) {r q : ρ} (h : q ≠ r) (uses : List (Use ρ)) :
    held (q :: r :: l) (.release r :: uses) = held (q :: l) uses := by
  rw [held, if_pos (List.mem_cons_of_mem q List.mem_cons_self), List.erase_cons_tail (by simpa using h),
    List.erase_cons_head]

theorem held_append (l : List ρ) (uses uses' : List (Use ρ)) :
    held l (uses ++ uses') = (held l uses).bind fun l' => held l' uses' := by
  induction uses generalizing l with
  | nil => rfl
  | cons u uses ih =>
    cases u with
    | acquire r => exact ih (r :: l)
    | release r =>
      rw [List.cons_append, held, held]
      split
      · exact ih (l.erase r)
      · rfl

end Ledger
