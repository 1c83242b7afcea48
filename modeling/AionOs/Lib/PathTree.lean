import Mathlib.Data.List.Induction

/-!
# Walking a labelled graph

`child n i` is the node that the edge labelled `i` leads to from `n`, and `walk` follows
a path of labels.  Up to a depth `d` the graph is a tree (`IsTree`) when no node is
reached by two paths.

* `walk_congr`: what lies below the depth does not matter.
* `walk_graft`: hanging a new leaf into a tree adds one path and changes no other.
* `isTree_graft`: the result is a tree again.
-/

universe u v

namespace PathTree

variable {ν : Type u} {ι : Type v}

/-- The node at the end of a path. -/
def walk (child : ν → ι → Option ν) : ν → List ι → Option ν
  | n, [] => some n
  | n, i :: π => (child n i).bind fun m => walk child m π

theorem walk_cons (child : ν → ι → Option ν) (n : ν) (i : ι) (π : List ι) :
    walk child n (i :: π) = (child n i).bind fun m => walk child m π := rfl

theorem walk_append (child : ν → ι → Option ν) : ∀ (π : List ι) (n : ν) (ρ : List ι),
    walk child n (π ++ ρ) = (walk child n π).bind fun m => walk child m ρ := by
  intro π
  induction π with
  | nil => intro n ρ; rfl
  | cons i π ih =>
    intro n ρ
    rw [List.cons_append, walk_cons, walk_cons]
    cases child n i with
    | none => rfl
    | some m => exact ih m ρ

theorem walk_concat (child : ν → ι → Option ν) (n : ν) (π : List ι) (i : ι) :
    walk child n (π ++ [i]) = (walk child n π).bind fun m => child m i := by
  rw [walk_append]
  congr 1
  funext m
  rw [walk_cons]
  cases child m i <;> rfl

theorem walk_concat_of {child : ν → ι → Option ν} {r n : ν} {π : List ι}
    (h : walk child r π = some n) (i : ι) : walk child r (π ++ [i]) = child n i := by
  rw [walk_concat, h, Option.bind_some]

/-- Up to depth `d` no node is reached by two paths. -/
def IsTree (child : ν → ι → Option ν) (r : ν) (d : Nat) : Prop :=
  ∀ π ρ n, π.length ≤ d → ρ.length ≤ d → walk child r π = some n → walk child r ρ = some n → π = ρ

theorem walk_congr {child child' : ν → ι → Option ν} {r : ν} {d : Nat}
    (h : ∀ π n, π.length < d → walk child r π = some n → ∀ i, child' n i = child n i) :
    ∀ π : List ι, π.length ≤ d → walk child' r π = walk child r π := by
  intro π
  induction π using List.reverseRecOn with
  | nil => intro _; rfl
  | append_singleton π i ih =>
    intro hlen
    rw [List.length_append, List.length_singleton] at hlen
    rw [walk_concat, walk_concat, ih (by omega)]
    cases hw : walk child r π with
    | none => rfl
    | some n => exact h π n (by omega) hw i

/-! ### A new leaf -/

/-- `child'` is `child` with the fresh node `m` hung under `a` at the label `j`, where
`a` is reached by `α` alone. -/
structure Graft (child child' : ν → ι → Option ν) (r : ν) (d : Nat) (α : List ι) (a : ν) (j : ι)
    (m : ν) : Prop where
  at_a : walk child r α = some a
  depth : α.length < d
  empty : child a j = none
  fresh : ∀ π, π.length ≤ d → walk child r π ≠ some m
  link : child' a j = some m
  leaf : ∀ i, child' m i = none
  other : ∀ π n i, π.length < d → walk child r π = some n → ¬ (n = a ∧ i = j) → child' n i = child n i

/-- **A new leaf adds one path.** -/
theorem walk_graft {child child' : ν → ι → Option ν} {r : ν} {d : Nat} {α : List ι} {a : ν} {j : ι}
    {m : ν} (ht : IsTree child r d) (h : Graft child child' r d α a j m) :
    ∀ π : List ι, π.length ≤ d →
      (π = α ++ [j] → walk child' r π = some m) ∧
      (π ≠ α ++ [j] → walk child' r π = walk child r π) := by
  intro π
  induction π using List.reverseRecOn with
  | nil => intro _; exact ⟨fun he => by simp at he, fun _ => rfl⟩
  | append_singleton π i ih =>
    intro hlen
    rw [List.length_append, List.length_singleton] at hlen
    obtain ⟨ih1, ih2⟩ := ih (by omega)
    have hdepth := h.depth
    constructor
    · intro he
      obtain ⟨rfl, hij⟩ := List.append_inj' he rfl
      obtain rfl : i = j := by simpa using hij
      have hne : π ≠ π ++ [i] := by simp
      rw [walk_concat_of ((ih2 hne).trans h.at_a), h.link]
    · intro hne
      by_cases hπ : π = α ++ [j]
      · -- below the new leaf there is nothing, before and after
        have hold : walk child r π = none := by
          rw [hπ, walk_concat_of h.at_a, h.empty]
        rw [walk_concat_of (ih1 hπ), h.leaf, walk_concat, hold, Option.bind_none]
      · rw [walk_concat, walk_concat, ih2 hπ]
        cases hw : walk child r π with
        | none => rfl
        | some n =>
          refine h.other π n i (by omega) hw ?_
          rintro ⟨rfl, rfl⟩
          exact hne (by rw [ht π α n (by omega) (by omega) hw h.at_a])

theorem isTree_graft {child child' : ν → ι → Option ν} {r : ν} {d : Nat} {α : List ι} {a : ν}
    {j : ι} {m : ν} (ht : IsTree child r d) (h : Graft child child' r d α a j m) :
    IsTree child' r d := by
  intro π ρ n hπ hρ hn hn'
  obtain ⟨h1, h2⟩ := walk_graft ht h π hπ
  obtain ⟨h3, h4⟩ := walk_graft ht h ρ hρ
  by_cases hα : π = α ++ [j] <;> by_cases hβ : ρ = α ++ [j]
  · rw [hα, hβ]
  · rw [h1 hα] at hn
    rw [h4 hβ, ← hn] at hn'
    exact absurd hn' (h.fresh ρ hρ)
  · rw [h3 hβ] at hn'
    rw [h2 hα, ← hn'] at hn
    exact absurd hn (h.fresh π hπ)
  · rw [h2 hα] at hn
    rw [h4 hβ] at hn'
    exact ht π ρ n hπ hρ hn hn'

end PathTree
