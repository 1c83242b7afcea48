import AionOs.Lib.Machine

/-!
# Machines that come to rest

A step either changes nothing or makes a measure smaller, and as long as the measure is not
zero, one of a few actions makes it smaller.  Then any schedule that takes each of these actions
often enough brings the measure to zero, whatever else it takes in between.

* `measure_run_le`: the measure never grows.
* `measure_block_lt`: a block with all these actions makes it smaller.
* `measure_fair`: so many blocks as the measure says are enough.
-/

namespace Machine

universe u v

variable {σ : Type u} {α : Type v} {M : Machine σ α} {μ : σ → Nat} {I : σ → Prop} {fair : List α}

section Measure

variable (hkeep : ∀ s a, I s → I (M.step s a))
  (hdown : ∀ s a, I s → M.step s a = s ∨ μ (M.step s a) < μ s)

include hkeep hdown

theorem measure_run_le : ∀ (as : List α) (s : σ), I s → μ (M.run s as) ≤ μ s := by
  intro as
  induction as with
  | nil => intro s _; exact Nat.le_refl _
  | cons a as ih =>
    intro s h
    refine Nat.le_trans (ih (M.step s a) (hkeep s a h)) ?_
    rcases hdown s a h with heq | hlt
    · exact Nat.le_of_eq (congrArg μ heq)
    · exact Nat.le_of_lt hlt

/-- An action that makes the measure smaller where a block begins is still one that does where
the block comes to it, unless the measure is smaller already. -/
theorem measure_block_lt {a : α} : ∀ (as : List α) (s : σ), I s → a ∈ as → μ (M.step s a) < μ s →
    μ (M.run s as) < μ s := by
  intro as
  induction as with
  | nil => intro s _ hmem; cases hmem
  | cons b as ih =>
    intro s h hmem hlt
    have hrest := measure_run_le hkeep hdown as (M.step s b) (hkeep s b h)
    rcases hdown s b h with heq | hb
    · rcases List.mem_cons.mp hmem with rfl | hmem
      · exact Nat.lt_of_le_of_lt hrest hlt
      · rw [run_cons, heq]
        exact ih s h hmem hlt
    · exact Nat.lt_of_le_of_lt hrest hb

/-- **A fair schedule brings the measure to zero.** -/
theorem measure_fair (hfair : ∀ s, I s → μ s ≠ 0 → ∃ a ∈ fair, μ (M.step s a) < μ s) :
    ∀ (blocks : List (List α)) (s : σ), I s → (∀ b ∈ blocks, ∀ a ∈ fair, a ∈ b) →
      μ s ≤ blocks.length → μ (M.run s blocks.flatten) = 0 := by
  intro blocks
  induction blocks with
  | nil => intro s _ _ hle; exact Nat.le_zero.mp hle
  | cons b blocks ih =>
    intro s h hall hle
    have hb : I (M.run s b) := run_keeps hkeep b h
    rw [List.flatten_cons, run_append]
    refine ih _ hb (fun c hc => hall c (List.mem_cons_of_mem b hc)) ?_
    by_cases hzero : μ s = 0
    · have hfirst := measure_run_le hkeep hdown b s h
      omega
    · obtain ⟨a, ha, hlt⟩ := hfair s h hzero
      have hblock := measure_block_lt hkeep hdown b s h (hall b List.mem_cons_self a ha) hlt
      rw [List.length_cons] at hle
      omega

end Measure

end Machine
