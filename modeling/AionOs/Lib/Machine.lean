/-!
# Machines driven by an environment

A `Machine` steps on actions; `legal s a` says that the environment may take the
action `a` in the state `s`.  `run` is a whole history and `Legal` says that every
action of it was legal where it was taken.

* `run_invariant`, `run_keeps`: what every legal step keeps, every legal run keeps; and of any step
  and any run.
* `legal_append`, `run_append`: histories are cut and joined.
* `forall_steps_iff`: two properties of a step that agree while an invariant holds agree
  along every run, if one of them keeps the invariant.
-/

universe u v

/-- A state machine whose environment chooses among the legal actions. -/
structure Machine (σ : Type u) (α : Type v) where
  step : σ → α → σ
  legal : σ → α → Prop

namespace Machine

variable {σ : Type u} {α : Type v} (M : Machine σ α)

def run : σ → List α → σ
  | s, [] => s
  | s, a :: as => run (M.step s a) as

/-- Every action of the history is legal in the state it is taken in. -/
def Legal : σ → List α → Prop
  | _, [] => True
  | s, a :: as => M.legal s a ∧ Legal (M.step s a) as

@[simp] theorem run_nil (s : σ) : M.run s [] = s := rfl

@[simp] theorem run_cons (s : σ) (a : α) (as : List α) :
    M.run s (a :: as) = M.run (M.step s a) as := rfl

@[simp] theorem legal_nil (s : σ) : M.Legal s [] := trivial

@[simp] theorem legal_cons (s : σ) (a : α) (as : List α) :
    M.Legal s (a :: as) ↔ M.legal s a ∧ M.Legal (M.step s a) as := Iff.rfl

theorem run_eq_foldl : ∀ (as : List α) (s : σ), M.run s as = as.foldl M.step s := by
  intro as
  induction as with
  | nil => intro s; rfl
  | cons a as ih => intro s; exact ih (M.step s a)

theorem run_append : ∀ (as : List α) (s : σ) (bs : List α),
    M.run s (as ++ bs) = M.run (M.run s as) bs := by
  intro as
  induction as with
  | nil => intro s bs; rfl
  | cons a as ih => intro s bs; exact ih (M.step s a) bs

theorem run_concat (s : σ) (as : List α) (a : α) :
    M.run s (as ++ [a]) = M.step (M.run s as) a := by
  rw [run_append, run_cons, run_nil]

theorem legal_append : ∀ (as : List α) (s : σ) (bs : List α),
    M.Legal s (as ++ bs) ↔ M.Legal s as ∧ M.Legal (M.run s as) bs := by
  intro as
  induction as with
  | nil => intro s bs; simp
  | cons a as ih =>
    intro s bs
    rw [List.cons_append, legal_cons, legal_cons, run_cons, ih (M.step s a) bs, and_assoc]

theorem legal_of_forall (h : ∀ s a, M.legal s a) : ∀ (as : List α) (s : σ), M.Legal s as := by
  intro as
  induction as with
  | nil => intro s; exact trivial
  | cons a as ih => intro s; exact ⟨h s a, ih (M.step s a)⟩

variable {M}

/-- **What every legal step keeps, every legal run keeps.** -/
theorem run_invariant {I : σ → Prop} (hstep : ∀ s a, I s → M.legal s a → I (M.step s a)) :
    ∀ (as : List α) (s : σ), I s → M.Legal s as → I (M.run s as) := by
  intro as
  induction as with
  | nil => intro s h _; exact h
  | cons a as ih => intro s h hl; exact ih (M.step s a) (hstep s a h hl.1) hl.2

theorem run_keeps {I : σ → Prop} (hstep : ∀ s a, I s → I (M.step s a)) (as : List α) {s : σ}
    (h : I s) : I (M.run s as) := by
  induction as generalizing s with
  | nil => exact h
  | cons a as ih => exact ih (hstep s a h)

theorem run_congr {N : Machine σ α} (hsame : N.step = M.step) : ∀ (as : List α) (s : σ),
    N.run s as = M.run s as := by
  intro as
  induction as with
  | nil => intro s; rfl
  | cons a as ih => intro s; rw [run_cons, run_cons, hsame, ih]

/-- A history that is legal for a stricter environment is legal for a laxer one
with the same steps, as long as the stricter one's invariant holds. -/
theorem Legal.weaken {N : Machine σ α} {I : σ → Prop} (hsame : N.step = M.step)
    (hstep : ∀ s a, I s → M.legal s a → I (M.step s a))
    (hlax : ∀ s a, I s → M.legal s a → N.legal s a) :
    ∀ (as : List α) (s : σ), I s → M.Legal s as → N.Legal s as := by
  intro as
  induction as with
  | nil => intro s _ _; exact trivial
  | cons a as ih =>
    intro s h hl
    refine ⟨hlax s a h hl.1, ?_⟩
    rw [hsame]
    exact ih (M.step s a) (hstep s a h hl.1) hl.2

/-! ### Properties of every step of a run -/

/-- A run is legal when each of its steps is, in the state the steps before it lead to. -/
theorem legal_iff_split : ∀ (as : List α) (s : σ), M.Legal s as ↔
    ∀ pre a, pre ++ [a] <+: as → M.legal (M.run s pre) a := by
  intro as
  induction as with
  | nil =>
    intro s
    refine ⟨fun _ pre a hpre => ?_, fun _ => trivial⟩
    have := hpre.length_le
    simp at this
  | cons b as ih =>
    intro s
    rw [legal_cons, ih]
    constructor
    · rintro ⟨hb, htail⟩ pre a hpre
      cases pre with
      | nil =>
        obtain ⟨rfl, _⟩ := List.cons_prefix_cons.mp hpre
        exact hb
      | cons c pre =>
        obtain ⟨rfl, hpre'⟩ := List.cons_prefix_cons.mp (List.cons_append ▸ hpre)
        exact htail pre a hpre'
    · intro h
      refine ⟨h [] b (by simp), fun pre a hpre => ?_⟩
      exact h (b :: pre) a (List.cons_prefix_cons.mpr ⟨rfl, hpre⟩)

/-- **Two properties of a step that agree under an invariant agree along every run**, if
steps with the second one keep the invariant. -/
theorem forall_steps_iff {I : σ → Prop} {P Q : σ → α → Prop}
    (hiff : ∀ s a, I s → M.legal s a → (P s a ↔ Q s a))
    (hstep : ∀ s a, I s → M.legal s a → Q s a → I (M.step s a)) :
    ∀ (as : List α) (s : σ), I s → M.Legal s as →
      ((∀ pre a, pre ++ [a] <+: as → P (M.run s pre) a) ↔
        ∀ pre a, pre ++ [a] <+: as → Q (M.run s pre) a) := by
  have hagree : ∀ (as : List α) (s : σ), I s → M.Legal s as →
      ((⟨M.step, P⟩ : Machine σ α).Legal s as ↔ (⟨M.step, Q⟩ : Machine σ α).Legal s as) := by
    intro as
    induction as with
    | nil => intro s _ _; exact Iff.rfl
    | cons a as ih =>
      intro s h hl
      rw [legal_cons, legal_cons, show (⟨M.step, P⟩ : Machine σ α).legal s a ↔ Q s a from hiff s a h hl.1]
      exact and_congr_right fun hq => ih (M.step s a) (hstep s a h hl.1 hq) hl.2
  intro as s h hl
  have hrun : ∀ (R : σ → α → Prop) (pre : List α),
      (⟨M.step, R⟩ : Machine σ α).run s pre = M.run s pre :=
    fun R pre => run_congr (M := M) (N := ⟨M.step, R⟩) rfl pre s
  have hlegal := hagree as s h hl
  rw [legal_iff_split, legal_iff_split] at hlegal
  simpa only [hrun] using hlegal

end Machine
