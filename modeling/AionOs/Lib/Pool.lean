import AionOs.Lib.Machine
import Mathlib.Data.List.Nodup

/-!
# Pools of exclusive resources

A pool says which resources are free and lists those that are held.  Granting moves
distinct free resources to the held ones, releasing moves one back.

* `exclusive_run`: held resources are pairwise distinct and never free.
* `no_regrant`: between two grants of one resource it was released.
-/

universe u

namespace Pool

variable {ρ : Type u} [DecidableEq ρ]

structure State (ρ : Type u) where
  free : ρ → Prop
  held : List ρ

inductive Event (ρ : Type u) where
  | grant (rs : List ρ)
  | release (r : ρ)

def step (s : State ρ) : Event ρ → State ρ
  | .grant rs => ⟨fun r => s.free r ∧ r ∉ rs, rs ++ s.held⟩
  | .release r => ⟨fun q => q = r ∨ s.free q, s.held.erase r⟩

def legal (s : State ρ) : Event ρ → Prop
  | .grant rs => rs.Nodup ∧ ∀ r ∈ rs, s.free r
  | .release r => r ∈ s.held

/-- Grants of distinct free resources, releases of held ones. -/
def machine : Machine (State ρ) (Event ρ) := ⟨step, legal⟩

/-- No resource is held twice, and none is held and free. -/
structure Exclusive (s : State ρ) : Prop where
  nodup : s.held.Nodup
  used : ∀ r ∈ s.held, ¬ s.free r

theorem exclusive_step {s : State ρ} {e : Event ρ} (h : Exclusive s) (hl : legal s e) :
    Exclusive (step s e) := by
  cases e with
  | grant rs =>
    refine ⟨List.Nodup.append hl.1 h.nodup fun r hr hh => h.used r hh (hl.2 r hr), ?_⟩
    intro r hr hf
    rcases List.mem_append.mp hr with hr | hr
    · exact hf.2 hr
    · exact h.used r hr hf.1
  | release r =>
    refine ⟨h.nodup.erase r, fun q hq hf => ?_⟩
    obtain ⟨hne, hq⟩ := h.nodup.mem_erase_iff.mp hq
    exact hf.elim hne (h.used q hq)

/-- **Exclusion**: in every legal history the held resources are distinct and used. -/
theorem exclusive_run {s : State ρ} (h : Exclusive s) (es : List (Event ρ))
    (hl : machine.Legal s es) : Exclusive (machine.run s es) :=
  Machine.run_invariant (I := Exclusive) (fun _ _ => exclusive_step) es s h hl

theorem held_of_not_released {r : ρ} : ∀ (es : List (Event ρ)) (s : State ρ), r ∈ s.held →
    Event.release r ∉ es → r ∈ (machine.run s es).held := by
  intro es
  induction es with
  | nil => intro s h _; exact h
  | cons e es ih =>
    intro s h hn
    rw [List.mem_cons, not_or] at hn
    refine ih (step s e) ?_ hn.2
    cases e with
    | grant rs => exact List.mem_append_right rs h
    | release q =>
      have hq : r ≠ q := fun he => hn.1 (he ▸ rfl)
      exact (List.mem_erase_of_ne hq).mpr h

/-- **No resource is granted twice without a release in between.** -/
theorem no_regrant {s : State ρ} (h : Exclusive s) {pre mid post : List (Event ρ)}
    {rs rs' : List ρ} (hl : machine.Legal s (pre ++ .grant rs :: (mid ++ .grant rs' :: post)))
    {r : ρ} (hr : r ∈ rs) (hr' : r ∈ rs') : Event.release r ∈ mid := by
  by_contra hn
  rw [Machine.legal_append, Machine.legal_cons, Machine.legal_append, Machine.legal_cons] at hl
  obtain ⟨hpre, hgrant, hmid, hgrant', _⟩ := hl
  have hg : legal (machine.run s pre) (.grant rs) := hgrant
  have hex := exclusive_run (exclusive_step (exclusive_run h pre hpre) hg) mid hmid
  have hheld := held_of_not_released mid (step (machine.run s pre) (.grant rs))
    (List.mem_append_left _ hr) hn
  exact hex.used r hheld (hgrant'.2 r hr')

end Pool
