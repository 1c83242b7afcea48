import AionOs.Memory.PmmRun

/-!
# The order of frames

`pmm_alloc` takes the lowest free frame that the scan can see, so a number of calls takes
that many of the lowest ones.

* `LowestTaken.alloc`: one call.
* `LowestTaken.mem_visible_iff`: which frames are left, told by the number of frames below.
* `LowestTaken.fits_iff`: which runs of frames are left.
-/

namespace AionOs

/-- From `p` to `q`, the `k` lowest visible frames were taken. -/
structure LowestTaken (k : Nat) (p q : Pmm) : Prop where
  total : q.physTotalPages = p.physTotalPages
  free : ∀ f, q.IsFree f → p.IsFree f
  seen : ∀ f, p.IsFree f → ¬ q.IsFree f → f ∈ p.visible
  lowest : ∀ f g, p.IsFree f → ¬ q.IsFree f → g ∈ q.visible → f < g
  card : q.visible.card + k = p.visible.card

theorem LowestTaken.refl (p : Pmm) : LowestTaken 0 p p :=
  ⟨rfl, fun _ h => h, fun _ h h' => absurd h h', fun _ _ h h' => absurd h h', Nat.add_zero _⟩

theorem LowestTaken.visible_subset {k : Nat} {p q : Pmm} (h : LowestTaken k p q) :
    q.visible ⊆ p.visible := by
  intro f hf
  obtain ⟨hrange, hfree⟩ := mem_visible.mp hf
  exact mem_visible.mpr ⟨h.total ▸ hrange, h.free f hfree⟩

theorem LowestTaken.alloc {k : Nat} {p q : Pmm} (h : LowestTaken k p q) :
    ((pmmAlloc q).1 = 0 ∧ (pmmAlloc q).2 = q) ∨
      ((pmmAlloc q).1 ≠ 0 ∧ LowestTaken (k + 1) p (pmmAlloc q).2) := by
  rcases pmmAlloc_cases q with ⟨he, _⟩ | ⟨i, he, hfit, hleast⟩
  · exact .inl ⟨by rw [he], by rw [he]⟩
  · have hi : q.IsFree i := hfit.free i (Nat.le_refl i) (by omega)
    have hvisible : i ∈ q.visible := mem_visible.mpr ⟨⟨hfit.lo, by have := hfit.hi; omega⟩, hi⟩
    have hfree : ∀ f, (pmmTakeFrames q i 1).IsFree f ↔ f ≠ i ∧ q.IsFree f := by
      intro f
      rw [isFree_takeFrames]
      exact and_congr_left fun _ => by omega
    refine .inr ⟨pmmAlloc_ne_zero hvisible, ?_⟩
    rw [he]
    refine ⟨(takeFrames_total 1 q i).trans h.total, fun f hf => h.free f ((hfree f).mp hf).2, ?_, ?_, ?_⟩
    · intro f hp hq
      by_cases hf : q.IsFree f
      · obtain rfl : f = i := by_contra fun hne => hq ((hfree f).mpr ⟨hne, hf⟩)
        exact h.visible_subset hvisible
      · exact h.seen f hp hf
    · intro f g hp hq hg
      obtain ⟨⟨hlo, hhi⟩, hgfree⟩ := mem_visible.mp hg
      obtain ⟨hne, hgq⟩ := (hfree g).mp hgfree
      rw [takeFrames_total] at hhi
      by_cases hf : q.IsFree f
      · obtain rfl : f = i := by_contra fun hne => hq ((hfree f).mpr ⟨hne, hf⟩)
        by_contra hle
        exact hleast g hlo (by omega) hgq
      · exact h.lowest f g hp hf (mem_visible.mpr ⟨⟨hlo, hhi⟩, hgq⟩)
    · have := visible_takeFrames_one hfit
      have := h.card
      show (pmmTakeFrames q i 1).visible.card + (k + 1) = _
      omega

/-! ### What is left -/

def Pmm.below (s : Pmm) (f : Nat) : Nat := (s.visible.filter (· < f)).card

theorem below_mono (s : Pmm) {f g : Nat} (h : f ≤ g) : s.below f ≤ s.below g := by
  refine Finset.card_le_card fun i hi => ?_
  rw [Finset.mem_filter] at hi ⊢
  exact ⟨hi.1, by omega⟩

theorem LowestTaken.card_taken {k : Nat} {p q : Pmm} (h : LowestTaken k p q) :
    (p.visible \ q.visible).card = k := by
  have hcard := h.card
  have hsplit := Finset.card_sdiff_add_card_eq_card h.visible_subset
  omega

theorem LowestTaken.mem_taken_iff {k : Nat} {p q : Pmm} (h : LowestTaken k p q) {f : Nat} :
    f ∈ p.visible \ q.visible ↔ p.IsFree f ∧ ¬ q.IsFree f := by
  rw [Finset.mem_sdiff]
  constructor
  · rintro ⟨hp, hq⟩
    obtain ⟨hrange, hfree⟩ := mem_visible.mp hp
    exact ⟨hfree, fun hqf => hq (mem_visible.mpr ⟨h.total.symm ▸ hrange, hqf⟩)⟩
  · rintro ⟨hp, hq⟩
    exact ⟨h.seen f hp hq, fun hqf => hq (mem_visible.mp hqf).2⟩

/-- **The visible frames that are left have at least `k` others below.** -/
theorem LowestTaken.mem_visible_iff {k : Nat} {p q : Pmm} (h : LowestTaken k p q) {f : Nat} :
    f ∈ q.visible ↔ f ∈ p.visible ∧ k ≤ p.below f := by
  have htaken := h.card_taken
  constructor
  · intro hf
    refine ⟨h.visible_subset hf, htaken ▸ Finset.card_le_card fun g hg => ?_⟩
    obtain ⟨hfree, hused⟩ := h.mem_taken_iff.mp hg
    exact Finset.mem_filter.mpr ⟨(Finset.mem_sdiff.mp hg).1, h.lowest g f hfree hused hf⟩
  · rintro ⟨hf, hk⟩
    by_contra hfq
    -- then only frames that were taken before `f` are below it
    have hftaken : f ∈ p.visible \ q.visible := Finset.mem_sdiff.mpr ⟨hf, hfq⟩
    obtain ⟨hfree, hused⟩ := h.mem_taken_iff.mp hftaken
    have hlt : p.below f < (p.visible \ q.visible).card := by
      refine Finset.card_lt_card (Finset.ssubset_iff_of_subset ?_ |>.mpr ⟨f, hftaken, fun hmem => ?_⟩)
      · intro g hg
        obtain ⟨hgp, hgf⟩ := Finset.mem_filter.mp hg
        refine Finset.mem_sdiff.mpr ⟨hgp, fun hgq => ?_⟩
        have := h.lowest f g hfree hused hgq
        omega
      · have := (Finset.mem_filter.mp hmem).2
        omega
    omega

theorem LowestTaken.fits_iff {k : Nat} {p q : Pmm} (h : LowestTaken k p q) {i n : Nat} (hn : 0 < n) :
    q.Fits i n ↔ p.Fits i n ∧ k ≤ p.below i := by
  constructor
  · intro hq
    have hhi := hq.hi
    have hi : i ∈ q.visible :=
      mem_visible.mpr ⟨⟨hq.lo, by omega⟩, hq.free i (Nat.le_refl i) (by omega)⟩
    refine ⟨⟨hq.lo, h.total ▸ hhi, fun j h1 h2 => h.free j (hq.free j h1 h2)⟩, ?_⟩
    exact (h.mem_visible_iff.mp hi).2
  · rintro ⟨hp, hk⟩
    have hhi := hp.hi
    have hlo := hp.lo
    refine ⟨hlo, h.total.symm ▸ hhi, fun j h1 h2 => ?_⟩
    have hj : j ∈ p.visible := mem_visible.mpr ⟨⟨by omega, by omega⟩, hp.free j h1 h2⟩
    exact (mem_visible.mp (h.mem_visible_iff.mpr ⟨hj, hk.trans (below_mono p h1)⟩)).2

end AionOs
