import AionOs.Memory.PmmSafety

/-!
# What the frame allocator computes

* `pmmInit_marks`: the frames that are free after `pmm_init`, for any map whose pages do not wrap.
* `pmmAllocContiguous_first_fit`: `pmm_alloc_contiguous` takes the first run that fits.
-/

namespace AionOs

/-! ### `pmm_init` -/

theorem mem_usableFrames_perm {m m' : EfiMemoryMap} (h : m'.descriptors.Perm m.descriptors) (p : Nat) :
    p ∈ m'.usableFrames ↔ p ∈ m.usableFrames := by
  rw [EfiMemoryMap.usableFrames, EfiMemoryMap.usableFrames, List.mem_flatMap, List.mem_flatMap]
  exact exists_congr fun d => and_congr_left fun _ => h.mem_iff

theorem bitmap_eq {s t : Pmm} (h : ∀ p, s.IsFree p ↔ t.IsFree p) : s.physBitmap = t.physBitmap :=
  ByteSet.eq_of_testBit fun p => Bool.eq_iff_iff.mpr (h p)

/-- **`pmm_init` marks the usable frames**, whatever was in the bitmap: the tracked frames from
2 MB on that a descriptor of a usable type covers, in whatever order the descriptors come. -/
theorem pmmInit_marks (s : Pmm) (m : EfiMemoryMap)
    (hpages : ∀ d ∈ m.descriptors, pageIndex d.physStart + d.numPages.toNat ≤ 2 ^ 64) :
    (∀ p, (pmmInit s m).IsFree p ↔ 512 ≤ p ∧ p < 2 ^ 25 ∧ ∃ d ∈ m.descriptors,
      (d.type = 3 ∨ d.type = 4 ∨ d.type = 7) ∧
      pageIndex d.physStart ≤ p ∧ p < pageIndex d.physStart + d.numPages.toNat) ∧
    ∀ (s' : Pmm) (m' : EfiMemoryMap), m'.descriptors.Perm m.descriptors →
      (pmmInit s' m').physBitmap = (pmmInit s m).physBitmap := by
  constructor
  · intro p
    have husable : ∀ d : EfiMemoryDescriptor,
        d.usable = true ↔ d.type = 3 ∨ d.type = 4 ∨ d.type = 7 := by
      intro d
      rw [EfiMemoryDescriptor.usable, Bool.or_eq_true, Bool.or_eq_true, decide_eq_true_eq,
        decide_eq_true_eq, decide_eq_true_eq, or_assoc, or_comm, or_assoc]
      rfl
    have hmax : maxFrames = 2 ^ 25 := maxFrames_eq
    rw [pmmInit_isFree, mem_usableFrames_of_pages hpages, hmax]
    simp only [husable]
  · intro s' m' hperm
    refine bitmap_eq fun p => ?_
    rw [pmmInit_isFree, pmmInit_isFree, mem_usableFrames_perm hperm]

theorem pmmInit_marks_sample :
    (∀ p, (pmmInit Pmm.bss sampleEfiMap).IsFree p ↔ 512 ≤ p ∧ p < 2 ^ 25 ∧
      ∃ d ∈ sampleEfiMap.descriptors, (d.type = 3 ∨ d.type = 4 ∨ d.type = 7) ∧
      pageIndex d.physStart ≤ p ∧ p < pageIndex d.physStart + d.numPages.toNat) ∧
    ∀ (s' : Pmm) (m' : EfiMemoryMap), m'.descriptors.Perm sampleEfiMap.descriptors →
      (pmmInit s' m').physBitmap = (pmmInit Pmm.bss sampleEfiMap).physBitmap := by
  have hpages : ∀ d ∈ sampleEfiMap.descriptors,
      pageIndex d.physStart + d.numPages.toNat ≤ 2 ^ 64 := by
    rw [sample_descriptors]
    decide
  exact pmmInit_marks Pmm.bss sampleEfiMap hpages

/-! ### Runs of frames -/

/-- The first place where `n` frames in a row can be handed out. -/
structure Pmm.FirstFit (s : Pmm) (i n : Nat) : Prop extends s.Fits i n where
  least : ∀ j, s.Fits j n → i ≤ j

theorem Pmm.FirstFit.unique {s : Pmm} {i j n : Nat} (h : s.FirstFit i n) (h' : s.FirstFit j n) :
    i = j := Nat.le_antisymm (h.least j h'.toFits) (h'.least i h.toFits)

theorem Pmm.FirstFit.alloc {s : Pmm} {i : Nat} {n : U64} (hn : 1 ≤ n.toNat)
    (h : s.FirstFit i n.toNat) :
    pmmAllocContiguous s n = (frameAddr i, pmmTakeFrames s i n.toNat) := by
  rcases pmmAllocContiguous_cases s n with ⟨_, hnone⟩ | ⟨j, he, _, hfit, hleast⟩
  · exact absurd h.toFits (hnone hn i)
  · have hfirst : s.FirstFit j n.toNat :=
      ⟨hfit, fun k hk => Nat.not_lt.mp fun hlt => hleast k hlt hk⟩
    rw [he, h.unique hfirst]

theorem pmmAllocContiguous_eq_zero_iff {s : Pmm} {n : U64} (hn : 1 ≤ n.toNat) :
    (pmmAllocContiguous s n).1 = 0 ↔ ∀ i, ¬ s.Fits i n.toNat := by
  rcases pmmAllocContiguous_cases s n with ⟨he, hnone⟩ | ⟨i, he, _, hfit, _⟩
  · exact iff_of_true (congrArg Prod.fst he) (hnone hn)
  · refine iff_of_false ?_ fun hnone => hnone i hfit
    rw [he]
    exact frameAddr_ne_zero (hfit.lt (Nat.le_refl i) (by omega)) (by have := hfit.lo; omega)

theorem pmmAllocContiguous_failed {s : Pmm} {n : U64} (h : (pmmAllocContiguous s n).1 = 0) :
    (pmmAllocContiguous s n).2 = s := by
  rcases pmmAllocContiguous_cases s n with ⟨he, _⟩ | ⟨i, he, hn, hfit, _⟩
  · rw [he]
  · rw [he] at h
    exact absurd h (frameAddr_ne_zero (hfit.lt (Nat.le_refl i) (by omega))
      (by have := hfit.lo; omega))

theorem pmmAllocContiguous_one (s : Pmm) : pmmAllocContiguous s 1 = pmmAlloc s := by
  have hone : (1 : U64).toNat = 1 := rfl
  rw [pmmAllocContiguous, pmmAlloc, hone, Scan.runFrom_one]
  rfl

/-- **`pmm_alloc_contiguous` is first fit.**  For every bitmap and every length it takes the first
run that fits and nothing else; it returns `0` exactly when none fits, and then nothing changes. -/
theorem pmmAllocContiguous_first_fit (s : Pmm) (n : U64) (hn : 1 ≤ n.toNat) :
    let r := pmmAllocContiguous s n
    (∀ i, s.FirstFit i n.toNat → r.1.toNat = i * 4096 ∧
      (∀ j, r.2.IsFree j ↔ s.IsFree j ∧ ¬ (i ≤ j ∧ j < i + n.toNat)) ∧
      r.2.physFreePages = s.physFreePages - n ∧ r.2.physTotalPages = s.physTotalPages) ∧
    (r.1 = 0 ↔ ∀ i, ¬ s.Fits i n.toNat) ∧
    (r.1 = 0 → r.2 = s) ∧
    (n = 1 → r = pmmAlloc s) := by
  intro r
  refine ⟨fun i hi => ?_, pmmAllocContiguous_eq_zero_iff hn, pmmAllocContiguous_failed, ?_⟩
  · have hr : r = (frameAddr i, pmmTakeFrames s i n.toNat) := hi.alloc hn
    rw [hr]
    refine ⟨toNat_frameAddr (hi.lt (Nat.le_refl i) (by omega)), fun k => ?_, ?_, ?_⟩
    · rw [isFree_takeFrames, and_comm]
    · rw [takeFrames_freePages, BitVec.ofNat_toNat, BitVec.setWidth_eq]
    · exact takeFrames_total _ _ _
  · rintro rfl
    exact pmmAllocContiguous_one s

theorem pmmAllocContiguous_first_fit_sample :
    let r := pmmAllocContiguous (pmmBoot sampleEfiMap) 4
    (∀ i, (pmmBoot sampleEfiMap).FirstFit i 4 → r.1.toNat = i * 4096 ∧
      (∀ j, r.2.IsFree j ↔ (pmmBoot sampleEfiMap).IsFree j ∧ ¬ (i ≤ j ∧ j < i + 4)) ∧
      r.2.physFreePages = (pmmBoot sampleEfiMap).physFreePages - 4 ∧
      r.2.physTotalPages = (pmmBoot sampleEfiMap).physTotalPages) ∧
    (r.1 = 0 ↔ ∀ i, ¬ (pmmBoot sampleEfiMap).Fits i 4) ∧
    (r.1 = 0 → r.2 = pmmBoot sampleEfiMap) ∧
    ((4 : U64) = 1 → r = pmmAlloc (pmmBoot sampleEfiMap)) :=
  pmmAllocContiguous_first_fit (pmmBoot sampleEfiMap) 4 (by decide)

end AionOs
