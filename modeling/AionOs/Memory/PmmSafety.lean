import AionOs.Memory.PmmRun

/-!
# What the frame allocator promises

Over every history of calls after `pmm_init`:

* `pmm_exclusive`: no frame is handed out twice without a release in between.
* `pmmAlloc_complete_iff`: `pmm_alloc` fails only when no frame is free, exactly on
  the maps that report no frame past the number of frames they report.  The scan ends
  at `phys_total_pages`, which counts frames; the bitmap is indexed by frame number.
* `kernelImage_kept_iff`: no frame of the kernel image is handed out, exactly on the
  maps that report none of the image above 2 MB within the scan.

`sampleMap` is a small machine with RAM from 1 MB to 2 GB and 4 MB of RAM above 4 GB.
-/

namespace AionOs

/-! ### A memory map -/

theorem UefiMemoryMap.mem_two {m : UefiMemoryMap} {a n b k : U64}
    (hd : m.descriptors = [⟨7, a, n⟩, ⟨7, b, k⟩]) (p : Nat) : p ∈ m.usableFrames ↔ p < maxFrames ∧
      ((a.toNat / 4096 ≤ p ∧ p < a.toNat / 4096 + n.toNat) ∨
        (b.toNat / 4096 ≤ p ∧ p < b.toNat / 4096 + k.toNat)) := by
  have husable : ∀ s n : U64, (EfiMemoryDescriptor.mk 7 s n).usable = true := fun _ _ => rfl
  rw [UefiMemoryMap.mem_usableFrames, hd]
  simp only [List.mem_cons, List.not_mem_nil, or_false, exists_eq_or_imp, exists_eq_left, husable,
    true_and]

theorem UefiMemoryMap.length_two {m : UefiMemoryMap} {a b c d : Nat} (hbc : b ≤ c)
    (hmem : ∀ p, p ∈ m.usableFrames ↔ a ≤ p ∧ p < b ∨ c ≤ p ∧ p < d) :
    m.usableFrames.length = (b - a) + (d - c) := by
  have h : m.usableFrames.toFinset = Finset.Ico a b ∪ Finset.Ico c d := by
    ext p
    rw [List.mem_toFinset, hmem, Finset.mem_union, Finset.mem_Ico, Finset.mem_Ico]
  rw [← List.toFinset_card_of_nodup m.nodup_usableFrames, h, Finset.card_union_of_disjoint,
    Nat.card_Ico, Nat.card_Ico]
  rw [Finset.disjoint_left]
  intro p h1 h2
  rw [Finset.mem_Ico] at h1 h2
  omega

/-- Two packed descriptors: conventional memory at 1 MB, 0x7FF00 pages, and at 4 GB,
1024 pages. -/
def sampleBytes : List U8 :=
  [7, 0, 0, 0, 0, 0, 0, 0,  0, 0, 0x10, 0, 0, 0, 0, 0,  0, 0, 0, 0, 0, 0, 0, 0,
   0, 0xFF, 7, 0, 0, 0, 0, 0,  0, 0, 0, 0, 0, 0, 0, 0,
   7, 0, 0, 0, 0, 0, 0, 0,  0, 0, 0, 0, 1, 0, 0, 0,  0, 0, 0, 0, 0, 0, 0, 0,
   0, 4, 0, 0, 0, 0, 0, 0,  0, 0, 0, 0, 0, 0, 0, 0]

def sampleEfiMap : EfiMemoryMap where
  bytes a := sampleBytes.getD a.toNat 0
  mmapAddr := 0
  mmapSize := 80
  descSize := 40

theorem sample_descriptors : sampleEfiMap.descriptors =
    [⟨7, 0x100000, 0x7FF00⟩, ⟨7, 0x100000000, 1024⟩] := by decide

def sampleMap : UefiMemoryMap where
  toEfiMemoryMap := sampleEfiMap
  noWrap := by rw [sample_descriptors]; decide
  disjoint := by
    rw [sample_descriptors, List.pairwise_pair]
    rintro a ⟨⟨_, h1⟩, h2, _⟩
    simp only [BitVec.ofNat_eq_ofNat, BitVec.toNat_ofNat] at h1 h2
    omega

theorem mem_sampleFrames (p : Nat) :
    p ∈ sampleMap.usableFrames ↔ 256 ≤ p ∧ p < 524288 ∨ 1048576 ≤ p ∧ p < 1049600 := by
  have hd : sampleMap.descriptors = _ := sample_descriptors
  rw [UefiMemoryMap.mem_two hd, maxFrames_eq]
  simp only [BitVec.ofNat_eq_ofNat, BitVec.toNat_ofNat]
  omega

theorem length_sampleFrames : sampleMap.usableFrames.length = 525056 := by
  have hlow : 524288 ≤ 1048576 := by omega
  rw [UefiMemoryMap.length_two hlow mem_sampleFrames]

theorem sample_total : (pmmBoot sampleEfiMap).physTotalPages.toNat = 525056 :=
  sampleMap.toNat_total.trans length_sampleFrames

theorem pmmAlloc_first {s : Pmm} (hfree : s.IsFree 512) (htotal : 512 < s.physTotalPages.toNat) :
    pmmAlloc s = (frameAddr 512, pmmTakeFrames s 512 1) := by
  rcases pmmAlloc_cases s with ⟨_, hnone⟩ | ⟨i, he, hf, hfirst⟩
  · exact absurd hfree (hnone 512 (Nat.le_refl 512) htotal)
  · have hi : i = 512 := by
      by_contra hne
      exact hfirst 512 (Nat.le_refl 512) (by have := hf.lo; omega) hfree
    rw [he, hi]

theorem pmmAlloc_sample :
    pmmAlloc (pmmBoot sampleEfiMap) = (frameAddr 512, pmmTakeFrames (pmmBoot sampleEfiMap) 512 1) :=
  pmmAlloc_first ((pmmBoot_isFree _ _).mpr ⟨by omega, (mem_sampleFrames _).mpr (.inl (by omega))⟩)
    (by rw [sample_total]; omega)

/-! ### Exclusive use -/

/-- **Exclusive use of frames.**  After every history of allocations and of releases
of held frames, the held frames are pairwise distinct and used, the next call hands out
only frames that are free and not held, and between two calls that handed out one frame
that frame was released. -/
theorem pmm_exclusive (m : EfiMemoryMap) (ops : List PmmOp)
    (hl : (pmmMachine FreesHeld).Legal (PmmSys.boot m) ops) :
    let s := (pmmMachine FreesHeld).run (PmmSys.boot m) ops
    s.held.Nodup ∧ (∀ f ∈ s.held, ¬ s.pmm.IsFree f) ∧
    (∀ op, FreesHeld s op → (handedOut s.pmm op).Nodup ∧
      ∀ f ∈ handedOut s.pmm op, s.pmm.IsFree f ∧ f ∉ s.held) ∧
    ∀ pre a mid b post f, ops = pre ++ a :: (mid ++ b :: post) →
      f ∈ handedOut ((pmmMachine FreesHeld).run (PmmSys.boot m) pre).pmm a →
      f ∈ handedOut ((pmmMachine FreesHeld).run (PmmSys.boot m) (pre ++ a :: mid)).pmm b →
      ∃ addr, PmmOp.free addr ∈ mid ∧ pageIndex addr = f := by
  intro s
  have hboot := heldInv_boot m
  obtain ⟨hpool, hend⟩ := toPool_run ops _ hboot hl
  have hex : Pool.Exclusive s.toPool := hend ▸ Pool.exclusive_run hboot.exclusive _ hpool
  refine ⟨hex.nodup, hex.used, fun op _ => ⟨handedOut_nodup _ _, fun f hf => ?_⟩, ?_⟩
  · have hfree := isFree_of_handedOut hf
    exact ⟨hfree, fun hh => hex.used f hh hfree⟩
  · rintro pre a mid b post f rfl ha hb
    rw [PmmSys.trace_append, PmmSys.trace, PmmSys.trace_append, PmmSys.trace] at hpool
    rw [Machine.run_append, Machine.run_cons, pmmMachine_step] at hb
    -- a call that hands out a frame is a grant of the pool
    have hgrant : ∀ (t : PmmSys) (op : PmmOp), f ∈ handedOut t.pmm op →
        t.event op = .grant (handedOut t.pmm op) := by
      intro t op hf
      cases op with
      | free x => simp [handedOut] at hf
      | alloc => rfl
      | allocContiguous n => rfl
    rw [hgrant _ a ha, hgrant _ b hb] at hpool
    exact release_of_mem_trace mid _ (Pool.no_regrant hboot.exclusive hpool ha hb)

/-- The first frame is handed out, released while a run is held, and handed out again. -/
theorem pmm_exclusive_sample :
    let ops := [PmmOp.alloc, .allocContiguous 4, .free (frameAddr 512), .alloc]
    let s := (pmmMachine FreesHeld).run (PmmSys.boot sampleEfiMap) ops
    (512 ∈ handedOut (pmmBoot sampleEfiMap) .alloc ∧
      512 ∈ handedOut ((pmmMachine FreesHeld).run (PmmSys.boot sampleEfiMap)
        [.alloc, .allocContiguous 4, .free (frameAddr 512)]).pmm .alloc) ∧
    s.held.Nodup ∧ (∀ f ∈ s.held, ¬ s.pmm.IsFree f) ∧
    (∀ op, FreesHeld s op → (handedOut s.pmm op).Nodup ∧
      ∀ f ∈ handedOut s.pmm op, s.pmm.IsFree f ∧ f ∉ s.held) ∧
    ∀ pre a mid b post f, ops = pre ++ a :: (mid ++ b :: post) →
      f ∈ handedOut ((pmmMachine FreesHeld).run (PmmSys.boot sampleEfiMap) pre).pmm a →
      f ∈ handedOut ((pmmMachine FreesHeld).run (PmmSys.boot sampleEfiMap) (pre ++ a :: mid)).pmm b →
      ∃ addr, PmmOp.free addr ∈ mid ∧ pageIndex addr = f := by
  have hlt : 512 < maxFrames := by
    rw [maxFrames_eq]
    omega
  have hout : ∀ {s : Pmm}, s.IsFree 512 → s.physTotalPages.toNat = 525056 → 512 ∈ handedOut s .alloc := by
    intro s hfree htotal
    rw [handedOut, pmmAlloc_first hfree (by omega), framesAt_frameAddr hlt (by omega)]
    exact List.mem_singleton_self 512
  have hfirst : 512 ∈ handedOut (pmmBoot sampleEfiMap) .alloc :=
    hout ((pmmBoot_isFree _ _).mpr ⟨by omega, (mem_sampleFrames _).mpr (.inl (by omega))⟩) sample_total
  have hagain : 512 ∈ handedOut ((pmmMachine FreesHeld).run (PmmSys.boot sampleEfiMap)
      [.alloc, .allocContiguous 4, .free (frameAddr 512)]).pmm .alloc := by
    refine hout ?_ ((congrArg BitVec.toNat (run_total _ _)).trans sample_total)
    exact (isFree_pmmFree (by rwa [pageIndex_frameAddr hlt]) 512).mpr (.inl (pageIndex_frameAddr hlt).symm)
  have hheld : pageIndex (frameAddr 512) ∈ ((pmmMachine FreesHeld).run (PmmSys.boot sampleEfiMap)
      [.alloc, .allocContiguous 4]).held := by
    rw [pageIndex_frameAddr hlt]
    exact List.mem_append_right _ (List.mem_append_left _ hfirst)
  exact ⟨⟨hfirst, hagain⟩, pmm_exclusive sampleEfiMap [.alloc, .allocContiguous 4, .free (frameAddr 512), .alloc]
    ⟨trivial, show (1 : Nat) ≤ (4#64).toNat by decide, hheld, trivial, trivial⟩⟩

/-! ### Completeness -/

/-- **When `pmm_alloc` is complete.**  It returns `0` only when no frame is free, in
every state of every history, exactly when each usable frame above 2 MB has a number
below the number of usable frames. -/
theorem pmmAlloc_complete_iff (m : UefiMemoryMap) :
    (∀ ops, (pmmMachine FreesGiven).Legal (PmmSys.boot m.toEfiMemoryMap) ops →
      let s := ((pmmMachine FreesGiven).run (PmmSys.boot m.toEfiMemoryMap) ops).pmm
      (∃ p, s.IsFree p) → (pmmAlloc s).1 ≠ 0) ↔
    ∀ p ∈ m.usableFrames, 512 ≤ p → p < m.usableFrames.length := by
  have htotal := m.toNat_total
  constructor
  · intro h p hp h512
    by_contra hge
    -- a frame past the scan is still free when the scan has nothing left
    set s := (pmmMachine FreesGiven).run (PmmSys.boot m.toEfiMemoryMap) (drainOps m.toEfiMemoryMap)
      with hs
    have hl : (pmmMachine FreesGiven).Legal (PmmSys.boot m.toEfiMemoryMap)
        (drainOps m.toEfiMemoryMap) := legal_replicate_alloc _ _
    have hfree : s.pmm.IsFree p := by
      refine (free_or_given (drainOps m.toEfiMemoryMap) (PmmSys.boot m.toEfiMemoryMap)
        (.inl ((pmmBoot_isFree _ p).mpr ⟨h512, hp⟩))).resolve_right fun hg => ?_
      have := ((givenInv_run _ hl).given p hg).2.2
      omega
    refine h _ hl ⟨p, hfree⟩ ?_
    rw [pmmAlloc_drained (drainOps_visible m.toEfiMemoryMap)]
  · intro h ops hl s hp
    obtain ⟨p, hp⟩ := hp
    have hinv := givenInv_run ops hl
    obtain ⟨h512, hmem⟩ := hinv.free p hp
    have hlt := h p hmem h512
    have ht : s.physTotalPages.toNat = m.usableFrames.length :=
      (congrArg BitVec.toNat hinv.total).trans htotal
    exact pmmAlloc_ne_zero (mem_visible.mpr ⟨⟨h512, by omega⟩, hp⟩)

/-- On the sample machine `pmm_alloc` gives up while the 4 MB above 4 GB are free. -/
theorem pmmAlloc_incomplete :
    let s := (pmmMachine FreesGiven).run (PmmSys.boot sampleEfiMap)
      (List.replicate 525056 .alloc)
    (pmmMachine FreesGiven).Legal (PmmSys.boot sampleEfiMap) (List.replicate 525056 .alloc) ∧
      s.pmm.IsFree 1048576 ∧ (pmmAlloc s.pmm).1 = 0 := by
  have htotal := sample_total
  have hops : List.replicate 525056 PmmOp.alloc = drainOps sampleEfiMap := by
    rw [drainOps, htotal]
  have hl := legal_replicate_alloc 525056 (PmmSys.boot sampleEfiMap)
  refine ⟨hl, ?_, ?_⟩
  · refine (free_or_given _ (PmmSys.boot sampleEfiMap) (.inl ((pmmBoot_isFree _ _).mpr
      ⟨by omega, (mem_sampleFrames _).mpr (.inr (by omega))⟩))).resolve_right fun hg => ?_
    have := ((givenInv_run _ hl).given _ hg).2.2
    omega
  · rw [hops, pmmAlloc_drained (drainOps_visible sampleEfiMap)]

/-! ### The kernel image -/

/-- `KERNEL_LOAD_ADDR`, where the linker script starts and the bootloader copies to. -/
def kernelLoadAddr : Nat := 0x100000

/-- Frame `p` meets the part of the kernel image that `phys_bitmap` alone fills. -/
def InKernelImage (p : Nat) : Prop :=
  kernelLoadAddr < (p + 1) * pageSize ∧ p * pageSize < kernelLoadAddr + bitmapSize

theorem inKernelImage_iff (p : Nat) : InKernelImage p ↔ 256 ≤ p ∧ p < 1280 := by
  rw [InKernelImage, show kernelLoadAddr = 1048576 from rfl, bitmapSize_eq, pageSize_eq]
  omega

/-- **When the kernel image is safe.**  No history hands out a frame of the image,
exactly when every usable frame of the image above 2 MB lies past the scan. -/
theorem kernelImage_kept_iff (m : EfiMemoryMap) :
    (∀ ops, (pmmMachine FreesGiven).Legal (PmmSys.boot m) ops →
      ∀ p ∈ ((pmmMachine FreesGiven).run (PmmSys.boot m) ops).given, ¬ InKernelImage p) ↔
    ∀ p ∈ m.usableFrames, 512 ≤ p → p < 1280 → m.usableFrames.length % 2 ^ 64 ≤ p := by
  have htotal : (pmmBoot m).physTotalPages.toNat = m.usableFrames.length % 2 ^ 64 := by
    rw [pmmBoot_total, BitVec.toNat_ofNat]
  constructor
  · intro h p hp h512 h1280
    by_contra hlt
    refine h (drainOps m) (legal_replicate_alloc _ _) p ?_
      ((inKernelImage_iff p).mpr ⟨by omega, h1280⟩)
    refine (free_or_given (drainOps m) (PmmSys.boot m)
      (.inl ((pmmBoot_isFree m p).mpr ⟨h512, hp⟩))).resolve_left fun hfree => ?_
    have hmem := mem_visible.mpr ⟨⟨h512, by rw [run_total]; exact htotal ▸ Nat.lt_of_not_le hlt⟩,
      hfree⟩
    rw [drainOps_visible] at hmem
    simp at hmem
  · intro h ops hl p hp himg
    obtain ⟨h512, hmem, hlt⟩ := (givenInv_run ops hl).given p hp
    have := h p hmem h512 ((inKernelImage_iff p).mp himg).2
    omega

/-- On the sample machine the first frame handed out lies inside the image. -/
theorem kernelImage_given :
    let s := (pmmMachine FreesGiven).run (PmmSys.boot sampleEfiMap) [.alloc]
    512 ∈ s.given ∧ InKernelImage 512 := by
  refine ⟨List.mem_append_left _ ?_, (inKernelImage_iff 512).mpr (by omega)⟩
  show 512 ∈ framesAt (pmmAlloc (pmmBoot sampleEfiMap)).1 1
  rw [pmmAlloc_sample, framesAt_frameAddr (by rw [maxFrames_eq]; omega) (by omega)]
  simp

end AionOs
