import AionOs.Memory.HeapBlocks
import AionOs.Memory.PmmOrder
import AionOs.Memory.VmmFrames
import AionOs.Memory.VmmInit

/-!
# The frames that `memory_init` takes

The kernel reaches its page tables and its heap through the direct map, which ends at
4 GB.  The allocator knows nothing of it.

* `lowestTaken_vmmInit`: `vmm_init` takes the 2054 lowest frames that the scan can see.
* `inDirectMap_iff`: the frames of the kernel are in the direct map exactly on the maps
  with room for the heap below 4 GB that the tables leave free.
-/

namespace AionOs

/-! ### The frames are the lowest ones -/

theorem lowestTaken_getPteLoop {p : Pmm} (v : U64) (level : Nat) (create : Bool) :
    ∀ (k : Nat) (table : U64) (s : Vmm), (∃ n, LowestTaken n p s.pmm) →
      ∃ n, LowestTaken n p (vmmGetPteLoop v level create k table s).2.pmm := by
  intro k
  induction k with
  | zero => intro table s h; exact h
  | succ k ih =>
    intro table s h
    rw [vmmGetPteLoop]
    split
    · split
      · obtain ⟨n, hn⟩ := h
        have hnext : ∃ n, LowestTaken n p (pmmAlloc s.pmm).2 := by
          rcases hn.alloc with ⟨_, he⟩ | ⟨_, h'⟩
          · exact ⟨n, he.symm ▸ hn⟩
          · exact ⟨n + 1, h'⟩
        dsimp only
        split
        · exact hnext
        · exact ih _ _ hnext
      · exact h
    · exact ih _ _ h

theorem lowestTaken_step {p : Pmm} {s : VmmSys} (h : ∃ n, LowestTaken n p s.vmm.pmm) (op : VmmOp) :
    ∃ n, LowestTaken n p (s.step op).vmm.pmm := by
  cases op with
  | map v phys flags =>
    have hwalk : ∃ n, LowestTaken n p (vmmGetPte s.vmm s.pml4 v 1 true).2.pmm :=
      lowestTaken_getPteLoop v 1 true _ _ s.vmm h
    show ∃ n, LowestTaken n p (vmmMap s.vmm s.pml4 v phys flags).2.pmm
    rw [vmmMap_fst_snd]
    split
    · exact hwalk
    · exact hwalk
  | unmap v =>
    show ∃ n, LowestTaken n p (vmmUnmap s.vmm s.pml4 v).pmm
    rw [vmmUnmap_find]
    split
    · exact h
    · exact h

/-- What any calls of `vmm_map` and `vmm_unmap` took are the lowest frames. -/
theorem lowestTaken_run {p : Pmm} (ops : List VmmOp) (s : VmmSys)
    (h : ∃ n, LowestTaken n p s.vmm.pmm) : ∃ n, LowestTaken n p (vmmMachine.run s ops).vmm.pmm :=
  Machine.run_keeps (I := fun t : VmmSys => ∃ n, LowestTaken n p t.vmm.pmm)
    (fun _ op ht => lowestTaken_step ht op) ops h

/-! ### The paths of the first 4 GB -/

/-- The paths to the tables below the root that the first 4 GB need. -/
def lowPaths : Finset (List Idx) :=
  {[0]} ∪ ((Finset.range 4).image (fun j => [0, BitVec.ofNat 9 j]) ∪
    (Finset.range 2048).image fun j => [0, BitVec.ofNat 9 (j / 512), BitVec.ofNat 9 j])

theorem card_lowPaths : lowPaths.card = 2053 := by
  have h2 : ((Finset.range 4).image fun j => ([0, BitVec.ofNat 9 j] : List Idx)).card = 4 := by
    rw [Finset.card_image_of_injOn, Finset.card_range]
    intro i hi j hj he
    have hi' := Finset.mem_range.mp hi
    have hj' := Finset.mem_range.mp hj
    injection he with _ he
    injection he with he _
    have := congrArg BitVec.toNat he
    rw [BitVec.toNat_ofNat, BitVec.toNat_ofNat] at this
    omega
  have h3 : ((Finset.range 2048).image fun j =>
      ([0, BitVec.ofNat 9 (j / 512), BitVec.ofNat 9 j] : List Idx)).card = 2048 := by
    rw [Finset.card_image_of_injOn, Finset.card_range]
    intro i hi j hj he
    have hi' := Finset.mem_range.mp hi
    have hj' := Finset.mem_range.mp hj
    injection he with _ he
    injection he with he1 he
    injection he with he2 _
    have h1 := congrArg BitVec.toNat he1
    have h2 := congrArg BitVec.toNat he2
    rw [BitVec.toNat_ofNat, BitVec.toNat_ofNat] at h1 h2
    omega
  rw [lowPaths, Finset.card_union_of_disjoint, Finset.card_union_of_disjoint, h2, h3,
    Finset.card_singleton]
  · rw [Finset.disjoint_left]
    intro π h h'
    obtain ⟨i, _, rfl⟩ := Finset.mem_image.mp h
    obtain ⟨j, _, he⟩ := Finset.mem_image.mp h'
    exact absurd (congrArg List.length he) (by simp)
  · rw [Finset.disjoint_left]
    intro π h h'
    rw [Finset.mem_singleton.mp h] at h'
    rcases Finset.mem_union.mp h' with h' | h'
    · obtain ⟨j, _, he⟩ := Finset.mem_image.mp h'
      exact absurd (congrArg List.length he) (by simp)
    · obtain ⟨j, _, he⟩ := Finset.mem_image.mp h'
      exact absurd (congrArg List.length he) (by simp)

theorem path_of_lt_directPages {i : Nat} (h : i < directPages) :
    path (frameAddr i) = [0, BitVec.ofNat 9 (i / 512 / 512), BitVec.ofNat 9 (i / 512)] := by
  rw [directPages_eq] at h
  have ha : (frameAddr i).toNat = i * 4096 := toNat_frameAddr (by rw [maxFrames_eq]; omega)
  have h4 : idx (frameAddr i) 4 = 0 := by
    refine BitVec.eq_of_toNat_eq ?_
    rw [toNat_idx, ha]
    show _ = 0
    omega
  have h3 : idx (frameAddr i) 3 = BitVec.ofNat 9 (i / 512 / 512) := by
    refine BitVec.eq_of_toNat_eq ?_
    rw [toNat_idx, ha, BitVec.toNat_ofNat]
    omega
  have h2 : idx (frameAddr i) 2 = BitVec.ofNat 9 (i / 512) := by
    refine BitVec.eq_of_toNat_eq ?_
    rw [toNat_idx, ha, BitVec.toNat_ofNat]
    omega
  show [idx _ 4, idx _ 3, idx _ 2] = _
  rw [h4, h3, h2]

theorem mem_lowPaths {π : List Idx} :
    π ∈ lowPaths ↔ π ≠ [] ∧ ∃ i < directPages, π <+: path (frameAddr i) := by
  have hn := directPages_eq
  rw [lowPaths, Finset.mem_union, Finset.mem_union, Finset.mem_singleton, Finset.mem_image,
    Finset.mem_image]
  constructor
  · rintro (rfl | ⟨j, hj, rfl⟩ | ⟨j, hj, rfl⟩)
    · refine ⟨by simp, 0, by omega, ?_⟩
      rw [path_of_lt_directPages (by omega)]
      exact ⟨_, rfl⟩
    · have hj' := Finset.mem_range.mp hj
      refine ⟨by simp, 262144 * j, by omega, ?_⟩
      rw [path_of_lt_directPages (by omega), show 262144 * j / 512 / 512 = j by omega]
      exact ⟨_, rfl⟩
    · have hj' := Finset.mem_range.mp hj
      refine ⟨by simp, 512 * j, by omega, ?_⟩
      rw [path_of_lt_directPages (by omega), show 512 * j / 512 = j by omega]
  · rintro ⟨hne, i, hi, hpre⟩
    rw [path_of_lt_directPages hi] at hpre
    -- one case for each length
    match π, hne, hpre with
    | [a], _, hpre =>
      rw [List.cons_prefix_cons] at hpre
      exact .inl (by rw [hpre.1])
    | [a, b], _, hpre =>
      rw [List.cons_prefix_cons, List.cons_prefix_cons] at hpre
      refine .inr (.inl ⟨i / 512 / 512, Finset.mem_range.mpr (by omega), ?_⟩)
      rw [hpre.1, hpre.2.1]
    | [a, b, c], _, hpre =>
      rw [List.cons_prefix_cons, List.cons_prefix_cons, List.cons_prefix_cons] at hpre
      refine .inr (.inr ⟨i / 512, Finset.mem_range.mpr (by omega), ?_⟩)
      rw [hpre.1, hpre.2.1, hpre.2.2.1]
    | a :: b :: c :: d :: ρ, _, hpre =>
      exact absurd hpre.length_le (by simp)

/-! ### The frames of the tables -/

theorem tableAt_vmmInit_iff {s : Vmm} (h : VmmInitSucceeds s) {π : List Idx} (hlen : π.length ≤ 3) :
    tableAt (vmmInit s).mem (vmmInit s).kernelPml4 π ≠ none ↔
      ∃ i < directPages, π <+: path (frameAddr i) := by
  have hlt : directPages < maxFrames := by rw [directPages_eq, maxFrames_eq]; omega
  obtain ⟨hvmm, hroot⟩ := vmmInit_run h.1
  obtain ⟨htables, _⟩ := tablesBelow_vmmInit h.1
  constructor
  · intro hπ
    rw [hroot, hvmm] at hπ
    exact htables.paths π hlen hπ
  · rintro ⟨i, hi, ρ, hρ⟩ hnone
    -- without this table there is no entry for page `i`
    have hpath : tableAt (vmmInit s).mem (vmmInit s).kernelPml4 (path (frameAddr i)) = none := by
      rw [← hρ, tableAt, PathTree.walk_append]
      rw [tableAt] at hnone
      rw [hnone, Option.bind_none]
    have htree : TreeInv (vmmInit s).kernelPml4 (vmmInit s) := by
      rw [hroot, hvmm]
      exact htables.tree
    have hentry := vmmInit_entries h (frameAddr i)
    rw [kernelEntry_eq htree, entryOf_none hpath, pageKey_frameAddr (by omega), if_pos hi,
      ← leafEntry_directFlags (by omega)] at hentry
    exact leafEntry_present (frameAddr i) directFlags (by rw [← hentry]; decide)

/-- **`vmm_init` takes the 2054 lowest frames**: one for the root and one for each table
of the first 4 GB. -/
theorem lowestTaken_vmmInit {s : Vmm} (h : VmmInitSucceeds s) :
    LowestTaken 2054 s.pmm (vmmInit s).pmm := by
  obtain ⟨hvmm, hroot⟩ := vmmInit_run h.1
  have hfirst : LowestTaken 1 s.pmm (pmmAlloc s.pmm).2 :=
    ((LowestTaken.refl s.pmm).alloc.resolve_left fun h' => h.1 h'.1).2
  obtain ⟨k, hk⟩ : ∃ k, LowestTaken k s.pmm (vmmInit s).pmm := by
    rw [hvmm]
    exact lowestTaken_run vmmInitOps (VmmSys.startKernel s) ⟨1, hfirst⟩
  obtain ⟨j, hj⟩ : ∃ j, LowestTaken j (pmmAlloc s.pmm).2 (vmmInit s).pmm := by
    rw [hvmm]
    exact lowestTaken_run vmmInitOps (VmmSys.startKernel s) ⟨0, LowestTaken.refl _⟩
  have hinv : FramesInv (pmmAlloc s.pmm).2 (vmmInit s).kernelPml4 (vmmInit s) := by
    rw [hroot, hvmm]
    exact framesInv_run vmmInitOps (VmmSys.startKernel s)
      (framesInv_start (s := { s with kernelPml4 := (pmmAlloc s.pmm).1 }) h.1)
  -- the frames taken after the root are the tables at the paths of the first 4 GB
  have htable : ∀ π ∈ lowPaths, π.length ≤ 3 ∧ ∃ f < maxFrames,
      tableAt (vmmInit s).mem (vmmInit s).kernelPml4 π = some (frameAddr f) := by
    intro π hπ
    obtain ⟨_, i, hi, hpre⟩ := mem_lowPaths.mp hπ
    have hlen : π.length ≤ 3 := length_path (frameAddr i) ▸ hpre.length_le
    obtain ⟨n, hn⟩ := Option.ne_none_iff_exists'.mp ((tableAt_vmmInit_iff h hlen).mpr ⟨i, hi, hpre⟩)
    obtain ⟨f, hf, rfl, _⟩ := hinv.tree.node π n hlen hn
    exact ⟨hlen, f, hf, hn⟩
  choose! hlen g hg hat using htable
  have himage : (pmmAlloc s.pmm).2.visible \ (vmmInit s).pmm.visible = lowPaths.image g := by
    ext f
    rw [hj.mem_taken_iff, Finset.mem_image]
    constructor
    · intro hf
      obtain ⟨π, hne, hπlen, hπ⟩ := (hinv.given f hf.1.lt).mp hf
      have hmem : π ∈ lowPaths := mem_lowPaths.mpr
        ⟨hne, (tableAt_vmmInit_iff h hπlen).mp (by rw [hπ]; exact Option.some_ne_none _)⟩
      have hsame : some (frameAddr (g π)) = some (frameAddr f) := (hat π hmem).symm.trans hπ
      exact ⟨π, hmem, frameAddr_inj (hg π hmem) hf.1.lt (Option.some.inj hsame)⟩
    · rintro ⟨π, hπ, rfl⟩
      exact (hinv.given (g π) (hg π hπ)).mpr ⟨π, (mem_lowPaths.mp hπ).1, hlen π hπ, hat π hπ⟩
  have hinj : Set.InjOn g lowPaths := by
    intro π hπ ρ hρ he
    exact hinv.tree.tree π ρ _ (hlen π hπ) (hlen ρ hρ) (hat π hπ) (he ▸ hat ρ hρ)
  have hj' : j = 2053 := by
    rw [← hj.card_taken, himage, Finset.card_image_of_injOn hinj, card_lowPaths]
  have h1 := hfirst.card
  have h2 := hj.card
  have h3 := hk.card
  obtain rfl : k = 2054 := by omega
  exact hk

/-! ### `memory_init` -/

/-- The memory manager after `pmm_init`, on a memory with the contents `mem`. -/
def Vmm.boot (mem : U64 → U64) (m : EfiMemoryMap) : Vmm := ⟨mem, pmmBoot m, 0⟩

def memoryInit (mem : U64 → U64) (m : EfiMemoryMap) : Vmm × Heap :=
  let s := vmmInit (Vmm.boot mem m)
  let r := kmallocInit s.pmm Heap.bss
  ({ s with pmm := r.2 }, r.1)

def heapPages : U64 := BitVec.ofNat 64 (heapInitialSize / pageSize)

/-- `memory_init` runs without its FATAL branches. -/
structure NoFatal (mem : U64 → U64) (m : EfiMemoryMap) : Prop where
  pml4 : (pmmAlloc (Vmm.boot mem m).pmm).1 ≠ 0
  heap : (pmmAllocContiguous (vmmInit (Vmm.boot mem m)).pmm heapPages).1 ≠ 0

/-- Frame `f` is below 4 GB, and `phys + VIRT_PHYS_MAP_BASE` is mapped to it. -/
def Vmm.Reaches (s : Vmm) (f : Nat) : Prop :=
  f < directPages ∧ kernelEntry s (virtPhysMapBase + frameAddr f) &&& ptePresent ≠ 0 ∧
    kernelEntry s (virtPhysMapBase + frameAddr f) &&& pteAddrMask = frameAddr f

/-- The kernel reaches its page tables and its heap. -/
structure InDirectMap (mem : U64 → U64) (m : EfiMemoryMap) : Prop where
  tables : ∀ f, TakenBetween (pmmBoot m) (vmmInit (Vmm.boot mem m)).pmm f →
    (memoryInit mem m).1.Reaches f
  heap : ∀ f ∈ handedOut (vmmInit (Vmm.boot mem m)).pmm (.allocContiguous heapPages),
    (memoryInit mem m).1.Reaches f

def EfiMemoryMap.scanned (m : EfiMemoryMap) : Finset Nat :=
  (Finset.Ico 512 (m.usableFrames.length % 2 ^ 64)).filter (· ∈ m.usableFrames)

/-- 16 MB in a row below 4 GB, with 2054 scanned frames below. -/
def EfiMemoryMap.LowRun (m : EfiMemoryMap) : Prop :=
  ∃ i, i + 4096 ≤ directPages ∧ (∀ f, i ≤ f → f < i + 4096 → f ∈ m.scanned) ∧
    2054 ≤ (m.scanned.filter (· < i)).card

theorem toNat_heapPages : heapPages.toNat = 4096 := by decide

theorem visible_pmmBoot (m : EfiMemoryMap) : (pmmBoot m).visible = m.scanned := by
  ext f
  rw [mem_visible, pmmBoot_isFree, pmmBoot_total, BitVec.toNat_ofNat, EfiMemoryMap.scanned,
    Finset.mem_filter, Finset.mem_Ico]
  exact and_congr_right fun h => and_iff_right h.1

theorem Pmm.fits_iff_visible {s : Pmm} {i n : Nat} (hn : 0 < n) :
    s.Fits i n ↔ ∀ f, i ≤ f → f < i + n → f ∈ s.visible := by
  constructor
  · intro h f h1 h2
    have hlo := h.lo
    have hhi := h.hi
    exact mem_visible.mpr ⟨⟨by omega, by omega⟩, h.free f h1 h2⟩
  · intro h
    have hfirst := mem_visible.mp (h i (Nat.le_refl i) (by omega))
    have hlast := mem_visible.mp (h (i + n - 1) (by omega) (by omega))
    exact ⟨hfirst.1.1, by omega, fun f h1 h2 => (mem_visible.mp (h f h1 h2)).2⟩

theorem kernelEntry_pmm (s : Vmm) (q : Pmm) (v : U64) :
    kernelEntry { s with pmm := q } v = kernelEntry s v := by
  rw [kernelEntry, vmmGetPte_find, kernelEntry, vmmGetPte_find]

theorem reaches_iff {mem : U64 → U64} {m : EfiMemoryMap} (h : VmmInitSucceeds (Vmm.boot mem m))
    (f : Nat) : (memoryInit mem m).1.Reaches f ↔ f < directPages := by
  have hlt : directPages < maxFrames := by rw [directPages_eq, maxFrames_eq]; omega
  refine ⟨fun hf => hf.1, fun hf => ⟨hf, ?_⟩⟩
  have hentry : kernelEntry (memoryInit mem m).1 (virtPhysMapBase + frameAddr f) =
      leafEntry (frameAddr f) directFlags := by
    rw [memoryInit, kernelEntry_pmm, vmmInit_entries h]
    have hkey : (pageKey (virtPhysMapBase + frameAddr f)).toNat = f := pageKey_directAddr (by omega)
    rw [hkey, if_pos hf, leafEntry_directFlags (by omega)]
  rw [hentry]
  refine ⟨leafEntry_present _ _, ?_⟩
  rw [leafEntry_addr (by decide), frameAddr_and_mask (by omega)]

theorem NoFatal.heapRun {mem : U64 → U64} {m : EfiMemoryMap} (h : NoFatal mem m) :
    ∃ i, handedOut (vmmInit (Vmm.boot mem m)).pmm (.allocContiguous heapPages) =
        List.range' i 4096 ∧ (vmmInit (Vmm.boot mem m)).pmm.Fits i 4096 ∧
      ∀ j < i, ¬ (vmmInit (Vmm.boot mem m)).pmm.Fits j 4096 := by
  rcases pmmAllocContiguous_cases (vmmInit (Vmm.boot mem m)).pmm heapPages with
    ⟨he, _⟩ | ⟨i, he, _, hfit, hleast⟩
  · exact absurd (by rw [he]) h.heap
  · rw [toNat_heapPages] at hfit hleast
    refine ⟨i, ?_, hfit, hleast⟩
    rw [handedOut, he, toNat_heapPages]
    exact hfit.framesAt (by omega)

/-- A frame is left for the heap, so no call of `vmm_map` failed before. -/
theorem NoFatal.succeeds {mem : U64 → U64} {m : EfiMemoryMap} (h : NoFatal mem m) :
    VmmInitSucceeds (Vmm.boot mem m) := by
  obtain ⟨i, _, hfit, _⟩ := h.heapRun
  obtain ⟨hvmm, _⟩ := vmmInit_run h.pml4
  refine (tablesBelow_vmmInit h.pml4).2 fun hempty => ?_
  have hi := (Pmm.fits_iff_visible (by omega)).mp hfit i (Nat.le_refl i) (by omega)
  rw [hvmm, hempty] at hi
  exact absurd hi (Finset.notMem_empty i)

theorem fits_vmmInit_iff {mem : U64 → U64} {m : EfiMemoryMap}
    (h : VmmInitSucceeds (Vmm.boot mem m)) (i : Nat) :
    (vmmInit (Vmm.boot mem m)).pmm.Fits i 4096 ↔
      (∀ f, i ≤ f → f < i + 4096 → f ∈ m.scanned) ∧ 2054 ≤ (m.scanned.filter (· < i)).card := by
  have hlowest : LowestTaken 2054 (pmmBoot m) (vmmInit (Vmm.boot mem m)).pmm :=
    lowestTaken_vmmInit h
  rw [hlowest.fits_iff (by omega), Pmm.fits_iff_visible (by omega), Pmm.below, visible_pmmBoot]

theorem InDirectMap.lowRun {mem : U64 → U64} {m : EfiMemoryMap} (h : NoFatal mem m)
    (hmap : InDirectMap mem m) : m.LowRun := by
  obtain ⟨i, hrun, hfit, _⟩ := h.heapRun
  have hlast := (hmap.heap (i + 4095) (by rw [hrun, List.mem_range'_1]; omega)).1
  exact ⟨i, by omega, (fits_vmmInit_iff h.succeeds i).mp hfit⟩

theorem EfiMemoryMap.LowRun.inDirectMap {mem : U64 → U64} {m : EfiMemoryMap} (h : NoFatal mem m)
    (hlow : m.LowRun) : InDirectMap mem m := by
  obtain ⟨i, hi, hrun⟩ := hlow
  have hfit := (fits_vmmInit_iff h.succeeds i).mpr hrun
  obtain ⟨j, hheap, hfitj, hleast⟩ := h.heapRun
  have hji : j ≤ i := Nat.le_of_not_lt fun hlt => hleast i hlt hfit
  have hlowest : LowestTaken 2054 (pmmBoot m) (vmmInit (Vmm.boot mem m)).pmm :=
    lowestTaken_vmmInit h.succeeds
  constructor
  · -- the tables are below the heap
    intro f hf
    have hj := (Pmm.fits_iff_visible (by omega)).mp hfitj j (Nat.le_refl j) (by omega)
    have := hlowest.lowest f j hf.1 hf.2 hj
    exact (reaches_iff h.succeeds f).mpr (by omega)
  · intro f hf
    rw [hheap, List.mem_range'_1] at hf
    exact (reaches_iff h.succeeds f).mpr (by omega)

/-- **When the kernel can reach what it allocates.**  The page tables and the heap are in
the direct map exactly on the maps with 16 MB in a row below 4 GB which the 2054 frames
of the page tables leave free. -/
theorem inDirectMap_iff (mem : U64 → U64) (m : EfiMemoryMap) (h : NoFatal mem m) :
    InDirectMap mem m ↔ m.LowRun :=
  ⟨fun hmap => hmap.lowRun h, fun hlow => hlow.inDirectMap h⟩

/-! ### Two machines -/

theorem noFatal_of_run {m : EfiMemoryMap} (mem : U64 → U64) (hmany : 10000 ≤ m.scanned.card) {i : Nat}
    (hrun : ∀ f, i ≤ f → f < i + 4096 → f ∈ m.scanned)
    (hbelow : 2054 ≤ (m.scanned.filter (· < i)).card) : NoFatal mem m := by
  have hcard : 10000 ≤ (Vmm.boot mem m).pmm.visible.card := by
    rw [Vmm.boot, visible_pmmBoot]
    exact hmany
  have hok : VmmInitSucceeds (Vmm.boot mem m) := by
    refine vmmInit_succeeds _ ?_
    rw [directPages_eq]
    omega
  have hfit := (fits_vmmInit_iff hok i).mpr ⟨hrun, hbelow⟩
  refine ⟨hok.1, ?_⟩
  rcases pmmAllocContiguous_cases (vmmInit (Vmm.boot mem m)).pmm heapPages with
    ⟨_, hnone⟩ | ⟨j, he, _, hfitj, _⟩
  · rw [toNat_heapPages] at hnone
    exact absurd hfit (hnone (by omega) i)
  · rw [toNat_heapPages] at hfitj
    rw [he]
    exact frameAddr_ne_zero (hfitj.lt (Nat.le_refl j) (by omega)) (by have := hfitj.lo; omega)

theorem mem_clearScanned (f : Nat) : f ∈ clearEfiMap.scanned ↔ 2048 ≤ f ∧ f < 522240 := by
  rw [← visible_pmmBoot, mem_clearVisible]

theorem noFatal_clear : NoFatal (fun _ => 0) clearEfiMap := by
  have hsub : ∀ i, i ≤ 522240 → Finset.Ico 2048 i ⊆ clearEfiMap.scanned.filter (· < i) := by
    intro i hi f hf
    rw [Finset.mem_Ico] at hf
    exact Finset.mem_filter.mpr ⟨(mem_clearScanned f).mpr (by omega), hf.2⟩
  refine noFatal_of_run (i := 20000) _ ?_ (fun f h1 h2 => (mem_clearScanned f).mpr (by omega)) ?_
  · have := Finset.card_le_card ((hsub 20000 (by omega)).trans (Finset.filter_subset _ _))
    rw [Nat.card_Ico] at this
    omega
  · have := Finset.card_le_card (hsub 20000 (by omega))
    rw [Nat.card_Ico] at this
    omega

theorem inDirectMap_iff_clear : NoFatal (fun _ => 0) clearEfiMap ∧
    (InDirectMap (fun _ => 0) clearEfiMap ↔ clearEfiMap.LowRun) :=
  ⟨noFatal_clear, inDirectMap_iff _ clearEfiMap noFatal_clear⟩

/-- Two packed descriptors: 2100 pages of conventional memory at 8 MB, and 8 GB at 4 GB. -/
def splitBytes : List U8 :=
  [7, 0, 0, 0, 0, 0, 0, 0,  0, 0, 0x80, 0, 0, 0, 0, 0,  0, 0, 0, 0, 0, 0, 0, 0,
   0x34, 8, 0, 0, 0, 0, 0, 0,  0, 0, 0, 0, 0, 0, 0, 0,
   7, 0, 0, 0, 0, 0, 0, 0,  0, 0, 0, 0, 1, 0, 0, 0,  0, 0, 0, 0, 0, 0, 0, 0,
   0, 0, 0x20, 0, 0, 0, 0, 0,  0, 0, 0, 0, 0, 0, 0, 0]

def splitEfiMap : EfiMemoryMap where
  bytes a := splitBytes.getD a.toNat 0
  mmapAddr := 0
  mmapSize := 80
  descSize := 40

theorem split_descriptors : splitEfiMap.descriptors =
    [⟨7, 0x800000, 2100⟩, ⟨7, 0x100000000, 0x200000⟩] := by decide

def splitMap : UefiMemoryMap where
  toEfiMemoryMap := splitEfiMap
  noWrap := by rw [split_descriptors]; decide
  disjoint := by
    rw [split_descriptors, List.pairwise_pair]
    rintro a ⟨⟨_, h1⟩, h2, _⟩
    simp only [BitVec.ofNat_eq_ofNat, BitVec.toNat_ofNat] at h1 h2
    omega

theorem mem_splitFrames (p : Nat) :
    p ∈ splitMap.usableFrames ↔ 2048 ≤ p ∧ p < 4148 ∨ 1048576 ≤ p ∧ p < 3145728 := by
  have hd : splitMap.descriptors = _ := split_descriptors
  rw [UefiMemoryMap.mem_two hd, maxFrames_eq]
  simp only [BitVec.ofNat_eq_ofNat, BitVec.toNat_ofNat]
  omega

theorem length_splitFrames : splitMap.usableFrames.length = 2099252 := by
  have hlow : 4148 ≤ 1048576 := by omega
  rw [UefiMemoryMap.length_two hlow mem_splitFrames]

theorem mem_splitScanned (f : Nat) :
    f ∈ splitEfiMap.scanned ↔ 2048 ≤ f ∧ f < 4148 ∨ 1048576 ≤ f ∧ f < 2099252 := by
  have hlen : splitEfiMap.usableFrames.length = 2099252 := length_splitFrames
  have hmem : f ∈ splitEfiMap.usableFrames ↔ _ := mem_splitFrames f
  rw [EfiMemoryMap.scanned, Finset.mem_filter, Finset.mem_Ico, hlen, hmem]
  omega

/-- With little more than the page tables below 4 GB the heap is above, where nothing is
mapped. -/
theorem heap_above_directMap :
    NoFatal (fun _ => 0) splitEfiMap ∧ ¬ InDirectMap (fun _ => 0) splitEfiMap := by
  have hsub : Finset.Ico 2048 4148 ⊆ splitEfiMap.scanned.filter (· < 1048576) := by
    intro f hf
    rw [Finset.mem_Ico] at hf
    exact Finset.mem_filter.mpr ⟨(mem_splitScanned f).mpr (by omega), by omega⟩
  have hmany : Finset.Ico 1048576 2099252 ⊆ splitEfiMap.scanned := by
    intro f hf
    rw [Finset.mem_Ico] at hf
    exact (mem_splitScanned f).mpr (by omega)
  have hsub' := Finset.card_le_card hsub
  have hmany' := Finset.card_le_card hmany
  rw [Nat.card_Ico] at hsub' hmany'
  have hok : NoFatal (fun _ => 0) splitEfiMap :=
    noFatal_of_run (i := 1048576) _ (by omega)
      (fun f h1 h2 => (mem_splitScanned f).mpr (by omega)) (by omega)
  refine ⟨hok, fun hmap => ?_⟩
  obtain ⟨i, hi, hrun, _⟩ := hmap.lowRun hok
  rw [directPages_eq] at hi
  have hfirst := (mem_splitScanned _).mp (hrun i (Nat.le_refl i) (by omega))
  have hlast := (mem_splitScanned _).mp (hrun (i + 4095) (by omega) (by omega))
  omega

end AionOs
