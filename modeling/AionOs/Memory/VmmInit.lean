import AionOs.Memory.VmmRefine

/-!
# The address space that `vmm_init` leaves

`vmm_init` is a run of `vmm_map` calls, so its result is read off the map of pages that
the run leaves.

* `vmmInit_run`: the two loops are the run.
* `vmmInit_entries`: the entry of every page.
* `vmmInit_succeeds`: enough free frames make every call succeed.
* `vmmInit_not_initial`: the identity map is lost.  The walk looks at bits 47..12, and
  bits 47..39 of `VIRT_PHYS_MAP_BASE` are zero, so the direct map falls on the same
  entries.
-/

namespace AionOs

/-! ### The run of `vmm_init` -/

def mapOps (va ph : Nat → U64) (flags : U64) (n : Nat) : List VmmOp :=
  (List.range n).map fun i => .map (va i) (ph i) flags

def identityFlags : U64 := ptePresent ||| pteWritable ||| pteGlobal

def directFlags : U64 := ptePresent ||| pteWritable ||| pteNx ||| pteGlobal

def directAddr (i : Nat) : U64 := virtPhysMapBase + frameAddr i

def vmmInitOps : List VmmOp :=
  mapOps frameAddr frameAddr identityFlags identityPages ++
    mapOps directAddr frameAddr directFlags directPages

/-- The machine when `kernel_pml4` is allocated and zeroed. -/
def VmmSys.startKernel (s : Vmm) : VmmSys :=
  VmmSys.start { s with kernelPml4 := (pmmAlloc s.pmm).1 }

/-- All the `pmm_alloc` calls of `vmm_init` succeed: the one for the root, and those of
the `vmm_map` calls, which return `-1` when theirs fails. -/
def VmmInitSucceeds (s : Vmm) : Prop :=
  (pmmAlloc s.pmm).1 ≠ 0 ∧ ∀ c ∈ (vmmMachine.run (VmmSys.startKernel s) vmmInitOps).log, c.2 = 0

theorem vmmGetPteLoop_kernelPml4 (v : U64) (level : Nat) (create : Bool) : ∀ (k : Nat) (table : U64)
    (s : Vmm), (vmmGetPteLoop v level create k table s).2.kernelPml4 = s.kernelPml4 := by
  intro k
  induction k with
  | zero => intro table s; rfl
  | succ k ih =>
    intro table s
    rw [vmmGetPteLoop]
    split
    · split
      · dsimp only
        split
        · rfl
        · rw [ih]
      · rfl
    · rw [ih]

theorem vmmMap_kernelPml4 (s : Vmm) (root v phys flags : U64) :
    (vmmMap s root v phys flags).2.kernelPml4 = s.kernelPml4 := by
  have h : (vmmGetPte s root v 1 true).2.kernelPml4 = s.kernelPml4 :=
    vmmGetPteLoop_kernelPml4 v 1 true _ _ s
  rw [vmmMap_fst_snd]
  split
  · exact h
  · exact h

theorem foldl_vmmMap (va ph : Nat → U64) (flags : U64) : ∀ (l : List Nat) (s : VmmSys),
    s.vmm.kernelPml4 = s.pml4 →
    let t := vmmMachine.run s (l.map fun i => .map (va i) (ph i) flags)
    l.foldl (fun s i => (vmmMap s s.kernelPml4 (va i) (ph i) flags).2) s.vmm = t.vmm ∧
      t.vmm.kernelPml4 = t.pml4 := by
  intro l
  induction l with
  | nil => intro s h; exact ⟨rfl, h⟩
  | cons i l ih =>
    intro s h
    rw [List.foldl_cons, List.map_cons, Machine.run_cons, h]
    exact ih (s.step (.map (va i) (ph i) flags)) ((vmmMap_kernelPml4 _ _ _ _ _).trans h)

theorem vmmInit_of_root {s : Vmm} (h : (pmmAlloc s.pmm).1 ≠ 0) :
    vmmInit s = vmmDirectMap (vmmIdentityMap (VmmSys.startKernel s).vmm) := by
  rw [vmmInit]
  exact if_neg h

/-- **`vmm_init` is the run.** -/
theorem vmmInit_run {s : Vmm} (h : (pmmAlloc s.pmm).1 ≠ 0) :
    let t := vmmMachine.run (VmmSys.startKernel s) vmmInitOps
    vmmInit s = t.vmm ∧ (vmmInit s).kernelPml4 = t.pml4 := by
  intro t
  have ht : t = vmmMachine.run (vmmMachine.run (VmmSys.startKernel s)
      (mapOps frameAddr frameAddr identityFlags identityPages))
      (mapOps directAddr frameAddr directFlags directPages) := Machine.run_append _ _ _ _
  obtain ⟨h1, h2⟩ := foldl_vmmMap frameAddr frameAddr identityFlags (List.range identityPages)
    (VmmSys.startKernel s) rfl
  obtain ⟨h3, h4⟩ := foldl_vmmMap directAddr frameAddr directFlags (List.range directPages) _ h2
  have hid : vmmIdentityMap (VmmSys.startKernel s).vmm = _ := h1
  have hvmm : vmmInit s = t.vmm := by
    rw [vmmInit_of_root h, ht, hid]
    exact h3
  refine ⟨hvmm, ?_⟩
  rw [hvmm, ht]
  exact h4

/-! ### The map of pages it leaves -/

theorem log_suffix_run (ops : List VmmOp) (s : VmmSys) : s.log <:+ (vmmMachine.run s ops).log := by
  refine Machine.run_keeps (I := fun t : VmmSys => s.log <:+ t.log) (fun t op h => h.trans ?_) ops
    List.suffix_rfl
  cases op with
  | map v p f => exact List.suffix_cons _ _
  | unmap v => exact List.suffix_cons _ _

/-- A loop that maps pages `0, 1, …` and never fails leaves page `i` mapped as in round
`i`, and the other pages as they were. -/
theorem mappingOf_mapOps {va ph : Nat → U64} {flags : U64} {n : Nat}
    (hva : ∀ i < n, (pageKey (va i)).toNat = i) (s : VmmSys)
    (hok : ∀ c ∈ (vmmMachine.run s (mapOps va ph flags n)).log, c.2 = 0) (key : U64) :
    mappingOf key (vmmMachine.run s (mapOps va ph flags n)).log =
      if key.toNat < n then some (ph key.toNat, flags) else mappingOf key s.log := by
  induction n with
  | zero => rw [if_neg (Nat.not_lt_zero _)]; rfl
  | succ n ih =>
    have hops : mapOps va ph flags (n + 1) = mapOps va ph flags n ++ [.map (va n) (ph n) flags] := by
      rw [mapOps, List.range_succ, List.map_append]
      rfl
    rw [hops, Machine.run_concat] at hok ⊢
    set t := vmmMachine.run s (mapOps va ph flags n) with ht
    have hlog : (vmmMachine.step t (.map (va n) (ph n) flags)).log =
        (.map (va n) (ph n) flags, (vmmMap t.vmm t.pml4 (va n) (ph n) flags).1) :: t.log := rfl
    rw [hlog] at hok ⊢
    have hzero := hok _ List.mem_cons_self
    rw [mappingOf]
    by_cases hk : key = pageKey (va n)
    · have hkn : key.toNat = n := hk ▸ hva n (by omega)
      rw [if_pos ⟨hk, hzero⟩, hkn, if_pos (by omega)]
    · have hkn : key.toNat ≠ n := fun he =>
        hk (BitVec.eq_of_toNat_eq (he.trans (hva n (by omega)).symm))
      rw [if_neg (fun hc => hk hc.1), ih (fun i hi => hva i (by omega))
        (fun c hc => hok c (List.mem_cons_of_mem _ hc))]
      exact if_congr (by omega) rfl rfl

theorem pageKey_frameAddr {i : Nat} (h : i < maxFrames) : (pageKey (frameAddr i)).toNat = i := by
  rw [toNat_pageKey, toNat_frameAddr h]
  rw [maxFrames_eq] at h
  omega

/-- **The direct map has the page numbers of the identity map**: the top 16 bits of
`VIRT_PHYS_MAP_BASE` are past the bits that the walk looks at. -/
theorem pageKey_directAddr {i : Nat} (h : i < maxFrames) : (pageKey (directAddr i)).toNat = i := by
  have hb : virtPhysMapBase.toNat = 0xFFFF000000000000 := rfl
  rw [toNat_pageKey, directAddr, BitVec.toNat_add, toNat_frameAddr h, hb]
  rw [maxFrames_eq] at h
  omega

theorem mappingOf_vmmInit {s : Vmm} (h : VmmInitSucceeds s) (key : U64) :
    mappingOf key (vmmMachine.run (VmmSys.startKernel s) vmmInitOps).log =
      if key.toNat < directPages then some (frameAddr key.toNat, directFlags) else none := by
  have hok := h.2
  have hlt : directPages < maxFrames := by rw [directPages_eq, maxFrames_eq]; omega
  have hle : identityPages < directPages := by rw [identityPages_eq, directPages_eq]; omega
  rw [vmmInitOps, Machine.run_append] at hok ⊢
  rw [mappingOf_mapOps (fun i hi => pageKey_directAddr (by omega)) _ hok,
    mappingOf_mapOps (fun i hi => pageKey_frameAddr (by omega)) _
      (fun c hc => hok c ((log_suffix_run _ _).subset hc))]
  by_cases hk : key.toNat < directPages
  · rw [if_pos hk, if_pos hk]
  · rw [if_neg hk, if_neg hk, if_neg (by omega)]
    rfl

/-! ### The address space -/

/-- The entry that a walk of `kernel_pml4` finds for `vaddr`, `0` if there is none. -/
def kernelEntry (s : Vmm) (vaddr : U64) : U64 :=
  let (pte, s) := vmmGetPte s s.kernelPml4 vaddr 1 false
  if pte = 0 then 0 else s.mem pte

/-- What `vmm_init` sets out to build: the identity map of 2 GB, executable, the direct
map of 4 GB, not executable, and no other page. -/
structure InitialAddressSpace (s : Vmm) : Prop where
  identity : ∀ i < identityPages,
    kernelEntry s (frameAddr i) = frameAddr i ||| ptePresent ||| pteWritable ||| pteGlobal
  direct : ∀ i < directPages, kernelEntry s (virtPhysMapBase + frameAddr i) =
    frameAddr i ||| ptePresent ||| pteWritable ||| pteNx ||| pteGlobal
  others : ∀ v, (∀ i < identityPages, pageKey v ≠ pageKey (frameAddr i)) →
    (∀ i < directPages, pageKey v ≠ pageKey (virtPhysMapBase + frameAddr i)) →
    kernelEntry s v &&& ptePresent = 0

theorem kernelEntry_eq {s : Vmm} (h : TreeInv s.kernelPml4 s) (v : U64) :
    kernelEntry s v = entryOf s.mem s.kernelPml4 v := by
  have hfind : kernelEntry s v =
      if findPte s s.kernelPml4 v = 0 then 0 else s.mem (findPte s s.kernelPml4 v) := by
    rw [kernelEntry, vmmGetPte_find]
    rfl
  rw [hfind]
  cases ht : tableAt s.mem s.kernelPml4 (path v) with
  | none =>
    have hpte : findPte s s.kernelPml4 v = 0 := by rw [findPte, ht, Option.elim_none]
    rw [entryOf_none ht, if_pos hpte]
  | some t =>
    have hpte : findPte s s.kernelPml4 v = wordAt t (idx v 1) := by
      rw [findPte, ht, Option.elim_some]
    rw [entryOf_some ht, hpte, if_neg (wordAt_table_ne_zero h ht _)]

theorem leafEntry_directFlags {i : Nat} (h : i < maxFrames) : leafEntry (frameAddr i) directFlags =
    frameAddr i ||| ptePresent ||| pteWritable ||| pteNx ||| pteGlobal := by
  rw [leafEntry, frameAddr_and_mask h, directFlags, BitVec.or_assoc,
    show (ptePresent ||| pteWritable ||| pteNx ||| pteGlobal) ||| ptePresent =
      ptePresent ||| pteWritable ||| pteNx ||| pteGlobal by decide]
  rw [BitVec.or_assoc, BitVec.or_assoc, BitVec.or_assoc, BitVec.or_assoc, BitVec.or_assoc]

theorem legal_mapOps {va ph : Nat → U64} {flags : U64} (hf : flags &&& pteAddrMask = 0) (n : Nat)
    (s : VmmSys) : vmmMachine.Legal s (mapOps va ph flags n) := by
  have h : ∀ (l : List Nat) (s : VmmSys),
      vmmMachine.Legal s (l.map fun i => .map (va i) (ph i) flags) := by
    intro l
    induction l with
    | nil => intro s; exact trivial
    | cons i l ih => intro s; exact ⟨hf, ih _⟩
  exact h _ s

theorem legal_vmmInitOps (s : VmmSys) : vmmMachine.Legal s vmmInitOps := by
  rw [vmmInitOps, Machine.legal_append]
  exact ⟨legal_mapOps (by decide) _ _, legal_mapOps (by decide) _ _⟩

/-- **Every entry after `vmm_init`**: the first 4 GB of page numbers are mapped as the
direct map says, and no other. -/
theorem vmmInit_entries {s : Vmm} (h : VmmInitSucceeds s) (v : U64) :
    kernelEntry (vmmInit s) v =
      if (pageKey v).toNat < directPages then
        frameAddr (pageKey v).toNat ||| ptePresent ||| pteWritable ||| pteNx ||| pteGlobal
      else 0 := by
  have hlt : directPages < maxFrames := by rw [directPages_eq, maxFrames_eq]; omega
  have hinv : VmmInv (vmmMachine.run (VmmSys.startKernel s) vmmInitOps) :=
    vmmInv_run (s := { s with kernelPml4 := (pmmAlloc s.pmm).1 }) h.1 _ (legal_vmmInitOps _)
  obtain ⟨hvmm, hroot⟩ := vmmInit_run h.1
  have htree : TreeInv (vmmInit s).kernelPml4 (vmmInit s) := by
    rw [hroot, hvmm]
    exact hinv.tree
  rw [kernelEntry_eq htree, hroot, hvmm, hinv.entry v, mappingOf_vmmInit h]
  by_cases hk : (pageKey v).toNat < directPages
  · rw [if_pos hk, if_pos hk]
    exact leafEntry_directFlags (by omega)
  · rw [if_neg hk, if_neg hk]
    rfl

/-! ### Enough frames -/

/-- The pages below `n` are mapped by tables that came from the frames free in `p`. -/
structure TablesBelow (n : Nat) (p : Pmm) (t : VmmSys) : Prop where
  tree : TreeInv t.pml4 t.vmm
  taken : ∀ f, p.IsFree f → ¬ t.vmm.pmm.IsFree f →
    ∃ π, π.length ≤ 3 ∧ tableAt t.vmm.mem t.pml4 π = some (frameAddr f)
  paths : ∀ π, π.length ≤ 3 → tableAt t.vmm.mem t.pml4 π ≠ none → ∃ i < n, π <+: path (frameAddr i)
  total : t.vmm.pmm.physTotalPages = p.physTotalPages

/-- The paths to the tables of the pages below `n`. -/
def pathsBelow (n : Nat) : Finset (List Idx) :=
  (Finset.range 4 ×ˢ Finset.range (n / 512 + 1)).image fun x => (path (frameAddr (512 * x.2))).take x.1

theorem card_pathsBelow (n : Nat) : (pathsBelow n).card ≤ 4 * (n / 512 + 1) := by
  refine Finset.card_image_le.trans ?_
  rw [Finset.card_product, Finset.card_range, Finset.card_range]

theorem path_frameAddr {i : Nat} (h : i < maxFrames) :
    path (frameAddr i) = path (frameAddr (512 * (i / 512))) := by
  have hidx : ∀ level, 2 ≤ level → level ≤ 4 →
      idx (frameAddr i) level = idx (frameAddr (512 * (i / 512))) level := by
    intro level h2 h4
    refine BitVec.eq_of_toNat_eq ?_
    rw [toNat_idx, toNat_idx, toNat_frameAddr h, toNat_frameAddr (by omega)]
    obtain rfl | rfl | rfl : level = 2 ∨ level = 3 ∨ level = 4 := by omega
    all_goals omega
  show [idx _ 4, idx _ 3, idx _ 2] = [idx _ 4, idx _ 3, idx _ 2]
  rw [hidx 4, hidx 3, hidx 2] <;> omega

theorem mem_pathsBelow {n i : Nat} (hn : n ≤ maxFrames) (hi : i < n) {π : List Idx}
    (h : π <+: path (frameAddr i)) : π ∈ pathsBelow n := by
  have hlen := h.length_le
  rw [length_path] at hlen
  refine Finset.mem_image.mpr ⟨(π.length, i / 512), ?_, ?_⟩
  · rw [Finset.mem_product, Finset.mem_range, Finset.mem_range]
    exact ⟨by omega, Nat.lt_succ_of_le (Nat.div_le_div_right hi.le)⟩
  · rw [← path_frameAddr (by omega)]
    exact (List.prefix_iff_eq_take.mp h).symm

/-- The tables of the pages below `n` never use up more than `4 * (n / 512 + 1)` frames. -/
theorem TablesBelow.alloc_ne_zero {n : Nat} {p : Pmm} {t : VmmSys} (h : TablesBelow n p t)
    (hn : n ≤ maxFrames) (henough : 4 * (n / 512 + 1) < p.visible.card) :
    (pmmAlloc t.vmm.pmm).1 ≠ 0 := by
  by_contra hzero
  have hfull : ∀ f ∈ p.visible, ¬ t.vmm.pmm.IsFree f := by
    intro f hf hfree
    refine pmmAlloc_ne_zero (mem_visible.mpr ⟨?_, hfree⟩) hzero
    rw [h.total]
    exact (mem_visible.mp hf).1
  have hpath : ∀ f ∈ p.visible, ∃ π ∈ pathsBelow n,
      tableAt t.vmm.mem t.pml4 π = some (frameAddr f) := by
    intro f hf
    obtain ⟨π, hlen, hπ⟩ := h.taken f (mem_visible.mp hf).2 (hfull f hf)
    obtain ⟨i, hi, hpre⟩ := h.paths π hlen (by rw [hπ]; exact Option.some_ne_none _)
    exact ⟨π, mem_pathsBelow hn hi hpre, hπ⟩
  choose! g hg hat using hpath
  have hinj : Set.InjOn g p.visible := by
    intro f hf f' hf' he
    have hsome : some (frameAddr f) = some (frameAddr f') := by rw [← hat f hf, he, hat f' hf']
    exact frameAddr_inj (mem_visible.mp hf).2.lt (mem_visible.mp hf').2.lt (Option.some.inj hsome)
  have hle := Finset.card_le_card_of_injOn g hg hinj
  have := card_pathsBelow n
  omega

theorem TablesBelow.walk {n : Nat} {p : Pmm} {t : VmmSys} (h : TablesBelow n p t) {v : U64} {i : Nat}
    (hi : i < n) (hv : path v = path (frameAddr i)) :
    TablesBelow n p { t with vmm := (vmmGetPte t.vmm t.pml4 v 1 true).2 } := by
  obtain ⟨h1, h2, h3, _⟩ := vmmGetPte_create h.tree v
  refine ⟨h1, ?_, ?_, h2.total.trans h.total⟩
  · intro f hf hused
    by_cases hmid : t.vmm.pmm.IsFree f
    · exact (h2.taken f hmid).mp hused
    · obtain ⟨π, hlen, hπ⟩ := h.taken f hf hmid
      exact ⟨π, hlen, h2.keep π _ hlen hπ⟩
  · intro π hlen hπ
    by_cases hmid : tableAt t.vmm.mem t.pml4 π = none
    · exact ⟨i, hi, hv ▸ h3 π hlen hmid hπ⟩
    · exact h.paths π hlen hmid

theorem TablesBelow.writeLeaf {n : Nat} {p : Pmm} {t : VmmSys} (h : TablesBelow n p t) {α : List Idx}
    {a : U64} (ha : tableAt t.vmm.mem t.pml4 α = some a) (hα : α.length = 3) (i : Idx) (entry : U64)
    (log : List (VmmOp × Int)) :
    TablesBelow n p { t with
      vmm := { t.vmm with mem := writeWord t.vmm.mem (wordAt a i) entry }
      log := log } := by
  have hsame := tableAt_writeLeaf h.tree ha hα i entry
  refine ⟨treeInv_writeLeaf h.tree ha hα i entry, ?_, ?_, h.total⟩
  · intro f hf hused
    obtain ⟨π, hlen, hπ⟩ := h.taken f hf hused
    exact ⟨π, hlen, (hsame π hlen).trans hπ⟩
  · intro π hlen hπ
    exact h.paths π hlen fun hnone => hπ ((hsame π hlen).trans hnone)

/-- One call for a page below `n` needs no other tables, and fails only if no frame is left. -/
theorem TablesBelow.step {n : Nat} {p : Pmm} {t : VmmSys} (h : TablesBelow n p t) {v : U64} {i : Nat}
    (hi : i < n) (hv : path v = path (frameAddr i)) (phys flags : U64) :
    TablesBelow n p (t.step (.map v phys flags)) ∧
      (t.step (.map v phys flags)).vmm.pmm.visible ⊆ t.vmm.pmm.visible ∧
      ((vmmMap t.vmm t.pml4 v phys flags).1 = 0 ∨
        (t.step (.map v phys flags)).vmm.pmm.visible = ∅) := by
  obtain ⟨h1, h2, _, hcase⟩ := vmmGetPte_create h.tree v
  have hwalk := h.walk hi hv
  have hsub : (vmmGetPte t.vmm t.pml4 v 1 true).2.pmm.visible ⊆ t.vmm.pmm.visible := by
    intro f hf
    obtain ⟨hrange, hfree⟩ := mem_visible.mp hf
    exact mem_visible.mpr ⟨h2.total ▸ hrange, h2.free f hfree⟩
  have hstep : t.step (.map v phys flags) = { t with
      vmm := (vmmMap t.vmm t.pml4 v phys flags).2
      log := (.map v phys flags, (vmmMap t.vmm t.pml4 v phys flags).1) :: t.log } := rfl
  rcases hcase with ⟨a, ha, hpte⟩ | ⟨hpte, _, hfail⟩
  · have hne := wordAt_table_ne_zero h1 ha (idx v 1)
    have hr : vmmMap t.vmm t.pml4 v phys flags = (0, { (vmmGetPte t.vmm t.pml4 v 1 true).2 with
        mem := writeWord (vmmGetPte t.vmm t.pml4 v 1 true).2.mem (wordAt a (idx v 1))
          (leafEntry phys flags) }) := by
      rw [vmmMap_fst_snd, hpte, if_neg hne]
    rw [hstep, hr]
    exact ⟨hwalk.writeLeaf ha (length_path v) _ _ _, hsub, .inl rfl⟩
  · have hr : vmmMap t.vmm t.pml4 v phys flags = (-1, (vmmGetPte t.vmm t.pml4 v 1 true).2) := by
      rw [vmmMap_fst_snd, if_pos hpte]
    rw [hstep, hr]
    exact ⟨⟨h1, hwalk.taken, hwalk.paths, hwalk.total⟩, hsub, .inr (visible_of_alloc_zero hfail)⟩

theorem TablesBelow.visible_ne_empty {n : Nat} {p : Pmm} {t : VmmSys} (h : TablesBelow n p t)
    (hn : n ≤ maxFrames) (henough : 4 * (n / 512 + 1) < p.visible.card) :
    t.vmm.pmm.visible ≠ ∅ := by
  intro hempty
  refine h.alloc_ne_zero hn henough ?_
  rw [pmmAlloc_drained hempty]

theorem TablesBelow.map {n : Nat} {p : Pmm} {t : VmmSys} (h : TablesBelow n p t)
    (hn : n ≤ maxFrames) (henough : 4 * (n / 512 + 1) < p.visible.card) {v : U64} {i : Nat}
    (hi : i < n) (hv : path v = path (frameAddr i)) (phys flags : U64) :
    TablesBelow n p (t.step (.map v phys flags)) ∧ (vmmMap t.vmm t.pml4 v phys flags).1 = 0 := by
  obtain ⟨htables, _, hcase⟩ := h.step hi hv phys flags
  exact ⟨htables, hcase.resolve_right (htables.visible_ne_empty hn henough)⟩

theorem TablesBelow.mapLoop {n : Nat} {p : Pmm} {va ph : Nat → U64} {flags : U64} :
    ∀ (l : List Nat) (t : VmmSys), (∀ i ∈ l, i < n ∧ path (va i) = path (frameAddr i)) →
    TablesBelow n p t →
    let r := vmmMachine.run t (l.map fun i => .map (va i) (ph i) flags)
    TablesBelow n p r ∧ r.vmm.pmm.visible ⊆ t.vmm.pmm.visible ∧
      ((∀ c ∈ t.log, c.2 = 0) → r.vmm.pmm.visible ≠ ∅ → ∀ c ∈ r.log, c.2 = 0) := by
  intro l
  induction l with
  | nil => intro t _ h; exact ⟨h, fun _ hf => hf, fun hlog _ => hlog⟩
  | cons i l ih =>
    intro t hl h
    obtain ⟨hi, hv⟩ := hl i List.mem_cons_self
    obtain ⟨h1, hsub, hcase⟩ := h.step hi hv (ph i) flags
    obtain ⟨h2, hsub', hok⟩ := ih _ (fun j hj => hl j (List.mem_cons_of_mem i hj)) h1
    refine ⟨h2, fun f hf => hsub (hsub' hf), fun hlog hleft => hok (fun c hc => ?_) hleft⟩
    rcases List.mem_cons.mp hc with rfl | hc
    · refine hcase.resolve_right fun hempty => hleft ?_
      exact Finset.subset_empty.mp (hempty ▸ hsub')
    · exact hlog c hc

theorem tablesBelow_startKernel {s : Vmm} {n : Nat} (hn : 0 < n) (hroot : (pmmAlloc s.pmm).1 ≠ 0) :
    TablesBelow n (pmmAlloc s.pmm).2 (VmmSys.startKernel s) := by
  have hinv : VmmInv (VmmSys.startKernel s) :=
    vmmInv_start { s with kernelPml4 := (pmmAlloc s.pmm).1 } hroot
  have hpmm : (VmmSys.startKernel s).vmm.pmm = (pmmAlloc s.pmm).2 := rfl
  refine ⟨hinv.tree, fun f hf hused => absurd (hpmm ▸ hf) hused, fun π hlen hπ => ?_, by rw [hpmm]⟩
  cases π with
  | nil => exact ⟨0, hn, List.nil_prefix⟩
  | cons i π => exact absurd (tableAt_start _ i π) hπ

theorem tablesBelow_start {s : Vmm} {n : Nat} (hn : 0 < n)
    (h : 4 * (n / 512 + 1) + 1 < s.pmm.visible.card) :
    (pmmAlloc s.pmm).1 ≠ 0 ∧ 4 * (n / 512 + 1) < (pmmAlloc s.pmm).2.visible.card ∧
      TablesBelow n (pmmAlloc s.pmm).2 (VmmSys.startKernel s) := by
  obtain ⟨p, hp⟩ : s.pmm.visible.Nonempty := Finset.card_pos.mp (by omega)
  have hroot := pmmAlloc_ne_zero hp
  refine ⟨hroot, ?_, tablesBelow_startKernel hn hroot⟩
  rcases pmmAlloc_cases s.pmm with ⟨he, _⟩ | ⟨i, he, hf, _⟩
  · rw [he] at hroot
    exact absurd rfl hroot
  · have := visible_takeFrames_one hf
    rw [he]
    show _ < (pmmTakeFrames s.pmm i 1).visible.card
    omega

theorem tablesBelow_vmmInit {s : Vmm} (hroot : (pmmAlloc s.pmm).1 ≠ 0) :
    let t := vmmMachine.run (VmmSys.startKernel s) vmmInitOps
    TablesBelow directPages (pmmAlloc s.pmm).2 t ∧ (t.vmm.pmm.visible ≠ ∅ → VmmInitSucceeds s) := by
  intro t
  have hlt : directPages < maxFrames := by rw [directPages_eq, maxFrames_eq]; omega
  have hle : identityPages < directPages := by rw [identityPages_eq, directPages_eq]; omega
  have hpath : ∀ i ∈ List.range directPages,
      i < directPages ∧ path (directAddr i) = path (frameAddr i) := by
    intro i hi
    have hi' := List.mem_range.mp hi
    refine ⟨hi', ((pageKey_eq_iff _ _).mp (BitVec.eq_of_toNat_eq ?_)).1⟩
    rw [pageKey_directAddr (by omega), pageKey_frameAddr (by omega)]
  -- the identity map and the direct map, one after the other
  obtain ⟨h1, _, hok1⟩ := @TablesBelow.mapLoop directPages _ frameAddr frameAddr identityFlags
    (List.range identityPages) (VmmSys.startKernel s)
    (fun i hi => ⟨by have := List.mem_range.mp hi; omega, rfl⟩)
    (tablesBelow_startKernel (by omega) hroot)
  obtain ⟨h2, hsub, hok2⟩ := @TablesBelow.mapLoop directPages _ directAddr frameAddr directFlags
    (List.range directPages) _ hpath h1
  have ht : t = vmmMachine.run (vmmMachine.run (VmmSys.startKernel s)
      (mapOps frameAddr frameAddr identityFlags identityPages))
      (mapOps directAddr frameAddr directFlags directPages) := Machine.run_append _ _ _ _
  have hnil : ∀ c ∈ (VmmSys.startKernel s).log, c.2 = 0 := fun c hc => by cases hc
  rw [VmmInitSucceeds, show vmmMachine.run (VmmSys.startKernel s) vmmInitOps = t from rfl, ht]
  refine ⟨h2, fun hleft => ⟨hroot, hok2 (hok1 hnil fun hempty => hleft ?_) hleft⟩⟩
  exact Finset.subset_empty.mp (hempty ▸ hsub)

/-- **Enough free frames make `vmm_init` succeed.** -/
theorem vmmInit_succeeds (s : Vmm) (h : 4 * (directPages / 512 + 1) + 1 < s.pmm.visible.card) :
    VmmInitSucceeds s := by
  have hlt : directPages < maxFrames := by rw [directPages_eq, maxFrames_eq]; omega
  obtain ⟨hroot, henough, _⟩ := tablesBelow_start (n := directPages) (by rw [directPages_eq]; omega) h
  obtain ⟨htables, hok⟩ := tablesBelow_vmmInit hroot
  exact hok (htables.visible_ne_empty hlt.le henough)

theorem clearVmm_visible : 10000 ≤ clearVmm.pmm.visible.card := by
  have hcard : (Finset.Ico 2048 12048).card ≤ clearVmm.pmm.visible.card := by
    refine Finset.card_le_card fun p hp => ?_
    rw [Finset.mem_Ico] at hp
    exact (mem_clearVisible p).mpr (by omega)
  rwa [Nat.card_Ico] at hcard

theorem vmmInitSucceeds_clear : VmmInitSucceeds clearVmm := by
  have hcard := clearVmm_visible
  refine vmmInit_succeeds clearVmm ?_
  rw [directPages_eq]
  omega

/-! ### The identity map -/

/-- **The identity map is lost**, on every machine on which the calls of `vmm_init`
succeed: each of its pages has the entry of the direct map, which forbids execution. -/
theorem vmmInit_not_initial (s : Vmm) (h : VmmInitSucceeds s) :
    ¬ InitialAddressSpace (vmmInit s) ∧ ∀ i < identityPages, kernelEntry (vmmInit s) (frameAddr i) =
      frameAddr i ||| ptePresent ||| pteWritable ||| pteNx ||| pteGlobal := by
  have hlt : directPages < maxFrames := by rw [directPages_eq, maxFrames_eq]; omega
  have hle : identityPages < directPages := by rw [identityPages_eq, directPages_eq]; omega
  have hlost : ∀ i < identityPages, kernelEntry (vmmInit s) (frameAddr i) =
      frameAddr i ||| ptePresent ||| pteWritable ||| pteNx ||| pteGlobal := by
    intro i hi
    rw [vmmInit_entries h, pageKey_frameAddr (by omega), if_pos (by omega)]
  refine ⟨fun hspace => ?_, hlost⟩
  have h0 : 0 < identityPages := by rw [identityPages_eq]; omega
  have hzero : frameAddr 0 = 0#64 := by decide
  have hclash := (hspace.identity 0 h0).symm.trans (hlost 0 h0)
  rw [hzero] at hclash
  exact absurd hclash (by decide)

theorem vmmInit_not_initial_clear :
    ¬ InitialAddressSpace (vmmInit clearVmm) ∧ ∀ i < identityPages,
      kernelEntry (vmmInit clearVmm) (frameAddr i) =
        frameAddr i ||| ptePresent ||| pteWritable ||| pteNx ||| pteGlobal :=
  vmmInit_not_initial clearVmm vmmInitSucceeds_clear

/-- On a machine with RAM from 8 MB to 2 GB every call succeeds, and the entry of page
256, where the kernel starts, forbids execution. -/
theorem vmmInit_identity_lost : VmmInitSucceeds clearVmm ∧
    kernelEntry (vmmInit clearVmm) (frameAddr 256) &&& pteNx ≠ 0 ∧
    ¬ InitialAddressSpace (vmmInit clearVmm) := by
  have hentry : kernelEntry (vmmInit clearVmm) (frameAddr 256) = frameAddr 256 ||| ptePresent |||
      pteWritable ||| pteNx ||| pteGlobal := by
    rw [vmmInit_entries vmmInitSucceeds_clear, pageKey_frameAddr (by rw [maxFrames_eq]; omega),
      if_pos]
    rw [directPages_eq]
    omega
  refine ⟨vmmInitSucceeds_clear, by rw [hentry]; decide, fun hspace => ?_⟩
  have hid := hspace.identity 256 (by rw [identityPages_eq]; omega)
  rw [hentry] at hid
  exact absurd hid (by decide)

end AionOs
