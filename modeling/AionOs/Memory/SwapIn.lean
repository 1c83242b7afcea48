import AionOs.Memory.Swap
import AionOs.Memory.VmmFrames

/-!
# Pages that come in from swap

`vmm_unmap` looks at the present bit of an entry and the page fault handler at its swap bit, and
the handler writes an entry of its own.

* `Gone`: a page that is unmapped for good, kept by every operation but its own `vmm_map`.
* `unmapped_stays_iff`: when an unmapped page stays unmapped.
* `swap_in_iff`: when a page comes in as it went out.
-/

namespace AionOs

/-! ### The bits of an entry -/

def pteUser : U64 := 1#64 <<< 2
def pteWriteThru : U64 := 1#64 <<< 3
def pteNoCache : U64 := 1#64 <<< 4

/-- The protection and the caching of a page. -/
def pteKept : U64 := pteNx ||| pteUser ||| pteWritable ||| pteWriteThru ||| pteNoCache ||| pteGlobal

theorem linkEntry_kept {f : Nat} (hf : f < maxFrames) :
    linkEntry (frameAddr f) &&& pteKept = pteWritable := by
  have haddr : frameAddr f &&& pteKept = 0 := by
    have hmask : pteAddrMask &&& pteKept = 0 := by decide
    rw [← frameAddr_and_mask hf, BitVec.and_assoc, hmask]
    exact BitVec.and_zero
  have hpresent : ptePresent &&& pteKept = 0 := by decide
  have hwritable : pteWritable &&& pteKept = pteWritable := by decide
  rw [linkEntry, BitVec.and_or_distrib_right, BitVec.and_or_distrib_right, haddr, hpresent, hwritable]
  exact (congrArg (· ||| pteWritable) BitVec.zero_or).trans BitVec.zero_or

theorem entryOf_of_pageKey {mem : U64 → U64} {root v w : U64} (h : pageKey w = pageKey v) :
    entryOf mem root w = entryOf mem root v := by
  obtain ⟨hpath, hidx⟩ := (pageKey_eq_iff w v).mp h
  rw [entryOf, entryOf, hpath, hidx]

theorem virtToPhys_link {s : Vmm} (h : TreeInv s.kernelPml4 s) {v : U64} {f : Nat} (hf : f < maxFrames)
    (hentry : entryOf s.mem s.kernelPml4 v = linkEntry (frameAddr f)) :
    vmmVirtToPhys s s.kernelPml4 v = frameAddr f ||| (v &&& 0xFFF) := by
  rw [vmmVirtToPhys_eq h, hentry, if_neg (linkEntry_present _), linkEntry_addr hf]

/-! ### Pages that are gone -/

def MapsPage (v : U64) : SwapOp → Prop
  | .map w _ _ => pageKey w = pageKey v
  | .unmap _ => False
  | .fault _ => False

/-- The page is unmapped, and no fault can bring it in. -/
structure Gone (root v : U64) (s : SwapSys) : Prop where
  root_eq : s.vmm.kernelPml4 = root
  tree : TreeInv root s.vmm
  absent : entryOf s.vmm.mem root v &&& ptePresent = 0
  stuck : entryOf s.vmm.mem root v &&& pteSwapped = 0 ∨ s.vmm.pmm.visible = ∅

theorem Gone.virtToPhys {root v : U64} {s : SwapSys} (h : Gone root v s) :
    vmmVirtToPhys s.vmm s.vmm.kernelPml4 v = 0 := by
  rw [h.root_eq, vmmVirtToPhys_eq h.tree, if_pos h.absent]

theorem Gone.congr {root v : U64} {s t : SwapSys} (h : Gone root v s) (hroot : t.vmm.kernelPml4 = root)
    (htree : TreeInv root t.vmm) (hentry : entryOf t.vmm.mem root v = entryOf s.vmm.mem root v)
    (hvisible : t.vmm.pmm.visible ⊆ s.vmm.pmm.visible) : Gone root v t := by
  refine ⟨hroot, htree, hentry ▸ h.absent, ?_⟩
  rcases h.stuck with hzero | hnone
  · exact .inl (hentry ▸ hzero)
  · exact .inr (Finset.subset_empty.mp (hnone ▸ hvisible))

theorem vmmMap_visible {root : U64} {s : Vmm} (h : TreeInv root s) (v phys flags : U64) :
    (vmmMap s root v phys flags).2.pmm.visible ⊆ s.pmm.visible := by
  obtain ⟨_, s', _, hgrows, hpmm, _⟩ := vmmMap_grows h v phys flags
  intro f hf
  rw [hpmm] at hf
  obtain ⟨hrange, hfree⟩ := mem_visible.mp hf
  exact mem_visible.mpr ⟨hgrows.total ▸ hrange, hgrows.free f hfree⟩

/-- **One operation** leaves a page gone, if it does not map the page. -/
theorem gone_step {root v : U64} {s : SwapSys} (h : Gone root v s) {op : SwapOp}
    (hop : ¬ MapsPage v op) : Gone root v (s.step op) := by
  obtain rfl := h.root_eq
  have htree := treeInv_step h.tree op
  cases op with
  | map w phys flags =>
    have hroot := vmmMap_kernelPml4 s.vmm s.vmm.kernelPml4 w phys flags
    refine h.congr hroot (hroot ▸ htree) ?_ (vmmMap_visible h.tree w phys flags)
    rcases (vmmMap_spec h.tree w phys flags).2 with ⟨_, hentry⟩ | ⟨_, hentry⟩
    · exact (hentry v).trans (if_neg fun hkey => hop hkey.symm)
    · exact hentry v
  | unmap w =>
    have hroot := vmmUnmap_kernelPml4 s.vmm s.vmm.kernelPml4 w
    have hpmm : (s.step (.unmap w)).vmm.pmm = s.vmm.pmm := (vmmUnmap_same h.tree w).1
    refine h.congr hroot (hroot ▸ htree) ?_ (by rw [hpmm])
    refine ((vmmUnmap_spec h.tree w).2 v).trans (if_neg ?_)
    rintro ⟨hkey, hpresent⟩
    exact hpresent (entryOf_of_pageKey hkey ▸ h.absent)
  | fault w =>
    rcases swapPageFaultHandler_cases h.tree w with ⟨hsame, _⟩ | ⟨hs, hfree, _, hroot, _, f, _, hentry⟩
    · rw [show s.step (.fault w) = s from hsame]
      exact h
    · have hzero := h.stuck.resolve_right hfree
      have hother : pageKey v ≠ pageKey w := fun hkey => hs (entryOf_of_pageKey hkey ▸ hzero)
      have hkeep : entryOf (s.step (.fault w)).vmm.mem s.vmm.kernelPml4 v =
          entryOf s.vmm.mem s.vmm.kernelPml4 v := (hentry v).trans (if_neg hother)
      exact ⟨hroot, hroot ▸ htree, hkeep ▸ h.absent, .inl (hkeep ▸ hzero)⟩

theorem gone_run {root v : U64} (ops : List SwapOp) (hops : ∀ op ∈ ops, ¬ MapsPage v op) {s : SwapSys}
    (h : Gone root v s) : Gone root v (swapMachine.run s ops) := by
  induction ops generalizing s with
  | nil => exact h
  | cons op ops ih =>
    exact ih (fun o ho => hops o (List.mem_cons_of_mem op ho)) (gone_step h (hops op List.mem_cons_self))

theorem vmmUnmap_absent {root : U64} {s : Vmm} (h : TreeInv root s) {v : U64}
    (habsent : entryOf s.mem root v &&& ptePresent = 0) : vmmUnmap s root v = s := by
  rw [vmmUnmap_find, if_neg]
  rintro ⟨hpte, hpresent⟩
  rcases findPte_cases h v with ⟨hzero, _⟩ | ⟨t, _, hfound, _, hentry⟩
  · exact hpte hzero
  · rw [hfound, ← hentry] at hpresent
    exact hpresent habsent

/-- After `vmm_unmap` the page is not mapped, however often it or other pages fault or are
unmapped or other pages are mapped. -/
def UnmappedStays (s : SwapSys) (v : U64) : Prop :=
  ∀ ops : List SwapOp, (∀ op ∈ ops, ¬ MapsPage v op) →
    let t := swapMachine.run (s.step (.unmap v)) ops
    vmmVirtToPhys t.vmm t.vmm.kernelPml4 v = 0

/-- A page in swap is left there, and the next fault brings it in. -/
theorem swapped_returns {s : SwapSys} (h : TreeInv s.vmm.kernelPml4 s.vmm) {v : U64}
    (hout : SwappedOut (entryOf s.vmm.mem s.vmm.kernelPml4 v)) (hfree : s.vmm.pmm.visible ≠ ∅) :
    ¬ UnmappedStays s v := by
  intro hstays
  have hsame : s.step (.unmap v) = s := by
    rw [SwapSys.step, vmmUnmap_absent h hout.2]
  obtain ⟨htree, hroot, _, f, hpos, hf, _, hentry⟩ := swapIn_spec h hout.1 hfree
  have hlink := virtToPhys_link htree hf.lt (by rw [hroot, hentry, if_pos rfl])
  have hzero : vmmVirtToPhys (swapPageFaultHandler s v).vmm
      (swapPageFaultHandler s v).vmm.kernelPml4 v = 0 := by
    have hfault := hstays [.fault v] (fun op hop => by rw [List.mem_singleton.mp hop]; exact id)
    rw [hsame] at hfault
    exact hfault
  rw [hlink] at hzero
  exact frameAddr_ne_zero hf.lt hpos (BitVec.or_eq_zero_iff.mp hzero).1

/-- Any other page is gone. -/
theorem gone_unmap {s : SwapSys} (h : TreeInv s.vmm.kernelPml4 s.vmm) {v : U64}
    (hnot : ¬ (SwappedOut (entryOf s.vmm.mem s.vmm.kernelPml4 v) ∧ s.vmm.pmm.visible ≠ ∅)) :
    Gone s.vmm.kernelPml4 v (s.step (.unmap v)) := by
  by_cases habsent : entryOf s.vmm.mem s.vmm.kernelPml4 v &&& ptePresent = 0
  · rw [SwapSys.step, vmmUnmap_absent h habsent]
    refine ⟨rfl, h, habsent, ?_⟩
    by_cases hs : entryOf s.vmm.mem s.vmm.kernelPml4 v &&& pteSwapped = 0
    · exact .inl hs
    · exact .inr (not_not.mp fun hfree => hnot ⟨⟨hs, habsent⟩, hfree⟩)
  · obtain ⟨htree, hentry⟩ := vmmUnmap_spec h v
    have hzero : entryOf (s.step (.unmap v)).vmm.mem s.vmm.kernelPml4 v = 0 :=
      (hentry v).trans (if_pos ⟨rfl, habsent⟩)
    refine ⟨vmmUnmap_kernelPml4 s.vmm s.vmm.kernelPml4 v, htree, ?_, .inl ?_⟩
    · rw [hzero]
      exact BitVec.zero_and
    · rw [hzero]
      exact BitVec.zero_and

/-- **When an unmapped page stays unmapped**: if and only if it is not in swap, or no frame is
left to bring it in. -/
theorem unmapped_stays_iff {s : SwapSys} (h : TreeInv s.vmm.kernelPml4 s.vmm) (v : U64) :
    UnmappedStays s v ↔
      ¬ (SwappedOut (entryOf s.vmm.mem s.vmm.kernelPml4 v) ∧ s.vmm.pmm.visible ≠ ∅) := by
  constructor
  · rintro hstays ⟨hout, hfree⟩
    exact swapped_returns h hout hfree hstays
  · intro hnot ops hops
    exact (gone_run ops hops (gone_unmap h hnot)).virtToPhys

theorem unmapped_stays_sample : UnmappedStays (swappedSys clearVmm) (frameAddr 1) ↔
    ¬ (SwappedOut (entryOf (swappedSys clearVmm).vmm.mem (swappedSys clearVmm).vmm.kernelPml4
      (frameAddr 1)) ∧ (swappedSys clearVmm).vmm.pmm.visible ≠ ∅) :=
  unmapped_stays_iff (swappedSys_spec clearVmm_visible).1 (frameAddr 1)

/-- A page in swap comes back after it was unmapped. -/
theorem unmapped_page_returns : ¬ UnmappedStays (swappedSys clearVmm) (frameAddr 1) := by
  obtain ⟨htree, _, hentry, hfree⟩ := swappedSys_spec clearVmm_visible
  have hout : SwappedOut 0x7200 := by decide
  exact swapped_returns htree (hentry ▸ hout) hfree

/-! ### Pages that come in -/

/-- A page has come in from swap: to a frame that was free, with the bits that its entry had, and
nothing else has changed. -/
structure SwappedIn (s t : SwapSys) (v : U64) : Prop where
  frame : ∃ f, s.vmm.pmm.IsFree f ∧ ¬ t.vmm.pmm.IsFree f ∧
    vmmVirtToPhys t.vmm t.vmm.kernelPml4 v = frameAddr f ||| (v &&& 0xFFF) ∧
    ∀ g, g ≠ f → (t.vmm.pmm.IsFree g ↔ s.vmm.pmm.IsFree g)
  others : ∀ w, pageKey w ≠ pageKey v →
    entryOf t.vmm.mem t.vmm.kernelPml4 w = entryOf s.vmm.mem s.vmm.kernelPml4 w
  used : t.swapUsed.toNat + 1 = s.swapUsed.toNat
  kept : entryOf t.vmm.mem t.vmm.kernelPml4 v &&& pteKept =
    entryOf s.vmm.mem s.vmm.kernelPml4 v &&& pteKept

/-- The bits of the new entry are always the same. -/
theorem handler_kept {s : SwapSys} (h : TreeInv s.vmm.kernelPml4 s.vmm) {v : U64}
    (hs : entryOf s.vmm.mem s.vmm.kernelPml4 v &&& pteSwapped ≠ 0) (hfree : s.vmm.pmm.visible ≠ ∅) :
    let t := swapPageFaultHandler s v
    entryOf t.vmm.mem t.vmm.kernelPml4 v &&& pteKept = pteWritable := by
  obtain ⟨_, hroot, _, f, _, hf, _, hentry⟩ := swapIn_spec h hs hfree
  dsimp only
  rw [hroot, hentry, if_pos rfl, linkEntry_kept hf.lt]

theorem visible_of_alloc {p : Pmm} (h : (pmmAlloc p).1 ≠ 0) : p.visible ≠ ∅ :=
  fun hnone => h (by rw [pmmAlloc_drained hnone])

/-- **When a page comes in as it went out**: if and only if the counter is not zero and, of the
protection and caching bits, its entry has the writable one and no other. -/
theorem swap_in_iff {s : SwapSys} (h : TreeInv s.vmm.kernelPml4 s.vmm) {v : U64}
    (hs : entryOf s.vmm.mem s.vmm.kernelPml4 v &&& pteSwapped ≠ 0)
    (halloc : (pmmAlloc s.vmm.pmm).1 ≠ 0) : SwappedIn s (swapPageFaultHandler s v) v ↔
      s.swapUsed ≠ 0 ∧ entryOf s.vmm.mem s.vmm.kernelPml4 v &&& pteKept = pteWritable := by
  have hfree := visible_of_alloc halloc
  have hkeeps := handler_kept h hs hfree
  obtain ⟨htree, hroot, hused, f, _, hf, hpmm, hentry⟩ := swapIn_spec h hs hfree
  have hbits : ∀ g, (swapPageFaultHandler s v).vmm.pmm.IsFree g ↔ g ≠ f ∧ s.vmm.pmm.IsFree g := by
    intro g
    rw [hpmm, isFree_takeFrames]
    exact and_congr_left fun _ => by omega
  have hcount : (swapPageFaultHandler s v).swapUsed.toNat + 1 = s.swapUsed.toNat ↔ s.swapUsed ≠ 0 := by
    rw [hused]
    generalize s.swapUsed = used
    bv_omega
  constructor
  · intro hin
    exact ⟨hcount.mp hin.used, hin.kept.symm.trans hkeeps⟩
  · rintro ⟨hpos, hkept⟩
    refine ⟨⟨f, hf, fun hstill => ((hbits f).mp hstill).1 rfl, ?_, fun g hg => ?_⟩, fun w hw => ?_,
      hcount.mpr hpos, hkeeps.trans hkept.symm⟩
    · exact virtToPhys_link htree hf.lt (by rw [hroot, hentry, if_pos rfl])
    · rw [hbits g, and_iff_right hg]
    · rw [hroot, hentry, if_neg hw]

theorem alloc_swappedSys : (pmmAlloc (swappedSys clearVmm).vmm.pmm).1 ≠ 0 := by
  obtain ⟨_, _, _, hfree⟩ := swappedSys_spec clearVmm_visible
  obtain ⟨f, hf⟩ := Finset.nonempty_iff_ne_empty.mpr hfree
  exact pmmAlloc_ne_zero hf

theorem swappedSys_bit : entryOf (swappedSys clearVmm).vmm.mem (swappedSys clearVmm).vmm.kernelPml4
    (frameAddr 1) &&& pteSwapped ≠ 0 := by
  rw [(swappedSys_spec clearVmm_visible).2.2.1]
  decide

theorem swap_in_sample : SwappedIn (swappedSys clearVmm)
    (swapPageFaultHandler (swappedSys clearVmm) (frameAddr 1)) (frameAddr 1) ↔
      (swappedSys clearVmm).swapUsed ≠ 0 ∧
        entryOf (swappedSys clearVmm).vmm.mem (swappedSys clearVmm).vmm.kernelPml4
          (frameAddr 1) &&& pteKept = pteWritable :=
  swap_in_iff (swappedSys_spec clearVmm_visible).1 swappedSys_bit alloc_swappedSys

/-- A page that was read-only comes in writable. -/
theorem read_only_widened : ¬ SwappedIn (swappedSys clearVmm)
    (swapPageFaultHandler (swappedSys clearVmm) (frameAddr 1)) (frameAddr 1) := by
  obtain ⟨htree, _, hentry, hfree⟩ := swappedSys_spec clearVmm_visible
  intro hin
  have hkept := hin.kept.symm.trans (handler_kept htree swappedSys_bit hfree)
  rw [hentry] at hkept
  exact absurd hkept (by decide)

end AionOs
