import Mathlib.Algebra.BigOperators.Group.Finset.Piecewise
import AionOs.Memory.VmmInit

/-!
# Swap accounting

`swap_used` is to be the number of pages that are swapped out.  `vmm_map`, `vmm_unmap` and
the page fault handler all write leaf entries; only the handler looks at the swap bit and
counts.

* `card_filter_update`: one element of a set changes its mind.
* `swap_skip`, `swapIn_spec`: what a page fault does.
* `swappedPages_update`: a leaf entry is written.
* `counted_step_iff`: when one operation keeps the count.
* `swap_counted_iff`: when a run does.
-/

namespace AionOs

/-! ### The code -/

def pteSwapped : U64 := 1#64 <<< 9

/-- The page tables with the counter of the swap manager. -/
structure SwapSys where
  vmm : Vmm
  swapUsed : U64

/-- The handler, with the address from CR2.  It halts when there is no entry or no frame. -/
def swapPageFaultHandler (s : SwapSys) (faultAddr : U64) : SwapSys :=
  let (pte, vmm) := vmmGetPte s.vmm s.vmm.kernelPml4 faultAddr 1 false
  if pte = 0 then { s with vmm := vmm }
  else if vmm.mem pte &&& pteSwapped ≠ 0 then
    let (frame, pmm) := pmmAlloc vmm.pmm
    if frame = 0 then { s with vmm := { vmm with pmm := pmm } }
    else
      ⟨{ vmm with mem := writeWord vmm.mem pte (frame ||| ptePresent ||| pteWritable), pmm := pmm },
        s.swapUsed - 1⟩
  else { s with vmm := vmm }

inductive SwapOp where
  | map (vaddr phys flags : U64)
  | unmap (vaddr : U64)
  | fault (vaddr : U64)

/-- The operations on the tables of the kernel. -/
def SwapSys.step (s : SwapSys) : SwapOp → SwapSys
  | .map v p f => { s with vmm := (vmmMap s.vmm s.vmm.kernelPml4 v p f).2 }
  | .unmap v => { s with vmm := vmmUnmap s.vmm s.vmm.kernelPml4 v }
  | .fault v => swapPageFaultHandler s v

def swapMachine : Machine SwapSys SwapOp := ⟨SwapSys.step, fun _ _ => True⟩

/-! ### Counting -/

/-- If the elements of a set but one keep a property, its number changes by that one. -/
theorem card_filter_update {A : Finset Nat} {P Q : Nat → Prop} [DecidablePred P] [DecidablePred Q]
    {k : Nat} (hk : k ∈ A) (h : ∀ j ∈ A, j ≠ k → (Q j ↔ P j)) :
    (A.filter Q).card + (if P k then 1 else 0) = (A.filter P).card + if Q k then 1 else 0 := by
  have hrest : ((A.erase k).filter Q) = (A.erase k).filter P := by
    refine Finset.filter_congr fun j hj => ?_
    exact h j (Finset.mem_of_mem_erase hj) (Finset.ne_of_mem_erase hj)
  have hsplit : ∀ (R : Nat → Prop) [DecidablePred R],
      (A.filter R).card = ((A.erase k).filter R).card + if R k then 1 else 0 := by
    intro R _
    rw [Finset.card_filter, Finset.card_filter, ← Finset.add_sum_erase A _ hk, Nat.add_comm]
  rw [hsplit Q, hsplit P, hrest]
  omega

def pageCount : Nat := 2 ^ 36

theorem pageCount_eq : pageCount = 68719476736 := rfl

attribute [irreducible] pageCount

def pageAddr (k : Nat) : U64 := BitVec.ofNat 64 (k * 4096)

theorem pageKey_pageAddr {k : Nat} (h : k < pageCount) : (pageKey (pageAddr k)).toNat = k := by
  rw [pageCount_eq] at h
  rw [toNat_pageKey, pageAddr, BitVec.toNat_ofNat]
  omega

theorem pageKey_lt (v : U64) : (pageKey v).toNat < pageCount := by
  rw [pageCount_eq, toNat_pageKey]
  omega

theorem pageKey_eq_pageAddr {k : Nat} (h : k < pageCount) (v : U64) :
    pageKey (pageAddr k) = pageKey v ↔ k = (pageKey v).toNat := by
  rw [← BitVec.toNat_inj, pageKey_pageAddr h]

/-- The entry stands for a page in swap. -/
def SwappedOut (e : U64) : Prop := e &&& pteSwapped ≠ 0 ∧ e &&& ptePresent = 0

instance : DecidablePred SwappedOut := fun _ => inferInstanceAs (Decidable (_ ∧ _))

/-- The pages whose leaf entries carry the swap bit and not the present bit. -/
def swappedPages (mem : U64 → U64) (root : U64) : Finset Nat :=
  (Finset.range pageCount).filter fun k => SwappedOut (entryOf mem root (pageAddr k))

/-- **The counter is the number of pages in swap.** -/
def Counted (s : SwapSys) : Prop :=
  s.swapUsed.toNat = (swappedPages s.vmm.mem s.vmm.kernelPml4).card

theorem swappedOut_zero : ¬ SwappedOut 0 := fun h => h.1 BitVec.zero_and

theorem swappedPages_congr {mem mem' : U64 → U64} {root : U64}
    (h : ∀ w, entryOf mem' root w = entryOf mem root w) :
    swappedPages mem' root = swappedPages mem root :=
  Finset.filter_congr fun k _ => by rw [h]

/-- **Writing the entry of a page** changes the number by what the entry was and is. -/
theorem swappedPages_update {mem mem' : U64 → U64} {root v x : U64}
    (h : ∀ w, entryOf mem' root w = if pageKey w = pageKey v then x else entryOf mem root w) :
    (swappedPages mem' root).card + (if SwappedOut (entryOf mem root v) then 1 else 0) =
      (swappedPages mem root).card + if SwappedOut x then 1 else 0 := by
  have hv := pageKey_lt v
  have hsame : pageKey (pageAddr (pageKey v).toNat) = pageKey v :=
    (pageKey_eq_pageAddr hv v).mpr rfl
  have hold : entryOf mem root (pageAddr (pageKey v).toNat) = entryOf mem root v := by
    obtain ⟨h1, h2⟩ := (pageKey_eq_iff _ _).mp hsame
    rw [entryOf, entryOf, h1, h2]
  have hnew : entryOf mem' root (pageAddr (pageKey v).toNat) = x := by rw [h, if_pos hsame]
  have hcard := card_filter_update (A := Finset.range pageCount)
    (P := fun k => SwappedOut (entryOf mem root (pageAddr k)))
    (Q := fun k => SwappedOut (entryOf mem' root (pageAddr k)))
    (Finset.mem_range.mpr hv) fun j hj hne => by
      rw [h, if_neg]
      exact fun hk => hne ((pageKey_eq_pageAddr (Finset.mem_range.mp hj) v).mp hk)
  simp only [hold, hnew] at hcard
  exact hcard

theorem swappedPages_card_le (mem : U64 → U64) (root : U64) :
    (swappedPages mem root).card ≤ pageCount :=
  (Finset.card_filter_le _ _).trans (Finset.card_range _).le

/-! ### One operation -/

/-- The tables stay a tree when frames are taken for something else. -/
theorem TreeInv.take {root : U64} {s : Vmm} (h : TreeInv root s) {p : Pmm}
    (hp : ∀ f, p.IsFree f → s.pmm.IsFree f) : TreeInv root { s with pmm := p } := by
  refine ⟨fun π n hl hπ => ?_, h.tree⟩
  obtain ⟨f, hf, he, hn⟩ := h.node π n hl hπ
  exact ⟨f, hf, he, fun hfree => hn (hp f hfree)⟩

/-- Nothing happens to a page without the swap bit, or without a free frame. -/
theorem swap_skip {s : SwapSys} (h : TreeInv s.vmm.kernelPml4 s.vmm) {v : U64}
    (hskip : entryOf s.vmm.mem s.vmm.kernelPml4 v &&& pteSwapped = 0 ∨ s.vmm.pmm.visible = ∅) :
    swapPageFaultHandler s v = s := by
  rw [swapPageFaultHandler, vmmGetPte_find]
  cases htab : tableAt s.vmm.mem s.vmm.kernelPml4 (path v) with
  | none => simp only [Option.elim_none, if_true]
  | some tab =>
    have he := entryOf_some htab
    simp only [Option.elim_some, wordAt_table_ne_zero h htab, if_false, ← he]
    rcases hskip with hzero | hnone
    · rw [if_neg (not_not_intro hzero)]
    · split
      · simp only [pmmAlloc_drained hnone, if_true]
      · rfl

/-- **A page with the swap bit comes in**: one frame is taken, and one entry is written. -/
theorem swapIn_spec {s : SwapSys} (h : TreeInv s.vmm.kernelPml4 s.vmm) {v : U64}
    (hs : entryOf s.vmm.mem s.vmm.kernelPml4 v &&& pteSwapped ≠ 0) (hfree : s.vmm.pmm.visible ≠ ∅) :
    let t := swapPageFaultHandler s v
    TreeInv t.vmm.kernelPml4 t.vmm ∧ t.vmm.kernelPml4 = s.vmm.kernelPml4 ∧
      t.swapUsed = s.swapUsed - 1 ∧
      ∃ f, 0 < f ∧ s.vmm.pmm.IsFree f ∧ t.vmm.pmm = pmmTakeFrames s.vmm.pmm f 1 ∧
        ∀ w, entryOf t.vmm.mem s.vmm.kernelPml4 w =
          if pageKey w = pageKey v then linkEntry (frameAddr f)
          else entryOf s.vmm.mem s.vmm.kernelPml4 w := by
  intro t
  have ht : t = swapPageFaultHandler s v := rfl
  rw [swapPageFaultHandler, vmmGetPte_find] at ht
  cases htab : tableAt s.vmm.mem s.vmm.kernelPml4 (path v) with
  | none =>
    rw [entryOf_none htab] at hs
    exact absurd BitVec.zero_and hs
  | some tab =>
    have he := entryOf_some htab
    simp only [htab, Option.elim_some, wordAt_table_ne_zero h htab, if_false, ← he] at ht
    rw [if_pos hs] at ht
    rcases pmmAlloc_cases s.vmm.pmm with ⟨_, hnone⟩ | ⟨f, ha, hfit, _⟩
    · refine absurd (Finset.eq_empty_of_forall_notMem fun j hj => ?_) hfree
      obtain ⟨⟨h1, h2⟩, h3⟩ := mem_visible.mp hj
      exact hnone j h1 h2 h3
    · have hf : s.vmm.pmm.IsFree f := hfit.free f (Nat.le_refl f) (by omega)
      have hpos : 0 < f := by
        have := hfit.lo
        omega
      simp only [ha, frameAddr_ne_zero hf.lt hpos, if_false] at ht
      have hleaf := treeInv_writeLeaf h htab (length_path v) (idx v 1) (linkEntry (frameAddr f))
      have htaken : ∀ g, (pmmTakeFrames s.vmm.pmm f 1).IsFree g → s.vmm.pmm.IsFree g :=
        fun g hg => (isFree_takeFrames 1 _ _).mp hg |>.2
      have ht' : t = ⟨{ s.vmm with
          mem := writeWord s.vmm.mem (wordAt tab (idx v 1)) (linkEntry (frameAddr f))
          pmm := pmmTakeFrames s.vmm.pmm f 1 }, s.swapUsed - 1⟩ := ht
      rw [ht']
      exact ⟨hleaf.take htaken, rfl, rfl, f, hpos, hf, rfl,
        entryOf_writeLeaf h htab (linkEntry (frameAddr f))⟩

theorem swapPageFaultHandler_cases {s : SwapSys} (h : TreeInv s.vmm.kernelPml4 s.vmm) (v : U64) :
    let e := entryOf s.vmm.mem s.vmm.kernelPml4 v
    let t := swapPageFaultHandler s v
    (t = s ∧ (e &&& pteSwapped = 0 ∨ s.vmm.pmm.visible = ∅)) ∨
    (e &&& pteSwapped ≠ 0 ∧ s.vmm.pmm.visible ≠ ∅ ∧ TreeInv t.vmm.kernelPml4 t.vmm ∧
      t.vmm.kernelPml4 = s.vmm.kernelPml4 ∧ t.swapUsed = s.swapUsed - 1 ∧
      ∃ f, f < maxFrames ∧ ∀ w, entryOf t.vmm.mem s.vmm.kernelPml4 w =
        if pageKey w = pageKey v then linkEntry (frameAddr f)
        else entryOf s.vmm.mem s.vmm.kernelPml4 w) := by
  intro e t
  by_cases hskip : e &&& pteSwapped = 0 ∨ s.vmm.pmm.visible = ∅
  · exact .inl ⟨swap_skip h hskip, hskip⟩
  · obtain ⟨hs, hfree⟩ := not_or.mp hskip
    obtain ⟨htree, hroot, hused, f, _, hf, _, hentry⟩ := swapIn_spec h hs hfree
    exact .inr ⟨hs, hfree, htree, hroot, hused, f, hf.lt, hentry⟩

theorem vmmMap_of_table {root : U64} {s : Vmm} (h : TreeInv root s) {v t : U64}
    (ht : tableAt s.mem root (path v) = some t) (phys flags : U64) :
    (vmmMap s root v phys flags).1 = 0 := by
  obtain ⟨h1, h2, _, ⟨u, hu, hpte⟩ | ⟨_, hnone, _⟩⟩ := vmmGetPte_create h v
  · rw [vmmMap_fst_snd, hpte, if_neg (wordAt_table_ne_zero h1 hu _)]
  · rw [h2.keep _ t (by rw [length_path]) ht] at hnone
    cases hnone

/-- When an operation keeps the count, read off the entry that it meets: `vmm_map` must not
overwrite a page in swap, and a fault on a present entry with the swap bit must find no
free frame. -/
def KeepsCount (s : SwapSys) : SwapOp → Prop
  | .map v _ _ => ¬ SwappedOut (entryOf s.vmm.mem s.vmm.kernelPml4 v)
  | .unmap _ => True
  | .fault v =>
    let e := entryOf s.vmm.mem s.vmm.kernelPml4 v
    e &&& pteSwapped = 0 ∨ e &&& ptePresent = 0 ∨ s.vmm.pmm.visible = ∅

theorem counted_map_iff {s : SwapSys} (h : TreeInv s.vmm.kernelPml4 s.vmm) (hc : Counted s)
    (v phys flags : U64) :
    Counted (s.step (.map v phys flags)) ↔ KeepsCount s (.map v phys flags) := by
  obtain ⟨_, hcase⟩ := vmmMap_spec h v phys flags
  have hroot := vmmMap_kernelPml4 s.vmm s.vmm.kernelPml4 v phys flags
  have hstep : (s.step (.map v phys flags)).vmm = (vmmMap s.vmm s.vmm.kernelPml4 v phys flags).2 := rfl
  have hused : (s.step (.map v phys flags)).swapUsed = s.swapUsed := rfl
  unfold Counted at hc ⊢
  rw [hstep, hused, hroot]
  show _ ↔ ¬ SwappedOut (entryOf s.vmm.mem s.vmm.kernelPml4 v)
  rcases hcase with ⟨_, hentry⟩ | ⟨hfail, hentry⟩
  · have hcard := swappedPages_update hentry
    rw [if_neg (fun hs : SwappedOut (leafEntry phys flags) => leafEntry_present phys flags hs.2)] at hcard
    generalize (swappedPages (vmmMap s.vmm s.vmm.kernelPml4 v phys flags).2.mem
      s.vmm.kernelPml4).card = after at hcard ⊢
    generalize (swappedPages s.vmm.mem s.vmm.kernelPml4).card = before at hc hcard
    by_cases hs : SwappedOut (entryOf s.vmm.mem s.vmm.kernelPml4 v)
    · rw [if_pos hs] at hcard
      exact ⟨fun _ => by omega, fun hn => absurd hs hn⟩
    · rw [if_neg hs] at hcard
      exact ⟨fun _ => hs, fun _ => by omega⟩
  · have hs : ¬ SwappedOut (entryOf s.vmm.mem s.vmm.kernelPml4 v) := by
      intro hs
      cases htab : tableAt s.vmm.mem s.vmm.kernelPml4 (path v) with
      | none => exact swappedOut_zero (entryOf_none htab ▸ hs)
      | some t =>
        rw [vmmMap_of_table h htab] at hfail
        cases hfail
    rw [swappedPages_congr hentry]
    exact ⟨fun _ => hs, fun _ => hc⟩

theorem vmmUnmap_kernelPml4 (s : Vmm) (root v : U64) : (vmmUnmap s root v).kernelPml4 = s.kernelPml4 := by
  rw [vmmUnmap_find]
  split <;> rfl

theorem counted_unmap {s : SwapSys} (h : TreeInv s.vmm.kernelPml4 s.vmm) (hc : Counted s) (v : U64) :
    Counted (s.step (.unmap v)) := by
  obtain ⟨_, hentry⟩ := vmmUnmap_spec h v
  have hroot := vmmUnmap_kernelPml4 s.vmm s.vmm.kernelPml4 v
  have hstep : (s.step (.unmap v)).vmm = vmmUnmap s.vmm s.vmm.kernelPml4 v := rfl
  have hused : (s.step (.unmap v)).swapUsed = s.swapUsed := rfl
  unfold Counted at hc ⊢
  rw [hstep, hused, hroot, hc]
  by_cases hp : entryOf s.vmm.mem s.vmm.kernelPml4 v &&& ptePresent = 0
  · rw [swappedPages_congr fun w => (hentry w).trans (if_neg fun hk => hk.2 hp)]
  · have hwrite : ∀ w, entryOf (vmmUnmap s.vmm s.vmm.kernelPml4 v).mem s.vmm.kernelPml4 w =
        if pageKey w = pageKey v then 0 else entryOf s.vmm.mem s.vmm.kernelPml4 w :=
      fun w => (hentry w).trans (if_congr (and_iff_left hp) rfl rfl)
    have hcard := swappedPages_update hwrite
    have hnot : ¬ SwappedOut (entryOf s.vmm.mem s.vmm.kernelPml4 v) := fun hs => hp hs.2
    rw [if_neg swappedOut_zero, if_neg hnot, Nat.add_zero, Nat.add_zero] at hcard
    rw [hcard]

theorem counted_fault_iff {s : SwapSys} (h : TreeInv s.vmm.kernelPml4 s.vmm) (hc : Counted s) (v : U64) :
    Counted (s.step (.fault v)) ↔ KeepsCount s (.fault v) := by
  have hstep : s.step (.fault v) = swapPageFaultHandler s v := rfl
  have hle := swappedPages_card_le s.vmm.mem s.vmm.kernelPml4
  rw [pageCount_eq] at hle
  show _ ↔ entryOf s.vmm.mem s.vmm.kernelPml4 v &&& pteSwapped = 0 ∨
    entryOf s.vmm.mem s.vmm.kernelPml4 v &&& ptePresent = 0 ∨ s.vmm.pmm.visible = ∅
  rw [hstep]
  rcases swapPageFaultHandler_cases h v with
    ⟨hsame, hcase⟩ | ⟨hs, hfree, _, hroot, hused, f, _, hentry⟩
  · rw [hsame]
    refine ⟨fun _ => ?_, fun _ => hc⟩
    rcases hcase with hz | hnone
    · exact .inl hz
    · exact .inr (.inr hnone)
  · unfold Counted at hc ⊢
    rw [hroot, hused]
    have hcard := swappedPages_update hentry
    rw [if_neg (fun hs : SwappedOut (linkEntry (frameAddr f)) => linkEntry_present _ hs.2)] at hcard
    generalize (swappedPages (swapPageFaultHandler s v).vmm.mem s.vmm.kernelPml4).card =
      after at hcard ⊢
    generalize (swappedPages s.vmm.mem s.vmm.kernelPml4).card = before at hc hcard hle
    generalize s.swapUsed = used at hc ⊢
    by_cases hp : entryOf s.vmm.mem s.vmm.kernelPml4 v &&& ptePresent = 0
    · -- a page in swap comes back, and is counted off
      rw [if_pos ⟨hs, hp⟩] at hcard
      have hsub : (used - 1).toNat = used.toNat - 1 := by bv_omega
      exact ⟨fun _ => .inr (.inl hp), fun _ => by omega⟩
    · rw [if_neg (fun hc : SwappedOut _ => hp hc.2)] at hcard
      have hsub : (used - 1).toNat ≠ used.toNat := by bv_omega
      refine ⟨fun hk => absurd hk (by omega), fun hk => ?_⟩
      rcases hk with hz | hz | hz
      · exact absurd hz hs
      · exact absurd hz hp
      · exact absurd hz hfree

/-- **One operation** keeps the count exactly when `KeepsCount` says. -/
theorem counted_step_iff {s : SwapSys} (h : TreeInv s.vmm.kernelPml4 s.vmm) (hc : Counted s)
    (op : SwapOp) : Counted (s.step op) ↔ KeepsCount s op := by
  cases op with
  | map v phys flags => exact counted_map_iff h hc v phys flags
  | unmap v => exact ⟨fun _ => trivial, fun _ => counted_unmap h hc v⟩
  | fault v => exact counted_fault_iff h hc v

theorem treeInv_step {s : SwapSys} (h : TreeInv s.vmm.kernelPml4 s.vmm) (op : SwapOp) :
    TreeInv (s.step op).vmm.kernelPml4 (s.step op).vmm := by
  cases op with
  | map v phys flags =>
    have hroot := vmmMap_kernelPml4 s.vmm s.vmm.kernelPml4 v phys flags
    have htree := (vmmMap_spec h v phys flags).1
    exact hroot.symm ▸ htree
  | unmap v =>
    have hroot := vmmUnmap_kernelPml4 s.vmm s.vmm.kernelPml4 v
    have htree := (vmmUnmap_spec h v).1
    exact hroot.symm ▸ htree
  | fault v =>
    rcases swapPageFaultHandler_cases h v with ⟨hsame, _⟩ | ⟨_, _, htree, _⟩
    · rw [show s.step (.fault v) = s from hsame]
      exact h
    · exact htree

/-! ### Runs -/

/-- **Swap accounting.**  From any page tables that are a tree and whose swapped pages are
counted, the count is right after every operation of a run exactly when no `vmm_map` of the
run overwrites a page in swap and no fault brings in a page that is present. -/
theorem swap_counted_iff {s : SwapSys} (h : TreeInv s.vmm.kernelPml4 s.vmm) (hc : Counted s)
    (ops : List SwapOp) :
    (∀ pre op, pre ++ [op] <+: ops → Counted ((swapMachine.run s pre).step op)) ↔
      ∀ pre op, pre ++ [op] <+: ops → KeepsCount (swapMachine.run s pre) op :=
  Machine.forall_steps_iff (M := swapMachine)
    (I := fun t => TreeInv t.vmm.kernelPml4 t.vmm ∧ Counted t)
    (P := fun t op => Counted (t.step op)) (Q := KeepsCount)
    (fun _ op ht _ => counted_step_iff ht.1 ht.2 op)
    (fun _ op ht _ hk => ⟨treeInv_step ht.1 op, (counted_step_iff ht.1 ht.2 op).mpr hk⟩)
    ops s ⟨h, hc⟩ (swapMachine.legal_of_forall (fun _ _ => trivial) ops s)

/-! ### A page in swap that is mapped anew -/

/-- The page after the null page is mapped. -/
def mapFirst (t : VmmSys) : Vmm := (vmmMap t.vmm t.pml4 (frameAddr 1) 0x5000 0).2

def mappedVmm (s : Vmm) : Vmm := mapFirst (VmmSys.startKernel s)

/-- Its entry is made one of swap slot 7, and counted. -/
def swapFirst (m : Vmm) : SwapSys where
  vmm := { m with mem := writeWord m.mem (findPte m m.kernelPml4 (frameAddr 1)) 0x7200 }
  swapUsed := 1

/-- The kernel tables with that one page in swap. -/
def swappedSys (s : Vmm) : SwapSys := swapFirst (mappedVmm s)

theorem mapFirst_spec {t : VmmSys} (hroot : t.vmm.kernelPml4 = t.pml4) (h : TreeInv t.pml4 t.vmm)
    (hempty : ∀ w, entryOf t.vmm.mem t.pml4 w = 0)
    (hsucc : (vmmMap t.vmm t.pml4 (frameAddr 1) 0x5000 0).1 = 0) :
    TreeInv (mapFirst t).kernelPml4 (mapFirst t) ∧
    (∃ p, tableAt (mapFirst t).mem (mapFirst t).kernelPml4 (path (frameAddr 1)) = some p) ∧
    ∀ w, ¬ SwappedOut (entryOf (mapFirst t).mem (mapFirst t).kernelPml4 w) := by
  have hkernel : (mapFirst t).kernelPml4 = t.pml4 := by
    rw [mapFirst, vmmMap_kernelPml4, hroot]
  obtain ⟨htree, ⟨_, hentry⟩ | ⟨hfail, _⟩⟩ := vmmMap_spec h (frameAddr 1) 0x5000 0
  · have hentry' : ∀ w, entryOf (mapFirst t).mem t.pml4 w =
        if pageKey w = pageKey (frameAddr 1) then leafEntry 0x5000 0 else 0 := by
      intro w
      rw [mapFirst, hentry w, hempty]
    rw [hkernel]
    refine ⟨htree, ?_, fun w hs => ?_⟩
    · cases htab : tableAt (mapFirst t).mem t.pml4 (path (frameAddr 1)) with
      | some p => exact ⟨p, rfl⟩
      | none =>
        have hzero := hentry' (frameAddr 1)
        rw [if_pos rfl, entryOf_none htab] at hzero
        exact absurd hzero (by decide)
    · rw [hentry' w] at hs
      split at hs
      · exact leafEntry_present _ _ hs.2
      · exact swappedOut_zero hs
  · rw [hsucc] at hfail
    cases hfail

theorem swapFirst_spec {m : Vmm} (h : TreeInv m.kernelPml4 m) {p : U64}
    (hp : tableAt m.mem m.kernelPml4 (path (frameAddr 1)) = some p)
    (hnone : ∀ w, ¬ SwappedOut (entryOf m.mem m.kernelPml4 w)) :
    TreeInv (swapFirst m).vmm.kernelPml4 (swapFirst m).vmm ∧ Counted (swapFirst m) ∧
      entryOf (swapFirst m).vmm.mem (swapFirst m).vmm.kernelPml4 (frameAddr 1) = 0x7200 := by
  have hpte : findPte m m.kernelPml4 (frameAddr 1) = wordAt p (idx (frameAddr 1) 1) := by
    rw [findPte, hp, Option.elim_some]
  have hvmm : (swapFirst m).vmm =
      { m with mem := writeWord m.mem (wordAt p (idx (frameAddr 1) 1)) 0x7200 } := by
    rw [swapFirst, hpte]
  have hused : (swapFirst m).swapUsed = 1 := rfl
  have hentry := entryOf_writeLeaf h hp 0x7200
  have hout : SwappedOut 0x7200 := by decide
  rw [Counted, hvmm, hused]
  refine ⟨treeInv_writeLeaf h hp (length_path _) _ _, ?_, ?_⟩
  · have hcard := swappedPages_update hentry
    have hempty : swappedPages m.mem m.kernelPml4 = ∅ :=
      Finset.filter_eq_empty_iff.mpr fun k _ => hnone _
    rw [if_neg (hnone _), if_pos hout, hempty, Finset.card_empty, Nat.add_zero, Nat.zero_add]
      at hcard
    show 1 = (swappedPages (writeWord m.mem _ 0x7200) m.kernelPml4).card
    rw [hcard]
  · rw [hentry, if_pos rfl]

theorem swapFirst_pmm (m : Vmm) : (swapFirst m).vmm.pmm = m.pmm := rfl

theorem mapFirst_step (t : VmmSys) :
    (t.step (.map (frameAddr 1) 0x5000 0)).vmm = mapFirst t := rfl

theorem swappedSys_spec {s : Vmm} (h : 10000 ≤ s.pmm.visible.card) :
    TreeInv (swappedSys s).vmm.kernelPml4 (swappedSys s).vmm ∧ Counted (swappedSys s) ∧
      entryOf (swappedSys s).vmm.mem (swappedSys s).vmm.kernelPml4 (frameAddr 1) = 0x7200 ∧
      (swappedSys s).vmm.pmm.visible ≠ ∅ := by
  have hfew : 2 ≤ maxFrames := by rw [maxFrames_eq]; omega
  obtain ⟨_, henough, hstart⟩ := tablesBelow_start (s := s) (n := 2) (by omega) (by omega)
  obtain ⟨htables, hsucc⟩ := hstart.map hfew henough (by omega : 1 < 2) (v := frameAddr 1) rfl 0x5000 0
  obtain ⟨htree, ⟨p, hp⟩, hnone⟩ := mapFirst_spec rfl hstart.tree
    (fun w => entryOf_none (tableAt_start _ _ _)) hsucc
  obtain ⟨htree', hcounted, hentry⟩ := swapFirst_spec htree hp hnone
  have hleft := htables.visible_ne_empty hfew henough
  rw [mapFirst_step] at hleft
  refine ⟨htree', hcounted, hentry, ?_⟩
  rw [swappedSys, swapFirst_pmm]
  exact hleft

theorem map_loses_slot {s : Vmm} (h : 10000 ≤ s.pmm.visible.card) : Counted (swappedSys s) ∧
    ¬ Counted ((swappedSys s).step (.map (frameAddr 1) 0x9000 pteWritable)) := by
  obtain ⟨htree, hc, hentry, _⟩ := swappedSys_spec h
  have hout : SwappedOut 0x7200 := by decide
  exact ⟨hc, fun hafter => (counted_step_iff htree hc _).mp hafter (hentry ▸ hout)⟩

theorem swap_counted_sample :
    (∀ pre op, pre ++ [op] <+: [SwapOp.fault (frameAddr 1), .unmap (frameAddr 1)] →
        Counted ((swapMachine.run (swappedSys clearVmm) pre).step op)) ↔
      ∀ pre op, pre ++ [op] <+: [SwapOp.fault (frameAddr 1), .unmap (frameAddr 1)] →
        KeepsCount (swapMachine.run (swappedSys clearVmm) pre) op :=
  swap_counted_iff (swappedSys_spec clearVmm_visible).1 (swappedSys_spec clearVmm_visible).2.1 _

/-- Mapping a page that is in swap leaves its slot counted. -/
theorem swap_slot_lost : Counted (swappedSys clearVmm) ∧
    ¬ Counted ((swappedSys clearVmm).step (.map (frameAddr 1) 0x9000 pteWritable)) :=
  map_loses_slot clearVmm_visible

end AionOs
