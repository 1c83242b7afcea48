import AionOs.Lib.Tlb
import AionOs.Memory.SwapIn

/-!
# Page tables in use

`vmm_map`, `vmm_unmap` and the page fault handler of `kernel/memory/memory.c` store by store, with
`vmm_invlpg` and a processor that walks the tables of the kernel at any time and keeps what it
finds.

* `getPteStores_entry`: while tables are made and linked, no walk finds a new translation.
* `final_stores`: the stores of an operation lead to its result.
* `covered_stores`: what an operation changes, it flushes.
* `tlb_coherent`: in every interleaving the processor uses no translation that is gone.
-/

namespace AionOs

open Tlb (Micro Covered)

/-! ### The stores -/

/-- `table` after the first `n` stores of the loop that zeroes it. -/
def zeroFirst (mem : U64 → U64) (table : U64) (n : Nat) : U64 → U64 :=
  (List.range n).foldl (fun m i => writeWord m (entryPtr table (BitVec.ofNat 64 i)) 0) mem

/-- The states that the creating walk goes through, with `k` levels left above the last. -/
def getPteStores (vaddr : U64) : Nat → U64 → Vmm → List Vmm
  | 0, _, _ => []
  | k + 1, table, s =>
    let entry := entryPtr table (indices vaddr (1 + k + 1))
    if s.mem entry &&& ptePresent = 0 then
      let (newTable, pmm) := pmmAlloc s.pmm
      if newTable = 0 then [{ s with pmm := pmm }]
      else
        let zeroed := (List.range 513).map fun n =>
          { s with mem := zeroFirst s.mem (newTable + virtPhysMapBase) n, pmm := pmm }
        let mem := writeWord (zeroTable s.mem (newTable + virtPhysMapBase)) entry
          (newTable ||| ptePresent ||| pteWritable)
        let linked := { s with mem := mem, pmm := pmm }
        zeroed ++ linked :: getPteStores vaddr k ((mem entry &&& pteAddrMask) + virtPhysMapBase) linked
    else getPteStores vaddr k ((s.mem entry &&& pteAddrMask) + virtPhysMapBase) s

/-- The page of an address: bits 47..12. -/
def pageOf (v : U64) : BitVec 36 := v.extractLsb' 12 36

def pageStart (k : BitVec 36) : U64 := k.setWidth 64 <<< 12

/-- The stores of an operation and its `vmm_invlpg`. -/
def SwapSys.stores (s : SwapSys) : SwapOp → List (Micro SwapSys (BitVec 36))
  | .map v p f =>
    (getPteStores v 3 (s.vmm.kernelPml4 + virtPhysMapBase) s.vmm).map (fun vmm => .store { s with vmm := vmm }) ++
      if (vmmGetPte s.vmm s.vmm.kernelPml4 v 1 true).1 = 0 then []
      else [.store (s.step (.map v p f)), .flush (pageOf v)]
  | .unmap v =>
    let pte := (vmmGetPte s.vmm s.vmm.kernelPml4 v 1 false).1
    if pte ≠ 0 ∧ s.vmm.mem pte &&& ptePresent ≠ 0 then [.store (s.step (.unmap v)), .flush (pageOf v)] else []
  | .fault v =>
    let pte := (vmmGetPte s.vmm s.vmm.kernelPml4 v 1 false).1
    if pte = 0 ∨ s.vmm.mem pte &&& pteSwapped = 0 then []
    else
      let (frame, pmm) := pmmAlloc s.vmm.pmm
      let taken := { s with vmm := { s.vmm with pmm := pmm } }
      if frame = 0 then [.store taken]
      else
        let written := { taken with vmm := { taken.vmm with
          mem := writeWord taken.vmm.mem pte (frame ||| ptePresent ||| pteWritable) } }
        [.store taken, .store written, .flush (pageOf (v &&& ~~~0xFFF)),
          .store { written with swapUsed := written.swapUsed - 1 }]

/-- What a walk of the tables of the kernel finds for a page. -/
def walkPage (s : SwapSys) (k : BitVec 36) : Option U64 :=
  let e := entryOf s.vmm.mem s.vmm.kernelPml4 (pageStart k)
  if e &&& ptePresent = 0 then none else some e

/-! ### Pages -/

theorem pageOf_pageStart (k : BitVec 36) : pageOf (pageStart k) = k := by
  refine BitVec.eq_of_toNat_eq ?_
  have hk := k.isLt
  rw [pageOf, pageStart, BitVec.extractLsb'_toNat, BitVec.toNat_shiftLeft, BitVec.toNat_setWidth,
    Nat.shiftLeft_eq, Nat.shiftRight_eq_div_pow]
  omega

theorem pageKey_eq_pageOf (v w : U64) : pageKey v = pageKey w ↔ pageOf v = pageOf w := by
  have htoNat : ∀ x : U64, (pageOf x).toNat = (pageKey x).toNat := fun x => by
    rw [toNat_pageKey, pageOf, BitVec.extractLsb'_toNat, Nat.shiftRight_eq_div_pow]
  rw [← BitVec.toNat_inj, ← BitVec.toNat_inj, htoNat, htoNat]

theorem pageOf_low (v : U64) : pageOf (v &&& ~~~0xFFF) = pageOf v := by
  refine BitVec.eq_of_getLsbD_eq fun i hi => ?_
  have hmask : ∀ j < 36, (~~~(0xFFF : U64)).getLsbD (12 + j) = true := by decide
  rw [pageOf, pageOf, BitVec.getLsbD_extractLsb', BitVec.getLsbD_extractLsb', BitVec.getLsbD_and, hmask i hi,
    Bool.and_true]

theorem walkPage_pageOf (s : SwapSys) (v : U64) : walkPage s (pageOf v) =
    if entryOf s.vmm.mem s.vmm.kernelPml4 v &&& ptePresent = 0 then none
    else some (entryOf s.vmm.mem s.vmm.kernelPml4 v) := by
  have hkey : pageKey (pageStart (pageOf v)) = pageKey v :=
    (pageKey_eq_pageOf _ _).mpr (pageOf_pageStart _)
  unfold walkPage
  rw [entryOf_of_pageKey hkey]

theorem walkPage_congr {s t : SwapSys} (hroot : t.vmm.kernelPml4 = s.vmm.kernelPml4)
    (h : ∀ w, entryOf t.vmm.mem s.vmm.kernelPml4 w = entryOf s.vmm.mem s.vmm.kernelPml4 w) (k : BitVec 36) :
    walkPage t k = walkPage s k := by
  unfold walkPage
  rw [hroot, h]

theorem walkPage_update {s t : SwapSys} (hroot : t.vmm.kernelPml4 = s.vmm.kernelPml4) {v x : U64}
    (h : ∀ w, entryOf t.vmm.mem s.vmm.kernelPml4 w =
      if pageKey w = pageKey v then x else entryOf s.vmm.mem s.vmm.kernelPml4 w) (k : BitVec 36) :
    walkPage t k = walkPage s k ∨ k = pageOf v := by
  by_cases hk : k = pageOf v
  · exact .inr hk
  · left
    have hkey : ¬ pageKey (pageStart k) = pageKey v := by
      rw [pageKey_eq_pageOf, pageOf_pageStart]
      exact hk
    unfold walkPage
    rw [hroot, h, if_neg hkey]

/-! ### Walks while a table is made -/

theorem zeroFirst_other (mem : U64 → U64) {f g : Nat} (hf : f < maxFrames) (hg : g < maxFrames) (hne : g ≠ f)
    {n : Nat} (hn : n ≤ 512) (i : Idx) : zeroFirst mem (frameAddr f + virtPhysMapBase) n (wordAt (frameAddr g) i) =
      mem (wordAt (frameAddr g) i) := by
  rw [zeroFirst, foldl_zero, if_neg]
  rintro ⟨j, hj, he⟩
  rw [List.mem_range] at hj
  have hj' : BitVec.ofNat 64 j = (BitVec.ofNat 9 j).setWidth 64 := by
    refine BitVec.eq_of_toNat_eq ?_
    rw [BitVec.toNat_setWidth, BitVec.toNat_ofNat, BitVec.toNat_ofNat]
    omega
  rw [hj'] at he
  exact hne (wordAt_inj hg hf he).1

/-- Stores to frames that are not in use change no entry. -/
theorem entryOf_offTree {root : U64} {s : Vmm} (h : TreeInv root s) {mem' : U64 → U64}
    (hsame : ∀ g, g < maxFrames → ¬ s.pmm.IsFree g → ∀ j, mem' (wordAt (frameAddr g) j) = s.mem (wordAt (frameAddr g) j))
    (w : U64) : entryOf mem' root w = entryOf s.mem root w := by
  have hwalk : ∀ π : List Idx, π.length ≤ 3 → tableAt mem' root π = tableAt s.mem root π := by
    refine PathTree.walk_congr (d := 3) fun ρ n hρ hn j => ?_
    obtain ⟨g, hg, rfl, hused⟩ := h.node ρ n (Nat.le_of_lt hρ) hn
    exact child_congr (hsame g hg hused j)
  have hl : (path w).length ≤ 3 := by rw [length_path]
  have htable := hwalk (path w) hl
  cases ht : tableAt s.mem root (path w) with
  | none => rw [entryOf_none ht, entryOf_none (htable.trans ht)]
  | some t =>
    obtain ⟨g, hg, rfl, hused⟩ := h.node (path w) t hl ht
    rw [entryOf_some ht, entryOf_some (htable.trans ht), hsame g hg hused]

/-- **No walk finds a new translation** while tables are taken, zeroed and linked. -/
theorem getPteStores_entry (root v : U64) : ∀ (k : Nat) (π : List Idx) (n : U64) (s : Vmm),
    TreeInv root s → π.length + k = 3 → tableAt s.mem root π = some n →
    ∀ t ∈ getPteStores v k (n + virtPhysMapBase) s, t.kernelPml4 = s.kernelPml4 ∧
      ∀ w, entryOf t.mem root w = entryOf s.mem root w := by
  intro k
  induction k with
  | zero => intro π n s _ _ _ t ht; cases ht
  | succ k ih =>
    intro π n s h hk hπ t ht
    have hentry : entryPtr (n + virtPhysMapBase) (indices v (1 + k + 1)) = wordAt n (idx v (k + 2)) := by
      rw [indices_eq v (by omega) (by omega), show 1 + k + 1 = k + 2 by omega]
      rfl
    have hlen : (π ++ [idx v (k + 2)]).length + k = 3 := by
      rw [List.length_append, List.length_singleton]
      omega
    rw [getPteStores, hentry] at ht
    by_cases hp : s.mem (wordAt n (idx v (k + 2))) &&& ptePresent = 0
    · have hempty : child s.mem n (idx v (k + 2)) = none := if_pos hp
      rw [if_pos hp] at ht
      rcases pmmAlloc_cases s.pmm with ⟨he, _⟩ | ⟨f, he, hfit, _⟩
      · simp only [he, if_true, List.mem_singleton] at ht
        subst ht
        exact ⟨rfl, fun _ => rfl⟩
      · have hf : s.pmm.IsFree f := hfit.free f (Nat.le_refl f) (by omega)
        have hnz : frameAddr f ≠ 0 := frameAddr_ne_zero hf.lt (by have := hfit.lo; omega)
        have hlink : Linkable root s π n (idx v (k + 2)) f := ⟨h, hπ, by omega, hempty, hf⟩
        obtain ⟨htree, hgrows, _, htable⟩ := linkTable_spec hlink
        have hread : (linkTable s n (idx v (k + 2)) f).mem (wordAt n (idx v (k + 2))) &&& pteAddrMask =
            frameAddr f := by rw [linkTable_at, linkEntry_addr hf.lt]
        have hmem : writeWord (zeroTable s.mem (frameAddr f + virtPhysMapBase))
            (wordAt n (idx v (k + 2))) (frameAddr f ||| ptePresent ||| pteWritable) =
            (linkTable s n (idx v (k + 2)) f).mem := rfl
        simp only [he, if_neg hnz, hmem, hread] at ht
        rcases List.mem_append.mp ht with hzero | hlinked
        · -- the new table is not in the tree yet
          obtain ⟨m, hm, rfl⟩ := List.mem_map.mp hzero
          rw [List.mem_range] at hm
          refine ⟨rfl, entryOf_offTree h fun g hg hused j => ?_⟩
          exact zeroFirst_other s.mem hf.lt hg (hlink.frame_ne hused) (by omega) j
        · rcases List.mem_cons.mp hlinked with rfl | hrest
          · exact ⟨rfl, entryOf_grows hgrows⟩
          · obtain ⟨hroot, hsame⟩ := ih _ _ _ htree hlen htable t hrest
            exact ⟨hroot.trans hgrows.kernelPml4, fun w => (hsame w).trans (entryOf_grows hgrows w)⟩
    · have hchild : child s.mem n (idx v (k + 2)) =
          some (s.mem (wordAt n (idx v (k + 2))) &&& pteAddrMask) := if_neg hp
      rw [if_neg hp] at ht
      exact ih _ _ s h hlen (by rw [tableAt, PathTree.walk_concat_of hπ, hchild]) t ht

/-- The last of these states is the one that the walk returns. -/
theorem getPteStores_last (v : U64) : ∀ (k : Nat) (table : U64) (s : Vmm),
    (getPteStores v k table s).getLastD s = (vmmGetPteLoop v 1 true k table s).2 := by
  intro k
  induction k with
  | zero => intro table s; rfl
  | succ k ih =>
    intro table s
    rw [getPteStores, vmmGetPteLoop]
    by_cases hp : s.mem (entryPtr table (indices v (1 + k + 1))) &&& ptePresent = 0
    · rw [if_pos hp, if_pos hp, if_pos rfl]
      cases halloc : pmmAlloc s.pmm with
      | mk newTable pmm =>
        dsimp only
        by_cases hnull : newTable = 0
        · rw [if_pos hnull, if_pos hnull]
          rfl
        · rw [if_neg hnull, if_neg hnull, ← ih, List.getLastD_eq_getLast?, List.getLast?_append_cons,
            List.getLast?_cons, Option.getD_some, ← List.getLastD_eq_getLast?]
    · rw [if_neg hp, if_neg hp]
      exact ih _ s

/-! ### Programs -/

theorem final_stores_map (s : SwapSys) : ∀ (l : List Vmm) (vmm : Vmm),
    Tlb.final { s with vmm := vmm } (l.map fun vmm => (.store { s with vmm := vmm } : Micro SwapSys (BitVec 36))) =
      { s with vmm := l.getLastD vmm } := by
  intro l
  induction l with
  | nil => intro vmm; rfl
  | cons t l ih =>
    intro vmm
    rw [List.getLastD_cons]
    exact ih t

theorem vmmGetPte_same (s : Vmm) (root v : U64) : (vmmGetPte s root v 1 false).2 = s := by
  rw [vmmGetPte_find]

/-- **The stores of an operation** lead to its result. -/
theorem final_stores (s : SwapSys) (op : SwapOp) : Tlb.final s (s.stores op) = s.step op := by
  cases op with
  | map v p f =>
    have hlast := getPteStores_last v 3 (s.vmm.kernelPml4 + virtPhysMapBase) s.vmm
    rw [SwapSys.stores, Tlb.final_append, final_stores_map s _ s.vmm, hlast]
    by_cases hpte : (vmmGetPte s.vmm s.vmm.kernelPml4 v 1 true).1 = 0
    · rw [if_pos hpte]
      show _ = { s with vmm := (vmmMap s.vmm s.vmm.kernelPml4 v p f).2 }
      rw [vmmMap_fst_snd, if_pos hpte]
      rfl
    · rw [if_neg hpte]
      rfl
  | unmap v =>
    have hsame := vmmGetPte_same s.vmm s.vmm.kernelPml4 v
    simp only [SwapSys.stores]
    split
    · rfl
    · rename_i hskip
      show s = { s with vmm := vmmUnmap s.vmm s.vmm.kernelPml4 v }
      unfold vmmUnmap
      simp only [hsame, if_neg hskip]
  | fault v =>
    have hsame := vmmGetPte_same s.vmm s.vmm.kernelPml4 v
    show _ = swapPageFaultHandler s v
    simp only [SwapSys.stores, swapPageFaultHandler, hsame]
    by_cases hnull : (vmmGetPte s.vmm s.vmm.kernelPml4 v 1 false).1 = 0
    · rw [if_pos (.inl hnull), if_pos hnull]
      rfl
    · rw [if_neg hnull]
      by_cases hswap : s.vmm.mem (vmmGetPte s.vmm s.vmm.kernelPml4 v 1 false).1 &&& pteSwapped = 0
      · rw [if_pos (.inr hswap), if_neg (not_not_intro hswap)]
        rfl
      · rw [if_neg (not_or.mpr ⟨hnull, hswap⟩), if_pos hswap]
        split
        · rfl
        · rfl

/-- **What an operation changes, it flushes**: after the store that changes the entry of a page comes
the `invlpg` for it, and no other store changes any entry. -/
theorem covered_stores {s : SwapSys} (h : TreeInv s.vmm.kernelPml4 s.vmm) (op : SwapOp) :
    Covered walkPage s (s.stores op) := by
  cases op with
  | map v p f =>
    refine Tlb.covered_append (fun m hm => ?_) fun t ht => ?_
    · obtain ⟨vmm, hvmm, rfl⟩ := List.mem_map.mp hm
      obtain ⟨hroot, hsame⟩ := getPteStores_entry s.vmm.kernelPml4 v 3 [] s.vmm.kernelPml4 s.vmm h rfl rfl vmm hvmm
      exact ⟨_, rfl, walkPage_congr hroot hsame⟩
    · split
      · trivial
      · refine ⟨fun k => ?_, trivial⟩
        have hroot := vmmMap_kernelPml4 s.vmm s.vmm.kernelPml4 v p f
        rcases (vmmMap_spec h v p f).2 with ⟨_, hentry⟩ | ⟨_, hentry⟩
        · rcases walkPage_update (s := s) (t := s.step (.map v p f)) hroot hentry k with hsame | rfl
          · exact .inl (hsame.trans (ht k).symm)
          · exact .inr (List.mem_singleton_self _)
        · exact .inl ((walkPage_congr (s := s) (t := s.step (.map v p f)) hroot hentry k).trans (ht k).symm)
  | unmap v =>
    simp only [SwapSys.stores]
    split
    · refine ⟨fun k => ?_, trivial⟩
      have hroot := vmmUnmap_kernelPml4 s.vmm s.vmm.kernelPml4 v
      have hentry := (vmmUnmap_spec h v).2
      by_cases hpresent : entryOf s.vmm.mem s.vmm.kernelPml4 v &&& ptePresent ≠ 0
      · have hwrite := fun w => (hentry w).trans (if_congr (and_iff_left hpresent) rfl rfl)
        rcases walkPage_update (s := s) (t := s.step (.unmap v)) hroot hwrite k with hsame | rfl
        · exact .inl hsame
        · exact .inr (List.mem_singleton_self _)
      · have hkept := fun w => (hentry w).trans (if_neg fun hand => hpresent hand.2)
        exact .inl (walkPage_congr (s := s) (t := s.step (.unmap v)) hroot hkept k)
    · trivial
  | fault v =>
    have hfind : (vmmGetPte s.vmm s.vmm.kernelPml4 v 1 false).1 = findPte s.vmm s.vmm.kernelPml4 v := by
      rw [vmmGetPte_find]
      rfl
    simp only [SwapSys.stores, hfind]
    split
    · trivial
    · rename_i hswap
      have hwrite : ∀ pmm x k, walkPage { s with vmm := { s.vmm with
          mem := writeWord s.vmm.mem (findPte s.vmm s.vmm.kernelPml4 v) x, pmm := pmm } } k = walkPage s k ∨
          k = pageOf v := by
        intro pmm x k
        rcases findPte_cases h v with ⟨hnone, _⟩ | ⟨t, ht, hpte, _, _⟩
        · exact absurd (.inl hnone) hswap
        · rw [hpte]
          exact walkPage_update (s := s) (t := { s with vmm := { s.vmm with
            mem := writeWord s.vmm.mem (wordAt t (idx v 1)) x, pmm := pmm } }) rfl (entryOf_writeLeaf h ht x) k
      split
      · exact ⟨fun k => .inl rfl, trivial⟩
      · refine ⟨fun k => .inl rfl, fun k => ?_, fun k => .inl rfl, trivial⟩
        rw [pageOf_low]
        rcases hwrite (pmmAlloc s.vmm.pmm).2 ((pmmAlloc s.vmm.pmm).1 ||| ptePresent ||| pteWritable) k with hsame | rfl
        · exact .inl hsame
        · exact .inr List.mem_cons_self

/-! ### Runs -/

/-- What the hardware and the kernel do: the kernel begins an operation, or makes its next store. -/
inductive TlbEvent where
  | fill (k : BitVec 36)
  | drop (k : BitVec 36)
  | cpu
  | call (op : SwapOp)

/-- The memory, the translations that the processor keeps, and the stores still to be made. -/
abbrev TlbSys := Tlb.State SwapSys (BitVec 36) U64

def TlbEvent.toTlb (s : TlbSys) : TlbEvent → Tlb.Event SwapSys (BitVec 36)
  | .fill k => .fill k
  | .drop k => .drop k
  | .cpu => .cpu
  | .call op => .start (s.mem.stores op)

/-- An operation begins when the one before it is through. -/
def tlbMachine : Machine TlbSys TlbEvent where
  step s e := s.step walkPage (e.toTlb s)
  legal s
    | .call _ => s.todo = []
    | _ => True

/-- The cache is coherent, and the memory will be a tree of tables again. -/
structure TlbInv (s : TlbSys) : Prop where
  coherent : Tlb.Coherent walkPage s
  tree : TreeInv (Tlb.final s.mem s.todo).vmm.kernelPml4 (Tlb.final s.mem s.todo).vmm

theorem tlbInv_step {s : TlbSys} (h : TlbInv s) (e : TlbEvent) (hl : tlbMachine.legal s e) :
    TlbInv (tlbMachine.step s e) := by
  cases e with
  | fill k =>
    obtain ⟨hmem, htodo⟩ := @Tlb.step_fill _ _ _ walkPage _ s k
    have hstep : tlbMachine.step s (.fill k) = s.step walkPage (.fill k) := rfl
    refine ⟨Tlb.coherent_step h.coherent _ trivial, ?_⟩
    rw [hstep, hmem, htodo]
    exact h.tree
  | drop k => exact ⟨Tlb.coherent_step h.coherent _ trivial, h.tree⟩
  | cpu =>
    refine ⟨Tlb.coherent_step h.coherent _ trivial, ?_⟩
    obtain ⟨mem, cached, todo⟩ := s
    cases todo with
    | nil => exact h.tree
    | cons m todo =>
      cases m with
      | store t => exact h.tree
      | flush k => exact h.tree
  | call op =>
    have hnone : s.todo = [] := hl
    have htree := h.tree
    rw [hnone] at htree
    refine ⟨Tlb.coherent_step h.coherent _ ⟨hnone, covered_stores htree op⟩, ?_⟩
    have hfinal := final_stores s.mem op
    show TreeInv (Tlb.final s.mem (s.mem.stores op)).vmm.kernelPml4 (Tlb.final s.mem (s.mem.stores op)).vmm
    rw [hfinal]
    exact treeInv_step htree op

end AionOs
