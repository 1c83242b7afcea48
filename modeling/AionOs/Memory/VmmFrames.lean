import AionOs.Memory.VmmRefine

/-!
# Where the frames of page tables go

The only frames that `vmm_map` and `vmm_unmap` take are those that `vmm_get_pte` gets
from `pmm_alloc` for a missing table, one for each.

* `vmmMap_grows`: `vmm_map` is a creating walk and a write into a last table.
* `framesInv_run`: over every history the frames taken are the tables below the root.
* `vmm_frames_conserved`: no frame is leaked, shared or free, and a call that failed left
  its tables for the next one.
-/

namespace AionOs

open PathTree (IsTree)

/-! ### Conservation -/

/-- `pmm_alloc` handed out frame `f` between the states `p` and `q` of the bitmap. -/
def TakenBetween (p q : Pmm) (f : Nat) : Prop := p.IsFree f ∧ ¬ q.IsFree f

/-- The word is a present entry of a table above the last level, and links frame `f`. -/
def LinkedAt (mem : U64 → U64) (root : U64) (f : Nat) (w : U64) : Prop :=
  ∃ π n i, π.length < 3 ∧ tableAt mem root π = some n ∧ w = wordAt n i ∧
    mem w &&& ptePresent ≠ 0 ∧ mem w &&& pteAddrMask = frameAddr f

/-- The tables below the root are the frames taken since `p`. -/
structure FramesConserved (p : Pmm) (root : U64) (s : Vmm) : Prop where
  given : ∀ f < maxFrames, TakenBetween p s.pmm f ↔
    ∃ π, π ≠ [] ∧ π.length ≤ 3 ∧ tableAt s.mem root π = some (frameAddr f)
  linked : ∀ f, TakenBetween p s.pmm f → ∃! w, LinkedAt s.mem root f w
  tree : IsTree (child s.mem) root 3
  used : ∀ π n, π.length ≤ 3 → tableAt s.mem root π = some n →
    ∃ f, n = frameAddr f ∧ ¬ s.pmm.IsFree f

/-- What every call keeps of it. -/
structure FramesInv (p : Pmm) (root : U64) (s : Vmm) : Prop where
  tree : TreeInv root s
  given : ∀ f < maxFrames, TakenBetween p s.pmm f ↔
    ∃ π, π ≠ [] ∧ π.length ≤ 3 ∧ tableAt s.mem root π = some (frameAddr f)
  free : ∀ f, s.pmm.IsFree f → p.IsFree f

theorem child_eq_some {mem : U64 → U64} {n m : U64} {i : Idx} (h : child mem n i = some m) :
    mem (wordAt n i) &&& ptePresent ≠ 0 ∧ mem (wordAt n i) &&& pteAddrMask = m := by
  unfold child at h
  split at h
  · cases h
  · next hp => exact ⟨hp, Option.some.inj h⟩

theorem TreeInv.linkedAt {root : U64} {s : Vmm} (h : TreeInv root s) {f : Nat} {π : List Idx}
    (hne : π ≠ []) (hlen : π.length ≤ 3) (hπ : tableAt s.mem root π = some (frameAddr f)) :
    ∃! w, LinkedAt s.mem root f w := by
  obtain ⟨ρ, i, rfl⟩ : ∃ ρ i, π = ρ ++ [i] :=
    ⟨π.dropLast, π.getLast hne, (List.dropLast_append_getLast hne).symm⟩
  rw [List.length_append, List.length_singleton] at hlen
  have hwalk := hπ
  rw [tableAt, PathTree.walk_concat] at hwalk
  obtain ⟨n, hn, hchild⟩ := Option.bind_eq_some_iff.mp hwalk
  obtain ⟨hpresent, haddr⟩ := child_eq_some hchild
  refine ⟨wordAt n i, ⟨ρ, n, i, by omega, hn, rfl, hpresent, haddr⟩, ?_⟩
  rintro w ⟨σ, m, j, hσ, hm, rfl, hp, ha⟩
  have hother : tableAt s.mem root (σ ++ [j]) = some (frameAddr f) := by
    rw [tableAt, PathTree.walk_concat_of hm, child, if_neg hp, ha]
  have hpath : σ ++ [j] = ρ ++ [i] := h.tree _ _ _ (by simp; omega) (by simp; omega) hother hπ
  obtain ⟨rfl, hij⟩ := List.append_inj' hpath rfl
  obtain rfl : j = i := by simpa using hij
  have hnm : some m = some n := hm.symm.trans hn
  rw [Option.some.inj hnm]

theorem FramesInv.conserved {p : Pmm} {root : U64} {s : Vmm} (h : FramesInv p root s) :
    FramesConserved p root s where
  given := h.given
  linked f hf := by
    obtain ⟨π, hne, hlen, hπ⟩ := (h.given f hf.1.lt).mp hf
    exact h.tree.linkedAt hne hlen hπ
  tree := h.tree.tree
  used π n hlen hπ := by
    obtain ⟨f, _, he, hused⟩ := h.tree.node π n hlen hπ
    exact ⟨f, he, hused⟩

/-! ### One call -/

/-- A walk that creates tables takes the frames of the tables it creates. -/
theorem framesInv_grows {p : Pmm} {root : U64} {s s' : Vmm} (h : FramesInv p root s)
    (htree : TreeInv root s') (hg : Grows root s s') : FramesInv p root s' := by
  refine ⟨htree, fun f hf => ⟨?_, ?_⟩, fun f hf => h.free f (hg.free f hf)⟩
  · rintro ⟨hp, hused⟩
    by_cases hmid : s.pmm.IsFree f
    · obtain ⟨π, hlen, hπ⟩ := (hg.taken f hmid).mp hused
      refine ⟨π, fun hnil => ?_, hlen, hπ⟩
      -- the root is a used frame from the start
      rw [hnil] at hπ
      obtain ⟨g, hgm, he, hn⟩ := h.tree.node [] root (by decide) rfl
      have hroot : root = frameAddr f := Option.some.inj hπ
      exact hn (frameAddr_inj hf hgm (hroot.symm.trans he) ▸ hmid)
    · obtain ⟨π, hne, hlen, hπ⟩ := (h.given f hf).mp ⟨hp, hmid⟩
      exact ⟨π, hne, hlen, hg.keep π _ hlen hπ⟩
  · rintro ⟨π, hne, hlen, hπ⟩
    refine ⟨?_, fun hfree => ?_⟩
    · cases hold : tableAt s.mem root π with
      | none =>
        obtain ⟨g, he, hgfree⟩ := hg.fresh π _ hlen hold hπ
        rw [frameAddr_inj hf hgfree.lt he]
        exact h.free g hgfree
      | some n =>
        have hsame : some n = some (frameAddr f) := (hg.keep π n hlen hold).symm.trans hπ
        rw [Option.some.inj hsame] at hold
        exact ((h.given f hf).mpr ⟨π, hne, hlen, hold⟩).1
    · obtain ⟨g, hgm, he, hn⟩ := htree.node π _ hlen hπ
      exact hn (frameAddr_inj hf hgm he ▸ hfree)

theorem FramesInv.congr {p : Pmm} {root : U64} {s s' : Vmm} (h : FramesInv p root s)
    (htree : TreeInv root s') (hpmm : s'.pmm = s.pmm)
    (hsame : ∀ π, π.length ≤ 3 → tableAt s'.mem root π = tableAt s.mem root π) :
    FramesInv p root s' := by
  refine ⟨htree, fun f hf => ?_, fun f hf => h.free f (hpmm ▸ hf)⟩
  rw [hpmm, h.given f hf]
  constructor
  · rintro ⟨π, hne, hlen, hπ⟩
    exact ⟨π, hne, hlen, (hsame π hlen).trans hπ⟩
  · rintro ⟨π, hne, hlen, hπ⟩
    exact ⟨π, hne, hlen, (hsame π hlen).symm.trans hπ⟩

/-- **`vmm_map`** is a creating walk and then a write into a last table, or nothing. -/
theorem vmmMap_grows {root : U64} {s : Vmm} (h : TreeInv root s) (v phys flags : U64) :
    let r := (vmmMap s root v phys flags).2
    TreeInv root r ∧ ∃ s', TreeInv root s' ∧ Grows root s s' ∧ r.pmm = s'.pmm ∧
      ∀ π, π.length ≤ 3 → tableAt r.mem root π = tableAt s'.mem root π := by
  obtain ⟨h1, h2, _, ⟨t, ht, hpte⟩ | ⟨hpte, _, _⟩⟩ := vmmGetPte_create h v
  · rw [vmmMap_fst_snd, hpte, if_neg (wordAt_table_ne_zero h1 ht _)]
    exact ⟨treeInv_writeLeaf h1 ht (length_path v) _ _, _, h1, h2, rfl,
      tableAt_writeLeaf h1 ht (length_path v) _ _⟩
  · rw [vmmMap_fst_snd, if_pos hpte]
    exact ⟨h1, _, h1, h2, rfl, fun _ _ => rfl⟩

theorem vmmUnmap_same {root : U64} {s : Vmm} (h : TreeInv root s) (v : U64) :
    (vmmUnmap s root v).pmm = s.pmm ∧
      ∀ π, π.length ≤ 3 → tableAt (vmmUnmap s root v).mem root π = tableAt s.mem root π := by
  rw [vmmUnmap_find]
  split
  · next hc =>
    cases ht : tableAt s.mem root (path v) with
    | none => exact absurd (by rw [findPte, ht, Option.elim_none]) hc.1
    | some t =>
      have hpte : findPte s root v = wordAt t (idx v 1) := by rw [findPte, ht, Option.elim_some]
      rw [hpte]
      exact ⟨rfl, tableAt_writeLeaf h ht (length_path v) _ _⟩
  · exact ⟨rfl, fun _ _ => rfl⟩

theorem framesInv_step {p : Pmm} {s : VmmSys} (h : FramesInv p s.pml4 s.vmm) (op : VmmOp) :
    FramesInv p s.pml4 (s.step op).vmm := by
  cases op with
  | map v phys flags =>
    obtain ⟨htree, s', htree', hg, hpmm, hsame⟩ := vmmMap_grows h.tree v phys flags
    exact (framesInv_grows h htree' hg).congr htree hpmm hsame
  | unmap v =>
    obtain ⟨hpmm, hsame⟩ := vmmUnmap_same h.tree v
    exact h.congr (vmmUnmap_spec h.tree v).1 hpmm hsame

/-! ### Histories -/

theorem framesInv_start {s : Vmm} (h : (pmmAlloc s.pmm).1 ≠ 0) :
    FramesInv (VmmSys.start s).vmm.pmm (VmmSys.start s).pml4 (VmmSys.start s).vmm := by
  refine ⟨(vmmInv_start s h).tree, fun f _ => ⟨fun ht => absurd ht.1 ht.2, ?_⟩, fun f hf => hf⟩
  rintro ⟨π, hne, _, hπ⟩
  exact absurd (tableAt_start_some hπ).1 hne

theorem framesInv_run {p : Pmm} (ops : List VmmOp) (s : VmmSys) (h : FramesInv p s.pml4 s.vmm) :
    FramesInv p (vmmMachine.run s ops).pml4 (vmmMachine.run s ops).vmm := by
  refine Machine.run_keeps (I := fun t : VmmSys => FramesInv p t.pml4 t.vmm) (fun t op ht => ?_) ops h
  have hroot : (t.step op).pml4 = t.pml4 := by cases op <;> rfl
  exact hroot ▸ framesInv_step ht op

/-- **No frame of a page table is leaked, shared or free.**  After every history of
`vmm_map` and `vmm_unmap` on a zeroed root, failed calls included, the frames that were
handed out are the tables below the root, each linked by one present entry, and all
tables are used frames.  A call that then fails keeps to this, and however the free
frames change after it, a retry finds the tables that are there and takes frames for the
missing ones only. -/
theorem vmm_frames_conserved (s : Vmm) (h : (pmmAlloc s.pmm).1 ≠ 0) (ops : List VmmOp) :
    let p := (VmmSys.start s).vmm.pmm
    let t := vmmMachine.run (VmmSys.start s) ops
    FramesConserved p t.pml4 t.vmm ∧
      ∀ v phys flags, (vmmMap t.vmm t.pml4 v phys flags).1 = -1 →
        let t' := (vmmMap t.vmm t.pml4 v phys flags).2
        FramesConserved p t.pml4 t' ∧
          ∀ q, TreeInv t.pml4 { t' with pmm := q } →
            let r := (vmmMap { t' with pmm := q } t.pml4 v phys flags).2
            (∀ π n, π.length ≤ 3 → tableAt t'.mem t.pml4 π = some n →
              tableAt r.mem t.pml4 π = some n) ∧
            ∀ f, TakenBetween q r.pmm f → ∃ π, π.length ≤ 3 ∧
              tableAt t'.mem t.pml4 π = none ∧ tableAt r.mem t.pml4 π = some (frameAddr f) := by
  intro p t
  have hinv : FramesInv p t.pml4 t.vmm := framesInv_run ops _ (framesInv_start h)
  refine ⟨hinv.conserved, fun v phys flags _ => ?_⟩
  intro t'
  have hinv' : FramesInv p t.pml4 t' := framesInv_step hinv (.map v phys flags)
  refine ⟨hinv'.conserved, fun q hq => ?_⟩
  intro r
  obtain ⟨_, u, _, hg, hpmm, hsame⟩ := vmmMap_grows hq v phys flags
  refine ⟨fun π n hlen hπ => (hsame π hlen).trans (hg.keep π n hlen hπ), fun f hf => ?_⟩
  obtain ⟨hfree, hused⟩ := hf
  rw [hpmm] at hused
  obtain ⟨π, hlen, hπ⟩ := (hg.taken f hfree).mp hused
  refine ⟨π, hlen, ?_, (hsame π hlen).trans hπ⟩
  cases hold : tableAt t'.mem t.pml4 π with
  | none => rfl
  | some n =>
    -- a table that was there is a used frame
    obtain ⟨g, hgm, he, hn⟩ := hq.node π n hlen hold
    have hn' : some n = some (frameAddr f) := (hg.keep π n hlen hold).symm.trans hπ
    exact absurd (frameAddr_inj hfree.lt hgm ((Option.some.inj hn').symm.trans he) ▸ hfree) hn

theorem vmm_frames_conserved_sample :
    let p := (VmmSys.start scarceVmm).vmm.pmm
    let t := vmmMachine.run (VmmSys.start scarceVmm) scarceOps
    (t.log.map Prod.snd = [0, -1, 0] ∧ (vmmMap t.vmm t.pml4 0x8000000000 0x6000 2).1 = -1) ∧
    FramesConserved p t.pml4 t.vmm ∧
      ∀ v phys flags, (vmmMap t.vmm t.pml4 v phys flags).1 = -1 →
        let t' := (vmmMap t.vmm t.pml4 v phys flags).2
        FramesConserved p t.pml4 t' ∧
          ∀ q, TreeInv t.pml4 { t' with pmm := q } →
            let r := (vmmMap { t' with pmm := q } t.pml4 v phys flags).2
            (∀ π n, π.length ≤ 3 → tableAt t'.mem t.pml4 π = some n →
              tableAt r.mem t.pml4 π = some n) ∧
            ∀ f, TakenBetween q r.pmm f → ∃ π, π.length ≤ 3 ∧
              tableAt t'.mem t.pml4 π = none ∧ tableAt r.mem t.pml4 π = some (frameAddr f) :=
  ⟨scarce_fails, vmm_frames_conserved scarceVmm pmmAlloc_scarceVmm scarceOps⟩

end AionOs
