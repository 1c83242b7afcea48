import AionOs.Memory.PmmSafety
import AionOs.Memory.VmmTree

/-!
# Page tables refine a map of pages

`mappingOf key log` is the abstract side: the mapping of a page that a history of calls
leaves, read off the calls and their results alone.  `entryOf` is the concrete side: the
entry that a walk of the tables finds, `0` where there is no table.

* `entryOf_grows`, `entryOf_writeLeaf`: what a call does to the entries of all pages.
* `vmmMap_spec`, `vmmUnmap_spec`: the two calls.
* `vmm_refines_map`: after every history `vmm_virt_to_phys` is the abstract map.
-/

namespace AionOs

/-! ### Entries of pages -/

/-- Bits 47..12 of an address. -/
def pageKey (v : U64) : U64 := (v >>> 12) &&& 0xFFFFFFFFF

theorem toNat_pageKey (v : U64) : (pageKey v).toNat = v.toNat / 4096 % 2 ^ 36 := by
  rw [pageKey, BitVec.toNat_and, BitVec.toNat_ushiftRight,
    show (0xFFFFFFFFF : U64).toNat = 2 ^ 36 - 1 from rfl, Nat.and_two_pow_sub_one_eq_mod,
    Nat.shiftRight_eq_div_pow]

theorem toNat_idx (v : U64) (level : Nat) :
    (idx v level).toNat = v.toNat / 2 ^ (12 + 9 * (level - 1)) % 2 ^ 9 := by
  rw [idx, BitVec.extractLsb'_toNat, Nat.shiftRight_eq_div_pow]

/-- **Two addresses are of one page exactly when the walk goes to one entry.** -/
theorem pageKey_eq_iff (v w : U64) : pageKey v = pageKey w ↔ path v = path w ∧ idx v 1 = idx w 1 := by
  have h : ∀ level, idx v level = idx w level ↔
      v.toNat / 2 ^ (12 + 9 * (level - 1)) % 2 ^ 9 = w.toNat / 2 ^ (12 + 9 * (level - 1)) % 2 ^ 9 := by
    intro level
    rw [← BitVec.toNat_inj, toNat_idx, toNat_idx]
  have hpath : path v = path w ↔ idx v 4 = idx w 4 ∧ idx v 3 = idx w 3 ∧ idx v 2 = idx w 2 := by
    show [idx v 4, idx v 3, idx v 2] = [idx w 4, idx w 3, idx w 2] ↔ _
    simp only [List.cons.injEq, and_true]
  rw [hpath, h, h, h, h, ← BitVec.toNat_inj, toNat_pageKey, toNat_pageKey]
  omega

/-- The entry that the walk for `v` finds, `0` where a table is missing. -/
def entryOf (mem : U64 → U64) (root v : U64) : U64 :=
  (tableAt mem root (path v)).elim 0 fun t => mem (wordAt t (idx v 1))

theorem entryOf_none {mem : U64 → U64} {root v : U64} (h : tableAt mem root (path v) = none) :
    entryOf mem root v = 0 := by rw [entryOf, h, Option.elim_none]

theorem entryOf_some {mem : U64 → U64} {root v t : U64} (h : tableAt mem root (path v) = some t) :
    entryOf mem root v = mem (wordAt t (idx v 1)) := by rw [entryOf, h, Option.elim_some]

/-- New tables are empty: a creating walk changes no entry. -/
theorem entryOf_grows {root : U64} {s s' : Vmm} (h : Grows root s s') (v : U64) :
    entryOf s'.mem root v = entryOf s.mem root v := by
  have hl := length_path v
  cases hp : tableAt s.mem root (path v) with
  | some t => rw [entryOf_some hp, entryOf_some (h.keep _ t (by omega) hp), h.leaf _ t _ hl hp]
  | none =>
    rw [entryOf_none hp]
    cases hp' : tableAt s'.mem root (path v) with
    | none => exact entryOf_none hp'
    | some t => rw [entryOf_some hp', h.zero _ t _ hl hp hp']

theorem entryOf_writeLeaf {root : U64} {s : Vmm} (h : TreeInv root s) {v t : U64}
    (ht : tableAt s.mem root (path v) = some t) (x w : U64) :
    entryOf (writeWord s.mem (wordAt t (idx v 1)) x) root w =
      if pageKey w = pageKey v then x else entryOf s.mem root w := by
  have hsame := tableAt_writeLeaf h ht (length_path v) (idx v 1) x (path w) (by rw [length_path])
  by_cases hk : pageKey w = pageKey v
  · obtain ⟨h1, h2⟩ := (pageKey_eq_iff w v).mp hk
    rw [if_pos hk, entryOf_some (hsame.trans (h1 ▸ ht)), h2, writeWord_self]
  · rw [if_neg hk]
    cases hw : tableAt s.mem root (path w) with
    | none => rw [entryOf_none hw, entryOf_none (hsame.trans hw)]
    | some u =>
      rw [entryOf_some hw, entryOf_some (hsame.trans hw), writeWord_of_ne]
      exact fun he => hk ((pageKey_eq_iff w v).mpr (leafWord_inj h hw ht he))

theorem wordAt_table_ne_zero {root : U64} {s : Vmm} (h : TreeInv root s) {v t : U64}
    (ht : tableAt s.mem root (path v) = some t) (i : Idx) : wordAt t i ≠ 0 := by
  obtain ⟨f, hf, rfl, _⟩ := h.node _ t (by rw [length_path]) ht
  exact wordAt_ne_zero hf i

/-! ### The calls -/

theorem vmmMap_fst_snd (s : Vmm) (root v phys flags : U64) :
    vmmMap s root v phys flags =
      if (vmmGetPte s root v 1 true).1 = 0 then (-1, (vmmGetPte s root v 1 true).2)
      else (0, { (vmmGetPte s root v 1 true).2 with
        mem := writeWord (vmmGetPte s root v 1 true).2.mem (vmmGetPte s root v 1 true).1
          (leafEntry phys flags) }) := rfl

def findPte (s : Vmm) (root v : U64) : U64 :=
  (tableAt s.mem root (path v)).elim 0 fun t => wordAt t (idx v 1)

theorem vmmUnmap_find (s : Vmm) (root v : U64) :
    vmmUnmap s root v =
      if findPte s root v ≠ 0 ∧ s.mem (findPte s root v) &&& ptePresent ≠ 0 then
        { s with mem := writeWord s.mem (findPte s root v) 0 }
      else s := by
  rw [vmmUnmap, vmmGetPte_find]
  rfl

theorem vmmVirtToPhys_find (s : Vmm) (root v : U64) :
    vmmVirtToPhys s root v =
      if findPte s root v = 0 ∨ s.mem (findPte s root v) &&& ptePresent = 0 then 0
      else (s.mem (findPte s root v) &&& pteAddrMask) ||| (v &&& 0xFFF) := by
  rw [vmmVirtToPhys, vmmGetPte_find]
  rfl

/-- A walk finds nothing, and the entry counts as zero, or it finds the word of the entry. -/
theorem findPte_cases {root : U64} {s : Vmm} (h : TreeInv root s) (v : U64) :
    (findPte s root v = 0 ∧ entryOf s.mem root v = 0) ∨
    ∃ t, tableAt s.mem root (path v) = some t ∧ findPte s root v = wordAt t (idx v 1) ∧
      wordAt t (idx v 1) ≠ 0 ∧ entryOf s.mem root v = s.mem (wordAt t (idx v 1)) := by
  cases ht : tableAt s.mem root (path v) with
  | none => exact .inl ⟨by rw [findPte, ht, Option.elim_none], entryOf_none ht⟩
  | some t =>
    exact .inr ⟨t, rfl, by rw [findPte, ht, Option.elim_some], wordAt_table_ne_zero h ht (idx v 1),
      entryOf_some ht⟩

theorem zero_not_present : (0 : U64) &&& ptePresent = 0 := BitVec.zero_and

/-- **`vmm_virt_to_phys` reads the entry.** -/
theorem vmmVirtToPhys_eq {root : U64} {s : Vmm} (h : TreeInv root s) (v : U64) :
    vmmVirtToPhys s root v = if entryOf s.mem root v &&& ptePresent = 0 then 0
      else (entryOf s.mem root v &&& pteAddrMask) ||| (v &&& 0xFFF) := by
  rw [vmmVirtToPhys_find]
  rcases findPte_cases h v with ⟨hpte, hentry⟩ | ⟨t, _, hpte, hnz, hentry⟩
  · rw [hentry, if_pos zero_not_present, if_pos (.inl hpte)]
  · rw [hentry, hpte]
    by_cases hp : s.mem (wordAt t (idx v 1)) &&& ptePresent = 0
    · rw [if_pos hp]
      exact if_pos (.inr hp)
    · rw [if_neg hp]
      exact if_neg (not_or.mpr ⟨hnz, hp⟩)

/-- **`vmm_map`**: it writes the entry of the page, or fails and changes no entry. -/
theorem vmmMap_spec {root : U64} {s : Vmm} (h : TreeInv root s) (v phys flags : U64) :
    let r := vmmMap s root v phys flags
    TreeInv root r.2 ∧
      ((r.1 = 0 ∧ ∀ w, entryOf r.2.mem root w =
          if pageKey w = pageKey v then leafEntry phys flags else entryOf s.mem root w) ∨
       (r.1 = -1 ∧ ∀ w, entryOf r.2.mem root w = entryOf s.mem root w)) := by
  intro r
  obtain ⟨h1, h2, _, ⟨t, ht, hpte⟩ | ⟨hpte, _, _⟩⟩ := vmmGetPte_create h v
  · have hr : r = (0, { (vmmGetPte s root v 1 true).2 with
        mem := writeWord (vmmGetPte s root v 1 true).2.mem (wordAt t (idx v 1))
          (leafEntry phys flags) }) := by
      show vmmMap s root v phys flags = _
      rw [vmmMap_fst_snd, hpte, if_neg (wordAt_table_ne_zero h1 ht _)]
    rw [hr]
    refine ⟨treeInv_writeLeaf h1 ht (length_path v) _ _, .inl ⟨rfl, fun w => ?_⟩⟩
    rw [entryOf_writeLeaf h1 ht, entryOf_grows h2]
  · have hr : r = (-1, (vmmGetPte s root v 1 true).2) := by
      show vmmMap s root v phys flags = _
      rw [vmmMap_fst_snd, if_pos hpte]
    rw [hr]
    exact ⟨h1, .inr ⟨rfl, fun w => entryOf_grows h2 w⟩⟩

/-- **`vmm_unmap`**: a present entry becomes `0`, and nothing else changes. -/
theorem vmmUnmap_spec {root : U64} {s : Vmm} (h : TreeInv root s) (v : U64) :
    TreeInv root (vmmUnmap s root v) ∧ ∀ w, entryOf (vmmUnmap s root v).mem root w =
      if pageKey w = pageKey v ∧ entryOf s.mem root v &&& ptePresent ≠ 0 then 0
      else entryOf s.mem root w := by
  rw [vmmUnmap_find]
  rcases findPte_cases h v with ⟨hpte, hentry⟩ | ⟨t, ht, hpte, hnz, hentry⟩
  · rw [hentry, if_neg (fun hc => hc.1 hpte)]
    exact ⟨h, fun w => (if_neg fun hc => hc.2 zero_not_present).symm⟩
  · rw [hentry, hpte]
    by_cases hp : s.mem (wordAt t (idx v 1)) &&& ptePresent = 0
    · refine ⟨by rwa [if_neg (fun hc => hc.2 hp)], fun w => ?_⟩
      rw [if_neg (fun hc => hc.2 hp), if_neg (fun hc => hc.2 hp)]
    · rw [if_pos ⟨hnz, hp⟩]
      refine ⟨treeInv_writeLeaf h ht (length_path v) _ _, fun w => ?_⟩
      rw [entryOf_writeLeaf h ht]
      exact if_congr ⟨fun hk => ⟨hk, hp⟩, fun hc => hc.1⟩ rfl rfl

/-! ### Histories -/

inductive VmmOp where
  | map (vaddr phys flags : U64)
  | unmap (vaddr : U64)

/-- The manager, a root table, and the calls made so far with their results, the latest
first. -/
structure VmmSys where
  vmm : Vmm
  pml4 : U64
  log : List (VmmOp × Int)

def VmmSys.step (s : VmmSys) : VmmOp → VmmSys
  | .map v p f =>
    let r := vmmMap s.vmm s.pml4 v p f
    { s with vmm := r.2, log := (.map v p f, r.1) :: s.log }
  | .unmap v => { s with vmm := vmmUnmap s.vmm s.pml4 v, log := (.unmap v, 0) :: s.log }

/-- Flags leave the address bits alone. -/
def FlagsOk : VmmOp → Prop
  | .map _ _ f => f &&& pteAddrMask = 0
  | .unmap _ => True

def vmmMachine : Machine VmmSys VmmOp := ⟨VmmSys.step, fun _ => FlagsOk⟩

/-- A root table fresh from `pmm_alloc`, zeroed. -/
def VmmSys.start (s : Vmm) : VmmSys where
  vmm := { s with
    mem := zeroTable s.mem ((pmmAlloc s.pmm).1 + virtPhysMapBase)
    pmm := (pmmAlloc s.pmm).2 }
  pml4 := (pmmAlloc s.pmm).1
  log := []

/-- The abstract map: what the last successful mapping of a page gave it, if no release
followed. -/
def mappingOf (key : U64) : List (VmmOp × Int) → Option (U64 × U64)
  | [] => none
  | (.map v p f, r) :: log => if key = pageKey v ∧ r = 0 then some (p, f) else mappingOf key log
  | (.unmap v, _) :: log => if key = pageKey v then none else mappingOf key log

def mappingEntry : Option (U64 × U64) → U64
  | none => 0
  | some (p, f) => leafEntry p f

theorem mappingEntry_present (m : Option (U64 × U64)) :
    mappingEntry m &&& ptePresent = 0 ↔ m = none := by
  cases m with
  | none => exact ⟨fun _ => rfl, fun _ => zero_not_present⟩
  | some pf => exact ⟨fun h => absurd h (leafEntry_present pf.1 pf.2), fun h => by cases h⟩

/-- The tables hold what the log says. -/
structure VmmInv (s : VmmSys) : Prop where
  tree : TreeInv s.pml4 s.vmm
  entry : ∀ v, entryOf s.vmm.mem s.pml4 v = mappingEntry (mappingOf (pageKey v) s.log)
  flags : ∀ key p f, mappingOf key s.log = some (p, f) → f &&& pteAddrMask = 0

theorem tableAt_start (s : Vmm) (i : Idx) (π : List Idx) :
    tableAt (VmmSys.start s).vmm.mem (VmmSys.start s).pml4 (i :: π) = none := by
  have hchild : child (VmmSys.start s).vmm.mem (VmmSys.start s).pml4 i = none :=
    child_of_zero (zeroTable_same _ _ _)
  rw [tableAt, PathTree.walk_cons, hchild]
  rfl

theorem tableAt_start_some {s : Vmm} {π : List Idx} {n : U64}
    (hπ : tableAt (VmmSys.start s).vmm.mem (VmmSys.start s).pml4 π = some n) :
    π = [] ∧ n = (VmmSys.start s).pml4 := by
  cases π with
  | nil => exact ⟨rfl, (Option.some.inj hπ).symm⟩
  | cons i π =>
    rw [tableAt_start] at hπ
    cases hπ

theorem vmmInv_start (s : Vmm) (h : (pmmAlloc s.pmm).1 ≠ 0) : VmmInv (VmmSys.start s) := by
  refine ⟨⟨?_, ?_⟩, ?_, ?_⟩
  · intro π n _ hπ
    obtain ⟨_, rfl⟩ := tableAt_start_some hπ
    rcases pmmAlloc_cases s.pmm with ⟨he, _⟩ | ⟨f, he, hf, _⟩
    · rw [he] at h
      exact absurd rfl h
    · have hpmm : (VmmSys.start s).vmm.pmm = pmmTakeFrames s.pmm f 1 := congrArg Prod.snd he
      refine ⟨f, hf.lt (Nat.le_refl f) (by omega), congrArg Prod.fst he, ?_⟩
      rw [hpmm, isFree_takeFrames]
      exact fun hc => hc.1 (by omega)
  · intro π ρ n _ _ h1 h2
    rw [(tableAt_start_some h1).1, (tableAt_start_some h2).1]
  · intro v
    exact entryOf_none (tableAt_start s _ _)
  · intro key p g hm
    cases hm

theorem mappingOf_map (key v p f : U64) (log : List (VmmOp × Int)) :
    mappingOf key ((.map v p f, 0) :: log) =
      if key = pageKey v then some (p, f) else mappingOf key log := by
  rw [mappingOf]
  simp only [and_true]

theorem mappingOf_map_failed (key v p f : U64) (log : List (VmmOp × Int)) :
    mappingOf key ((.map v p f, -1) :: log) = mappingOf key log := by
  rw [mappingOf, if_neg fun hc => absurd hc.2 (by decide)]

theorem vmmInv_map {s : VmmSys} (h : VmmInv s) (v p : U64) {f : U64} (hf : f &&& pteAddrMask = 0) :
    VmmInv (s.step (.map v p f)) := by
  obtain ⟨h1, ⟨hr, hentry⟩ | ⟨hr, hentry⟩⟩ := vmmMap_spec h.tree v p f
  · have hlog : (s.step (.map v p f)).log = (.map v p f, 0) :: s.log := by rw [VmmSys.step, hr]
    refine ⟨h1, fun w => ?_, fun key q g hm => ?_⟩
    · refine (hentry w).trans ?_
      rw [hlog, mappingOf_map]
      by_cases hk : pageKey w = pageKey v
      · rw [if_pos hk, if_pos hk]
        rfl
      · rw [if_neg hk, if_neg hk]
        exact h.entry w
    · rw [hlog, mappingOf_map] at hm
      split at hm
      · cases hm
        exact hf
      · exact h.flags key q g hm
  · have hlog : (s.step (.map v p f)).log = (.map v p f, -1) :: s.log := by rw [VmmSys.step, hr]
    refine ⟨h1, fun w => ?_, fun key q g hm => ?_⟩
    · rw [hlog, mappingOf_map_failed]
      exact (hentry w).trans (h.entry w)
    · rw [hlog, mappingOf_map_failed] at hm
      exact h.flags key q g hm

theorem vmmInv_unmap {s : VmmSys} (h : VmmInv s) (v : U64) : VmmInv (s.step (.unmap v)) := by
  obtain ⟨h1, hentry⟩ := vmmUnmap_spec h.tree v
  have hlog : (s.step (.unmap v)).log = (.unmap v, 0) :: s.log := rfl
  refine ⟨h1, fun w => ?_, fun key q g hm => ?_⟩
  · refine (hentry w).trans ?_
    rw [hlog, mappingOf]
    by_cases hk : pageKey w = pageKey v
    · rw [if_pos hk]
      -- a page that is not present has the entry `0` already
      split
      · rfl
      · next hc =>
        have hnone : mappingOf (pageKey v) s.log = none := by
          rw [← mappingEntry_present, ← h.entry v]
          by_contra hp
          exact hc ⟨hk, hp⟩
        rw [h.entry w, hk, hnone]
    · rw [if_neg hk, if_neg (fun hc => hk hc.1)]
      exact h.entry w
  · rw [hlog, mappingOf] at hm
    split at hm
    · cases hm
    · exact h.flags key q g hm

theorem vmmInv_step {s : VmmSys} {op : VmmOp} (h : VmmInv s) (hl : FlagsOk op) :
    VmmInv (s.step op) := by
  cases op with
  | map v p f => exact vmmInv_map h v p hl
  | unmap v => exact vmmInv_unmap h v

theorem vmmInv_run {s : Vmm} (h : (pmmAlloc s.pmm).1 ≠ 0) (ops : List VmmOp)
    (hl : vmmMachine.Legal (VmmSys.start s) ops) :
    VmmInv (vmmMachine.run (VmmSys.start s) ops) :=
  Machine.run_invariant (I := VmmInv) (fun _ _ => vmmInv_step) ops _ (vmmInv_start s h) hl

/-- **Page tables refine a map of pages.**  From a zeroed root fresh from `pmm_alloc`,
after every history of `vmm_map` and `vmm_unmap`, failing ones included, translation is
the abstract map of the history; and a `vmm_map` that fails changes no translation. -/
theorem vmm_refines_map (s : Vmm) (h : (pmmAlloc s.pmm).1 ≠ 0) (ops : List VmmOp)
    (hl : vmmMachine.Legal (VmmSys.start s) ops) :
    let t := vmmMachine.run (VmmSys.start s) ops
    (∀ v, vmmVirtToPhys t.vmm t.pml4 v =
      match mappingOf (pageKey v) t.log with
      | some (p, _) => (p &&& pteAddrMask) ||| (v &&& 0xFFF)
      | none => 0) ∧
    ∀ v p f, (vmmMap t.vmm t.pml4 v p f).1 = -1 → ∀ w,
      vmmVirtToPhys (vmmMap t.vmm t.pml4 v p f).2 t.pml4 w = vmmVirtToPhys t.vmm t.pml4 w := by
  intro t
  have hinv : VmmInv t := vmmInv_run h ops hl
  constructor
  · intro v
    rw [vmmVirtToPhys_eq hinv.tree, hinv.entry v]
    cases hm : mappingOf (pageKey v) t.log with
    | none => exact if_pos zero_not_present
    | some pf =>
      obtain ⟨p, f⟩ := pf
      show (if leafEntry p f &&& ptePresent = 0 then 0
        else (leafEntry p f &&& pteAddrMask) ||| (v &&& 0xFFF)) = _
      rw [if_neg (leafEntry_present p f), leafEntry_addr (hinv.flags _ p f hm)]
  · intro v p f hfail w
    obtain ⟨h1, ⟨hr, _⟩ | ⟨_, hentry⟩⟩ := vmmMap_spec hinv.tree v p f
    · rw [hr] at hfail
      cases hfail
    · rw [vmmVirtToPhys_eq h1, vmmVirtToPhys_eq hinv.tree, hentry w]

/-- One packed descriptor: conventional memory from 8 MB, clear of the kernel image, to
2 GB. -/
def clearBytes : List U8 :=
  [7, 0, 0, 0, 0, 0, 0, 0,  0, 0, 0x80, 0, 0, 0, 0, 0,  0, 0, 0, 0, 0, 0, 0, 0,
   0, 0xF8, 7, 0, 0, 0, 0, 0,  0, 0, 0, 0, 0, 0, 0, 0]

def clearEfiMap : EfiMemoryMap where
  bytes a := clearBytes.getD a.toNat 0
  mmapAddr := 0
  mmapSize := 40
  descSize := 40

theorem clear_descriptors : clearEfiMap.descriptors = [⟨7, 0x800000, 0x7F800⟩] := by decide

def clearMap : UefiMemoryMap where
  toEfiMemoryMap := clearEfiMap
  noWrap := by rw [clear_descriptors]; decide
  disjoint := by rw [clear_descriptors]; exact List.pairwise_singleton _ _

theorem mem_clearFrames (p : Nat) : p ∈ clearMap.usableFrames ↔ 2048 ≤ p ∧ p < 524288 := by
  rw [UefiMemoryMap.mem_usableFrames]
  have hd : clearMap.descriptors = _ := clear_descriptors
  rw [hd]
  simp only [List.mem_singleton, exists_eq_left, BitVec.ofNat_eq_ofNat, BitVec.toNat_ofNat,
    maxFrames_eq]
  have h : ∀ s n : U64, (EfiMemoryDescriptor.mk 7#32 s n).usable = true := fun s n => rfl
  simp only [h, true_and]
  omega

theorem length_clearFrames : clearMap.usableFrames.length = 522240 := by
  have h : clearMap.usableFrames.toFinset = Finset.Ico 2048 524288 := by
    ext p
    rw [List.mem_toFinset, mem_clearFrames, Finset.mem_Ico]
  rw [← List.toFinset_card_of_nodup clearMap.nodup_usableFrames, h, Nat.card_Ico]

theorem mem_clearVisible (p : Nat) :
    p ∈ (pmmBoot clearEfiMap).visible ↔ 2048 ≤ p ∧ p < 522240 := by
  have htotal : (pmmBoot clearEfiMap).physTotalPages.toNat = 522240 :=
    clearMap.toNat_total.trans length_clearFrames
  have hfree := pmmBoot_isFree clearEfiMap p
  have hmem := mem_clearFrames p
  rw [mem_visible, htotal, hfree]
  constructor
  · rintro ⟨h1, _, h2⟩
    have := hmem.mp h2
    omega
  · intro h
    exact ⟨by omega, by omega, hmem.mpr (by omega)⟩

/-- The machine of `clearMap`, as `vmm_init` finds it. -/
def clearVmm : Vmm := ⟨fun _ => 0, pmmBoot clearEfiMap, 0⟩

/-- One packed descriptor: 517 pages of conventional memory from 1 MB on, of which the scan sees the last
five. -/
def scarceBytes : List U8 :=
  [7, 0, 0, 0, 0, 0, 0, 0,  0, 0, 0x10, 0, 0, 0, 0, 0,  0, 0, 0, 0, 0, 0, 0, 0,
   5, 2, 0, 0, 0, 0, 0, 0,  0, 0, 0, 0, 0, 0, 0, 0]

def scarceEfiMap : EfiMemoryMap where
  bytes a := scarceBytes.getD a.toNat 0
  mmapAddr := 0
  mmapSize := 40
  descSize := 40

def scarceVmm : Vmm := ⟨fun _ => 0, pmmBoot scarceEfiMap, 0⟩

/-- The tables of the first page take four frames; the second page finds one frame for its three. -/
def scarceOps : List VmmOp := [.map 0x1000 0x5000 2, .map 0x8000000000 0x6000 2, .unmap 0x1000]

theorem pmmAlloc_scarceVmm : (pmmAlloc scarceVmm.pmm).1 ≠ 0 := by decide +kernel

theorem scarce_fails :
    let t := vmmMachine.run (VmmSys.start scarceVmm) scarceOps
    t.log.map Prod.snd = [0, -1, 0] ∧ (vmmMap t.vmm t.pml4 0x8000000000 0x6000 2).1 = -1 := by decide +kernel

theorem vmm_refines_map_sample :
    let t := vmmMachine.run (VmmSys.start scarceVmm) scarceOps
    (t.log.map Prod.snd = [0, -1, 0] ∧ (vmmMap t.vmm t.pml4 0x8000000000 0x6000 2).1 = -1) ∧
    (∀ v, vmmVirtToPhys t.vmm t.pml4 v =
      match mappingOf (pageKey v) t.log with
      | some (p, _) => (p &&& pteAddrMask) ||| (v &&& 0xFFF)
      | none => 0) ∧
    ∀ v p f, (vmmMap t.vmm t.pml4 v p f).1 = -1 → ∀ w,
      vmmVirtToPhys (vmmMap t.vmm t.pml4 v p f).2 t.pml4 w = vmmVirtToPhys t.vmm t.pml4 w :=
  ⟨scarce_fails, vmm_refines_map scarceVmm pmmAlloc_scarceVmm scarceOps
    ⟨show (2#64 &&& pteAddrMask) = 0 by decide, show (2#64 &&& pteAddrMask) = 0 by decide, trivial, trivial⟩⟩

end AionOs
