import AionOs.Lib.PathTree
import AionOs.Memory.Pmm

/-!
# Page tables

The second layer of `kernel/memory/memory.c`.  Memory is a function from the address of
a 64-bit word, as the kernel sees it, to its contents; every access of this layer is to
an aligned word.  A pointer is the `U64` it is, and `0` is `NULL`.

The tables form a graph: `child mem n i` is the table that entry `i` of the table at the
physical address `n` links.  `tableAt` walks it from the root.

* `wordAt_inj`: entries of different frames are different words.
* `linkEntry_addr`, `leafEntry_addr`: what the address mask reads back.
* `vmmGetPte_find`: without `create` the walk of the code is the walk of the graph.
-/

namespace AionOs

/-! ### Constants -/

/-- `VIRT_PHYS_MAP_BASE`: the direct map of physical memory. -/
def virtPhysMapBase : U64 := 0xFFFF000000000000

def ptePresent : U64 := 1#64 <<< 0
def pteWritable : U64 := 1#64 <<< 1
def pteGlobal : U64 := 1#64 <<< 8
def pteNx : U64 := 1#64 <<< 63

def pteAddrMask : U64 := 0x000FFFFFFFFFF000

/-! ### The code -/

/-- The manager of frames and of page tables. -/
structure Vmm where
  mem : U64 → U64
  pmm : Pmm
  kernelPml4 : U64

/-- `*p = v` -/
def writeWord (mem : U64 → U64) (p v : U64) : U64 → U64 := fun q => if q = p then v else mem q

def entryPtr (table i : U64) : U64 := table + i * 8

/-- `for (i = 0; i < 512; i++) table[i] = 0;` -/
def zeroTable (mem : U64 → U64) (table : U64) : U64 → U64 :=
  (List.range 512).foldl (fun m i => writeWord m (entryPtr table (BitVec.ofNat 64 i)) 0) mem

def indices (vaddr : U64) : Nat → U64
  | 4 => (vaddr >>> 39) &&& 0x1FF
  | 3 => (vaddr >>> 30) &&& 0x1FF
  | 2 => (vaddr >>> 21) &&& 0x1FF
  | 1 => (vaddr >>> 12) &&& 0x1FF
  | _ => 0

/-- The loop of `vmm_get_pte`, with `k` levels left above `level`. -/
def vmmGetPteLoop (vaddr : U64) (level : Nat) (create : Bool) : Nat → U64 → Vmm → U64 × Vmm
  | 0, table, s => (entryPtr table (indices vaddr level), s)
  | k + 1, table, s =>
    let entry := entryPtr table (indices vaddr (level + k + 1))
    if s.mem entry &&& ptePresent = 0 then
      if create then
        let (newTable, pmm) := pmmAlloc s.pmm
        if newTable = 0 then (0, { s with pmm := pmm })
        else
          let mem := zeroTable s.mem (newTable + virtPhysMapBase)
          let mem := writeWord mem entry (newTable ||| ptePresent ||| pteWritable)
          vmmGetPteLoop vaddr level create k ((mem entry &&& pteAddrMask) + virtPhysMapBase)
            { s with mem := mem, pmm := pmm }
      else (0, s)
    else
      vmmGetPteLoop vaddr level create k ((s.mem entry &&& pteAddrMask) + virtPhysMapBase) s

/-- The pointer to the entry of `vaddr` at a level, or `NULL`. -/
def vmmGetPte (s : Vmm) (pml4Phys vaddr : U64) (level : Nat) (create : Bool) : U64 × Vmm :=
  vmmGetPteLoop vaddr level create (4 - level) (pml4Phys + virtPhysMapBase) s

def vmmMap (s : Vmm) (pml4Phys vaddr phys flags : U64) : Int × Vmm :=
  let (pte, s) := vmmGetPte s pml4Phys vaddr 1 true
  if pte = 0 then (-1, s)
  else (0, { s with mem := writeWord s.mem pte ((phys &&& pteAddrMask) ||| flags ||| ptePresent) })

def vmmUnmap (s : Vmm) (pml4Phys vaddr : U64) : Vmm :=
  let (pte, s) := vmmGetPte s pml4Phys vaddr 1 false
  if pte ≠ 0 ∧ s.mem pte &&& ptePresent ≠ 0 then { s with mem := writeWord s.mem pte 0 } else s

def vmmVirtToPhys (s : Vmm) (pml4Phys vaddr : U64) : U64 :=
  let (pte, s) := vmmGetPte s pml4Phys vaddr 1 false
  if pte = 0 ∨ s.mem pte &&& ptePresent = 0 then 0
  else (s.mem pte &&& pteAddrMask) ||| (vaddr &&& 0xFFF)

def identityPages : Nat := 0x80000000 / 4096

def directPages : Nat := 0x100000000 / 4096

/-- The first loop of `vmm_init`: the identity map of the first 2 GB. -/
def vmmIdentityMap (s : Vmm) : Vmm :=
  (List.range identityPages).foldl (fun s i =>
    (vmmMap s s.kernelPml4 (frameAddr i) (frameAddr i)
      (ptePresent ||| pteWritable ||| pteGlobal)).2) s

/-- The second loop: the direct map of the first 4 GB. -/
def vmmDirectMap (s : Vmm) : Vmm :=
  (List.range directPages).foldl (fun s i =>
    (vmmMap s s.kernelPml4 (virtPhysMapBase + frameAddr i) (frameAddr i)
      (ptePresent ||| pteWritable ||| pteNx ||| pteGlobal)).2) s

def vmmInit (s : Vmm) : Vmm :=
  let (pml4, pmm) := pmmAlloc s.pmm
  if pml4 = 0 then { s with pmm := pmm, kernelPml4 := pml4 }
  else
    vmmDirectMap (vmmIdentityMap
      { mem := zeroTable s.mem (pml4 + virtPhysMapBase), pmm := pmm, kernelPml4 := pml4 })

theorem identityPages_eq : identityPages = 524288 := rfl
theorem directPages_eq : directPages = 1048576 := rfl

attribute [irreducible] identityPages directPages

/-! ### Bits of an entry -/

theorem getLsbD_addrMask {i : Nat} (hi : i < 64) :
    pteAddrMask.getLsbD i = decide (12 ≤ i ∧ i < 52) := by
  have h : ∀ i : Fin 64, pteAddrMask.getLsbD i.val = decide (12 ≤ i.val ∧ i.val < 52) := by decide
  exact h ⟨i, hi⟩

theorem getLsbD_frameAddr (f i : Nat) :
    (frameAddr f).getLsbD i = (decide (i < 64) && (decide (12 ≤ i) && f.testBit (i - 12))) := by
  rw [frameAddr, BitVec.getLsbD_ofNat, pageSize_eq, show f * 4096 = f * 2 ^ 12 from rfl,
    Nat.testBit_mul_two_pow]

theorem testBit_frame {f i : Nat} (hf : f < maxFrames) (hi : 25 ≤ i) : f.testBit i = false := by
  refine Nat.testBit_lt_two_pow (Nat.lt_of_lt_of_le ?_ (Nat.pow_le_pow_right (by omega) hi))
  rw [maxFrames_eq] at hf
  omega

theorem frameAddr_and_mask {f : Nat} (hf : f < maxFrames) :
    frameAddr f &&& pteAddrMask = frameAddr f := by
  refine BitVec.eq_of_getLsbD_eq fun i hi => ?_
  rw [BitVec.getLsbD_and, getLsbD_addrMask hi, getLsbD_frameAddr]
  by_cases h : 52 ≤ i
  · rw [testBit_frame hf (by omega)]
    simp
  · by_cases h12 : 12 ≤ i
    · simp [h12, show i < 52 by omega]
    · simp [h12]

/-- The entry that links a table: it reads back as the table and is present. -/
def linkEntry (newTable : U64) : U64 := newTable ||| ptePresent ||| pteWritable

theorem linkEntry_addr {f : Nat} (hf : f < maxFrames) :
    linkEntry (frameAddr f) &&& pteAddrMask = frameAddr f := by
  have h1 : ptePresent &&& pteAddrMask = 0#64 := by decide
  have h2 : pteWritable &&& pteAddrMask = 0#64 := by decide
  rw [linkEntry, BitVec.and_or_distrib_right, BitVec.and_or_distrib_right, h1, h2,
    frameAddr_and_mask hf, BitVec.or_zero, BitVec.or_zero]

theorem present_ne_zero {e : U64} : e &&& ptePresent ≠ 0 ↔ e.getLsbD 0 = true := by
  have hone : ∀ i, ptePresent.getLsbD i = decide (i = 0) := by
    intro i
    rw [ptePresent, BitVec.getLsbD_shiftLeft, BitVec.getLsbD_one, Bool.eq_iff_iff]
    simp only [Bool.and_eq_true, decide_eq_true_eq, Bool.not_eq_eq_eq_not, Bool.not_true,
      decide_eq_false_iff_not]
    omega
  rw [Ne, BitVec.eq_of_getLsbD_eq_iff]
  simp only [BitVec.getLsbD_and, hone, BitVec.ofNat_eq_ofNat, BitVec.getLsbD_zero,
    Bool.and_eq_false_iff, decide_eq_false_iff_not, not_forall, not_or, Bool.not_eq_false, not_not]
  exact ⟨fun ⟨i, _, h, he⟩ => he ▸ h, fun h => ⟨0, by omega, h, rfl⟩⟩

theorem linkEntry_present (n : U64) : linkEntry n &&& ptePresent ≠ 0 := by
  rw [present_ne_zero, linkEntry, BitVec.getLsbD_or, BitVec.getLsbD_or,
    show ptePresent.getLsbD 0 = true by decide]
  simp

def leafEntry (phys flags : U64) : U64 := (phys &&& pteAddrMask) ||| flags ||| ptePresent

theorem leafEntry_addr {phys flags : U64} (hf : flags &&& pteAddrMask = 0) :
    leafEntry phys flags &&& pteAddrMask = phys &&& pteAddrMask := by
  have h1 : ptePresent &&& pteAddrMask = 0#64 := by decide
  rw [leafEntry, BitVec.and_or_distrib_right, BitVec.and_or_distrib_right, h1, hf,
    BitVec.and_assoc, BitVec.and_self]
  simp

theorem leafEntry_present (phys flags : U64) : leafEntry phys flags &&& ptePresent ≠ 0 := by
  rw [present_ne_zero, leafEntry, BitVec.getLsbD_or, show ptePresent.getLsbD 0 = true by decide]
  simp

/-! ### Addresses of entries -/

abbrev Idx := BitVec 9

/-- The word of entry `i` of the table in frame `n`. -/
def wordAt (n : U64) (i : Idx) : U64 := entryPtr (n + virtPhysMapBase) (i.setWidth 64)

theorem toNat_wordAt {f : Nat} (hf : f < maxFrames) (i : Idx) :
    (wordAt (frameAddr f) i).toNat = 0xFFFF000000000000 + f * 4096 + 8 * i.toNat := by
  have hi := i.isLt
  have hb : virtPhysMapBase.toNat = 0xFFFF000000000000 := rfl
  have ha := toNat_frameAddr hf
  rw [maxFrames_eq] at hf
  rw [wordAt, entryPtr, BitVec.toNat_add, BitVec.toNat_add, BitVec.toNat_mul, BitVec.toNat_setWidth,
    ha, hb, show (8 : U64).toNat = 8 from rfl]
  omega

theorem wordAt_ne_zero {f : Nat} (hf : f < maxFrames) (i : Idx) : wordAt (frameAddr f) i ≠ 0 := by
  intro h
  have := congrArg BitVec.toNat h
  rw [toNat_wordAt hf, show (0 : U64).toNat = 0 from rfl] at this
  omega

theorem frameAddr_inj {f g : Nat} (hf : f < maxFrames) (hg : g < maxFrames)
    (h : frameAddr f = frameAddr g) : f = g := by
  rw [← pageIndex_frameAddr hf, h, pageIndex_frameAddr hg]

/-- **Entries of different frames, or with different indices, are different words.** -/
theorem wordAt_inj {f g : Nat} (hf : f < maxFrames) (hg : g < maxFrames) {i j : Idx}
    (h : wordAt (frameAddr f) i = wordAt (frameAddr g) j) : f = g ∧ i = j := by
  have hi := i.isLt
  have hj := j.isLt
  have := congrArg BitVec.toNat h
  rw [toNat_wordAt hf, toNat_wordAt hg] at this
  exact ⟨by omega, BitVec.eq_of_toNat_eq (by omega)⟩

/-! ### Zeroing a table -/

theorem writeWord_self (mem : U64 → U64) (p v : U64) : writeWord mem p v p = v := if_pos rfl

theorem writeWord_of_ne {mem : U64 → U64} {p q : U64} (h : q ≠ p) (v : U64) :
    writeWord mem p v q = mem q := if_neg h

theorem foldl_zero (table : U64) : ∀ (l : List Nat) (mem : U64 → U64) (q : U64),
    l.foldl (fun m i => writeWord m (entryPtr table (BitVec.ofNat 64 i)) 0) mem q =
      if ∃ i ∈ l, q = entryPtr table (BitVec.ofNat 64 i) then 0 else mem q := by
  intro l
  induction l with
  | nil => intro mem q; simp
  | cons i l ih =>
    intro mem q
    rw [List.foldl_cons, ih]
    by_cases h : ∃ j ∈ l, q = entryPtr table (BitVec.ofNat 64 j)
    · obtain ⟨j, hj, he⟩ := h
      rw [if_pos ⟨j, hj, he⟩, if_pos ⟨j, List.mem_cons_of_mem i hj, he⟩]
    · rw [if_neg h, writeWord]
      by_cases hq : q = entryPtr table (BitVec.ofNat 64 i)
      · rw [if_pos hq, if_pos ⟨i, by simp, hq⟩]
      · rw [if_neg hq, if_neg]
        rintro ⟨j, hj, he⟩
        rcases List.mem_cons.mp hj with rfl | hj
        · exact hq he
        · exact h ⟨j, hj, he⟩

theorem idx_setWidth (i : Idx) : i.setWidth 64 = BitVec.ofNat 64 i.toNat := by
  refine BitVec.eq_of_toNat_eq ?_
  rw [BitVec.toNat_setWidth, BitVec.toNat_ofNat]

theorem zeroTable_same (mem : U64 → U64) (n : U64) (i : Idx) :
    zeroTable mem (n + virtPhysMapBase) (wordAt n i) = 0 := by
  have hi := i.isLt
  rw [zeroTable, foldl_zero, if_pos]
  exact ⟨i.toNat, List.mem_range.mpr (by omega), by rw [wordAt, idx_setWidth]⟩

theorem zeroTable_other (mem : U64 → U64) {f g : Nat} (hf : f < maxFrames) (hg : g < maxFrames)
    (hne : g ≠ f) (i : Idx) :
    zeroTable mem (frameAddr f + virtPhysMapBase) (wordAt (frameAddr g) i) =
      mem (wordAt (frameAddr g) i) := by
  rw [zeroTable, foldl_zero, if_neg]
  rintro ⟨j, hj, he⟩
  rw [List.mem_range] at hj
  have hj' : BitVec.ofNat 64 j = (BitVec.ofNat 9 j).setWidth 64 := by
    refine BitVec.eq_of_toNat_eq ?_
    rw [BitVec.toNat_setWidth, BitVec.toNat_ofNat, BitVec.toNat_ofNat]
    omega
  rw [hj'] at he
  exact hne (wordAt_inj hg hf he).1

attribute [irreducible] zeroTable

/-! ### The graph of tables -/

def idx (vaddr : U64) (level : Nat) : Idx := vaddr.extractLsb' (12 + 9 * (level - 1)) 9

theorem shift_and_mask (v : U64) (k : Nat) :
    (v >>> k) &&& 0x1FF = (v.extractLsb' k 9).setWidth 64 := by
  refine BitVec.eq_of_toNat_eq ?_
  rw [BitVec.toNat_and, BitVec.toNat_ushiftRight, BitVec.toNat_setWidth, BitVec.extractLsb'_toNat,
    show (0x1FF : U64).toNat = 2 ^ 9 - 1 from rfl, Nat.and_two_pow_sub_one_eq_mod]
  omega

theorem indices_eq (v : U64) {level : Nat} (h1 : 1 ≤ level) (h4 : level ≤ 4) :
    indices v level = (idx v level).setWidth 64 := by
  obtain rfl | rfl | rfl | rfl : level = 1 ∨ level = 2 ∨ level = 3 ∨ level = 4 := by omega
  all_goals exact shift_and_mask v _

/-- The table that an entry links, if the entry is present. -/
def child (mem : U64 → U64) (n : U64) (i : Idx) : Option U64 :=
  if mem (wordAt n i) &&& ptePresent = 0 then none else some (mem (wordAt n i) &&& pteAddrMask)

/-- The table at the end of a path from the root. -/
def tableAt (mem : U64 → U64) (root : U64) (π : List Idx) : Option U64 :=
  PathTree.walk (child mem) root π

/-- The indices of `vaddr` at the `k` levels above level 1. -/
def pathFrom (vaddr : U64) : Nat → List Idx
  | 0 => []
  | k + 1 => idx vaddr (k + 2) :: pathFrom vaddr k

/-- The path to the last table of `vaddr`. -/
def path (vaddr : U64) : List Idx := pathFrom vaddr 3

theorem length_pathFrom (v : U64) (k : Nat) : (pathFrom v k).length = k := by
  induction k with
  | zero => rfl
  | succ k ih => rw [pathFrom, List.length_cons, ih]

theorem length_path (v : U64) : (path v).length = 3 := length_pathFrom v 3

/-- Without `create` the loop follows the graph and changes nothing. -/
theorem vmmGetPteLoop_find (v : U64) : ∀ (k : Nat) (n : U64) (s : Vmm), k ≤ 3 →
    vmmGetPteLoop v 1 false k (n + virtPhysMapBase) s =
      ((PathTree.walk (child s.mem) n (pathFrom v k)).elim 0 fun t => wordAt t (idx v 1), s) := by
  intro k
  induction k with
  | zero =>
    intro n s _
    rw [vmmGetPteLoop, indices_eq v (by omega) (by omega)]
    rfl
  | succ k ih =>
    intro n s hk
    have hentry : entryPtr (n + virtPhysMapBase) (indices v (1 + k + 1)) = wordAt n (idx v (k + 2)) := by
      rw [indices_eq v (by omega) (by omega), show 1 + k + 1 = k + 2 by omega]
      rfl
    rw [vmmGetPteLoop, hentry, pathFrom, PathTree.walk_cons, child]
    by_cases hp : s.mem (wordAt n (idx v (k + 2))) &&& ptePresent = 0
    · rw [if_pos hp, if_pos hp]
      rfl
    · rw [if_neg hp, if_neg hp, ih _ s (by omega)]
      rfl

/-- **Without `create`, `vmm_get_pte` finds the word of the last table.** -/
theorem vmmGetPte_find (s : Vmm) (root v : U64) :
    vmmGetPte s root v 1 false =
      ((tableAt s.mem root (path v)).elim 0 fun t => wordAt t (idx v 1), s) :=
  vmmGetPteLoop_find v 3 root s (by omega)

end AionOs
