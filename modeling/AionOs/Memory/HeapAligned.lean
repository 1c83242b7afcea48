import AionOs.Memory.HeapBlocks

/-!
# Aligned blocks

`kmalloc_aligned` moves the pointer up before `kmalloc` tests whether the block fits.

* `kmallocAligned_cases`: what a call does, for any heap at all.
* `aligned_or_nothing_iff`: when a block is aligned, and a call that fails leaves no trace.
* `steady_iff_of_noWrap`: the same on a heap as the kernel keeps it, which `sixteen_run` gives.
-/

namespace AionOs

/-- What a call for an aligned block promises: an aligned block, or nothing at all. -/
structure AlignedOrNothing (h : Heap) (align : U64) (r : U64 × Heap) : Prop where
  aligned : r.1 ≠ 0 → align.toNat ∣ r.1.toNat ∧ 16 ∣ r.1.toNat
  untouched : r.1 = 0 → r.2.heapPtr = h.heapPtr
  later : r.1 = 0 → ∀ size, (kmalloc r.2 size).1 ≠ 0 ↔ (kmalloc h size).1 ≠ 0

def alignedStart (h : Heap) (align : U64) : Nat := roundUp h.heapPtr.toNat align.toNat % 2 ^ 64

def alignedEnd (h : Heap) (size align : U64) : Nat :=
  (alignedStart h align + roundUp size.toNat 16) % 2 ^ 64

/-- The block fits and starts at a multiple of 16, or it does not fit and the pointer is aligned as
it is.  A block at address `0` is taken for none: then it must end at the pointer. -/
def Steady (h : Heap) (size align : U64) : Prop :=
  if alignedEnd h size align ≤ h.heapEnd.toNat then
    if alignedStart h align = 0 then alignedEnd h size align = h.heapPtr.toNat
    else 16 ∣ alignedStart h align
  else align.toNat ∣ h.heapPtr.toNat

instance (h : Heap) (size align : U64) : Decidable (Steady h size align) := by
  unfold Steady
  infer_instance

section Aligned

variable {h : Heap} {size align : U64}

theorem toNat_powerOfTwo {k : Nat} (hk : k < 64) : (BitVec.ofNat 64 (2 ^ k)).toNat = 2 ^ k := by
  rw [BitVec.toNat_ofNat, Nat.mod_eq_of_lt (Nat.pow_lt_pow_right (by omega) hk)]

theorem toNat_align16_mod (size : U64) : (align16 size).toNat = roundUp size.toNat 16 % 2 ^ 64 := by
  have hadd : size + 15 = size + BitVec.ofNat 64 (2 ^ 4) - 1 := by bv_omega
  have hmask : 15#64 = BitVec.ofNat 64 (2 ^ 4) - 1 := by decide
  rw [align16, hadd, hmask]
  exact toNat_align_mod size (by omega)

/-- **What a call does**, whatever the heap: it hands out the block from the rounded pointer on, or
leaves the pointer there. -/
theorem kmallocAligned_cases (h : Heap) (size : U64) (ha : ∃ k < 64, align = BitVec.ofNat 64 (2 ^ k)) :
    ∃ p q : U64, p.toNat = alignedStart h align ∧ q.toNat = alignedEnd h size align ∧
      kmallocAligned h size align =
        if alignedEnd h size align ≤ h.heapEnd.toNat then (p, ⟨q, h.heapEnd⟩)
        else (0, ⟨p, h.heapEnd⟩) := by
  obtain ⟨k, hk, rfl⟩ := ha
  obtain ⟨p, hp⟩ : ∃ p, p = (h.heapPtr + BitVec.ofNat 64 (2 ^ k) - 1) &&&
      ~~~(BitVec.ofNat 64 (2 ^ k) - 1) := ⟨_, rfl⟩
  have hstart : p.toNat = alignedStart h (BitVec.ofNat 64 (2 ^ k)) := by
    rw [hp, alignedStart, toNat_powerOfTwo hk]
    exact toNat_align_mod h.heapPtr hk
  have hend : (p + align16 size).toNat = alignedEnd h size (BitVec.ofNat 64 (2 ^ k)) := by
    rw [BitVec.toNat_add, hstart, toNat_align16_mod, alignedEnd, Nat.add_mod_mod]
  have hcall : kmallocAligned h size (BitVec.ofNat 64 (2 ^ k)) = kmalloc ⟨p, h.heapEnd⟩ size := by
    rw [hp]
    rfl
  refine ⟨p, p + align16 size, hstart, hend, ?_⟩
  have htest : p + align16 size > h.heapEnd ↔ ¬ (p + align16 size).toNat ≤ h.heapEnd.toNat := by
    rw [gt_iff_lt, BitVec.lt_def, Nat.not_le]
  rw [hcall, kmalloc, ← hend]
  by_cases hfit : (p + align16 size).toNat ≤ h.heapEnd.toNat
  · rw [if_pos hfit]
    exact if_neg fun h => htest.mp h hfit
  · rw [if_neg hfit]
    exact if_pos (htest.mpr hfit)

theorem dvd_alignedStart (h : Heap) (ha : ∃ k < 64, align = BitVec.ofNat 64 (2 ^ k)) :
    align.toNat ∣ alignedStart h align := by
  obtain ⟨k, hk, rfl⟩ := ha
  rw [alignedStart, toNat_powerOfTwo hk]
  exact (Nat.dvd_mod_iff (Nat.pow_dvd_pow 2 (by omega))).mpr (dvd_roundUp _ _)

theorem alignedStart_eq_iff (h : Heap) (ha : ∃ k < 64, align = BitVec.ofNat 64 (2 ^ k)) :
    alignedStart h align = h.heapPtr.toNat ↔ align.toNat ∣ h.heapPtr.toNat := by
  constructor
  · intro heq
    rw [← heq]
    exact dvd_alignedStart h ha
  · intro hdvd
    obtain ⟨k, hk, rfl⟩ := ha
    rw [toNat_powerOfTwo hk] at hdvd
    rw [alignedStart, toNat_powerOfTwo hk, roundUp_eq_self (Nat.two_pow_pos k) hdvd,
      Nat.mod_eq_of_lt h.heapPtr.isLt]

/-- A call keeps its promise when its pointer is right: the end of the heap never moves. -/
theorem aligned_or_nothing_of_untouched {r : U64 × Heap} (hend : r.2.heapEnd = h.heapEnd)
    (haligned : r.1 ≠ 0 → align.toNat ∣ r.1.toNat ∧ 16 ∣ r.1.toNat)
    (huntouched : r.1 = 0 → r.2.heapPtr = h.heapPtr) : AlignedOrNothing h align r := by
  refine ⟨haligned, huntouched, fun hz size => ?_⟩
  have hsame : r.2 = h := by
    obtain ⟨_, ptr, stop⟩ := r
    obtain ⟨ptr', stop'⟩ := h
    exact congr (congrArg Heap.mk (huntouched hz)) hend
  rw [hsame]

/-- **When a block is aligned and a failure leaves no trace**: for every heap, every size and every
power of two, exactly when the call is steady. -/
theorem aligned_or_nothing_iff (h : Heap) (size align : U64)
    (ha : ∃ k < 64, align = BitVec.ofNat 64 (2 ^ k)) :
    AlignedOrNothing h align (kmallocAligned h size align) ↔ Steady h size align := by
  obtain ⟨p, q, hp, hq, hcall⟩ := kmallocAligned_cases h size ha
  have hdvd := dvd_alignedStart h ha
  have hzero : p = 0 ↔ alignedStart h align = 0 := by
    rw [← hp]
    exact (BitVec.toNat_eq (x := p) (y := 0))
  rw [hcall, Steady]
  by_cases hfit : alignedEnd h size align ≤ h.heapEnd.toNat
  · rw [if_pos hfit, if_pos hfit]
    by_cases hnull : alignedStart h align = 0
    · rw [if_pos hnull, ← hq]
      have hpz : p = 0 := hzero.mpr hnull
      constructor
      · exact fun hr => congrArg BitVec.toNat (hr.untouched hpz)
      · exact fun heq => aligned_or_nothing_of_untouched rfl (fun hne => absurd hpz hne)
          fun _ => BitVec.eq_of_toNat_eq heq
    · rw [if_neg hnull, ← hp]
      have hpne : p ≠ 0 := fun hz => hnull (hzero.mp hz)
      constructor
      · exact fun hr => (hr.aligned hpne).2
      · exact fun h16 => aligned_or_nothing_of_untouched rfl (fun _ => ⟨hp ▸ hdvd, h16⟩)
          fun hz => absurd hz hpne
  · rw [if_neg hfit, if_neg hfit, ← alignedStart_eq_iff h ha, ← hp]
    constructor
    · exact fun hr => congrArg BitVec.toNat (hr.untouched rfl)
    · exact fun heq => aligned_or_nothing_of_untouched rfl (fun hne => absurd rfl hne)
        fun _ => BitVec.eq_of_toNat_eq heq

end Aligned

/-- On a machine whose heap starts at 8 MB: the pointer after one small block, and the end. -/
def smallHeap : Heap := ⟨0xFFFF000000800010, 0xFFFF000001800000⟩

theorem aligned_or_nothing_sample :
    AlignedOrNothing smallHeap 4096 (kmallocAligned smallHeap 100 4096) ↔ Steady smallHeap 100 4096 :=
  aligned_or_nothing_iff smallHeap 100 4096 ⟨12, by decide, by decide⟩

/-- 16 MB do not fit, and the pointer moves to the next page all the same: a block of all that was
left is refused then. -/
theorem failed_call_moves : ¬ AlignedOrNothing smallHeap 4096 (kmallocAligned smallHeap 0x1000000 4096) ∧
    (kmalloc smallHeap 0xFFFFF0).1 ≠ 0 ∧
    (kmalloc (kmallocAligned smallHeap 0x1000000 4096).2 0xFFFFF0).1 = 0 := by
  refine ⟨fun hr => ?_, by decide, by decide⟩
  exact absurd (hr.untouched (by decide)) (by decide)

/-! ### Heaps of the kernel -/

theorem alignedStart_sixteen {h : Heap} {align : U64} (h16 : 16 ∣ h.heapPtr.toNat)
    (ha : ∃ k < 64, align = BitVec.ofNat 64 (2 ^ k)) : 16 ∣ alignedStart h align := by
  have hdvd := dvd_alignedStart h ha
  have hstays := alignedStart_eq_iff h ha
  obtain ⟨k, hk, rfl⟩ := ha
  rw [toNat_powerOfTwo hk] at hdvd hstays
  rcases Nat.lt_or_ge k 4 with hsmall | hlarge
  · rw [hstays.mpr (Nat.dvd_trans (Nat.pow_dvd_pow 2 (by omega : k ≤ 4)) h16)]
    exact h16
  · exact Nat.dvd_trans (Nat.pow_dvd_pow 2 hlarge) hdvd

/-- On a heap whose pointer is a multiple of 16, and for a block that does not wrap: the block fits,
or the pointer is aligned as it is. -/
theorem steady_iff_of_noWrap {h : Heap} {size align : U64} (hpos : 0 < h.heapPtr.toNat)
    (h16 : 16 ∣ h.heapPtr.toNat) (ha : ∃ k < 64, align = BitVec.ofNat 64 (2 ^ k))
    (hwrap : (HeapOp.kmallocAligned size align).NoWrap h) : Steady h size align ↔
      roundUp h.heapPtr.toNat align.toNat + roundUp size.toNat 16 ≤ h.heapEnd.toNat ∨
        align.toNat ∣ h.heapPtr.toNat := by
  have hsum : roundUp h.heapPtr.toNat align.toNat + roundUp size.toNat 16 < 2 ^ 64 := hwrap
  have hle : h.heapPtr.toNat ≤ roundUp h.heapPtr.toNat align.toNat := by
    obtain ⟨k, hk, rfl⟩ := ha
    rw [toNat_powerOfTwo hk]
    exact le_roundUp _ (Nat.two_pow_pos k)
  have hstart : alignedStart h align = roundUp h.heapPtr.toNat align.toNat :=
    Nat.mod_eq_of_lt (by omega)
  have hend : alignedEnd h size align = roundUp h.heapPtr.toNat align.toNat + roundUp size.toNat 16 := by
    rw [alignedEnd, hstart, Nat.mod_eq_of_lt hsum]
  have h16' := alignedStart_sixteen h16 ha
  rw [Steady, hend, if_neg (by omega : alignedStart h align ≠ 0)]
  split
  next hfit => exact iff_of_true h16' (.inl hfit)
  next hfit => exact (or_iff_right hfit).symm

theorem sixteen_dvd_word {x y : Nat} (hx : 16 ∣ x) (hy : 16 ∣ y) : 16 ∣ (x + y) % 2 ^ 64 :=
  (Nat.dvd_mod_iff (by decide)).mpr (Nat.dvd_add hx hy)

/-- **One call** keeps the pointer at a multiple of 16, and its block starts at one. -/
theorem exec_sixteen {h : Heap} {op : HeapOp} (hop : op.PowerOfTwo) (h16 : 16 ∣ h.heapPtr.toNat) :
    16 ∣ (op.exec h).1.toNat ∧ 16 ∣ (op.exec h).2.heapPtr.toNat := by
  cases op with
  | kmalloc size =>
    show 16 ∣ (kmalloc h size).1.toNat ∧ 16 ∣ (kmalloc h size).2.heapPtr.toNat
    rw [kmalloc]
    split
    · exact ⟨Nat.dvd_zero 16, h16⟩
    · refine ⟨h16, ?_⟩
      rw [BitVec.toNat_add, toNat_align16_mod, Nat.add_mod_mod]
      exact sixteen_dvd_word h16 (dvd_roundUp _ _)
  | kmallocAligned size align =>
    obtain ⟨p, q, hp, hq, hcall⟩ := kmallocAligned_cases h size hop
    have h16' := alignedStart_sixteen h16 hop
    show 16 ∣ (kmallocAligned h size align).1.toNat ∧ 16 ∣ (kmallocAligned h size align).2.heapPtr.toNat
    rw [hcall]
    split
    · refine ⟨hp ▸ h16', ?_⟩
      rw [hq, alignedEnd]
      exact sixteen_dvd_word h16' (dvd_roundUp _ _)
    · exact ⟨Nat.dvd_zero 16, hp ▸ h16'⟩

/-- The pointer and all blocks are at multiples of 16. -/
structure Sixteen (s : HeapSys) : Prop where
  pointer : 16 ∣ s.heap.heapPtr.toNat
  blocks : ∀ b ∈ s.blocks, 16 ∣ b.1

theorem sixteen_exec {s : HeapSys} {op : HeapOp} (h : Sixteen s) (hop : op.PowerOfTwo) :
    Sixteen (s.exec op) := by
  obtain ⟨hblock, hptr⟩ := exec_sixteen hop h.pointer
  refine ⟨hptr, fun b hb => ?_⟩
  rw [HeapSys.exec] at hb
  dsimp only at hb
  split at hb
  · exact h.blocks b hb
  · rcases List.mem_cons.mp hb with rfl | hb
    · exact hblock
    · exact h.blocks b hb

/-- **After a successful `kmalloc_init`**, in every run of calls of any size, all blocks start at
multiples of 16, and so does the next one. -/
theorem sixteen_run {p : Pmm} {h : Heap}
    (hinit : (pmmAllocContiguous p (BitVec.ofNat 64 (heapInitialSize / pageSize))).1 ≠ 0)
    (ops : List HeapOp) (hl : (heapMachine AnyCall).Legal ⟨(kmallocInit p h).1, []⟩ ops) :
    Sixteen ((heapMachine AnyCall).run ⟨(kmallocInit p h).1, []⟩ ops) := by
  obtain ⟨i, _, hptr, _⟩ := kmallocInit_start h hinit
  have hstart : Sixteen ⟨(kmallocInit p h).1, []⟩ := by
    refine ⟨?_, fun b hb => by cases hb⟩
    show 16 ∣ (kmallocInit p h).1.heapPtr.toNat
    rw [hptr]
    omega
  exact Machine.run_invariant (I := Sixteen) (fun _ _ hs hop => sixteen_exec hs hop) ops _ hstart hl

end AionOs
