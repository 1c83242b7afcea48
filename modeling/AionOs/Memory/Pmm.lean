import AionOs.Lib.ByteSet
import AionOs.Lib.Bytes
import AionOs.Lib.Scan

/-!
# The physical memory manager

The first layer of `kernel/memory/memory.c`: a bitmap of 4 KB frames in which a set
bit is a free frame, two 64-bit counters, and the functions that change them.

Loop variables and frame numbers are `Nat`: every one of them stays below `2 ^ 64`.
What the C code keeps in a `uint64_t` that can wrap is a `BitVec 64`.

* `pmmAlloc_cases`, `pmmAllocContiguous_cases`: all that an allocation can do.
* `pmmFree_cases`: all that a release can do.
-/

namespace AionOs

abbrev U8 := BitVec 8
abbrev U32 := BitVec 32
abbrev U64 := BitVec 64

/-! ### Constants -/

def pageSize : Nat := 4096

/-- `MAX_PHYS_MEM`: the physical memory that is tracked, 128 GB. -/
def maxPhysMem : Nat := 128 * 1024 * 1024 * 1024

/-- `BITMAP_SIZE`, in bytes. -/
def bitmapSize : Nat := maxPhysMem / pageSize / 8

/-- `MAX_PHYS_MEM / PAGE_SIZE`: the frames that are tracked. -/
def maxFrames : Nat := maxPhysMem / pageSize

@[simp] theorem pageSize_eq : pageSize = 4096 := rfl
@[simp] theorem maxFrames_eq : maxFrames = 33554432 := rfl
theorem bitmapSize_eq : bitmapSize = 4194304 := rfl
theorem bits_eq : 8 * bitmapSize = maxFrames := rfl

-- Large numerals are rewritten where they are needed, never unfolded on the way.
attribute [irreducible] maxFrames bitmapSize

/-- `i * PAGE_SIZE`, the physical address of a frame. -/
def frameAddr (i : Nat) : U64 := BitVec.ofNat 64 (i * pageSize)

def pageIndex (a : U64) : Nat := a.toNat / pageSize

theorem toNat_frameAddr {i : Nat} (h : i < maxFrames) : (frameAddr i).toNat = i * 4096 := by
  rw [maxFrames_eq] at h
  rw [frameAddr, pageSize_eq, BitVec.toNat_ofNat, Nat.mod_eq_of_lt (by omega)]

theorem pageIndex_frameAddr {i : Nat} (h : i < maxFrames) : pageIndex (frameAddr i) = i := by
  rw [pageIndex, toNat_frameAddr h, pageSize_eq, Nat.mul_div_cancel _ (by omega)]

theorem frameAddr_ne_zero {i : Nat} (h : i < maxFrames) (h0 : 0 < i) : frameAddr i ≠ 0 := by
  intro he
  have := congrArg BitVec.toNat he
  rw [toNat_frameAddr h] at this
  simp only [BitVec.ofNat_eq_ofNat, BitVec.toNat_zero] at this
  omega

/-! ### The bitmap -/

/-- `phys_bitmap`; a set bit is a free frame. -/
abbrev Bitmap := ByteSet bitmapSize

def bitmapSetFree (bm : Bitmap) (pageIdx : Nat) : Bitmap := bm.setBit pageIdx

def bitmapSetUsed (bm : Bitmap) (pageIdx : Nat) : Bitmap := bm.clearBit pageIdx

def bitmapIsFree (bm : Bitmap) (pageIdx : Nat) : Bool := bm.testBit pageIdx

structure Pmm where
  physBitmap : Bitmap
  physTotalPages : U64
  physFreePages : U64

/-- The state in `.bss`, before `pmm_init`. -/
def Pmm.bss : Pmm := ⟨fun _ => 0#8, 0, 0⟩

def Pmm.IsFree (s : Pmm) (i : Nat) : Prop := bitmapIsFree s.physBitmap i = true

instance (s : Pmm) (i : Nat) : Decidable (s.IsFree i) := inferInstanceAs (Decidable (_ = true))

theorem Pmm.not_isFree {s : Pmm} {i : Nat} : ¬ s.IsFree i ↔ bitmapIsFree s.physBitmap i = false := by
  rw [Pmm.IsFree, Bool.not_eq_true]

theorem Pmm.IsFree.lt {s : Pmm} {i : Nat} (h : s.IsFree i) : i < maxFrames :=
  bits_eq ▸ ByteSet.testBit_lt h

/-! ### The memory map of the firmware -/

/-- The fields of `EfiMemoryDescriptor` that `pmm_init` reads. -/
structure EfiMemoryDescriptor where
  type : U32
  physStart : U64
  numPages : U64
  deriving DecidableEq

def efiConventionalMemory : U32 := 7
def efiBootServicesCode : U32 := 3
def efiBootServicesData : U32 := 4

/-- The types `pmm_init` takes for RAM. -/
def EfiMemoryDescriptor.usable (d : EfiMemoryDescriptor) : Bool :=
  d.type = efiConventionalMemory || d.type = efiBootServicesCode || d.type = efiBootServicesData

/-- The arguments of `pmm_init`, and the bytes they point at. -/
structure EfiMemoryMap where
  bytes : U64 → U8
  mmapAddr : U64
  mmapSize : U64
  descSize : U64

def readLE (bytes : U64 → U8) (a : U64) (w : Nat) : Nat :=
  Bytes.ofLE ((List.range w).map fun k => bytes (a + BitVec.ofNat 64 k))

/-- The packed descriptor at an address: `type` at offset 0, `phys_start` at 8,
`num_pages` at 24. -/
def readDescriptor (bytes : U64 → U8) (a : U64) : EfiMemoryDescriptor where
  type := BitVec.ofNat 32 (readLE bytes a 4)
  physStart := BitVec.ofNat 64 (readLE bytes (a + 8) 8)
  numPages := BitVec.ofNat 64 (readLE bytes (a + 24) 8)

/-- The `mmap_size / desc_size` descriptors of the map, `desc_size` bytes apart. -/
def EfiMemoryMap.descriptors (m : EfiMemoryMap) : List EfiMemoryDescriptor :=
  (List.range (m.mmapSize / m.descSize).toNat).map fun i =>
    readDescriptor m.bytes (m.mmapAddr + BitVec.ofNat 64 i * m.descSize)

/-! ### `pmm_init` -/

/-- The body of the inner loop: frame `idx` of a usable region. -/
def pmmAddFrame (s : Pmm) (idx : Nat) : Pmm :=
  if idx < maxFrames then
    { physBitmap := bitmapSetFree s.physBitmap idx
      physFreePages := s.physFreePages + 1
      physTotalPages := s.physTotalPages + 1 }
  else s

/-- `start_page + p`, which can wrap. -/
def EfiMemoryDescriptor.frame (d : EfiMemoryDescriptor) (p : Nat) : Nat :=
  (pageIndex d.physStart + p) % 2 ^ 64

def pmmAddDescriptor (s : Pmm) (d : EfiMemoryDescriptor) : Pmm :=
  if d.usable then (List.range d.numPages.toNat).foldl (fun s p => pmmAddFrame s (d.frame p)) s
  else s

/-- The body of the last loop: frame `i` below 2 MB becomes used, and the counter
of free frames goes down whether it was free or not. -/
def pmmReserveFrame (s : Pmm) (i : Nat) : Pmm :=
  { s with
    physBitmap := bitmapSetUsed s.physBitmap i
    physFreePages := s.physFreePages - 1 }

def pmmInit (s : Pmm) (m : EfiMemoryMap) : Pmm :=
  (List.range 512).foldl pmmReserveFrame
    (m.descriptors.foldl pmmAddDescriptor { s with physBitmap := fun _ => 0#8 })

/-! ### Allocation and release -/

/-- `bitmap_set_used(i); phys_free_pages--;` -/
def pmmTakeFrame (s : Pmm) (i : Nat) : Pmm :=
  { s with
    physBitmap := bitmapSetUsed s.physBitmap i
    physFreePages := s.physFreePages - 1 }

/-- Take the `n` frames from `i` on, one after the other. -/
def pmmTakeFrames (s : Pmm) (i n : Nat) : Pmm := (List.range' i n).foldl pmmTakeFrame s

/-- How often the loop `for (i = 512; i < phys_total_pages; i++)` can turn. -/
@[irreducible] def Pmm.scanned (s : Pmm) : Nat := s.physTotalPages.toNat - 512

theorem Pmm.scanned_eq (s : Pmm) : s.scanned = s.physTotalPages.toNat - 512 := by
  unfold scanned
  exact Eq.refl _

def pmmAlloc (s : Pmm) : U64 × Pmm :=
  match Scan.firstFrom (bitmapIsFree s.physBitmap) s.scanned 512 with
  | some i => (frameAddr i, pmmTakeFrame s i)
  | none => (0, s)

def pmmAllocContiguous (s : Pmm) (n : U64) : U64 × Pmm :=
  match Scan.runFrom (bitmapIsFree s.physBitmap) n.toNat s.scanned 512 0 0 with
  | some runStart => (frameAddr runStart, pmmTakeFrames s runStart n.toNat)
  | none => (0, s)

def pmmFree (s : Pmm) (physAddr : U64) : Pmm :=
  if bitmapIsFree s.physBitmap (pageIndex physAddr) then s
  else
    { s with
      physBitmap := bitmapSetFree s.physBitmap (pageIndex physAddr)
      physFreePages := s.physFreePages + 1 }

/-! ### Status -/

/-- The static variables of the swap manager that `memory_get_status` reads. -/
structure Swap where
  swapCapacity : U64
  swapUsed : U64

structure MemoryStatus where
  totalPhysical : U64
  freePhysical : U64
  usedPhysical : U64
  swapTotal : U64
  swapUsed : U64
  pressureLevel : Int

def memoryGetStatus (s : Pmm) (w : Swap) : MemoryStatus :=
  let totalPhysical := s.physTotalPages * 4096
  let freePhysical := s.physFreePages * 4096
  { totalPhysical := totalPhysical
    freePhysical := freePhysical
    usedPhysical := totalPhysical - freePhysical
    swapTotal := w.swapCapacity * 4096
    swapUsed := w.swapUsed * 4096
    pressureLevel :=
      if freePhysical < 256 * 1024 * 1024 then 2
      else if freePhysical < 512 * 1024 * 1024 then 1 else 0 }

/-! ### What an operation can do -/

/-- The `n` frames from `i` on can be handed out: they lie in the range that is
scanned and are all free. -/
structure Pmm.Fits (s : Pmm) (i n : Nat) : Prop where
  lo : 512 ≤ i
  hi : i + n ≤ s.physTotalPages.toNat
  free : ∀ j, i ≤ j → j < i + n → s.IsFree j

theorem Pmm.Fits.lt {s : Pmm} {i n : Nat} (h : s.Fits i n) {j : Nat} (h1 : i ≤ j)
    (h2 : j < i + n) : j < maxFrames := (h.free j h1 h2).lt

/-- **All that `pmm_alloc` can do**: take the first free frame, or find none. -/
theorem pmmAlloc_cases (s : Pmm) :
    (pmmAlloc s = (0, s) ∧ ∀ j, 512 ≤ j → j < s.physTotalPages.toNat → ¬ s.IsFree j) ∨
    ∃ i, pmmAlloc s = (frameAddr i, pmmTakeFrames s i 1) ∧ s.Fits i 1 ∧
      ∀ j, 512 ≤ j → j < i → ¬ s.IsFree j := by
  have hk := s.scanned_eq
  cases hs : Scan.firstFrom (bitmapIsFree s.physBitmap) s.scanned 512 with
  | none =>
    refine Or.inl ⟨by rw [pmmAlloc, hs], fun j h1 h2 => ?_⟩
    exact Pmm.not_isFree.mpr ((Scan.firstFrom_eq_none _ _).mp hs j h1 (by omega))
  | some i =>
    obtain ⟨h1, h2, h3, h4⟩ := (Scan.firstFrom_eq_some _ _ _).mp hs
    refine Or.inr ⟨i, by rw [pmmAlloc, hs]; rfl, ⟨h1, by omega, fun j hj1 hj2 => ?_⟩,
      fun j hj1 hj2 => Pmm.not_isFree.mpr (h4 j hj1 hj2)⟩
    rw [show j = i by omega]
    exact h3

/-- **All that `pmm_alloc_contiguous` can do**: take the first run that fits, or
find none. -/
theorem pmmAllocContiguous_cases (s : Pmm) (n : U64) :
    (pmmAllocContiguous s n = (0, s) ∧ (0 < n.toNat → ∀ i, ¬ s.Fits i n.toNat)) ∨
    ∃ i, pmmAllocContiguous s n = (frameAddr i, pmmTakeFrames s i n.toNat) ∧ 0 < n.toNat ∧
      s.Fits i n.toNat ∧ ∀ j, j < i → ¬ s.Fits j n.toNat := by
  rcases Nat.eq_zero_or_pos n.toNat with h0 | hpos
  · refine Or.inl ⟨?_, fun h => by omega⟩
    rw [pmmAllocContiguous, h0, Scan.runFrom_zero]
  have hk := s.scanned_eq
  cases hs : Scan.runFrom (bitmapIsFree s.physBitmap) n.toNat s.scanned 512 0 0 with
  | none =>
    refine Or.inl ⟨by rw [pmmAllocContiguous, hs], fun _ i hi => ?_⟩
    have := hi.hi
    exact Scan.runFrom_eq_none hpos 0 hs i hi.lo (by omega) hi.free
  | some i =>
    obtain ⟨h1, h2, h3, h4⟩ := Scan.runFrom_eq_some hpos 0 hs
    refine Or.inr ⟨i, by rw [pmmAllocContiguous, hs], hpos, ⟨h1, by omega, h3⟩, fun j hj hf => ?_⟩
    exact h4 j hf.lo hj hf.free

/-- **All that `pmm_free` can do**: mark a used frame free, or nothing. -/
theorem pmmFree_cases (s : Pmm) (a : U64) :
    (s.IsFree (pageIndex a) ∧ pmmFree s a = s) ∨
    (¬ s.IsFree (pageIndex a) ∧ pmmFree s a =
      { s with
        physBitmap := bitmapSetFree s.physBitmap (pageIndex a)
        physFreePages := s.physFreePages + 1 }) := by
  by_cases h : bitmapIsFree s.physBitmap (pageIndex a) = true
  · exact Or.inl ⟨h, by rw [pmmFree, if_pos h]⟩
  · exact Or.inr ⟨h, by rw [pmmFree, if_neg h]⟩

/-! ### Frames after an operation -/

theorem isFree_setFree {s : Pmm} {i : Nat} (hi : i < maxFrames) (t f : U64) (j : Nat) :
    Pmm.IsFree ⟨bitmapSetFree s.physBitmap i, t, f⟩ j ↔ j = i ∨ s.IsFree j := by
  rw [Pmm.IsFree, Pmm.IsFree, bitmapIsFree, bitmapSetFree,
    ByteSet.testBit_setBit _ (bits_eq ▸ hi),
    Bool.or_eq_true, decide_eq_true_eq]
  rfl

theorem isFree_setUsed {s : Pmm} (i : Nat) (t f : U64) (j : Nat) :
    Pmm.IsFree ⟨bitmapSetUsed s.physBitmap i, t, f⟩ j ↔ j ≠ i ∧ s.IsFree j := by
  rw [Pmm.IsFree, Pmm.IsFree, bitmapIsFree, bitmapSetUsed, ByteSet.testBit_clearBit,
    Bool.and_eq_true, Bool.not_eq_true', decide_eq_false_iff_not]
  rfl

theorem isFree_takeFrame {s : Pmm} {i j : Nat} :
    (pmmTakeFrame s i).IsFree j ↔ j ≠ i ∧ s.IsFree j := isFree_setUsed i _ _ j

theorem takeFrames_succ (s : Pmm) (i n : Nat) :
    pmmTakeFrames s i (n + 1) = pmmTakeFrames (pmmTakeFrame s i) (i + 1) n := rfl

theorem isFree_takeFrames {j : Nat} : ∀ (n : Nat) (s : Pmm) (i : Nat),
    (pmmTakeFrames s i n).IsFree j ↔ ¬ (i ≤ j ∧ j < i + n) ∧ s.IsFree j := by
  intro n
  induction n with
  | zero =>
    intro s i
    exact ⟨fun h => ⟨by omega, h⟩, fun h => h.2⟩
  | succ n ih =>
    intro s i
    rw [takeFrames_succ, ih, isFree_takeFrame, ← and_assoc]
    exact and_congr_left fun _ => by omega

@[simp] theorem takeFrames_total : ∀ (n : Nat) (s : Pmm) (i : Nat),
    (pmmTakeFrames s i n).physTotalPages = s.physTotalPages := by
  intro n
  induction n with
  | zero => intro s i; rfl
  | succ n ih => intro s i; rw [takeFrames_succ, ih]; rfl

theorem takeFrames_freePages : ∀ (n : Nat) (s : Pmm) (i : Nat),
    (pmmTakeFrames s i n).physFreePages = s.physFreePages - BitVec.ofNat 64 n := by
  intro n
  induction n with
  | zero => intro s i; simp [pmmTakeFrames]
  | succ n ih =>
    intro s i
    rw [takeFrames_succ, ih]
    show s.physFreePages - 1 - BitVec.ofNat 64 n = _
    rw [Nat.add_comm n 1, BitVec.ofNat_add, ← BitVec.sub_sub]
    rfl

@[simp] theorem pmmFree_total (s : Pmm) (a : U64) :
    (pmmFree s a).physTotalPages = s.physTotalPages := by
  rcases pmmFree_cases s a with ⟨_, h⟩ | ⟨_, h⟩ <;> rw [h]

theorem isFree_pmmFree {s : Pmm} {a : U64} (ha : pageIndex a < maxFrames) (j : Nat) :
    (pmmFree s a).IsFree j ↔ j = pageIndex a ∨ s.IsFree j := by
  rcases pmmFree_cases s a with ⟨h, he⟩ | ⟨_, he⟩
  · rw [he]
    exact ⟨Or.inr, fun hj => hj.elim (fun e => e ▸ h) id⟩
  · rw [he, isFree_setFree ha]

end AionOs
