import AionOs.Lib.Machine
import AionOs.Memory.Heap
import AionOs.Memory.VmmRefine

/-!
# The blocks of the kernel heap

What `kmalloc` and `kmalloc_aligned` hand out over a whole life of the heap.  The bound
test adds the rounded size to the pointer without looking at the carry, and the heap lies
within 2^48 bytes of the end of the address space.

* `exec_cutsAt`: one call whose block does not run over the end of the address space.
* `heapCut_run`: what a run of such calls keeps.
* `heap_blocks_disjoint`: they are inside the heap and pairwise disjoint.
-/

namespace AionOs

inductive HeapOp where
  | kmalloc (size : U64)
  | kmallocAligned (size align : U64)

def HeapOp.size : HeapOp → U64
  | .kmalloc size => size
  | .kmallocAligned size _ => size

def HeapOp.exec (h : Heap) : HeapOp → U64 × Heap
  | .kmalloc size => AionOs.kmalloc h size
  | .kmallocAligned size align => AionOs.kmallocAligned h size align

def HeapOp.PowerOfTwo : HeapOp → Prop
  | .kmalloc _ => True
  | .kmallocAligned _ align => ∃ k < 64, align = BitVec.ofNat 64 (2 ^ k)

def HeapOp.start (h : Heap) : HeapOp → Nat
  | .kmalloc _ => h.heapPtr.toNat
  | .kmallocAligned _ align => roundUp h.heapPtr.toNat align.toNat

/-- The block, rounded up, ends below the end of the address space. -/
def HeapOp.NoWrap (h : Heap) (op : HeapOp) : Prop :=
  op.start h + roundUp op.size.toNat 16 < 2 ^ 64

/-- The heap with the blocks it handed out, latest first, each as start and size. -/
structure HeapSys where
  heap : Heap
  blocks : List (Nat × Nat)

def HeapSys.exec (s : HeapSys) (op : HeapOp) : HeapSys :=
  let r := op.exec s.heap
  ⟨r.2, if r.1 = 0 then s.blocks else (r.1.toNat, op.size.toNat) :: s.blocks⟩

def heapMachine (legal : HeapSys → HeapOp → Prop) : Machine HeapSys HeapOp := ⟨HeapSys.exec, legal⟩

def AnyCall (_ : HeapSys) (op : HeapOp) : Prop := op.PowerOfTwo

/-- A power of two, and a block that does not run over the end of the address space. -/
def NoWrapCall (s : HeapSys) (op : HeapOp) : Prop := op.PowerOfTwo ∧ op.NoWrap s.heap

/-! ### One call -/

/-- The call returned `NULL` with the pointer at `start`, or a block of `n` bytes from there. -/
def Heap.CutsAt (h : Heap) (start n : Nat) (r : U64 × Heap) : Prop :=
  r.2.heapEnd = h.heapEnd ∧
    ((r.1 = 0 ∧ r.2.heapPtr.toNat = start) ∨
      (r.1 ≠ 0 ∧ r.1.toNat = start ∧ r.2.heapPtr.toNat = start + n ∧ start + n ≤ h.heapEnd.toNat))

theorem kmalloc_cutsAt {h : Heap} {size : U64} {start : Nat} (hstart : h.heapPtr.toNat = start)
    (hpos : 0 < start) (hend : start + roundUp size.toNat 16 < 2 ^ 64) :
    h.CutsAt start (roundUp size.toNat 16) (kmalloc h size) := by
  subst hstart
  rcases kmalloc_cases hend with ⟨hfit, p, hp, hr⟩ | ⟨_, hr⟩
  · rw [hr]
    refine ⟨rfl, .inr ⟨fun hz => ?_, rfl, hp, hfit⟩⟩
    rw [show h.heapPtr = 0 from hz] at hpos
    exact absurd hpos (by decide)
  · rw [hr]
    exact ⟨rfl, .inl ⟨rfl, rfl⟩⟩

/-- **One call whose block does not wrap** hands out the next block or moves the pointer to
where the block would have started. -/
theorem exec_cutsAt {h : Heap} {op : HeapOp} (hpos : 0 < h.heapPtr.toNat) (hop : op.PowerOfTwo)
    (hwrap : op.NoWrap h) :
    h.heapPtr.toNat ≤ op.start h ∧ h.CutsAt (op.start h) (roundUp op.size.toNat 16) (op.exec h) := by
  cases op with
  | kmalloc size => exact ⟨Nat.le_refl _, kmalloc_cutsAt rfl hpos hwrap⟩
  | kmallocAligned size align =>
    obtain ⟨k, hk, rfl⟩ := hop
    have hpow : (BitVec.ofNat 64 (2 ^ k)).toNat = 2 ^ k := by
      rw [BitVec.toNat_ofNat, Nat.mod_eq_of_lt (Nat.pow_lt_pow_right (by omega) hk)]
    have hle : h.heapPtr.toNat ≤ roundUp h.heapPtr.toNat (BitVec.ofNat 64 (2 ^ k)).toNat := by
      rw [hpow]
      exact le_roundUp _ (Nat.two_pow_pos k)
    have hwrap' : roundUp h.heapPtr.toNat (BitVec.ofNat 64 (2 ^ k)).toNat + roundUp size.toNat 16 <
        2 ^ 64 := hwrap
    refine ⟨hle, kmalloc_cutsAt ?_ (Nat.lt_of_lt_of_le hpos hle) hwrap'⟩
    rw [hpow] at hwrap'
    show BitVec.toNat _ = roundUp h.heapPtr.toNat (BitVec.ofNat 64 (2 ^ k)).toNat
    rw [hpow]
    exact toNat_align h.heapPtr hk (by omega)

/-! ### Runs -/

/-- What is kept: the end, the start below the pointer, and the blocks below both. -/
structure HeapCut (h₀ : Heap) (s : HeapSys) : Prop where
  heapEnd : s.heap.heapEnd = h₀.heapEnd
  cut : Cut h₀.heapPtr.toNat h₀.heapEnd.toNat s.heap.heapPtr.toNat s.blocks

theorem heapCut_start (h : Heap) : HeapCut h ⟨h, []⟩ := ⟨rfl, Cut.nil _ _⟩

theorem heapCut_exec {h₀ : Heap} {s : HeapSys} {op : HeapOp} (hpos : 0 < h₀.heapPtr.toNat)
    (h : HeapCut h₀ s) (hop : NoWrapCall s op) : HeapCut h₀ (s.exec op) := by
  have hstart := h.cut.start
  obtain ⟨hle, hend, hcase⟩ := exec_cutsAt (by omega : 0 < s.heap.heapPtr.toNat) hop.1 hop.2
  have hcut := h.cut.skip hle
  rcases hcase with ⟨hz, hptr⟩ | ⟨hnz, hp, hptr, hfit⟩
  · refine ⟨hend.trans h.heapEnd, ?_⟩
    simp only [HeapSys.exec, hz, if_true, hptr]
    exact hcut
  · refine ⟨hend.trans h.heapEnd, ?_⟩
    simp only [HeapSys.exec, hnz, if_false, hp, hptr]
    rw [h.heapEnd] at hfit
    exact hcut.take (le_roundUp _ (by decide)) hfit

theorem heapCut_run {h : Heap} (hpos : 0 < h.heapPtr.toNat) (ops : List HeapOp)
    (hl : (heapMachine NoWrapCall).Legal ⟨h, []⟩ ops) :
    HeapCut h ((heapMachine NoWrapCall).run ⟨h, []⟩ ops) :=
  Machine.run_invariant (I := HeapCut h) (fun _ _ hs hop => heapCut_exec hpos hs hop) ops _
    (heapCut_start h) hl

/-- **The blocks of the heap.**  After a successful `kmalloc_init`, in every run of calls
whose blocks do not run over the end of the address space: the blocks lie inside the heap
and overlap nowhere, the pointer never goes back, and a call that succeeds leaves it inside
the heap. -/
theorem heap_blocks_disjoint {p : Pmm} {h : Heap}
    (hinit : (pmmAllocContiguous p (BitVec.ofNat 64 (heapInitialSize / pageSize))).1 ≠ 0)
    (ops : List HeapOp) (op : HeapOp)
    (hl : (heapMachine NoWrapCall).Legal ⟨(kmallocInit p h).1, []⟩ (ops ++ [op])) :
    let h₀ := (kmallocInit p h).1
    let s := (heapMachine NoWrapCall).run ⟨h₀, []⟩ ops
    let lo := h₀.heapPtr.toNat
    let hi := h₀.heapEnd.toNat
    BlocksInside lo hi (s.exec op).blocks ∧
      s.heap.heapPtr.toNat ≤ (s.exec op).heap.heapPtr.toNat ∧
      ((op.exec s.heap).1 ≠ 0 →
        lo ≤ (s.exec op).heap.heapPtr.toNat ∧ (s.exec op).heap.heapPtr.toNat ≤ hi) := by
  intro h₀ s lo hi
  have hpos : 0 < h₀.heapPtr.toNat := (kmallocInit_room h hinit).1.pos
  obtain ⟨hops, hop, _⟩ := ((heapMachine NoWrapCall).legal_append ops ⟨h₀, []⟩ [op]).mp hl
  have hs : HeapCut h₀ s := heapCut_run hpos ops hops
  have hs' : HeapCut h₀ (s.exec op) := heapCut_exec hpos hs hop
  have hstart := hs.cut.start
  obtain ⟨hle, _, hcase⟩ := exec_cutsAt (by omega : 0 < s.heap.heapPtr.toNat) hop.1 hop.2
  refine ⟨hs'.cut.toBlocksInside, ?_, fun hnz => ⟨hs'.cut.start, ?_⟩⟩
  · show s.heap.heapPtr.toNat ≤ (op.exec s.heap).2.heapPtr.toNat
    rcases hcase with ⟨_, hptr⟩ | ⟨_, _, hptr, _⟩
    · omega
    · omega
  · rcases hcase with ⟨hz, _⟩ | ⟨_, _, hptr, hfit⟩
    · exact absurd hz hnz
    · show (op.exec s.heap).2.heapPtr.toNat ≤ hi
      rw [hptr, show hi = s.heap.heapEnd.toNat from congrArg BitVec.toNat hs.heapEnd.symm]
      exact hfit

theorem clearHeap_init :
    (pmmAllocContiguous (pmmBoot clearEfiMap) (BitVec.ofNat 64 (heapInitialSize / pageSize))).1 ≠ 0 := by
  have hsize : (BitVec.ofNat 64 (heapInitialSize / pageSize)).toNat = 4096 := by decide
  rcases pmmAllocContiguous_cases (pmmBoot clearEfiMap) (BitVec.ofNat 64 (heapInitialSize / pageSize)) with
    ⟨_, hnone⟩ | ⟨i, he, _, hf, _⟩
  · refine absurd ⟨?_, ?_, fun j h1 h2 => ?_⟩ (hnone (by omega) 2048)
    · omega
    · have := (mem_visible.mp ((mem_clearVisible 522239).mpr (by omega))).1.2
      omega
    · exact (mem_visible.mp ((mem_clearVisible j).mpr (by omega))).2
  · rw [he]
    exact frameAddr_ne_zero (hf.lt (Nat.le_refl i) (by omega)) (by have := hf.lo; omega)

theorem legal_smallCalls {h : Heap} (ok : h.Ok) : (heapMachine NoWrapCall).Legal ⟨h, []⟩
    [.kmalloc 24, .kmallocAligned 100 4096] := by
  have hle := ok.le
  have htop := ok.top
  have hsmall : roundUp (24 : U64).toNat 16 = 32 := by decide
  have hlast : roundUp (100 : U64).toNat 16 = 112 := by decide
  have hfirst : NoWrapCall ⟨h, []⟩ (.kmalloc 24) := by
    refine ⟨trivial, ?_⟩
    show h.heapPtr.toNat + roundUp (24 : U64).toNat 16 < 2 ^ 64
    omega
  refine ⟨hfirst, ⟨⟨12, by decide, by decide⟩, ?_⟩, trivial⟩
  have hup := roundUp_le (kmalloc h 24).2.heapPtr.toNat (4096 : U64).toNat
  rw [show (4096 : U64).toNat = 4096 from rfl] at hup
  show roundUp (kmalloc h 24).2.heapPtr.toNat (4096 : U64).toNat + roundUp (100 : U64).toNat 16 < 2 ^ 64
  rw [show (4096 : U64).toNat = 4096 from rfl]
  obtain ⟨_, _, hcase⟩ := exec_cutsAt ok.pos hfirst.1 hfirst.2
  have hptr : (kmalloc h 24).2.heapPtr.toNat ≤ h.heapPtr.toNat + 32 := by
    rcases hcase with ⟨_, hptr⟩ | ⟨_, _, hptr, _⟩
    · exact Nat.le_trans (Nat.le_of_eq hptr) (Nat.le_add_right _ _)
    · exact Nat.le_of_eq (hptr.trans (congrArg (h.heapPtr.toNat + ·) hsmall))
  omega

theorem heap_blocks_disjoint_sample :
    let h₀ := (kmallocInit (pmmBoot clearEfiMap) Heap.bss).1
    let s := (heapMachine NoWrapCall).run ⟨h₀, []⟩ [.kmalloc 24]
    let op := HeapOp.kmallocAligned 100 4096
    let lo := h₀.heapPtr.toNat
    let hi := h₀.heapEnd.toNat
    BlocksInside lo hi (s.exec op).blocks ∧
      s.heap.heapPtr.toNat ≤ (s.exec op).heap.heapPtr.toNat ∧
      ((op.exec s.heap).1 ≠ 0 →
        lo ≤ (s.exec op).heap.heapPtr.toNat ∧ (s.exec op).heap.heapPtr.toNat ≤ hi) :=
  heap_blocks_disjoint clearHeap_init [.kmalloc 24] (.kmallocAligned 100 4096)
    (legal_smallCalls (kmallocInit_room Heap.bss clearHeap_init).1)

/-- The largest size wraps to nothing. -/
theorem kmalloc_wraps {h : Heap} (ok : h.Ok) :
    kmalloc h 0xFFFFFFFFFFFFFFFF#64 = (h.heapPtr, h) := by
  have hzero : align16 0xFFFFFFFFFFFFFFFF#64 = 0 := by decide
  have hle := ok.le
  rw [kmalloc, hzero]
  simp only [show h.heapPtr + 0 = h.heapPtr from BitVec.add_zero _]
  apply if_neg
  rw [gt_iff_lt, BitVec.lt_def]
  omega

/-- It is handed out as a block of 2^64 - 1 bytes. -/
theorem kmalloc_overruns {h : Heap} (ok : h.Ok) :
    (heapMachine AnyCall).Legal ⟨h, []⟩ [.kmalloc 0xFFFFFFFFFFFFFFFF#64] ∧
      ¬ BlocksInside h.heapPtr.toNat h.heapEnd.toNat
        ((heapMachine AnyCall).run ⟨h, []⟩ [.kmalloc 0xFFFFFFFFFFFFFFFF#64]).blocks := by
  refine ⟨⟨trivial, trivial⟩, fun hin => ?_⟩
  have hpos := ok.pos
  have htop := ok.top
  have hnz : h.heapPtr ≠ 0 := fun hz => by
    rw [hz] at hpos
    exact absurd hpos (by decide)
  have hblocks : ((heapMachine AnyCall).run ⟨h, []⟩ [.kmalloc 0xFFFFFFFFFFFFFFFF#64]).blocks =
      [(h.heapPtr.toNat, (0xFFFFFFFFFFFFFFFF#64).toNat)] := by
    show (HeapSys.exec ⟨h, []⟩ (.kmalloc 0xFFFFFFFFFFFFFFFF#64)).blocks = _
    simp only [HeapSys.exec, HeapOp.exec, kmalloc_wraps ok, hnz, if_false]
    rfl
  rw [hblocks] at hin
  have hend : h.heapPtr.toNat + (0xFFFFFFFFFFFFFFFF#64).toNat ≤ h.heapEnd.toNat :=
    (hin.inside _ (List.mem_singleton_self _)).2
  rw [show (0xFFFFFFFFFFFFFFFF#64).toNat = 18446744073709551615 from rfl] at hend
  omega

/-- A block of 2^64 - 1 bytes is handed out of the 16 MB. -/
theorem heap_blocks_overrun :
    (heapMachine AnyCall).Legal ⟨(kmallocInit (pmmBoot clearEfiMap) Heap.bss).1, []⟩
        [.kmalloc 0xFFFFFFFFFFFFFFFF#64] ∧
      ¬ BlocksInside (kmallocInit (pmmBoot clearEfiMap) Heap.bss).1.heapPtr.toNat
        (kmallocInit (pmmBoot clearEfiMap) Heap.bss).1.heapEnd.toNat
        ((heapMachine AnyCall).run ⟨(kmallocInit (pmmBoot clearEfiMap) Heap.bss).1, []⟩
          [.kmalloc 0xFFFFFFFFFFFFFFFF#64]).blocks :=
  kmalloc_overruns (kmallocInit_room Heap.bss clearHeap_init).1

end AionOs
