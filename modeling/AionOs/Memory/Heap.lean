import Mathlib.Algebra.Order.BigOperators.Group.List
import Mathlib.Algebra.Order.Ring.Nat
import Mathlib.Algebra.Group.Action.Defs
import AionOs.Lib.Bump
import AionOs.Memory.Vmm

/-!
# The kernel heap

The last layer of `kernel/memory/memory.c`: a bump allocator over 16 MB in one run of
frames.  A pointer is the `U64` it is, and `0` is `NULL`.

* `kmalloc_spec`: a block is handed out exactly when the rounded size fits in the room left.
* `kmallocInit_room`: the room at the start.
* `Heap.Serves`: a list of requests all of which succeed.
-/

namespace AionOs

structure Heap where
  heapPtr : U64
  heapEnd : U64

def Heap.bss : Heap := ⟨0, 0⟩

def heapInitialSize : Nat := 16 * 1024 * 1024

def kmallocInit (s : Pmm) (h : Heap) : Heap × Pmm :=
  let (phys, s) := pmmAllocContiguous s (BitVec.ofNat 64 (heapInitialSize / pageSize))
  if phys = 0 then (h, s)
  else
    let heapPtr := phys + virtPhysMapBase
    (⟨heapPtr, heapPtr + BitVec.ofNat 64 heapInitialSize⟩, s)

/-- `(size + 15) & ~15ULL` -/
def align16 (size : U64) : U64 := (size + 15) &&& ~~~15#64

def kmalloc (h : Heap) (size : U64) : U64 × Heap :=
  let size := align16 size
  if h.heapPtr + size > h.heapEnd then (0, h)
  else (h.heapPtr, { h with heapPtr := h.heapPtr + size })

/-- `align` is a power of two.  The pointer stays moved when the block does not fit. -/
def kmallocAligned (h : Heap) (size align : U64) : U64 × Heap :=
  kmalloc { h with heapPtr := (h.heapPtr + align - 1) &&& ~~~(align - 1) } size

/-- No-op in the bump allocator. -/
def kfree (h : Heap) (_ptr : U64) : Heap := h

/-! ### Room -/

def blockSize (n : Nat) : Nat := (n + 15) / 16 * 16

theorem le_blockSize (n : Nat) : n ≤ blockSize n ∧ blockSize n < n + 16 := by
  rw [blockSize]
  omega

theorem toNat_align16 {x : U64} (h : roundUp x.toNat 16 < 2 ^ 64) :
    (align16 x).toNat = roundUp x.toNat 16 := by
  have hadd : x + 15 = x + BitVec.ofNat 64 (2 ^ 4) - 1 := by bv_omega
  have hmask : 15#64 = BitVec.ofNat 64 (2 ^ 4) - 1 := by decide
  rw [align16, hadd, hmask, toNat_align x (by omega) h]
  rfl

/-- The heap is an interval that does not run up to the end of the address space. -/
structure Heap.Ok (h : Heap) : Prop where
  le : h.heapPtr.toNat ≤ h.heapEnd.toNat
  pos : 0 < h.heapPtr.toNat
  top : h.heapEnd.toNat + 2 ^ 32 < 2 ^ 64

def Heap.room (h : Heap) : Nat := h.heapEnd.toNat - h.heapPtr.toNat

/-- What `kmalloc` does as long as the end of the block is an address. -/
theorem kmalloc_cases {h : Heap} {size : U64}
    (hend : h.heapPtr.toNat + roundUp size.toNat 16 < 2 ^ 64) :
    (h.heapPtr.toNat + roundUp size.toNat 16 ≤ h.heapEnd.toNat ∧
      ∃ p, p.toNat = h.heapPtr.toNat + roundUp size.toNat 16 ∧
        kmalloc h size = (h.heapPtr, { h with heapPtr := p })) ∨
      (h.heapEnd.toNat < h.heapPtr.toNat + roundUp size.toNat 16 ∧ kmalloc h size = (0, h)) := by
  have hsize := toNat_align16 (x := size) (by omega)
  have hsum : (h.heapPtr + align16 size).toNat = h.heapPtr.toNat + roundUp size.toNat 16 := by
    rw [BitVec.toNat_add, hsize, Nat.mod_eq_of_lt hend]
  by_cases hfit : h.heapPtr.toNat + roundUp size.toNat 16 ≤ h.heapEnd.toNat
  · refine .inl ⟨hfit, _, hsum, if_neg ?_⟩
    rw [gt_iff_lt, BitVec.lt_def, hsum]
    omega
  · refine .inr ⟨by omega, if_pos ?_⟩
    rw [gt_iff_lt, BitVec.lt_def, hsum]
    omega

/-- **`kmalloc` succeeds exactly when the block fits**, and takes the block from the room. -/
theorem kmalloc_spec {h : Heap} (ok : h.Ok) {n : Nat} (hn : n + 15 < 2 ^ 32) :
    let r := kmalloc h (BitVec.ofNat 64 n)
    (blockSize n ≤ h.room ∧ r.1 ≠ 0 ∧ r.2.Ok ∧ r.2.room + blockSize n = h.room) ∨
      (h.room < blockSize n ∧ r = (0, h)) := by
  intro r
  have hle := ok.le
  have hpos := ok.pos
  have htop := ok.top
  have hblock := le_blockSize n
  have hsize : roundUp (BitVec.ofNat 64 n).toNat 16 = blockSize n := by
    rw [BitVec.toNat_ofNat, Nat.mod_eq_of_lt (by omega)]
    rfl
  have hcases := @kmalloc_cases h (BitVec.ofNat 64 n) (by rw [hsize]; omega)
  rw [hsize] at hcases
  rcases hcases with ⟨hfit, p, hp, hr⟩ | ⟨hlt, hr⟩
  · have hr' : r = (h.heapPtr, { h with heapPtr := p }) := hr
    have hroom : blockSize n ≤ h.room := by unfold Heap.room; omega
    refine .inl ⟨hroom, ?_, ?_, ?_⟩
    · rw [hr']
      intro hz
      rw [show h.heapPtr = 0 from hz] at hpos
      exact absurd hpos (by decide)
    · rw [hr']
      exact ⟨by rw [hp]; exact hfit, by rw [hp]; omega, htop⟩
    · rw [hr', Heap.room, hp, Heap.room]
      show h.heapEnd.toNat - (h.heapPtr.toNat + blockSize n) + blockSize n = _
      omega
  · refine .inr ⟨?_, hr⟩
    unfold Heap.room
    omega

theorem kmallocInit_start {s : Pmm} (h : Heap)
    (hs : (pmmAllocContiguous s (BitVec.ofNat 64 (heapInitialSize / pageSize))).1 ≠ 0) :
    ∃ i < maxFrames, (kmallocInit s h).1.heapPtr.toNat = i * 4096 + 0xFFFF000000000000 ∧
      (kmallocInit s h).1.heapEnd.toNat = i * 4096 + 0xFFFF000000000000 + heapInitialSize := by
  rcases pmmAllocContiguous_cases s (BitVec.ofNat 64 (heapInitialSize / pageSize)) with
    ⟨he, _⟩ | ⟨i, he, hpos, hf, _⟩
  · rw [he] at hs
    exact absurd rfl hs
  · have hsize : (BitVec.ofNat 64 (heapInitialSize / pageSize)).toNat = 4096 := by decide
    have hi : i < maxFrames := hf.lt (Nat.le_refl i) (by omega)
    have hr : (kmallocInit s h).1 = ⟨frameAddr i + virtPhysMapBase,
        frameAddr i + virtPhysMapBase + BitVec.ofNat 64 heapInitialSize⟩ := by
      have hnz : frameAddr i ≠ 0 := by rwa [he] at hs
      rw [kmallocInit, he]
      show Prod.fst (if frameAddr i = 0 then _ else _) = _
      rw [if_neg hnz]
    have hb : virtPhysMapBase.toNat = 0xFFFF000000000000 := rfl
    have hh : (BitVec.ofNat 64 heapInitialSize).toNat = heapInitialSize := by decide
    have ha := toNat_frameAddr hi
    have hbound := hi
    rw [maxFrames_eq] at hbound
    have hptr : (frameAddr i + virtPhysMapBase).toNat = i * 4096 + 0xFFFF000000000000 := by
      rw [BitVec.toNat_add, ha, hb]
      omega
    refine ⟨i, hi, by rw [hr, hptr], ?_⟩
    have hinitial : heapInitialSize = 16777216 := rfl
    rw [hr, BitVec.toNat_add, hptr, hh, hinitial]
    omega

/-- **The heap of a machine with 16 MB in a row.** -/
theorem kmallocInit_room {s : Pmm} (h : Heap)
    (hs : (pmmAllocContiguous s (BitVec.ofNat 64 (heapInitialSize / pageSize))).1 ≠ 0) :
    (kmallocInit s h).1.Ok ∧ (kmallocInit s h).1.room = heapInitialSize := by
  obtain ⟨i, hi, hptr, hend⟩ := kmallocInit_start h hs
  have hinitial : heapInitialSize = 16777216 := rfl
  rw [maxFrames_eq] at hi
  refine ⟨⟨?_, ?_, ?_⟩, ?_⟩
  · rw [hptr, hend]; omega
  · rw [hptr]; omega
  · rw [hend]; omega
  · rw [Heap.room, hptr, hend, Nat.add_sub_cancel_left]

/-! ### Requests -/

def Heap.Serves : Heap → List Nat → Prop
  | _, [] => True
  | h, n :: ns =>
    (kmalloc h (BitVec.ofNat 64 n)).1 ≠ 0 ∧ Heap.Serves (kmalloc h (BitVec.ofNat 64 n)).2 ns

def Heap.after : Heap → List Nat → Heap
  | h, [] => h
  | h, n :: ns => Heap.after (kmalloc h (BitVec.ofNat 64 n)).2 ns

theorem Heap.serves_append {ms : List Nat} : ∀ {ns : List Nat} {h : Heap},
    h.Serves (ns ++ ms) ↔ h.Serves ns ∧ (h.after ns).Serves ms := by
  intro ns
  induction ns with
  | nil => intro h; exact ⟨fun hs => ⟨trivial, hs⟩, fun hs => hs.2⟩
  | cons n ns ih =>
    intro h
    rw [List.cons_append, Heap.Serves, Heap.Serves, ih, and_assoc]
    rfl

theorem Heap.Ok.serves : ∀ {ns : List Nat} {h : Heap}, h.Ok → (∀ n ∈ ns, n + 15 < 2 ^ 32) →
    (ns.map blockSize).sum ≤ h.room → h.Serves ns := by
  intro ns
  induction ns with
  | nil => intro h _ _ _; exact trivial
  | cons n ns ih =>
    intro h ok hn hsum
    rw [List.map_cons, List.sum_cons] at hsum
    rcases kmalloc_spec ok (hn n List.mem_cons_self) with ⟨_, hnz, ok', hroom⟩ | ⟨hlt, _⟩
    · exact ⟨hnz, ih ok' (fun m hm => hn m (List.mem_cons_of_mem n hm)) (by omega)⟩
    · omega

theorem Heap.Ok.serves_of_le {ns : List Nat} {h : Heap} {b : Nat} (ok : h.Ok)
    (hn : ∀ n ∈ ns, n ≤ b) (hb : b + 15 < 2 ^ 32) (hroom : ns.length * (b + 15) ≤ h.room) :
    h.Serves ns := by
  refine ok.serves (fun n hmem => by have := hn n hmem; omega) (Nat.le_trans ?_ hroom)
  have hsum := List.sum_le_card_nsmul (ns.map blockSize) (b + 15) fun c hc => by
    obtain ⟨n, hmem, rfl⟩ := List.mem_map.mp hc
    have := hn n hmem
    have := (le_blockSize n).2
    omega
  rwa [List.length_map, smul_eq_mul] at hsum

end AionOs
