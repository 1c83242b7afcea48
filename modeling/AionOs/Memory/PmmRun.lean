import AionOs.Lib.Pool
import AionOs.Memory.PmmInit

/-!
# Histories of the frame allocator

`PmmSys` is the manager together with what a client knows: the frames it holds and
the frames it was ever given.  `pmmMachine allowed` runs it under an environment that
makes only the `allowed` calls.

* `pmmStep_cases`: the three things a call can do.
* `toPool_step`: the manager refines an abstract pool of frames, a free bit being a
  free resource.  `pmm_exclusive` reads off what the pool promises.
* `GivenInv`: free frames were reported by the map, and so were the frames given out.
* `drain`: enough calls of `pmm_alloc` empty the range that it scans.
-/

namespace AionOs

open Pool (Event)

/-! ### Calls -/

inductive PmmOp where
  | alloc
  | allocContiguous (n : U64)
  | free (physAddr : U64)

def pmmStep (s : Pmm) : PmmOp → Pmm
  | .alloc => (pmmAlloc s).2
  | .allocContiguous n => (pmmAllocContiguous s n).2
  | .free a => pmmFree s a

/-- The `n` frames that start at a returned address; none for the address `0`. -/
def framesAt (a : U64) (n : Nat) : List Nat := if a = 0 then [] else List.range' (pageIndex a) n

def handedOut (s : Pmm) : PmmOp → List Nat
  | .alloc => framesAt (pmmAlloc s).1 1
  | .allocContiguous n => framesAt (pmmAllocContiguous s n).1 n.toNat
  | .free _ => []

theorem framesAt_zero (n : Nat) : framesAt 0 n = [] := if_pos rfl

theorem framesAt_frameAddr {i : Nat} (h : i < maxFrames) (h0 : 0 < i) (n : Nat) :
    framesAt (frameAddr i) n = List.range' i n := by
  rw [framesAt, if_neg (frameAddr_ne_zero h h0), pageIndex_frameAddr h]

theorem Pmm.Fits.framesAt {s : Pmm} {i n : Nat} (h : s.Fits i n) (hn : 0 < n) :
    framesAt (frameAddr i) n = List.range' i n :=
  framesAt_frameAddr (h.lt (Nat.le_refl i) (by omega)) (by have := h.lo; omega) n

/-- **What a call can do**: nothing, hand out a run of free frames, or release one. -/
theorem pmmStep_cases (s : Pmm) (op : PmmOp) :
    (pmmStep s op = s ∧ handedOut s op = [] ∧ ∀ a, op = .free a → s.IsFree (pageIndex a)) ∨
    (∃ i n, s.Fits i n ∧ pmmStep s op = pmmTakeFrames s i n ∧
      handedOut s op = List.range' i n ∧ ∀ a, op ≠ .free a) ∨
    (∃ a, op = .free a ∧ ¬ s.IsFree (pageIndex a) ∧ handedOut s op = [] ∧
      pmmStep s op = { s with
        physBitmap := bitmapSetFree s.physBitmap (pageIndex a)
        physFreePages := s.physFreePages + 1 }) := by
  cases op with
  | alloc =>
    rcases pmmAlloc_cases s with ⟨h, _⟩ | ⟨i, h, hf, _⟩
    · exact .inl ⟨by rw [pmmStep, h], by rw [handedOut, h, framesAt_zero], fun a ha => by cases ha⟩
    · refine .inr (.inl ⟨i, 1, hf, by rw [pmmStep, h], ?_, fun a ha => by cases ha⟩)
      rw [handedOut, h, hf.framesAt (by omega)]
  | allocContiguous n =>
    rcases pmmAllocContiguous_cases s n with ⟨h, _⟩ | ⟨i, h, hn, hf, _⟩
    · exact .inl ⟨by rw [pmmStep, h], by rw [handedOut, h, framesAt_zero], fun a ha => by cases ha⟩
    · refine .inr (.inl ⟨i, n.toNat, hf, by rw [pmmStep, h], ?_, fun a ha => by cases ha⟩)
      rw [handedOut, h, hf.framesAt hn]
  | free a =>
    rcases pmmFree_cases s a with ⟨hf, h⟩ | ⟨hf, h⟩
    · exact .inl ⟨h, rfl, fun b hb => by cases hb; exact hf⟩
    · exact .inr (.inr ⟨a, rfl, hf, rfl, h⟩)

theorem pmmStep_total (s : Pmm) (op : PmmOp) :
    (pmmStep s op).physTotalPages = s.physTotalPages := by
  rcases pmmStep_cases s op with ⟨h, _⟩ | ⟨i, n, _, h, _⟩ | ⟨a, _, _, _, h⟩ <;> rw [h]
  exact takeFrames_total n s i

theorem mem_handedOut_of_taken {s : Pmm} {op : PmmOp} {p : Nat} (h : s.IsFree p)
    (h' : ¬ (pmmStep s op).IsFree p) : p ∈ handedOut s op := by
  rcases pmmStep_cases s op with ⟨he, _⟩ | ⟨i, n, hf, he, hout, _⟩ | ⟨a, _, hn, _, he⟩
  · exact absurd h (he ▸ h')
  · rw [he, isFree_takeFrames, not_and_or, not_not] at h'
    rw [hout, List.mem_range'_1]
    exact h'.resolve_right (fun hc => hc h)
  · rw [he] at h'
    by_cases ha : pageIndex a < maxFrames
    · rw [isFree_setFree ha, not_or] at h'
      exact absurd h h'.2
    · -- past the end of the bitmap nothing is written
      rw [Pmm.IsFree, bitmapIsFree, ByteSet.testBit_eq, ByteSet.byteAt] at h h'
      rw [← bits_eq] at ha
      split at h <;> rename_i hk
      · rw [dif_pos hk] at h'
        simp only [bitmapSetFree, ByteSet.setBit] at h'
        rw [if_neg (by omega)] at h'
        exact absurd h h'
      · simp at h

/-! ### The manager and its client -/

structure PmmSys where
  pmm : Pmm
  /-- returned by an allocation and not freed since -/
  held : List Nat
  /-- ever returned by an allocation -/
  given : List Nat

def PmmSys.boot (m : EfiMemoryMap) : PmmSys := ⟨pmmBoot m, [], []⟩

def PmmSys.step (s : PmmSys) (op : PmmOp) : PmmSys where
  pmm := pmmStep s.pmm op
  held := match op with
    | .free a => s.held.erase (pageIndex a)
    | _ => handedOut s.pmm op ++ s.held
  given := handedOut s.pmm op ++ s.given

/-- Only frames held are freed, and runs have a length. -/
def FreesHeld (s : PmmSys) : PmmOp → Prop
  | .alloc => True
  | .allocContiguous n => 1 ≤ n.toNat
  | .free a => pageIndex a ∈ s.held

/-- Only frames handed out before are freed. -/
def FreesGiven (s : PmmSys) : PmmOp → Prop
  | .free a => pageIndex a ∈ s.given
  | _ => True

def pmmMachine (allowed : PmmSys → PmmOp → Prop) : Machine PmmSys PmmOp := ⟨PmmSys.step, allowed⟩

@[simp] theorem pmmMachine_step (allowed : PmmSys → PmmOp → Prop) (s : PmmSys) (op : PmmOp) :
    (pmmMachine allowed).step s op = s.step op := rfl

/-! ### The abstract pool -/

/-- The pool the manager stands for: a resource is a frame, and a set bit is free. -/
def PmmSys.toPool (s : PmmSys) : Pool.State Nat := ⟨s.pmm.IsFree, s.held⟩

def PmmSys.event (s : PmmSys) : PmmOp → Event Nat
  | .free a => .release (pageIndex a)
  | op => .grant (handedOut s.pmm op)

/-- What the pool sees of a history. -/
def PmmSys.trace : PmmSys → List PmmOp → List (Event Nat)
  | _, [] => []
  | s, op :: ops => s.event op :: PmmSys.trace (s.step op) ops

theorem PmmSys.trace_append : ∀ (as : List PmmOp) (s : PmmSys) (bs : List PmmOp),
    s.trace (as ++ bs) = s.trace as ++ ((pmmMachine FreesHeld).run s as).trace bs := by
  intro as
  induction as with
  | nil => intro s bs; rfl
  | cons a as ih => intro s bs; exact congrArg (s.event a :: ·) (ih (s.step a) bs)

theorem release_of_mem_trace {r : Nat} : ∀ (ops : List PmmOp) (s : PmmSys),
    Event.release r ∈ s.trace ops → ∃ a, PmmOp.free a ∈ ops ∧ pageIndex a = r := by
  intro ops
  induction ops with
  | nil => intro s h; simp [PmmSys.trace] at h
  | cons op ops ih =>
    intro s h
    rcases List.mem_cons.mp h with he | hm
    · cases op with
      | free a => exact ⟨a, by simp, (Event.release.inj he).symm⟩
      | alloc => cases he
      | allocContiguous n => cases he
    · obtain ⟨a, ha, hr⟩ := ih (s.step op) hm
      exact ⟨a, List.mem_cons_of_mem op ha, hr⟩

/-- Frames are used while they are held, and held frames are tracked. -/
structure PmmSys.HeldInv (s : PmmSys) : Prop where
  exclusive : Pool.Exclusive s.toPool
  lt : ∀ p ∈ s.held, p < maxFrames

theorem handedOut_nodup (s : Pmm) (op : PmmOp) : (handedOut s op).Nodup := by
  rcases pmmStep_cases s op with ⟨_, h, _⟩ | ⟨i, n, _, _, h, _⟩ | ⟨a, _, _, h, _⟩ <;> rw [h]
  · exact List.nodup_nil
  · exact List.nodup_range'
  · exact List.nodup_nil

theorem isFree_of_handedOut {s : Pmm} {op : PmmOp} {p : Nat} (h : p ∈ handedOut s op) :
    s.IsFree p := by
  rcases pmmStep_cases s op with ⟨_, ho, _⟩ | ⟨i, n, hf, _, ho, _⟩ | ⟨a, _, _, ho, _⟩ <;> rw [ho] at h
  · simp at h
  · rw [List.mem_range'_1] at h
    exact hf.free p h.1 h.2
  · simp at h

theorem legal_event {s : PmmSys} {op : PmmOp} (h : FreesHeld s op) :
    Pool.legal s.toPool (s.event op) := by
  cases op with
  | free a => exact h
  | alloc => exact ⟨handedOut_nodup _ _, fun r hr => isFree_of_handedOut hr⟩
  | allocContiguous n => exact ⟨handedOut_nodup _ _, fun r hr => isFree_of_handedOut hr⟩

theorem isFree_after_alloc {s : Pmm} {op : PmmOp} (h : ∀ a, op ≠ .free a) (p : Nat) :
    (pmmStep s op).IsFree p ↔ s.IsFree p ∧ p ∉ handedOut s op := by
  rcases pmmStep_cases s op with ⟨he, ho, _⟩ | ⟨i, n, _, he, ho, _⟩ | ⟨a, ha, _⟩
  · rw [he, ho]; simp
  · rw [he, ho, isFree_takeFrames, List.mem_range'_1, and_comm]
  · exact absurd ha (h a)

/-- **The manager refines the pool**, call by call. -/
theorem toPool_step {s : PmmSys} {op : PmmOp} (hi : s.HeldInv) (h : FreesHeld s op) :
    (s.step op).toPool = Pool.step s.toPool (s.event op) := by
  have halloc : (∀ a, op ≠ .free a) → (pmmStep s.pmm op).IsFree =
      fun r => s.pmm.IsFree r ∧ r ∉ handedOut s.pmm op :=
    fun hne => funext fun p => propext (isFree_after_alloc hne p)
  cases op with
  | free a =>
    refine congrArg (Pool.State.mk · _) (funext fun p => propext ?_)
    exact isFree_pmmFree (hi.lt _ h) p
  | alloc => exact congrArg (Pool.State.mk · _) (halloc fun a ha => by cases ha)
  | allocContiguous n => exact congrArg (Pool.State.mk · _) (halloc fun a ha => by cases ha)

theorem heldInv_step {s : PmmSys} {op : PmmOp} (hi : s.HeldInv) (h : FreesHeld s op) :
    (s.step op).HeldInv := by
  refine ⟨?_, ?_⟩
  · rw [toPool_step hi h]
    exact Pool.exclusive_step hi.exclusive (legal_event h)
  · have hout : ∀ p ∈ handedOut s.pmm op ++ s.held, p < maxFrames := fun p hp =>
      (List.mem_append.mp hp).elim (fun hp => (isFree_of_handedOut hp).lt) (hi.lt p)
    cases op with
    | free a => exact fun p hp => hi.lt p (List.mem_of_mem_erase hp)
    | alloc => exact hout
    | allocContiguous n => exact hout

theorem heldInv_boot (m : EfiMemoryMap) : (PmmSys.boot m).HeldInv :=
  ⟨⟨List.nodup_nil, fun p hp => by simp [PmmSys.boot, PmmSys.toPool] at hp⟩,
    fun p hp => by simp [PmmSys.boot] at hp⟩

/-- The refinement over a whole history: a legal history of calls is a legal history
of the pool, with the same end. -/
theorem toPool_run : ∀ (ops : List PmmOp) (s : PmmSys), s.HeldInv →
    (pmmMachine FreesHeld).Legal s ops →
    Pool.machine.Legal s.toPool (s.trace ops) ∧
      ((pmmMachine FreesHeld).run s ops).toPool = Pool.machine.run s.toPool (s.trace ops) := by
  intro ops
  induction ops with
  | nil => intro s _ _; exact ⟨trivial, rfl⟩
  | cons op ops ih =>
    intro s hi hl
    obtain ⟨h1, h2⟩ := ih (s.step op) (heldInv_step hi hl.1) hl.2
    rw [toPool_step hi hl.1] at h1 h2
    exact ⟨⟨legal_event hl.1, h1⟩, h2⟩

/-! ### Frames that were ever given out -/

/-- Every free frame was reported usable and is not below 2 MB; every frame given out
was so too, and lies in the range that is scanned. -/
structure PmmSys.GivenInv (m : EfiMemoryMap) (s : PmmSys) : Prop where
  total : s.pmm.physTotalPages = (pmmBoot m).physTotalPages
  free : ∀ p, s.pmm.IsFree p → 512 ≤ p ∧ p ∈ m.usableFrames
  given : ∀ p ∈ s.given, 512 ≤ p ∧ p ∈ m.usableFrames ∧ p < (pmmBoot m).physTotalPages.toNat

theorem givenInv_boot (m : EfiMemoryMap) : (PmmSys.boot m).GivenInv m :=
  ⟨rfl, fun p hp => (pmmBoot_isFree m p).mp hp, fun p hp => by simp [PmmSys.boot] at hp⟩

theorem givenInv_step {m : EfiMemoryMap} {s : PmmSys} {op : PmmOp} (h : s.GivenInv m)
    (hl : FreesGiven s op) : (s.step op).GivenInv m := by
  refine ⟨(pmmStep_total s.pmm op).trans h.total, ?_, ?_⟩
  · intro p hp
    cases op with
    | free a =>
      have ha := h.given _ hl
      rw [PmmSys.step, pmmStep, isFree_pmmFree (lt_of_mem_usableFrames ha.2.1)] at hp
      exact hp.elim (fun he => he ▸ ⟨ha.1, ha.2.1⟩) (h.free p)
    | alloc => exact h.free p ((isFree_after_alloc (fun a ha => by cases ha) p).mp hp).1
    | allocContiguous n =>
      exact h.free p ((isFree_after_alloc (fun a ha => by cases ha) p).mp hp).1
  · intro p hp
    rcases List.mem_append.mp hp with hp | hp
    · obtain ⟨h1, h2⟩ := h.free p (isFree_of_handedOut hp)
      refine ⟨h1, h2, ?_⟩
      rcases pmmStep_cases s.pmm op with ⟨_, ho, _⟩ | ⟨i, n, hf, _, ho, _⟩ | ⟨a, _, _, ho, _⟩ <;>
        rw [ho] at hp
      · simp at hp
      · rw [List.mem_range'_1] at hp
        have := hf.hi
        rw [h.total] at this
        omega
      · simp at hp
    · exact h.given p hp

theorem givenInv_run {m : EfiMemoryMap} (ops : List PmmOp)
    (hl : (pmmMachine FreesGiven).Legal (PmmSys.boot m) ops) :
    ((pmmMachine FreesGiven).run (PmmSys.boot m) ops).GivenInv m :=
  Machine.run_invariant (I := PmmSys.GivenInv m) (fun _ _ => givenInv_step) ops _ (givenInv_boot m) hl

theorem free_or_given {allowed : PmmSys → PmmOp → Prop} {p : Nat} (ops : List PmmOp) (s : PmmSys)
    (h : s.pmm.IsFree p ∨ p ∈ s.given) :
    let t := (pmmMachine allowed).run s ops
    t.pmm.IsFree p ∨ p ∈ t.given := by
  refine Machine.run_keeps (I := fun t : PmmSys => t.pmm.IsFree p ∨ p ∈ t.given) (fun t op ht => ?_) ops h
  rcases ht with ht | ht
  · by_cases h' : (pmmStep t.pmm op).IsFree p
    · exact .inl h'
    · exact .inr (List.mem_append_left _ (mem_handedOut_of_taken ht h'))
  · exact .inr (List.mem_append_right _ ht)

/-! ### Emptying the scanned range -/

def Pmm.visible (s : Pmm) : Finset Nat :=
  (Finset.Ico 512 s.physTotalPages.toNat).filter fun i => s.IsFree i

theorem mem_visible {s : Pmm} {i : Nat} :
    i ∈ s.visible ↔ (512 ≤ i ∧ i < s.physTotalPages.toNat) ∧ s.IsFree i := by
  rw [Pmm.visible, Finset.mem_filter, Finset.mem_Ico]

theorem visible_takeFrames_one {s : Pmm} {i : Nat} (h : s.Fits i 1) :
    (pmmTakeFrames s i 1).visible.card + 1 = s.visible.card := by
  have he : (pmmTakeFrames s i 1).visible = s.visible.erase i := by
    ext j
    rw [mem_visible, Finset.mem_erase, mem_visible, isFree_takeFrames, takeFrames_total]
    constructor
    · rintro ⟨h1, h2, h3⟩
      exact ⟨by omega, h1, h3⟩
    · rintro ⟨h1, h2, h3⟩
      exact ⟨h2, by omega, h3⟩
  have hi := h.hi
  rw [he]
  exact Finset.card_erase_add_one
    (mem_visible.mpr ⟨⟨h.lo, by omega⟩, h.free i (Nat.le_refl i) (by omega)⟩)

/-- **Enough calls of `pmm_alloc` leave no free frame in the scanned range.** -/
theorem drain {allowed : PmmSys → PmmOp → Prop} : ∀ (k : Nat) (s : PmmSys),
    s.pmm.visible.card ≤ k →
    ((pmmMachine allowed).run s (List.replicate k .alloc)).pmm.visible = ∅ := by
  intro k
  induction k with
  | zero => intro s h; exact Finset.card_eq_zero.mp (Nat.le_zero.mp h)
  | succ k ih =>
    intro s h
    rw [List.replicate_succ, Machine.run_cons]
    refine ih (s.step .alloc) ?_
    rcases pmmAlloc_cases s.pmm with ⟨he, hnone⟩ | ⟨i, he, hf, _⟩
    · have hempty : s.pmm.visible = ∅ := by
        rw [Finset.eq_empty_iff_forall_notMem]
        intro j hj
        obtain ⟨⟨h1, h2⟩, h3⟩ := mem_visible.mp hj
        exact hnone j h1 h2 h3
      have hs : (s.step .alloc).pmm = s.pmm := congrArg Prod.snd he
      rw [hs, hempty, Finset.card_empty]
      exact Nat.zero_le k
    · have hs : (s.step .alloc).pmm = pmmTakeFrames s.pmm i 1 := congrArg Prod.snd he
      have := visible_takeFrames_one hf
      rw [hs]
      omega

theorem visible_card_le (s : Pmm) : s.visible.card ≤ s.physTotalPages.toNat := by
  have h := Finset.card_filter_le (Finset.Ico 512 s.physTotalPages.toNat) (fun i => s.IsFree i)
  rw [Nat.card_Ico] at h
  exact Nat.le_trans h (Nat.sub_le _ _)

@[simp] theorem run_total {allowed : PmmSys → PmmOp → Prop} (ops : List PmmOp) (s : PmmSys) :
    ((pmmMachine allowed).run s ops).pmm.physTotalPages = s.pmm.physTotalPages :=
  Machine.run_keeps (I := fun t : PmmSys => t.pmm.physTotalPages = s.pmm.physTotalPages)
    (fun (t : PmmSys) op ht => (pmmStep_total t.pmm op).trans ht) ops rfl

theorem legal_replicate_alloc : ∀ (k : Nat) (s : PmmSys),
    (pmmMachine FreesGiven).Legal s (List.replicate k .alloc) := by
  intro k
  induction k with
  | zero => intro s; exact trivial
  | succ k ih => intro s; exact ⟨trivial, ih (s.step .alloc)⟩

/-- The calls that give out every free frame that the scan can see. -/
def drainOps (m : EfiMemoryMap) : List PmmOp :=
  List.replicate (pmmBoot m).physTotalPages.toNat .alloc

theorem drainOps_visible (m : EfiMemoryMap) :
    ((pmmMachine FreesGiven).run (PmmSys.boot m) (drainOps m)).pmm.visible = ∅ :=
  drain _ _ (visible_card_le _)

theorem pmmAlloc_ne_zero {s : Pmm} {p : Nat} (h : p ∈ s.visible) : (pmmAlloc s).1 ≠ 0 := by
  obtain ⟨⟨h1, h2⟩, hp⟩ := mem_visible.mp h
  rcases pmmAlloc_cases s with ⟨_, hnone⟩ | ⟨i, he, hf, _⟩
  · exact absurd hp (hnone p h1 h2)
  · rw [he]
    exact frameAddr_ne_zero (hf.lt (Nat.le_refl i) (by omega)) (by have := hf.lo; omega)

theorem visible_of_alloc_zero {s : Pmm} (h : (pmmAlloc s).1 = 0) : s.visible = ∅ := by
  rw [Finset.eq_empty_iff_forall_notMem]
  exact fun p hp => pmmAlloc_ne_zero hp h

theorem pmmAlloc_drained {s : Pmm} (h : s.visible = ∅) : pmmAlloc s = (0, s) := by
  rcases pmmAlloc_cases s with ⟨he, _⟩ | ⟨i, _, hf, _⟩
  · exact he
  · have hi := hf.hi
    have hmem := mem_visible.mpr ⟨⟨hf.lo, by omega⟩, hf.free i (Nat.le_refl i) (by omega)⟩
    rw [h] at hmem
    simp at hmem

end AionOs
