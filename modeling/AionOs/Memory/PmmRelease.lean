import AionOs.Memory.PmmExact

/-!
# Releases

`pmm_free` looks at one bit: a frame that is used becomes free, whoever used it.

* `alloc_free_identity`: frames that were handed out in a run and are all freed again, in any order
  and any number of times, leave no trace.
* `pool_kept_iff`: when releases never make frames free that `pmm_init` did not.
-/

namespace AionOs

/-! ### Frames that come back -/

/-- `t` is `s` with some frames taken, all of which were free. -/
structure Pmm.Lacks (s t : Pmm) (taken : Finset Nat) : Prop where
  free : ∀ p ∈ taken, s.IsFree p
  bits : ∀ p, t.IsFree p ↔ s.IsFree p ∧ p ∉ taken
  total : t.physTotalPages = s.physTotalPages
  count : t.physFreePages + BitVec.ofNat 64 taken.card = s.physFreePages

theorem Pmm.Fits.lacks {s : Pmm} {i n : Nat} (h : s.Fits i n) :
    s.Lacks (pmmTakeFrames s i n) (Finset.Ico i (i + n)) := by
  refine ⟨fun p hp => ?_, fun p => ?_, takeFrames_total n s i, ?_⟩
  · obtain ⟨hlo, hhi⟩ := Finset.mem_Ico.mp hp
    exact h.free p hlo hhi
  · rw [isFree_takeFrames, Finset.mem_Ico, and_comm]
  · rw [takeFrames_freePages, Nat.card_Ico, Nat.add_sub_cancel_left, BitVec.sub_add_cancel]

/-- **One release** gives one frame back, or none if it is back already. -/
theorem Pmm.Lacks.release {s t : Pmm} {taken : Finset Nat} (h : s.Lacks t taken) {a : U64}
    (ha : s.IsFree (pageIndex a)) : s.Lacks (pmmFree t a) (taken.erase (pageIndex a)) := by
  rcases pmmFree_cases t a with ⟨hback, he⟩ | ⟨hused, he⟩
  · have hnot : pageIndex a ∉ taken := ((h.bits _).mp hback).2
    rw [he, Finset.erase_eq_of_notMem hnot]
    exact h
  · have hmem : pageIndex a ∈ taken := by
      by_contra hnot
      exact hused ((h.bits _).mpr ⟨ha, hnot⟩)
    have hcard := Finset.card_erase_add_one hmem
    rw [he]
    refine ⟨fun p hp => h.free p (Finset.mem_of_mem_erase hp), fun p => ?_, h.total, ?_⟩
    · rw [isFree_setFree ha.lt, h.bits, Finset.mem_erase, not_and_or, not_not]
      constructor
      · rintro (rfl | ⟨hp, hnot⟩)
        · exact ⟨ha, .inl rfl⟩
        · exact ⟨hp, .inr hnot⟩
      · rintro ⟨hp, heq | hnot⟩
        · exact .inl heq
        · exact .inr ⟨hp, hnot⟩
    · have hcount := h.count
      rw [← hcard, Nat.add_comm, BitVec.ofNat_add, ← BitVec.add_assoc] at hcount
      exact hcount

theorem Pmm.Lacks.releases {s : Pmm} : ∀ (as : List U64) {t : Pmm} {taken : Finset Nat},
    s.Lacks t taken → (∀ a ∈ as, s.IsFree (pageIndex a)) →
    ∃ rest, s.Lacks (as.foldl pmmFree t) rest ∧ ∀ p ∈ rest, p ∈ taken ∧ p ∉ as.map pageIndex := by
  intro as
  induction as with
  | nil => intro t taken h _; exact ⟨taken, h, fun p hp => ⟨hp, List.not_mem_nil⟩⟩
  | cons a as ih =>
    intro t taken h hfree
    obtain ⟨rest, hrest, hmem⟩ := ih (h.release (hfree a List.mem_cons_self))
      fun b hb => hfree b (List.mem_cons_of_mem a hb)
    refine ⟨rest, hrest, fun p hp => ?_⟩
    obtain ⟨herase, hnot⟩ := hmem p hp
    obtain ⟨hne, htaken⟩ := Finset.mem_erase.mp herase
    refine ⟨htaken, ?_⟩
    rw [List.map_cons, List.mem_cons, not_or]
    exact ⟨hne, hnot⟩

theorem Pmm.Lacks.eq_self {s t : Pmm} (h : s.Lacks t ∅) : t = s := by
  have hbitmap : t.physBitmap = s.physBitmap := bitmap_eq fun p => by
    rw [h.bits, and_iff_left (Finset.notMem_empty p)]
  have hcount : t.physFreePages = s.physFreePages := by
    rw [← h.count, Finset.card_empty]
    exact (BitVec.add_zero _).symm
  have htotal := h.total
  obtain ⟨bm, total, free⟩ := t
  obtain ⟨bm', total', free'⟩ := s
  subst hbitmap hcount htotal
  rfl

/-- **Allocate and free is the identity**: after a run of frames was handed out, releases of these
frames, each at least once, in any order and at any address in the frame, restore the manager. -/
theorem alloc_free_identity (s : Pmm) (n : U64) (hok : (pmmAllocContiguous s n).1 ≠ 0)
    (as : List U64)
    (has : ∀ p, p ∈ as.map pageIndex ↔ p ∈ framesAt (pmmAllocContiguous s n).1 n.toNat) :
    as.foldl pmmFree (pmmAllocContiguous s n).2 = s := by
  rcases pmmAllocContiguous_cases s n with ⟨he, _⟩ | ⟨i, he, hn, hfit, _⟩
  · exact absurd (congrArg Prod.fst he) hok
  · rw [he, hfit.framesAt hn] at has
    rw [he]
    have hfree : ∀ a ∈ as, s.IsFree (pageIndex a) := by
      intro a ha
      obtain ⟨hlo, hhi⟩ := List.mem_range'_1.mp ((has _).mp (List.mem_map_of_mem ha))
      exact hfit.free _ hlo hhi
    obtain ⟨rest, hrest, hmem⟩ := hfit.lacks.releases as hfree
    have hempty : rest = ∅ := by
      refine Finset.eq_empty_iff_forall_notMem.mpr fun p hp => ?_
      obtain ⟨htaken, hnot⟩ := hmem p hp
      exact hnot ((has p).mpr (List.mem_range'_1.mpr (Finset.mem_Ico.mp htaken)))
    subst hempty
    exact hrest.eq_self

theorem sample_firstFit {n : Nat} (hn : 0 < n) (h : n ≤ 523776) :
    (pmmBoot sampleEfiMap).FirstFit 512 n := by
  have htotal : (pmmBoot sampleEfiMap).physTotalPages.toNat = 525056 :=
    sampleMap.toNat_total.trans length_sampleFrames
  refine ⟨⟨Nat.le_refl 512, by omega, fun j h1 h2 => ?_⟩, fun j hj => hj.lo⟩
  exact (pmmBoot_isFree _ _).mpr ⟨h1, (mem_sampleFrames j).mpr (.inl (by omega))⟩

theorem alloc_free_identity_sample :
    [frameAddr 513, frameAddr 512, frameAddr 513].foldl pmmFree
      (pmmAllocContiguous (pmmBoot sampleEfiMap) 2).2 = pmmBoot sampleEfiMap := by
  have hcall := Pmm.FirstFit.alloc (n := 2) (by decide) (sample_firstFit (by decide) (by decide))
  have h512 : 512 < maxFrames := by rw [maxFrames_eq]; omega
  have h513 : 513 < maxFrames := by rw [maxFrames_eq]; omega
  refine alloc_free_identity _ 2 ?_ _ fun p => ?_
  · rw [hcall]
    exact frameAddr_ne_zero h512 (by omega)
  · rw [hcall, framesAt_frameAddr h512 (by omega), List.mem_range'_1, List.map_cons, List.map_cons,
      List.map_cons, List.map_nil, pageIndex_frameAddr h512, pageIndex_frameAddr h513]
    simp
    omega

/-! ### Frames that were never there -/

/-- The bits that a call looks at, by their numbers; those that it changes are among them. -/
def lookedAt (s : Pmm) : PmmOp → List Nat
  | .alloc => Scan.firstSeen (bitmapIsFree s.physBitmap) s.scanned 512
  | .allocContiguous n => Scan.runSeen (bitmapIsFree s.physBitmap) n.toNat s.scanned 512 0
  | .free a => [pageIndex a]

/-- Every free frame was reported usable and is not below 2 MB. -/
def InPool (m : EfiMemoryMap) (s : Pmm) : Prop := ∀ p, s.IsFree p → 512 ≤ p ∧ p ∈ m.usableFrames

/-- A call stays inside the bitmap, hands out frames of the pool only, and leaves no other frame
free. -/
structure Contained (m : EfiMemoryMap) (s : PmmSys) (op : PmmOp) : Prop where
  inside : ∀ i ∈ lookedAt s.pmm op, i < maxFrames
  given : ∀ p ∈ handedOut s.pmm op, 512 ≤ p ∧ p ∈ m.usableFrames
  pool : InPool m (pmmStep s.pmm op)

/-- A release is of a frame of the pool.  An allocation finds its frames, or the scan ends within
the bitmap. -/
def Guarded (m : EfiMemoryMap) (s : PmmSys) : PmmOp → Prop
  | .alloc => s.pmm.physTotalPages.toNat ≤ maxFrames ∨ ∃ i, s.pmm.Fits i 1
  | .allocContiguous n =>
    s.pmm.physTotalPages.toNat ≤ maxFrames ∨ (1 ≤ n.toNat ∧ ∃ i, s.pmm.Fits i n.toNat)
  | .free a => 512 ≤ pageIndex a ∧ pageIndex a ∈ m.usableFrames

theorem scan_end_iff (s : Pmm) : 512 + s.scanned ≤ maxFrames ↔ s.physTotalPages.toNat ≤ maxFrames := by
  rw [s.scanned_eq, maxFrames_eq]
  omega

theorem runFrom_isSome_iff (s : Pmm) {n : Nat} (hn : 0 < n) :
    (Scan.runFrom (bitmapIsFree s.physBitmap) n s.scanned 512 0 0).isSome ↔ ∃ i, s.Fits i n := by
  have hk := s.scanned_eq
  cases hs : Scan.runFrom (bitmapIsFree s.physBitmap) n s.scanned 512 0 0 with
  | none =>
    refine iff_of_false Bool.false_ne_true ?_
    rintro ⟨i, hi⟩
    have hhi := hi.hi
    exact Scan.runFrom_eq_none hn 0 hs i hi.lo (by omega) hi.free
  | some i =>
    obtain ⟨hlo, hhi, hrun, _⟩ := Scan.runFrom_eq_some hn 0 hs
    exact iff_of_true rfl ⟨i, hlo, by omega, hrun⟩

theorem lookedAt_alloc_iff (s : Pmm) : (∀ i ∈ lookedAt s .alloc, i < maxFrames) ↔
    s.physTotalPages.toNat ≤ maxFrames ∨ ∃ i, s.Fits i 1 := by
  have hlow : 512 ≤ maxFrames := by rw [maxFrames_eq]; omega
  rw [lookedAt, Scan.firstSeen_lt_iff (fun j (hj : s.IsFree j) => hj.lt) s.scanned 512 hlow,
    scan_end_iff, ← Scan.runFrom_one s.scanned 512 0, runFrom_isSome_iff s Nat.one_pos]

theorem lookedAt_contiguous_iff (s : Pmm) (n : U64) :
    (∀ i ∈ lookedAt s (.allocContiguous n), i < maxFrames) ↔
      s.physTotalPages.toNat ≤ maxFrames ∨ (1 ≤ n.toNat ∧ ∃ i, s.Fits i n.toNat) := by
  have hlow : 512 ≤ maxFrames := by rw [maxFrames_eq]; omega
  rw [lookedAt]
  rcases Nat.eq_zero_or_pos n.toNat with hzero | hpos
  · rw [hzero, Scan.runSeen_zero_lt_iff s.scanned 512 0 hlow, scan_end_iff]
    exact (or_iff_left fun h => absurd h.1 (by omega)).symm
  · rw [Scan.runSeen_lt_iff hpos (fun j (hj : s.IsFree j) => hj.lt) s.scanned 512 0 0 hlow,
      scan_end_iff, runFrom_isSome_iff s hpos]
    exact or_congr_right (and_iff_right hpos).symm

theorem contained_alloc {m : EfiMemoryMap} {s : PmmSys} (h : InPool m s.pmm) {op : PmmOp}
    (hop : ∀ a, op ≠ .free a) : Contained m s op ↔ ∀ i ∈ lookedAt s.pmm op, i < maxFrames := by
  constructor
  · exact fun hc => hc.inside
  · intro hinside
    refine ⟨hinside, fun p hp => h p (isFree_of_handedOut hp), fun p hp => ?_⟩
    exact h p ((isFree_after_alloc hop p).mp hp).1

theorem contained_free {m : EfiMemoryMap} {s : PmmSys} (h : InPool m s.pmm) (a : U64) :
    Contained m s (.free a) ↔ 512 ≤ pageIndex a ∧ pageIndex a ∈ m.usableFrames := by
  constructor
  · intro hc
    have hlt : pageIndex a < maxFrames := hc.inside _ List.mem_cons_self
    exact hc.pool _ ((isFree_pmmFree hlt _).mpr (.inl rfl))
  · intro ha
    have hlt : pageIndex a < maxFrames := lt_of_mem_usableFrames ha.2
    refine ⟨fun i hi => ?_, fun p hp => (by cases hp), fun p hp => ?_⟩
    · rw [List.mem_singleton.mp hi]
      exact hlt
    · rcases (isFree_pmmFree hlt p).mp hp with rfl | hp
      · exact ha
      · exact h p hp

/-- **One call** is contained exactly when it is guarded. -/
theorem contained_iff {m : EfiMemoryMap} {s : PmmSys} (h : InPool m s.pmm) (op : PmmOp) :
    Contained m s op ↔ Guarded m s op := by
  cases op with
  | alloc => exact (contained_alloc h fun a ha => by cases ha).trans (lookedAt_alloc_iff s.pmm)
  | allocContiguous n =>
    exact (contained_alloc h fun a ha => by cases ha).trans (lookedAt_contiguous_iff s.pmm n)
  | free a => exact contained_free h a

theorem inPool_boot (m : EfiMemoryMap) : InPool m (pmmBoot m) :=
  fun p hp => (pmmBoot_isFree m p).mp hp

def anyMachine : Machine PmmSys PmmOp := pmmMachine fun _ _ => True

/-- **When the pool is kept**: in every run after `pmm_init`, on every map, all calls stay inside the
bitmap and the pool exactly when each of them is guarded. -/
theorem pool_kept_iff (m : EfiMemoryMap) (ops : List PmmOp) :
    (∀ pre op, pre ++ [op] <+: ops → Contained m (anyMachine.run (PmmSys.boot m) pre) op) ↔
      ∀ pre op, pre ++ [op] <+: ops → Guarded m (anyMachine.run (PmmSys.boot m) pre) op := by
  refine Machine.forall_steps_iff (M := anyMachine) (I := fun s : PmmSys => InPool m s.pmm)
    (fun s op hs _ => contained_iff hs op) (fun s op hs _ hop => ?_) ops (PmmSys.boot m)
    (inPool_boot m) (Machine.legal_of_forall anyMachine (fun _ _ => trivial) ops _)
  exact ((contained_iff hs op).mpr hop).pool

/-- On the sample machine the frame at 2 GB, which no descriptor reports, is freed and then handed
out; and a release at 128 GB looks behind the bitmap. -/
theorem pool_widened :
    ¬ Contained sampleEfiMap (PmmSys.boot sampleEfiMap) (.free 0x80000000) ∧
      524288 ∈ handedOut (pmmFree (pmmBoot sampleEfiMap) 0x80000000) (.allocContiguous 523777) ∧
      524288 ∉ sampleEfiMap.usableFrames ∧
      ¬ Contained sampleEfiMap (PmmSys.boot sampleEfiMap) (.free 0x2000000000) := by
  have hunknown : 524288 ∉ sampleEfiMap.usableFrames := by
    intro hmem
    have := (mem_sampleFrames _).mp hmem
    omega
  have hbehind : ∀ a, maxFrames ≤ pageIndex a →
      ¬ Contained sampleEfiMap (PmmSys.boot sampleEfiMap) (.free a) := by
    intro a ha hc
    exact absurd (hc.inside _ List.mem_cons_self) (Nat.not_lt.mpr ha)
  have hidx : pageIndex 0x80000000 = 524288 := rfl
  have hlt : pageIndex 0x80000000 < maxFrames := by
    rw [hidx, maxFrames_eq]
    omega
  have hnum : (523777 : U64).toNat = 523777 := BitVec.toNat_ofNat 523777 64
  have hfirst : (pmmFree (pmmBoot sampleEfiMap) 0x80000000).FirstFit 512 (523777 : U64).toNat := by
    have hfit := (sample_firstFit (n := 523776) (by decide) (Nat.le_refl _)).toFits
    have htotal : (pmmBoot sampleEfiMap).physTotalPages.toNat = 525056 :=
      sampleMap.toNat_total.trans length_sampleFrames
    rw [hnum]
    refine ⟨⟨Nat.le_refl 512, by rw [pmmFree_total, htotal]; omega, fun j h1 h2 => ?_⟩,
      fun j hj => hj.lo⟩
    rw [isFree_pmmFree hlt, hidx]
    rcases Nat.lt_or_ge j 524288 with hj | hj
    · exact .inr (hfit.free j h1 (by omega))
    · exact .inl (by omega)
  refine ⟨fun hc => ?_, ?_, hunknown, hbehind _ (by rw [maxFrames_eq]; exact Nat.le_refl _)⟩
  · have hpool : InPool sampleEfiMap (PmmSys.boot sampleEfiMap).pmm := inPool_boot sampleEfiMap
    obtain ⟨_, hmem⟩ := (contained_free hpool 0x80000000).mp hc
    rw [hidx] at hmem
    exact hunknown hmem
  · have h512 : 512 < maxFrames := by rw [maxFrames_eq]; omega
    rw [handedOut, hfirst.alloc (by rw [hnum]; omega), framesAt_frameAddr h512 (by omega),
      List.mem_range'_1, hnum]
    omega

end AionOs
