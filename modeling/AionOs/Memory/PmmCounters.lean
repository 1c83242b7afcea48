import AionOs.Memory.PmmSafety

/-!
# The counters of the frame allocator

Every call keeps `phys_free_pages` equal to the number of set bits
(`countExact_step`), so the two agree for ever if they agree after `pmm_init`.  There
they agree only if the map reports all 512 frames below 2 MB as usable
(`countExact_boot_iff`): the last loop of `pmm_init` lowers the counter for each of
them, also for those that were never counted.

* `pmm_counters_iff`: when the counters, and the status read off them, are right in
  every history.
-/

namespace AionOs

/-! ### Sound counters -/

def CountExact (s : Pmm) : Prop := s.physFreePages.toNat = s.physBitmap.count

/-- The counters are right, and so is what `memory_get_status` computes from them. -/
structure CountersSound (s : Pmm) : Prop where
  exact : CountExact s
  le_total : s.physFreePages.toNat ≤ s.physTotalPages.toNat
  used : ∀ w, (memoryGetStatus s w).usedPhysical.toNat + (memoryGetStatus s w).freePhysical.toNat =
    (memoryGetStatus s w).totalPhysical.toNat
  pressure : ∀ w, (memoryGetStatus s w).pressureLevel = 0 → 65536 ≤ s.physBitmap.count

theorem count_le_maxFrames (s : Pmm) : s.physBitmap.count ≤ maxFrames :=
  bits_eq ▸ ByteSet.count_le s.physBitmap

/-- Exact counters that stay below a total of tracked frames make the status right. -/
theorem countersSound_of_exact {s : Pmm} (h : CountExact s)
    (hle : s.physBitmap.count ≤ s.physTotalPages.toNat) (ht : s.physTotalPages.toNat ≤ maxFrames) :
    CountersSound s := by
  rw [CountExact] at h
  rw [maxFrames_eq] at ht
  have hfree : ∀ w, (memoryGetStatus s w).freePhysical.toNat = s.physBitmap.count * 4096 := by
    intro w
    show (s.physFreePages * 4096#64).toNat = _
    rw [BitVec.toNat_mul, h]
    exact Nat.mod_eq_of_lt (by simp only [BitVec.toNat_ofNat]; omega)
  have htotal : ∀ w, (memoryGetStatus s w).totalPhysical.toNat = s.physTotalPages.toNat * 4096 := by
    intro w
    show (s.physTotalPages * 4096#64).toNat = _
    rw [BitVec.toNat_mul]
    exact Nat.mod_eq_of_lt (by simp only [BitVec.toNat_ofNat]; omega)
  refine ⟨h, by omega, fun w => ?_, fun w hp => ?_⟩
  · have hf := hfree w
    have htt := htotal w
    show ((memoryGetStatus s w).totalPhysical - (memoryGetStatus s w).freePhysical).toNat + _ = _
    rw [BitVec.toNat_sub_of_le (by rw [BitVec.le_def]; omega)]
    omega
  · have hf := hfree w
    by_contra hlt
    have hlow : (memoryGetStatus s w).freePhysical < 256 * 1024 * 1024 := by
      rw [BitVec.lt_def, hf]
      show _ < 268435456
      omega
    have hlevel : (memoryGetStatus s w).pressureLevel = 2 := if_pos hlow
    rw [hlevel] at hp
    omega

/-! ### Calls keep the counter exact -/

theorem count_takeFrames : ∀ (n : Nat) (s : Pmm) (i : Nat), (∀ j, i ≤ j → j < i + n → s.IsFree j) →
    (pmmTakeFrames s i n).physBitmap.count + n = s.physBitmap.count := by
  intro n
  induction n with
  | zero => intro s i _; exact Nat.add_zero _
  | succ n ih =>
    intro s i h
    have hone : (pmmTakeFrame s i).physBitmap.count + 1 = s.physBitmap.count :=
      ByteSet.count_clearBit (h i (Nat.le_refl i) (by omega))
    have hrest := ih (pmmTakeFrame s i) (i + 1) fun j h1 h2 =>
      isFree_takeFrame.mpr ⟨by omega, h j (by omega) (by omega)⟩
    rw [takeFrames_succ]
    omega

theorem countExact_step {s : Pmm} {op : PmmOp} (h : CountExact s)
    (hfree : ∀ a, op = .free a → pageIndex a < maxFrames) : CountExact (pmmStep s op) := by
  have hcount := count_le_maxFrames s
  rw [maxFrames_eq] at hcount
  rw [CountExact] at h ⊢
  rcases pmmStep_cases s op with ⟨he, _⟩ | ⟨i, n, hf, he, _⟩ | ⟨a, ha, hn, _, he⟩
  · rw [he, h]
  · have hn := count_takeFrames n s i hf.free
    rw [he, takeFrames_freePages, BitVec.toNat_sub_of_le]
    · rw [BitVec.toNat_ofNat]
      omega
    · rw [BitVec.le_def, BitVec.toNat_ofNat]
      omega
  · have hset := ByteSet.count_setBit (b := s.physBitmap) (bits_eq ▸ hfree a ha)
      (Pmm.not_isFree.mp hn)
    rw [he]
    show (s.physFreePages + 1#64).toNat = (s.physBitmap.setBit (pageIndex a)).count
    rw [hset, BitVec.toNat_add, h, BitVec.toNat_ofNat]
    omega

/-! ### After `pmm_init` -/

/-- The frames below 2 MB that the map reports usable. -/
def EfiMemoryMap.lowFrames (m : EfiMemoryMap) : Finset Nat :=
  (Finset.range 512).filter fun p => p ∈ m.usableFrames

theorem count_boot (m : UefiMemoryMap) :
    (pmmBoot m.toEfiMemoryMap).physBitmap.count + m.lowFrames.card = m.usableFrames.length := by
  have hcount : (pmmBoot m.toEfiMemoryMap).physBitmap.count =
      (m.usableFrames.toFinset.filter fun p => ¬ p < 512).card := by
    refine ByteSet.count_eq_card fun i => ?_
    rw [Finset.mem_filter, List.mem_toFinset, Nat.not_lt, and_comm]
    exact pmmBoot_isFree _ i
  have hlow : m.lowFrames = m.usableFrames.toFinset.filter fun p => p < 512 := by
    ext p
    rw [EfiMemoryMap.lowFrames, Finset.mem_filter, Finset.mem_range, Finset.mem_filter,
      List.mem_toFinset, and_comm]
  rw [hcount, hlow, Nat.add_comm, Finset.card_filter_add_card_filter_not,
    List.toFinset_card_of_nodup m.nodup_usableFrames]

theorem lowFrames_card_le (m : EfiMemoryMap) : m.lowFrames.card ≤ 512 := by
  have h := Finset.card_filter_le (Finset.range 512) (fun p => p ∈ m.usableFrames)
  rwa [Finset.card_range] at h

theorem lowFrames_card_eq_iff (m : EfiMemoryMap) :
    m.lowFrames.card = 512 ↔ ∀ p < 512, p ∈ m.usableFrames := by
  have h := Finset.card_filter_eq_iff (s := Finset.range 512) (p := fun p => p ∈ m.usableFrames)
  rw [Finset.card_range] at h
  rw [EfiMemoryMap.lowFrames, h]
  simp only [Finset.mem_range]

/-- **After `pmm_init` the counter is exact only if all low frames were counted.** -/
theorem countExact_boot_iff (m : UefiMemoryMap) :
    CountExact (pmmBoot m.toEfiMemoryMap) ↔ ∀ p < 512, p ∈ m.usableFrames := by
  rw [← lowFrames_card_eq_iff, CountExact, pmmBoot_freePages, BitVec.toNat_sub, BitVec.toNat_ofNat,
    show (512 : U64).toNat = 512 from rfl]
  have h1 := count_boot m
  have h2 := lowFrames_card_le m.toEfiMemoryMap
  have h3 := m.length_usableFrames_le
  rw [maxFrames_eq] at h3
  omega

/-! ### Histories -/

def FreesUsable (m : EfiMemoryMap) (_ : PmmSys) : PmmOp → Prop
  | .free a => pageIndex a ∈ m.usableFrames
  | _ => True

def FreesTracked (_ : PmmSys) : PmmOp → Prop
  | .free a => pageIndex a < maxFrames
  | _ => True

theorem FreesTracked.lt {s : PmmSys} {op : PmmOp} (h : FreesTracked s op) :
    ∀ a, op = .free a → pageIndex a < maxFrames := by
  rintro a rfl
  exact h

theorem FreesUsable.tracked {m : EfiMemoryMap} {s : PmmSys} {op : PmmOp} (h : FreesUsable m s op) :
    FreesTracked s op := by
  cases op with
  | free a => exact lt_of_mem_usableFrames h
  | alloc => exact trivial
  | allocContiguous n => exact trivial

theorem tracked_of_usable {m : EfiMemoryMap} {s : PmmSys} (ops : List PmmOp)
    (hl : (pmmMachine (FreesUsable m)).Legal s ops) : (pmmMachine FreesTracked).Legal s ops :=
  Machine.Legal.weaken (M := pmmMachine (FreesUsable m)) (N := pmmMachine FreesTracked)
    (I := fun _ => True) rfl
    (fun _ _ _ _ => trivial) (fun t _ _ => FreesUsable.tracked (s := t)) ops s trivial hl

theorem countExact_run {m : EfiMemoryMap} (h : CountExact (pmmBoot m)) (ops : List PmmOp)
    (hl : (pmmMachine FreesTracked).Legal (PmmSys.boot m) ops) :
    CountExact ((pmmMachine FreesTracked).run (PmmSys.boot m) ops).pmm :=
  Machine.run_invariant (I := fun s : PmmSys => CountExact s.pmm)
    (fun s _ hs ha => countExact_step hs (FreesTracked.lt (s := s) ha)) ops _ h hl

def FreeUsable (m : EfiMemoryMap) (s : PmmSys) : Prop := ∀ p, s.pmm.IsFree p → p ∈ m.usableFrames

theorem freeUsable_step {m : EfiMemoryMap} {s : PmmSys} {op : PmmOp} (h : FreeUsable m s)
    (hl : FreesUsable m s op) : FreeUsable m (s.step op) := by
  intro p hp
  cases op with
  | free a =>
    have hmem : pageIndex a ∈ m.usableFrames := hl
    rw [PmmSys.step, pmmStep, isFree_pmmFree (lt_of_mem_usableFrames hmem)] at hp
    exact hp.elim (fun he => he ▸ hmem) (h p)
  | alloc => exact h p ((isFree_after_alloc (fun a ha => by cases ha) p).mp hp).1
  | allocContiguous n => exact h p ((isFree_after_alloc (fun a ha => by cases ha) p).mp hp).1

theorem freeUsable_run {m : EfiMemoryMap} (ops : List PmmOp)
    (hl : (pmmMachine (FreesUsable m)).Legal (PmmSys.boot m) ops) :
    FreeUsable m ((pmmMachine (FreesUsable m)).run (PmmSys.boot m) ops) :=
  Machine.run_invariant (I := FreeUsable m) (fun _ _ => freeUsable_step) ops _
    (fun p hp => ((pmmBoot_isFree m p).mp hp).2) hl

theorem count_le_usable {m : UefiMemoryMap} {s : Pmm}
    (h : ∀ p, s.IsFree p → p ∈ m.usableFrames) : s.physBitmap.count ≤ m.usableFrames.length := by
  rw [← List.toFinset_card_of_nodup m.nodup_usableFrames]
  refine Finset.card_le_card fun p hp => ?_
  exact List.mem_toFinset.mpr (h p (ByteSet.mem_members.mp hp))

def freeAllOps : List PmmOp := (List.range maxFrames).map fun i => .free (frameAddr i)

theorem legal_frees : ∀ (l : List Nat) (s : PmmSys), (∀ i ∈ l, i < maxFrames) →
    (pmmMachine FreesTracked).Legal s (l.map fun i => .free (frameAddr i)) ∧
    ∀ i, i ∈ l ∨ s.pmm.IsFree i →
      ((pmmMachine FreesTracked).run s (l.map fun i => .free (frameAddr i))).pmm.IsFree i := by
  intro l
  induction l with
  | nil => intro s _; exact ⟨trivial, fun i hi => hi.resolve_left (by simp)⟩
  | cons j l ih =>
    intro s hl
    have hj : j < maxFrames := hl j (by simp)
    have hidx := pageIndex_frameAddr hj
    obtain ⟨h1, h2⟩ := ih (s.step (.free (frameAddr j))) fun i hi =>
      hl i (List.mem_cons_of_mem j hi)
    refine ⟨⟨show pageIndex (frameAddr j) < maxFrames by rw [hidx]; exact hj, h1⟩, fun i hi => h2 i ?_⟩
    have hstep : (s.step (.free (frameAddr j))).pmm.IsFree i ↔ i = j ∨ s.pmm.IsFree i := by
      rw [PmmSys.step, pmmStep, isFree_pmmFree (by rw [hidx]; exact hj), hidx]
    rw [hstep]
    rcases hi with hi | hi
    · exact (List.mem_cons.mp hi).elim (fun he => .inr (.inl he)) .inl
    · exact .inr (.inr hi)

theorem count_freeAll (s : PmmSys) :
    ((pmmMachine FreesTracked).run s freeAllOps).pmm.physBitmap.count = maxFrames := by
  have h := (legal_frees (List.range maxFrames) s fun i hi => List.mem_range.mp hi).2
  rw [← Finset.card_range maxFrames]
  refine ByteSet.count_eq_card fun i => ?_
  rw [Finset.mem_range]
  exact ⟨fun hi => Pmm.IsFree.lt hi, fun hi => h i (.inl (List.mem_range.mpr hi))⟩

theorem length_usableFrames_eq_iff (m : UefiMemoryMap) :
    maxFrames ≤ m.usableFrames.length ↔ ∀ p < maxFrames, p ∈ m.usableFrames := by
  have hsub : m.usableFrames.toFinset ⊆ Finset.range maxFrames := fun p hp =>
    Finset.mem_range.mpr (lt_of_mem_usableFrames (List.mem_toFinset.mp hp))
  rw [← List.toFinset_card_of_nodup m.nodup_usableFrames]
  constructor
  · intro h p hp
    have heq := Finset.eq_of_subset_of_card_le hsub (by rwa [Finset.card_range])
    exact List.mem_toFinset.mp (heq ▸ Finset.mem_range.mpr hp)
  · intro h
    rw [← Finset.card_range maxFrames]
    exact Finset.card_le_card fun p hp => List.mem_toFinset.mpr (h p (Finset.mem_range.mp hp))

/-- **When the counters are right.**  If only frames that the map reports are freed,
the counters and the status are right in every history exactly when the map reports
all frames below 2 MB.  If any tracked frame may be freed, exactly when it reports
every tracked frame. -/
theorem pmm_counters_iff (m : UefiMemoryMap) :
    ((∀ ops, (pmmMachine (FreesUsable m.toEfiMemoryMap)).Legal (PmmSys.boot m.toEfiMemoryMap) ops →
        CountersSound ((pmmMachine (FreesUsable m.toEfiMemoryMap)).run
          (PmmSys.boot m.toEfiMemoryMap) ops).pmm) ↔
      ∀ p < 512, p ∈ m.usableFrames) ∧
    ((∀ ops, (pmmMachine FreesTracked).Legal (PmmSys.boot m.toEfiMemoryMap) ops →
        CountersSound ((pmmMachine FreesTracked).run (PmmSys.boot m.toEfiMemoryMap) ops).pmm) ↔
      ∀ p < maxFrames, p ∈ m.usableFrames) := by
  have htotal := m.toNat_total
  have hmax := m.length_usableFrames_le
  have hrun : ∀ {allowed : PmmSys → PmmOp → Prop} (ops : List PmmOp),
      ((pmmMachine allowed).run (PmmSys.boot m.toEfiMemoryMap) ops).pmm.physTotalPages.toNat =
        m.usableFrames.length := fun ops => by rw [run_total]; exact htotal
  constructor
  · constructor
    · intro h
      exact (countExact_boot_iff m).mp (h [] trivial).exact
    · intro h ops hl
      have hlt := tracked_of_usable ops hl
      have hexact := countExact_run ((countExact_boot_iff m).mpr h) ops hlt
      rw [Machine.run_congr (M := pmmMachine (FreesUsable m.toEfiMemoryMap))
        (N := pmmMachine FreesTracked) rfl] at hexact
      refine countersSound_of_exact hexact ?_ ?_
      · rw [hrun]
        exact count_le_usable (freeUsable_run ops hl)
      · rw [hrun]
        exact hmax
  · constructor
    · intro h
      rw [← length_usableFrames_eq_iff]
      have hall := h freeAllOps (legal_frees _ _ fun i hi => List.mem_range.mp hi).1
      have hle := hall.le_total
      rw [hall.exact, count_freeAll, hrun] at hle
      exact hle
    · intro h ops hl
      have hlow : ∀ p < 512, p ∈ m.usableFrames := fun p hp =>
        h p (by rw [maxFrames_eq]; omega)
      refine countersSound_of_exact (countExact_run ((countExact_boot_iff m).mpr hlow) ops hl) ?_ ?_
      · rw [hrun]
        exact Nat.le_trans (count_le_maxFrames _) ((length_usableFrames_eq_iff m).mpr h)
      · rw [hrun]
        exact hmax

/-- On the sample machine, whose RAM starts at 1 MB, the counter is 256 too low as
soon as `pmm_init` returns. -/
theorem pmm_counter_low : (pmmBoot sampleEfiMap).physFreePages.toNat + 256 =
    (pmmBoot sampleEfiMap).physBitmap.count ∧ ¬ CountersSound (pmmBoot sampleEfiMap) := by
  have hcount := count_boot sampleMap
  have hlow : sampleMap.lowFrames.card = 256 := by
    have he : sampleMap.lowFrames = Finset.Ico 256 512 := by
      ext p
      rw [EfiMemoryMap.lowFrames, Finset.mem_filter, Finset.mem_range, mem_sampleFrames,
        Finset.mem_Ico]
      omega
    rw [he, Nat.card_Ico]
  have hfree : (pmmBoot sampleEfiMap).physFreePages.toNat = 524544 := by
    have hlen : sampleEfiMap.usableFrames.length = 525056 := length_sampleFrames
    rw [pmmBoot_freePages, hlen]
    decide
  rw [length_sampleFrames, hlow] at hcount
  have hboot : (pmmBoot sampleEfiMap).physBitmap.count = 524800 := Nat.add_right_cancel hcount
  refine ⟨by rw [hfree, hboot], fun h => ?_⟩
  have := h.exact
  rw [CountExact, hfree, hboot] at this
  omega

end AionOs
