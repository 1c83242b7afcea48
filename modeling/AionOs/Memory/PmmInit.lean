import AionOs.Memory.Pmm
import Mathlib.Data.List.Nodup

/-!
# What `pmm_init` leaves behind

`usableFrames m` lists the frame numbers that a memory map reports as RAM, in the
order in which `pmm_init` meets them.  For every map at all

* `pmmInit_isFree`: a frame is free exactly when it is listed and is not below 2 MB;
* `pmmBoot_total`, `pmmBoot_freePages`: the counters, 512 being taken off the second
  one whatever was listed.

A `UefiMemoryMap` is a map whose descriptors do not wrap and do not overlap.  Its list
has no repetitions (`nodup_usableFrames`), so its length is a number of frames.
-/

namespace AionOs

/-! ### The frames a map reports -/

/-- The tracked frames of a usable descriptor. -/
def EfiMemoryDescriptor.usableFrames (d : EfiMemoryDescriptor) : List Nat :=
  if d.usable then ((List.range d.numPages.toNat).map d.frame).filter (· < maxFrames) else []

/-- The tracked frames that the usable descriptors of a map report. -/
def EfiMemoryMap.usableFrames (m : EfiMemoryMap) : List Nat :=
  m.descriptors.flatMap EfiMemoryDescriptor.usableFrames

theorem lt_of_mem_descFrames {d : EfiMemoryDescriptor} {p : Nat} (h : p ∈ d.usableFrames) :
    p < maxFrames := by
  rw [EfiMemoryDescriptor.usableFrames] at h
  split at h
  · exact of_decide_eq_true (List.mem_filter.mp h).2
  · simp at h

theorem lt_of_mem_usableFrames {m : EfiMemoryMap} {p : Nat} (h : p ∈ m.usableFrames) :
    p < maxFrames := by
  obtain ⟨d, _, hd⟩ := List.mem_flatMap.mp h
  exact lt_of_mem_descFrames hd

/-! ### The loop over the descriptors -/

/-- Frames past the end of the bitmap are skipped. -/
theorem foldl_addFrame_filter : ∀ (l : List Nat) (s : Pmm),
    l.foldl pmmAddFrame s = (l.filter (· < maxFrames)).foldl pmmAddFrame s := by
  intro l
  induction l with
  | nil => intro s; rfl
  | cons i l ih =>
    intro s
    rw [List.foldl_cons, ih, List.filter_cons]
    by_cases hi : i < maxFrames
    · rw [if_pos (decide_eq_true hi), List.foldl_cons]
    · rw [if_neg (fun h => hi (of_decide_eq_true h)), pmmAddFrame, if_neg hi]

theorem pmmAddDescriptor_eq (s : Pmm) (d : EfiMemoryDescriptor) :
    pmmAddDescriptor s d = d.usableFrames.foldl pmmAddFrame s := by
  rw [pmmAddDescriptor, EfiMemoryDescriptor.usableFrames]
  split
  · rw [← foldl_addFrame_filter, List.foldl_map]
  · rfl

theorem foldl_addDescriptor_eq : ∀ (ds : List EfiMemoryDescriptor) (s : Pmm),
    ds.foldl pmmAddDescriptor s =
      (ds.flatMap EfiMemoryDescriptor.usableFrames).foldl pmmAddFrame s := by
  intro ds
  induction ds with
  | nil => intro s; rfl
  | cons d ds ih =>
    intro s
    rw [List.foldl_cons, ih, List.flatMap_cons, List.foldl_append, pmmAddDescriptor_eq]

theorem foldl_descriptors (m : EfiMemoryMap) (s : Pmm) :
    m.descriptors.foldl pmmAddDescriptor s = m.usableFrames.foldl pmmAddFrame s :=
  foldl_addDescriptor_eq m.descriptors s

theorem foldl_addFrame_isFree {j : Nat} : ∀ (l : List Nat) (s : Pmm), (∀ i ∈ l, i < maxFrames) →
    ((l.foldl pmmAddFrame s).IsFree j ↔ j ∈ l ∨ s.IsFree j) := by
  intro l
  induction l with
  | nil => intro s _; simp
  | cons i l ih =>
    intro s hl
    have hi : i < maxFrames := hl i (by simp)
    rw [List.foldl_cons, ih _ (fun k hk => hl k (List.mem_cons_of_mem i hk)), pmmAddFrame,
      if_pos hi, isFree_setFree hi, List.mem_cons]
    exact ⟨fun h => h.elim (fun h => .inl (.inr h)) (fun h => h.imp_left .inl),
      fun h => h.elim (fun h => h.elim (fun h => .inr (.inl h)) .inl) (fun h => .inr (.inr h))⟩

theorem foldl_addFrame_counters : ∀ (l : List Nat) (s : Pmm), (∀ i ∈ l, i < maxFrames) →
    (l.foldl pmmAddFrame s).physTotalPages = s.physTotalPages + BitVec.ofNat 64 l.length ∧
    (l.foldl pmmAddFrame s).physFreePages = s.physFreePages + BitVec.ofNat 64 l.length := by
  intro l
  induction l with
  | nil => intro s _; simp
  | cons i l ih =>
    intro s hl
    have hi : i < maxFrames := hl i (by simp)
    obtain ⟨h1, h2⟩ := ih (pmmAddFrame s i) (fun k hk => hl k (List.mem_cons_of_mem i hk))
    rw [List.foldl_cons, h1, h2, pmmAddFrame, if_pos hi, List.length_cons, Nat.add_comm l.length 1,
      BitVec.ofNat_add, BitVec.add_assoc, BitVec.add_assoc]
    exact ⟨rfl, rfl⟩

/-! ### The loop over the low frames -/

theorem foldl_reserve_isFree {j : Nat} : ∀ (l : List Nat) (s : Pmm),
    (l.foldl pmmReserveFrame s).IsFree j ↔ j ∉ l ∧ s.IsFree j := by
  intro l
  induction l with
  | nil => intro s; simp
  | cons i l ih =>
    intro s
    rw [List.foldl_cons, ih, pmmReserveFrame, isFree_setUsed, List.mem_cons, not_or, ← and_assoc,
      and_comm (a := j ∉ l)]

theorem foldl_reserve_counters : ∀ (l : List Nat) (s : Pmm),
    (l.foldl pmmReserveFrame s).physTotalPages = s.physTotalPages ∧
    (l.foldl pmmReserveFrame s).physFreePages = s.physFreePages - BitVec.ofNat 64 l.length := by
  intro l
  induction l with
  | nil => intro s; simp
  | cons i l ih =>
    intro s
    obtain ⟨h1, h2⟩ := ih (pmmReserveFrame s i)
    rw [List.foldl_cons, h1, h2, List.length_cons, Nat.add_comm l.length 1, BitVec.ofNat_add,
      ← BitVec.sub_sub]
    exact ⟨rfl, rfl⟩

/-! ### `pmm_init` -/

/-- The manager as `kernel_main` finds it after `pmm_init`. -/
def pmmBoot (m : EfiMemoryMap) : Pmm := pmmInit Pmm.bss m

/-- **A frame is free after `pmm_init` exactly when the map reports it usable and
it is not below 2 MB.** -/
theorem pmmInit_isFree (s : Pmm) (m : EfiMemoryMap) (p : Nat) :
    (pmmInit s m).IsFree p ↔ 512 ≤ p ∧ p ∈ m.usableFrames := by
  rw [pmmInit, foldl_reserve_isFree, foldl_descriptors,
    foldl_addFrame_isFree _ _ (fun i hi => lt_of_mem_usableFrames hi)]
  have hempty : ∀ t f, ¬ Pmm.IsFree ⟨fun _ => 0#8, t, f⟩ p := by
    intro t f
    rw [Pmm.not_isFree]
    exact ByteSet.testBit_empty p
  rw [List.mem_range, Nat.not_lt]
  exact and_congr_right fun _ => or_iff_left (hempty _ _)

theorem pmmBoot_isFree (m : EfiMemoryMap) (p : Nat) :
    (pmmBoot m).IsFree p ↔ 512 ≤ p ∧ p ∈ m.usableFrames := pmmInit_isFree _ m p

theorem pmmBoot_total (m : EfiMemoryMap) :
    (pmmBoot m).physTotalPages = BitVec.ofNat 64 m.usableFrames.length := by
  rw [pmmBoot, pmmInit, (foldl_reserve_counters _ _).1, foldl_descriptors,
    (foldl_addFrame_counters _ _ (fun i hi => lt_of_mem_usableFrames hi)).1]
  exact BitVec.zero_add _

theorem pmmBoot_freePages (m : EfiMemoryMap) :
    (pmmBoot m).physFreePages = BitVec.ofNat 64 m.usableFrames.length - 512 := by
  rw [pmmBoot, pmmInit, (foldl_reserve_counters _ _).2, foldl_descriptors,
    (foldl_addFrame_counters _ _ (fun i hi => lt_of_mem_usableFrames hi)).2, List.length_range]
  exact congrArg (· - 512) (BitVec.zero_add _)

-- `pmmBoot` is a loop over millions of frames: it is used through the lemmas above.
attribute [irreducible] pmmBoot

/-! ### Maps the firmware may pass -/

def EfiMemoryDescriptor.Covers (d : EfiMemoryDescriptor) (a : Nat) : Prop :=
  d.physStart.toNat ≤ a ∧ a < d.physStart.toNat + 4096 * d.numPages.toNat

/-- A memory map whose descriptors do not wrap and do not overlap. -/
structure UefiMemoryMap extends EfiMemoryMap where
  noWrap : ∀ d ∈ toEfiMemoryMap.descriptors, d.physStart.toNat + 4096 * d.numPages.toNat ≤ 2 ^ 64
  disjoint : toEfiMemoryMap.descriptors.Pairwise fun d e => ∀ a, ¬ (d.Covers a ∧ e.Covers a)

theorem frame_of_pages {d : EfiMemoryDescriptor}
    (h : pageIndex d.physStart + d.numPages.toNat ≤ 2 ^ 64) {p : Nat} (hp : p < d.numPages.toNat) :
    d.frame p = pageIndex d.physStart + p := by
  rw [EfiMemoryDescriptor.frame]
  exact Nat.mod_eq_of_lt (by omega)

theorem frame_of_noWrap {d : EfiMemoryDescriptor}
    (h : d.physStart.toNat + 4096 * d.numPages.toNat ≤ 2 ^ 64) {p : Nat} (hp : p < d.numPages.toNat) :
    d.frame p = d.physStart.toNat / 4096 + p :=
  frame_of_pages (by rw [pageIndex, pageSize_eq]; omega) hp

theorem mem_descFrames_of_pages {d : EfiMemoryDescriptor}
    (h : pageIndex d.physStart + d.numPages.toNat ≤ 2 ^ 64) {p : Nat} :
    p ∈ d.usableFrames ↔ d.usable = true ∧ p < maxFrames ∧ pageIndex d.physStart ≤ p ∧
      p < pageIndex d.physStart + d.numPages.toNat := by
  rw [EfiMemoryDescriptor.usableFrames]
  by_cases hu : d.usable = true
  · rw [if_pos hu, List.mem_filter, List.mem_map, decide_eq_true_eq]
    constructor
    · rintro ⟨⟨k, hk, rfl⟩, hlt⟩
      rw [List.mem_range] at hk
      rw [frame_of_pages h hk] at hlt ⊢
      exact ⟨hu, hlt, by omega, by omega⟩
    · rintro ⟨_, hlt, h1, h2⟩
      have hk : p - pageIndex d.physStart < d.numPages.toNat := by omega
      refine ⟨⟨p - pageIndex d.physStart, List.mem_range.mpr hk, ?_⟩, hlt⟩
      rw [frame_of_pages h hk]
      omega
  · rw [if_neg hu]
    simp [hu]

theorem mem_descFrames {d : EfiMemoryDescriptor}
    (h : d.physStart.toNat + 4096 * d.numPages.toNat ≤ 2 ^ 64) {p : Nat} :
    p ∈ d.usableFrames ↔ d.usable = true ∧ p < maxFrames ∧ d.physStart.toNat / 4096 ≤ p ∧
      p < d.physStart.toNat / 4096 + d.numPages.toNat :=
  mem_descFrames_of_pages (by rw [pageIndex, pageSize_eq]; omega)

theorem nodup_descFrames {d : EfiMemoryDescriptor}
    (h : d.physStart.toNat + 4096 * d.numPages.toNat ≤ 2 ^ 64) : d.usableFrames.Nodup := by
  rw [EfiMemoryDescriptor.usableFrames]
  split
  · refine List.Nodup.filter _ (List.Nodup.map_on ?_ List.nodup_range)
    intro i hi j hj he
    rw [List.mem_range] at hi hj
    rw [frame_of_noWrap h hi, frame_of_noWrap h hj] at he
    omega
  · exact List.nodup_nil

/-- Two descriptors that report one frame cover a common byte: the later of the two
starts of their pages in that frame. -/
theorem covers_of_common_frame {d e : EfiMemoryDescriptor} {p : Nat}
    (hd : d.physStart.toNat / 4096 ≤ p ∧ p < d.physStart.toNat / 4096 + d.numPages.toNat)
    (he : e.physStart.toNat / 4096 ≤ p ∧ p < e.physStart.toNat / 4096 + e.numPages.toNat) :
    ∃ a, d.Covers a ∧ e.Covers a := by
  refine ⟨4096 * p + max (d.physStart.toNat % 4096) (e.physStart.toNat % 4096), ⟨?_, ?_⟩, ⟨?_, ?_⟩⟩
    <;> omega

theorem mem_usableFrames_of_pages {m : EfiMemoryMap}
    (h : ∀ d ∈ m.descriptors, pageIndex d.physStart + d.numPages.toNat ≤ 2 ^ 64) {p : Nat} :
    p ∈ m.usableFrames ↔ p < maxFrames ∧ ∃ d ∈ m.descriptors, d.usable = true ∧
      pageIndex d.physStart ≤ p ∧ p < pageIndex d.physStart + d.numPages.toNat := by
  rw [EfiMemoryMap.usableFrames, List.mem_flatMap]
  constructor
  · rintro ⟨d, hd, hp⟩
    obtain ⟨h1, h2, h3⟩ := (mem_descFrames_of_pages (h d hd)).mp hp
    exact ⟨h2, d, hd, h1, h3⟩
  · rintro ⟨h2, d, hd, h1, h3⟩
    exact ⟨d, hd, (mem_descFrames_of_pages (h d hd)).mpr ⟨h1, h2, h3⟩⟩

theorem UefiMemoryMap.mem_usableFrames (m : UefiMemoryMap) {p : Nat} :
    p ∈ m.usableFrames ↔ p < maxFrames ∧ ∃ d ∈ m.descriptors, d.usable = true ∧
      d.physStart.toNat / 4096 ≤ p ∧ p < d.physStart.toNat / 4096 + d.numPages.toNat :=
  mem_usableFrames_of_pages fun d hd => by
    have hd := m.noWrap d hd
    rw [pageIndex, pageSize_eq]
    omega

/-- **A well-formed map reports no frame twice.** -/
theorem UefiMemoryMap.nodup_usableFrames (m : UefiMemoryMap) : m.usableFrames.Nodup := by
  rw [EfiMemoryMap.usableFrames, List.nodup_flatMap]
  refine ⟨fun d hd => nodup_descFrames (m.noWrap d hd), ?_⟩
  refine List.Pairwise.imp_of_mem ?_ m.disjoint
  intro d e hd he hde p hpd hpe
  obtain ⟨_, _, h1⟩ := (mem_descFrames (m.noWrap d hd)).mp hpd
  obtain ⟨_, _, h2⟩ := (mem_descFrames (m.noWrap e he)).mp hpe
  obtain ⟨a, ha⟩ := covers_of_common_frame h1 h2
  exact hde a ha

theorem UefiMemoryMap.length_usableFrames_le (m : UefiMemoryMap) :
    m.usableFrames.length ≤ maxFrames := by
  have hsub : m.usableFrames ⊆ List.range maxFrames := fun p hp =>
    List.mem_range.mpr (lt_of_mem_usableFrames hp)
  have := (m.nodup_usableFrames.subperm hsub).length_le
  rwa [List.length_range] at this

theorem UefiMemoryMap.toNat_total (m : UefiMemoryMap) :
    (pmmBoot m.toEfiMemoryMap).physTotalPages.toNat = m.usableFrames.length := by
  have h := m.length_usableFrames_le
  rw [maxFrames_eq] at h
  rw [pmmBoot_total, BitVec.toNat_ofNat, Nat.mod_eq_of_lt (by omega)]

end AionOs
