import AionOs.Store.Damage

/-!
# What a load takes from a file

The buffers of `aion_memory_load_all` are larger than most files, and what is behind the
bytes of a file was left there by the file before it.

* `decodeRecord`: the record in the bytes of one file.
* `own_bytes_iff`: a start loads these records, unless a file is shorter than it says.
* `index_own_bytes_iff`: the load of an index takes its bytes only, unless the index is shorter
  than it says.
-/

namespace AionOs

open Bytes

/-! ### Records -/

def declaredLen (data : List U8) : Nat := readField data 24 4

def HeaderOk (data : List U8) : Prop :=
  sizeofRecord ≤ data.length ∧ readField data 0 4 = memMagic.toNat ∧ declaredLen data ≤ maxContentLen

/-- The file has a header, and the contents that it declares. -/
def WholeRecord (data : List U8) : Prop := HeaderOk data ∧ sizeofRecord + declaredLen data ≤ data.length

/-- The file has a header, and less than it declares. -/
def Overstates (data : List U8) : Prop := HeaderOk data ∧ data.length < sizeofRecord + declaredLen data

instance (data : List U8) : Decidable (HeaderOk data) := inferInstanceAs (Decidable (_ ∧ _ ∧ _))

instance (data : List U8) : Decidable (WholeRecord data) := inferInstanceAs (Decidable (_ ∧ _))

instance (data : List U8) : Decidable (Overstates data) := inferInstanceAs (Decidable (_ ∧ _))

def decodeRecord (data : List U8) : Option Memory :=
  if h : WholeRecord data then some {
    type := BitVec.ofNat 8 (readField data 4 1)
    importance := BitVec.ofNat 8 (readField data 5 1)
    tick := BitVec.ofNat 64 (readField data 8 8)
    content := ⟨(data.drop sizeofRecord).take (declaredLen data), (List.length_take_le _ _).trans h.1.2.2⟩ }
  else none

theorem readField_fill (buf : RecordBuf) {data : List U8} (h : sizeofRecord ≤ data.length) {off w : Nat}
    (hoff : off + w ≤ sizeofRecord) : readField (buf.fill data).bytes off w = readField data off w := by
  have hle : off + w ≤ maxContentLen + sizeofRecord := hoff.trans (Nat.le_add_left _ _)
  rw [RecordBuf.fill_bytes, readField_overwrite, readField_take hle]
  rw [List.length_take]
  exact Nat.le_min.mpr ⟨hle, hoff.trans h⟩

theorem content_fill (buf : RecordBuf) {data : List U8} {n : Nat} (hn : n ≤ maxContentLen)
    (h : sizeofRecord + n ≤ data.length) :
    ((buf.fill data).bytes.drop sizeofRecord).take n = (data.drop sizeofRecord).take n := by
  have hle : sizeofRecord + n ≤ maxContentLen + sizeofRecord := by omega
  rw [RecordBuf.fill_bytes, take_drop_overwrite, take_drop_take hle]
  rw [List.length_take]
  exact Nat.le_min.mpr ⟨hle, h⟩

/-- **What a load takes from one file**: the fields of its header, and as many bytes of the
buffer as it declares. -/
theorem readRecord_spec (buf : RecordBuf) (data : List U8) :
    (¬ HeaderOk data ∧ (readRecord buf data).1 = none) ∨
    (HeaderOk data ∧ ∃ m, (readRecord buf data).1 = some m ∧
      m.type = BitVec.ofNat 8 (readField data 4 1) ∧ m.importance = BitVec.ofNat 8 (readField data 5 1) ∧
      m.tick = BitVec.ofNat 64 (readField data 8 8) ∧
      m.content.bytes = ((buf.fill data).bytes.drop sizeofRecord).take (declaredLen data)) := by
  have hhead : sizeofRecord = 28 := rfl
  have hmax := maxContentLen_eq
  rw [readRecord_fst, parseRecord]
  by_cases hlen : data.length < sizeofRecord
  · rw [if_pos (by rw [List.length_take]; omega)]
    exact .inl ⟨fun h => absurd h.1 (Nat.not_le_of_lt hlen), rfl⟩
  · rw [Nat.not_lt] at hlen
    rw [if_neg (by rw [List.length_take]; omega)]
    have hfield : ∀ {off w}, off + w ≤ 28 → readField (buf.fill data).bytes off w = readField data off w :=
      fun hoff => readField_fill buf hlen hoff
    have hdeclared : readField (buf.fill data).bytes 24 4 = declaredLen data := hfield (by omega)
    rw [hfield (show 0 + 4 ≤ 28 by omega)]
    by_cases hmagic : readField data 0 4 = memMagic.toNat
    · rw [if_neg (not_not_intro hmagic)]
      by_cases hclen : readField (buf.fill data).bytes 24 4 > maxContentLen
      · simp only [dif_pos hclen]
        refine .inl ⟨fun h => ?_, trivial⟩
        have := h.2.2
        omega
      · simp only [dif_neg hclen]
        refine .inr ⟨⟨hlen, hmagic, by omega⟩, _, rfl, ?_, ?_, ?_, ?_⟩
        · exact congrArg (BitVec.ofNat 8) (hfield (by omega))
        · exact congrArg (BitVec.ofNat 8) (hfield (by omega))
        · exact congrArg (BitVec.ofNat 64) (hfield (by omega))
        · rw [← hdeclared]
    · rw [if_pos hmagic]
      exact .inl ⟨fun h => hmagic h.2.1, rfl⟩

theorem readRecord_own (buf : RecordBuf) {data : List U8} (h : ¬ Overstates data) :
    (readRecord buf data).1 = decodeRecord data := by
  rcases readRecord_spec buf data with ⟨hbad, hnone⟩ | ⟨hok, m, hm, htype, himp, htick, hcontent⟩
  · rw [hnone, decodeRecord, dif_neg fun hwhole => hbad hwhole.1]
  · have hlen : sizeofRecord + declaredLen data ≤ data.length := Nat.le_of_not_lt fun hlt => h ⟨hok, hlt⟩
    rw [content_fill buf hok.2.2 hlen] at hcontent
    rw [hm, decodeRecord, dif_pos ⟨hok, hlen⟩, Option.some.injEq]
    exact Memory.ext htype himp htick (MemText.ext hcontent)

/-- A file that is shorter gives a record, and the byte behind its last one is the buffer's. -/
theorem readRecord_stale (buf : RecordBuf) {data : List U8} (h : Overstates data) :
    decodeRecord data = none ∧ ∃ m, (readRecord buf data).1 = some m ∧
      m.content.bytes[data.length - sizeofRecord]? = buf.bytes[data.length]? := by
  obtain ⟨hok, hshort⟩ := h
  have hhead := hok.1
  have hle := hok.2.2
  refine ⟨dif_neg fun hwhole => Nat.not_lt_of_le hwhole.2 hshort, ?_⟩
  rcases readRecord_spec buf data with ⟨hbad, _⟩ | ⟨_, m, hm, _, _, _, hcontent⟩
  · exact absurd hok hbad
  · refine ⟨m, hm, ?_⟩
    have htake : data.take (maxContentLen + sizeofRecord) = data := List.take_of_length_le (by omega)
    rw [hcontent, List.getElem?_take_of_lt (by omega), List.getElem?_drop,
      Nat.add_sub_cancel' hhead, RecordBuf.fill_bytes, htake, overwrite,
      List.getElem?_append_right (Nat.le_refl _), List.getElem?_drop, Nat.sub_self, Nat.add_zero]

/-! ### Sequences of files -/

def readFiles : RecordBuf → List (List U8) → List Memory × RecordBuf
  | buf, [] => ([], buf)
  | buf, data :: files =>
    let r := readRecord buf data
    let rest := readFiles r.2 files
    (r.1.toList ++ rest.1, rest.2)

theorem readFiles_own : ∀ (files : List (List U8)) (buf : RecordBuf), (∀ f ∈ files, ¬ Overstates f) →
    (readFiles buf files).1 = files.filterMap decodeRecord := by
  intro files
  induction files with
  | nil => intro buf _; rfl
  | cons f files ih =>
    intro buf h
    rw [readFiles, ih _ fun g hg => h g (List.mem_cons_of_mem f hg),
      readRecord_own buf (h f List.mem_cons_self),
      List.filterMap_cons]
    cases decodeRecord f <;> rfl

theorem length_readFiles : ∀ (files : List (List U8)) (buf : RecordBuf), (readFiles buf files).1.length =
    (files.filterMap decodeRecord).length + files.countP (Overstates ·) := by
  intro files
  induction files with
  | nil => intro buf; rfl
  | cons f files ih =>
    intro buf
    rw [readFiles, List.length_append, ih]
    by_cases hf : Overstates f
    · obtain ⟨hnone, m, hm, _⟩ := readRecord_stale buf hf
      have hcount := List.countP_cons_of_pos (p := fun x => decide (Overstates x)) (l := files)
        (decide_eq_true hf)
      rw [hcount, hm, List.filterMap_cons_none hnone, Option.toList_some, List.length_singleton]
      omega
    · have hcount := List.countP_cons_of_neg (p := fun x => decide (Overstates x)) (l := files) (a := f)
        (by simpa using hf)
      rw [hcount, readRecord_own buf hf]
      cases hd : decodeRecord f with
      | none =>
        rw [List.filterMap_cons_none hd]
        exact Nat.zero_add _
      | some m =>
        rw [List.filterMap_cons_some hd, Option.toList_some, List.length_singleton, List.length_cons]
        omega

theorem readFiles_own_iff (files : List (List U8)) (buf : RecordBuf) :
    (readFiles buf files).1 = files.filterMap decodeRecord ↔ ∀ f ∈ files, ¬ Overstates f := by
  refine ⟨fun h => ?_, readFiles_own files buf⟩
  have hlen := length_readFiles files buf
  rw [h, Nat.left_eq_add, List.countP_eq_zero] at hlen
  exact fun f hf => by simpa using hlen f hf

theorem readFiles_fill (buf : RecordBuf) (b : U8) :
    (readFiles buf [List.replicate (maxContentLen + sizeofRecord) b]).2.bytes =
      List.replicate (maxContentLen + sizeofRecord) b := by
  have hlen : (List.replicate (maxContentLen + sizeofRecord) b).length = maxContentLen + sizeofRecord :=
    List.length_replicate
  show overwrite ((List.replicate (maxContentLen + sizeofRecord) b).take
    (maxContentLen + sizeofRecord)) buf.bytes = _
  rw [List.take_of_length_le hlen.le, overwrite, List.drop_eq_nil_of_le (by rw [hlen, buf.length_eq]),
    List.append_nil]

/-- **What a file gives does not depend on the files before it** exactly if it is not shorter
than it says. -/
theorem same_record_iff (data : List U8) :
    (∀ before before', (readRecord (readFiles RecordBuf.bss before).2 data).1 =
      (readRecord (readFiles RecordBuf.bss before').2 data).1) ↔ ¬ Overstates data := by
  constructor
  · intro hsame h
    have hlt : data.length < maxContentLen + sizeofRecord := by
      have := h.1.2.2
      have := h.2
      omega
    have hbyte : ∀ b : U8, ∃ m,
        (readRecord (readFiles RecordBuf.bss [List.replicate (maxContentLen + sizeofRecord) b]).2 data).1 = some m ∧
          m.content.bytes[data.length - sizeofRecord]? = some b := by
      intro b
      obtain ⟨_, m, hm, hget⟩ :=
        readRecord_stale (readFiles RecordBuf.bss [List.replicate (maxContentLen + sizeofRecord) b]).2 h
      refine ⟨m, hm, ?_⟩
      rw [hget, readFiles_fill, List.getElem?_replicate, if_pos hlt]
    obtain ⟨m, hm, hzero⟩ := hbyte 0
    obtain ⟨m', hm', hone⟩ := hbyte 1
    have hmm := (hm.symm.trans (hsame _ _)).trans hm'
    rw [Option.some.inj hmm, hone] at hzero
    exact absurd (Option.some.inj hzero) (by decide)
  · intro h before before'
    rw [readRecord_own _ h, readRecord_own _ h]

section Load

variable {σ : Type} (fs : FileSystem σ)

/-- The record files that a start reads, in order. -/
def loadedFiles (cap : Nat) (disk : σ) : List (List U8) := (diskPaths fs cap disk).filterMap (fs.read disk)

theorem readAll_eq_files (disk : σ) : ∀ (ps : List Path) (buf : RecordBuf),
    readAll fs disk ps buf = readFiles buf (ps.filterMap (fs.read disk)) := by
  intro ps
  induction ps with
  | nil => intro buf; rfl
  | cons p ps ih =>
    intro buf
    rw [readAll, List.filterMap_cons]
    cases fs.read disk p with
    | none => exact ih buf
    | some data =>
      rw [readFiles]
      simp only [ih]

theorem bootMemory_files {cap : Nat} {disk : σ} {heap : Heap}
    (h : heap.Serves (requests (diskMemories fs cap disk))) :
    (bootMemory fs cap disk heap).memories = (readFiles RecordBuf.bss (loadedFiles fs cap disk)).1 := by
  rw [bootMemory_memories fs h, diskMemories, readAll_eq_files, loadedFiles]

end Load

/-- The record of the second memory ends after its header. -/
def cutDisk : Path → Option (List U8) := fun p =>
  if p = indexPath then
    some (encodeIndex sampleStack [sampleMemory memSemantic 1, sampleMemory memSemantic 2])
  else if p = memPath memSemantic 1 then some (pack (recordHeader (sampleMemory memSemantic 2)))
  else some (encodeRecord (sampleMemory memSemantic 1))

theorem cut_overstates : Overstates (pack (recordHeader (sampleMemory memSemantic 2))) := by decide

theorem loadedFiles_cut : loadedFiles sampleFs sizeofIndexBuf cutDisk =
    [encodeRecord (sampleMemory memSemantic 1), pack (recordHeader (sampleMemory memSemantic 2))] := by
  have hindex : sampleFs.read cutDisk indexPath = some (encodeIndex sampleStack
      [sampleMemory memSemantic 1, sampleMemory memSemantic 2]) := by
    rw [sampleFs, FileStore.ofFun_read, cutDisk, if_pos rfl]
  have hpaths : diskPaths sampleFs sizeofIndexBuf cutDisk =
      [memPath memSemantic 0, memPath memSemantic 1] := by
    refine diskPaths_encodeIndex sampleFs hindex ?_ ?_
    · rw [maxMemories_eq, List.length_cons, List.length_singleton]
      omega
    · rw [sizeofIndexBuf_eq, List.length_cons, List.length_singleton]
      omega
  have hzero : sampleFs.read cutDisk (memPath memSemantic 0) =
      some (encodeRecord (sampleMemory memSemantic 1)) := by
    have hslot : memPath memSemantic 0 ≠ memPath memSemantic 1 := fun h => by
      have := (memPath_inj h).1
      omega
    rw [sampleFs, FileStore.ofFun_read, cutDisk, if_neg (memPath_ne_indexPath _ _), if_neg hslot]
  have hone : sampleFs.read cutDisk (memPath memSemantic 1) =
      some (pack (recordHeader (sampleMemory memSemantic 2))) := by
    rw [sampleFs, FileStore.ofFun_read, cutDisk, if_neg (memPath_ne_indexPath _ _), if_pos rfl]
  rw [loadedFiles, hpaths, List.filterMap_cons_some hzero, List.filterMap_cons_some hone, List.filterMap_nil]

section Index

variable {σ : Type} (fs : FileSystem σ)

/-- The loop of `aion_memory_load_all` over the bytes of the index, with the slot at `off`;
none if a slot is not in them. -/
def loadSlotsOf (disk : σ) (idx : List U8) : Nat → Nat → MemState → Option MemState
  | 0, _, s => some s
  | count + 1, off, s =>
    if off + 256 ≤ idx.length then
      loadSlotsOf disk idx count (off + 256) (loadSlot fs disk ((idx.drop off).take 256) s)
    else none

/-- `aion_memory_load_all` when it looks at nothing but the bytes that were read from the
index; none if it needs others. -/
def loadAllOf (disk : σ) (s : MemState) : Option MemState :=
  match fs.read disk indexPath with
  | none => some s
  | some data =>
    let idx := data.take s.indexBuf.length
    if idx.length < 8 then none
    else
      let count := readField idx 0 8
      let count := if count > maxMemories then maxMemories else count
      loadSlotsOf fs disk idx count 8 { s with indexBuf := overwrite idx s.indexBuf }

variable {fs}

theorem loadSlot_congr {disk : σ} {p q : List U8} (h : p.take 255 = q.take 255) (s : MemState) :
    loadSlot fs disk p s = loadSlot fs disk q s := by
  unfold loadSlot
  rw [h]

/-- As long as the slots are in the index, the loop takes them from it; after that it takes
what is in the buffer. -/
theorem loadSlotsOf_spec (disk : σ) (idx old : List U8) : ∀ (count off : Nat) (s : MemState),
    (off + 256 * count ≤ idx.length ∨ count = 0 →
      loadSlotsOf fs disk idx count off s = some (loadSlots fs disk count ((overwrite idx old).drop off) s)) ∧
    (¬ (off + 256 * count ≤ idx.length ∨ count = 0) → loadSlotsOf fs disk idx count off s = none) := by
  intro count
  induction count with
  | zero => intro off s; exact ⟨fun _ => rfl, fun h => absurd (.inr rfl) h⟩
  | succ count ih =>
    intro off s
    rw [loadSlotsOf, loadSlots]
    by_cases hslot : off + 256 ≤ idx.length
    · have hsame : loadSlot fs disk ((idx.drop off).take 256) s =
          loadSlot fs disk ((overwrite idx old).drop off) s := by
        apply loadSlot_congr
        rw [List.take_take, take_drop_overwrite (by omega)]
        rfl
      obtain ⟨hin, hout⟩ := ih (off + 256) (loadSlot fs disk ((overwrite idx old).drop off) s)
      rw [if_pos hslot, hsame, List.drop_drop]
      refine ⟨fun h => hin (by omega), fun h => hout (by omega)⟩
    · rw [if_neg hslot]
      refine ⟨fun h => by omega, fun _ => rfl⟩

/-- The index holds as many slots as it counts. -/
def HoldsSlots (data : List U8) (cap : Nat) : Prop :=
  8 + 256 * min (readField data 0 8) 65536 ≤ min data.length cap

theorem loadAllOf_spec {disk : σ} {data : List U8} (h : fs.read disk indexPath = some data) (s : MemState) :
    (HoldsSlots data s.indexBuf.length → loadAllOf fs disk s = some (aionMemoryLoadAll fs disk s)) ∧
      (¬ HoldsSlots data s.indexBuf.length → loadAllOf fs disk s = none) := by
  have hlen : (data.take s.indexBuf.length).length = min s.indexBuf.length data.length := List.length_take
  have hclamp : ∀ n : Nat, (if n > maxMemories then maxMemories else n) = min n 65536 := by
    intro n
    rw [maxMemories_eq]
    split <;> omega
  unfold loadAllOf aionMemoryLoadAll HoldsSlots
  simp only [h, hclamp]
  by_cases hshort : (data.take s.indexBuf.length).length < 8
  · rw [if_pos hshort]
    exact ⟨fun hfit => by omega, fun _ => rfl⟩
  · have hfield : readField (data.take s.indexBuf.length) 0 8 = readField data 0 8 :=
      readField_take (by omega)
    have hbuf : readField (overwrite (data.take s.indexBuf.length) s.indexBuf) 0 8 =
        readField data 0 8 := by
      rw [readField_overwrite (by omega), hfield]
    obtain ⟨hin, hout⟩ := @loadSlotsOf_spec _ fs disk (data.take s.indexBuf.length) s.indexBuf
      (min (readField data 0 8) 65536) 8
      { s with indexBuf := overwrite (data.take s.indexBuf.length) s.indexBuf }
    rw [if_neg hshort, hfield, hbuf]
    exact ⟨fun hfit => hin (by omega), fun hfit => hout (by omega)⟩

/-- **The index's own bytes.**  A load takes the count and the slots from the bytes that were
read from the index if and only if as many slots as the count says are in them. -/
theorem index_own_bytes_iff {disk : σ} {data : List U8} (h : fs.read disk indexPath = some data)
    (s : MemState) :
    loadAllOf fs disk s = some (aionMemoryLoadAll fs disk s) ↔ HoldsSlots data s.indexBuf.length := by
  obtain ⟨hin, hout⟩ := loadAllOf_spec h s
  refine ⟨fun hload => ?_, hin⟩
  by_contra hshort
  rw [hout hshort] at hload
  cases hload

end Index

def bareIndex : List U8 := leBytes 8 1

def bareIndexDisk : Path → Option (List U8) := fun p => if p = indexPath then some bareIndex else none

theorem read_bareIndex : sampleFs.read bareIndexDisk indexPath = some bareIndex := by
  rw [sampleFs, FileStore.ofFun_read, bareIndexDisk, if_pos rfl]

theorem index_own_bytes_sample :
    loadAllOf sampleFs bareIndexDisk (MemState.powerOn sizeofIndexBuf sampleHeap) =
        some (aionMemoryLoadAll sampleFs bareIndexDisk (MemState.powerOn sizeofIndexBuf sampleHeap)) ↔
      HoldsSlots bareIndex (MemState.powerOn sizeofIndexBuf sampleHeap).indexBuf.length :=
  index_own_bytes_iff read_bareIndex _

theorem bare_index_slot_read :
    loadAllOf sampleFs bareIndexDisk (MemState.powerOn sizeofIndexBuf sampleHeap) ≠
      some (aionMemoryLoadAll sampleFs bareIndexDisk (MemState.powerOn sizeofIndexBuf sampleHeap)) := by
  have hlen : bareIndex.length = 8 := length_leBytes 8 1
  have hcount : readField bareIndex 0 8 = 1 := by decide
  have hshort : ¬ HoldsSlots bareIndex (MemState.powerOn sizeofIndexBuf sampleHeap).indexBuf.length := by
    rw [HoldsSlots, hlen, hcount]
    omega
  rw [(loadAllOf_spec read_bareIndex _).2 hshort]
  exact (Option.some_ne_none _).symm

end AionOs
