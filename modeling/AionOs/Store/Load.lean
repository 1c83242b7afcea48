import AionOs.Store.AionMemory

/-!
# Reading the store

What `aion_memory_load_all` finds depends on the disk alone: `diskMemories` is that list.

* `bootMemory_spec`: after the start the entries in RAM are the memories on the disk.
* `diskPaths_encodeIndex`: the names in an index that a flush wrote.
* `readAll_written`: records that a flush wrote are read back.
-/

namespace AionOs

open Bytes

variable {σ : Type} (fs : FileSystem σ)

/-! ### The memories on a disk -/

def slotPaths : Nat → List U8 → List Path
  | 0, _ => []
  | count + 1, p => cstr (p.take 255) :: slotPaths count (p.drop 256)

/-- The records under some names, read one after the other into one buffer. -/
def readAll (disk : σ) : List Path → RecordBuf → List Memory × RecordBuf
  | [], buf => ([], buf)
  | p :: ps, buf =>
    match fs.read disk p with
    | none => readAll disk ps buf
    | some data =>
      let r := readRecord buf data
      let rest := readAll disk ps r.2
      (r.1.toList ++ rest.1, rest.2)

theorem readAll_none {disk : σ} {p : Path} {ps : List Path} {buf : RecordBuf}
    (h : fs.read disk p = none) : readAll fs disk (p :: ps) buf = readAll fs disk ps buf := by
  rw [readAll]
  simp only [h]

theorem readAll_record {disk : σ} {p : Path} {ps : List Path} {buf : RecordBuf} {m : Memory}
    (h : fs.read disk p = some (encodeRecord m)) : (readAll fs disk (p :: ps) buf).1 =
      m :: (readAll fs disk ps (readRecord buf (encodeRecord m)).2).1 := by
  rw [readAll]
  simp only [h, readRecord_encode, Option.toList_some, List.singleton_append]

def indexOf (cap : Nat) (data : List U8) : List U8 := overwrite (data.take cap) (List.replicate cap 0)

def indexCount (cap : Nat) (data : List U8) : Nat :=
  if readField (indexOf cap data) 0 8 > maxMemories then maxMemories
  else readField (indexOf cap data) 0 8

def diskPaths (cap : Nat) (disk : σ) : List Path :=
  match fs.read disk indexPath with
  | none => []
  | some data => slotPaths (indexCount cap data) ((indexOf cap data).drop 8)

/-- The memories that a start finds on a disk. -/
def diskMemories (cap : Nat) (disk : σ) : List Memory :=
  (readAll fs disk (diskPaths fs cap disk) RecordBuf.bss).1

def requests (ms : List Memory) : List Nat := ms.map fun m => m.contentLen + 1

theorem requests_append (ms ns : List Memory) : requests (ms ++ ns) = requests ms ++ requests ns :=
  List.map_append

/-! ### The start -/

theorem memStrdup_eq (heap : Heap) (s : MemText) : memStrdup heap s =
    (if (kmalloc heap (BitVec.ofNat 64 (s.bytes.length + 1))).1 = 0 then none else some s,
      (kmalloc heap (BitVec.ofNat 64 (s.bytes.length + 1))).2) := rfl

theorem memStrdup_of_zero {heap : Heap} {s : MemText}
    (h : (kmalloc heap (BitVec.ofNat 64 (s.bytes.length + 1))).1 = 0) :
    memStrdup heap s = (none, (kmalloc heap (BitVec.ofNat 64 (s.bytes.length + 1))).2) := by
  rw [memStrdup_eq, if_pos h]

theorem memStrdup_of_ne_zero {heap : Heap} {s : MemText}
    (h : (kmalloc heap (BitVec.ofNat 64 (s.bytes.length + 1))).1 ≠ 0) :
    memStrdup heap s = (some s, (kmalloc heap (BitVec.ofNat 64 (s.bytes.length + 1))).2) := by
  rw [memStrdup_eq, if_neg h]

theorem loadSlot_none {disk : σ} {p : List U8} {s : MemState}
    (h : fs.read disk (cstr (p.take 255)) = none) : loadSlot fs disk p s = s := by
  rw [loadSlot]
  simp only [h]

theorem loadSlot_skip {disk : σ} {p data : List U8} {s : MemState}
    (h : fs.read disk (cstr (p.take 255)) = some data)
    (hr : (readRecord s.recordBuf data).1 = none) :
    loadSlot fs disk p s = { s with recordBuf := (readRecord s.recordBuf data).2 } := by
  rw [loadSlot]
  simp only [h, hr]

theorem loadSlot_full {disk : σ} {p data : List U8} {s : MemState} {m : Memory}
    (h : fs.read disk (cstr (p.take 255)) = some data)
    (hr : (readRecord s.recordBuf data).1 = some m)
    (hk : (kmalloc s.heap (BitVec.ofNat 64 (m.contentLen + 1))).1 = 0) :
    loadSlot fs disk p s = { s with
      recordBuf := (readRecord s.recordBuf data).2
      heap := (kmalloc s.heap (BitVec.ofNat 64 (m.contentLen + 1))).2 } := by
  rw [loadSlot]
  simp only [h, hr, memStrdup_of_zero hk]
  rfl

theorem loadSlot_some {disk : σ} {p data : List U8} {s : MemState} {m : Memory}
    (h : fs.read disk (cstr (p.take 255)) = some data)
    (hr : (readRecord s.recordBuf data).1 = some m)
    (hk : (kmalloc s.heap (BitVec.ofNat 64 (m.contentLen + 1))).1 ≠ 0) :
    loadSlot fs disk p s = { s with
      recordBuf := (readRecord s.recordBuf data).2
      memStore := s.memStore ++ [m.entry false]
      heap := (kmalloc s.heap (BitVec.ofNat 64 (m.contentLen + 1))).2 } := by
  rw [loadSlot]
  simp only [h, hr, memStrdup_of_ne_zero hk]
  rfl

theorem loadSlots_spec (disk : σ) : ∀ (count : Nat) (p : List U8) (s : MemState),
    s.heap.Serves (requests (readAll fs disk (slotPaths count p) s.recordBuf).1) →
    let t := loadSlots fs disk count p s
    t.memStore = s.memStore ++
      (readAll fs disk (slotPaths count p) s.recordBuf).1.map (Memory.entry false) ∧
      t.memDirty = s.memDirty ∧
      t.heap = s.heap.after (requests (readAll fs disk (slotPaths count p) s.recordBuf).1) := by
  intro count
  induction count with
  | zero => intro p s _; exact ⟨(List.append_nil _).symm, rfl, rfl⟩
  | succ count ih =>
    intro p s hs
    rw [slotPaths, readAll] at hs ⊢
    rw [loadSlots]
    cases hread : fs.read disk (cstr (p.take 255)) with
    | none =>
      rw [hread] at hs
      rw [loadSlot_none fs hread]
      exact ih (p.drop 256) s hs
    | some data =>
      rw [hread] at hs
      cases hr : (readRecord s.recordBuf data).1 with
      | none =>
        simp only [hr, Option.toList_none, List.nil_append] at hs ⊢
        rw [loadSlot_skip fs hread hr]
        exact ih (p.drop 256) { s with recordBuf := (readRecord s.recordBuf data).2 } hs
      | some m =>
        simp only [hr, Option.toList_some, List.singleton_append] at hs ⊢
        obtain ⟨hk, hs⟩ := hs
        obtain ⟨h1, h2, h3⟩ := ih (p.drop 256) { s with
          recordBuf := (readRecord s.recordBuf data).2
          memStore := s.memStore ++ [m.entry false]
          heap := (kmalloc s.heap (BitVec.ofNat 64 (m.contentLen + 1))).2 } hs
        rw [loadSlot_some fs hread hr hk]
        exact ⟨h1.trans (List.append_assoc _ _ _), h2, h3⟩

/-- **After the start the entries in RAM are the memories on the disk**, all clean. -/
theorem bootMemory_spec {cap : Nat} {disk : σ} {heap : Heap}
    (h : heap.Serves (requests (diskMemories fs cap disk))) :
    (bootMemory fs cap disk heap).memStore = (diskMemories fs cap disk).map (Memory.entry false) ∧
      (bootMemory fs cap disk heap).memDirty = 0 ∧
      (bootMemory fs cap disk heap).heap = heap.after (requests (diskMemories fs cap disk)) := by
  cases hread : fs.read disk indexPath with
  | none =>
    have hno : aionMemoryHasStore fs disk = false := by rw [aionMemoryHasStore, hread]; rfl
    have hpaths : diskPaths fs cap disk = [] := by rw [diskPaths]; simp only [hread]
    rw [bootMemory, hno, diskMemories, hpaths]
    exact ⟨rfl, rfl, rfl⟩
  | some data =>
    have hyes : aionMemoryHasStore fs disk = true := by rw [aionMemoryHasStore, hread]; rfl
    have hpaths : diskPaths fs cap disk =
        slotPaths (indexCount cap data) ((indexOf cap data).drop 8) := by
      rw [diskPaths]
      simp only [hread]
    set s0 := aionMemoryInit fs disk (MemState.powerOn cap heap) with hs0
    have hlen : s0.indexBuf.length = cap := List.length_replicate
    have hload : aionMemoryLoadAll fs disk s0 = loadSlots fs disk (indexCount cap data)
        ((indexOf cap data).drop 8) { s0 with indexBuf := indexOf cap data } := by
      rw [aionMemoryLoadAll]
      simp only [hread, hlen]
      rfl
    have hboot : bootMemory fs cap disk heap = aionMemoryLoadAll fs disk s0 := by
      rw [bootMemory, hyes]
      rfl
    rw [diskMemories, hpaths] at h ⊢
    rw [hboot, hload]
    exact loadSlots_spec fs disk _ _ { s0 with indexBuf := indexOf cap data } h

theorem bootMemory_memories {cap : Nat} {disk : σ} {heap : Heap}
    (h : heap.Serves (requests (diskMemories fs cap disk))) :
    (bootMemory fs cap disk heap).memories = diskMemories fs cap disk := by
  rw [MemState.memories, (bootMemory_spec fs h).1, List.map_map]
  exact List.map_id _

/-! ### An index that a flush wrote -/

def memPaths : Nat → List Memory → List Path
  | _, [] => []
  | i, m :: ms => memPath m.type i :: memPaths (i + 1) ms

theorem memPaths_append : ∀ (ms ns : List Memory) (i : Nat),
    memPaths i (ms ++ ns) = memPaths i ms ++ memPaths (i + ms.length) ns := by
  intro ms ns
  induction ms with
  | nil => intro i; rfl
  | cons m ms ih =>
    intro i
    rw [List.cons_append, memPaths, memPaths, ih, List.cons_append, List.length_cons,
      Nat.add_assoc, Nat.add_comm 1]

theorem mem_memPaths {q : Path} : ∀ {ms : List Memory} {i : Nat}, q ∈ memPaths i ms →
    ∃ k m, ms[k]? = some m ∧ q = memPath m.type (i + k) := by
  intro ms
  induction ms with
  | nil => intro i h; cases h
  | cons m ms ih =>
    intro i h
    rcases List.mem_cons.mp h with rfl | h
    · exact ⟨0, m, rfl, rfl⟩
    · obtain ⟨k, n, hk, hq⟩ := ih h
      exact ⟨k + 1, n, hk, by rw [hq, Nat.add_right_comm, Nat.add_assoc]⟩

theorem take_pathArray (name : Path) (h : name.length < 255) (stack : Nat → U8) :
    (pathArray name stack).length = 256 ∧
      ∃ junk, (pathArray name stack).take 255 = name ++ 0 :: junk := by
  constructor
  · rw [pathArray, List.length_append, List.length_cons, List.length_map, List.length_range]
    omega
  · refine ⟨((List.range (256 - (name.length + 1))).map stack).take (255 - name.length - 1), ?_⟩
    rw [pathArray, List.take_append, List.take_of_length_le (by omega),
      show 255 - name.length = 255 - name.length - 1 + 1 by omega, List.take_succ_cons]
    rfl

theorem length_indexSlot (m : Memory) {i : Nat} (h : i < 10 ^ 20) (stack : Nat → U8) :
    (indexSlot m i stack).length = 256 := by
  have hname := length_memPath_le m.type h
  have harr := (take_pathArray (memPath m.type i) (by omega) stack).1
  rw [indexSlot, List.length_append, List.length_take, harr, List.length_singleton]
  rfl

theorem cstr_indexSlot (m : Memory) {i : Nat} (h : i < 10 ^ 20) (stack : Nat → U8)
    (rest : List U8) : cstr ((indexSlot m i stack ++ rest).take 255) = memPath m.type i := by
  have hname := length_memPath_le m.type h
  obtain ⟨harr, junk, htake⟩ := take_pathArray (memPath m.type i) (by omega) stack
  have hlen : ((pathArray (memPath m.type i) stack).take 255).length = 255 := by
    rw [List.length_take, harr]
    rfl
  rw [indexSlot, List.append_assoc, List.take_append_of_le_length (by omega),
    List.take_of_length_le (by omega), htake]
  exact cstr_append_zero memPath_ne_zero junk

theorem slotPaths_indexSlots (stack : Nat → Nat → U8) : ∀ (ms : List Memory) (i : Nat)
    (rest : List U8), i + ms.length ≤ 10 ^ 20 →
    slotPaths ms.length (indexSlots stack i ms ++ rest) = memPaths i ms := by
  intro ms
  induction ms with
  | nil => intro i rest _; rfl
  | cons m ms ih =>
    intro i rest h
    rw [List.length_cons] at h ⊢
    rw [slotPaths, indexSlots, List.append_assoc, cstr_indexSlot m (by omega) (stack i),
      List.drop_left' (length_indexSlot m (by omega) (stack i)), ih (i + 1) rest (by omega), memPaths]

theorem length_indexSlots (stack : Nat → Nat → U8) : ∀ (ms : List Memory) (i : Nat),
    i + ms.length ≤ 10 ^ 20 → (indexSlots stack i ms).length = 256 * ms.length := by
  intro ms
  induction ms with
  | nil => intro i _; rfl
  | cons m ms ih =>
    intro i h
    rw [List.length_cons] at h ⊢
    rw [indexSlots, List.length_append, length_indexSlot m (by omega), ih (i + 1) (by omega)]
    omega

/-- **The names in an index that a flush wrote**, if the buffer holds the index. -/
theorem diskPaths_encodeIndex {cap : Nat} {disk : σ} {stack : Nat → Nat → U8} {ms : List Memory}
    (h : fs.read disk indexPath = some (encodeIndex stack ms)) (hmax : ms.length ≤ maxMemories)
    (hcap : 8 + 256 * ms.length ≤ cap) : diskPaths fs cap disk = memPaths 0 ms := by
  rw [maxMemories_eq] at hmax
  have hslots := length_indexSlots stack ms 0 (by omega)
  have hlen : (encodeIndex stack ms).length = 8 + 256 * ms.length := by
    rw [encodeIndex, List.length_append, length_leBytes, hslots]
  have htake : (encodeIndex stack ms).take cap = encodeIndex stack ms :=
    List.take_of_length_le (by omega)
  have hcount : indexCount cap (encodeIndex stack ms) = ms.length := by
    have hfield : readField (indexOf cap (encodeIndex stack ms)) 0 8 = ms.length := by
      rw [indexOf, htake, readField_overwrite (by omega), readField, List.drop_zero, encodeIndex,
        List.take_left' (length_leBytes 8 _), ofLE_leBytes _ _ (by omega)]
    rw [indexCount, hfield, if_neg (by rw [maxMemories_eq]; omega)]
  have hbuf : (indexOf cap (encodeIndex stack ms)).drop 8 =
      indexSlots stack 0 ms ++ (List.replicate cap 0).drop (encodeIndex stack ms).length := by
    have hdrop : (encodeIndex stack ms).drop 8 = indexSlots stack 0 ms :=
      List.drop_left' (length_leBytes 8 _)
    rw [indexOf, htake, overwrite, List.drop_append_of_le_length (by omega), hdrop]
  rw [diskPaths]
  simp only [h]
  rw [hcount, hbuf, slotPaths_indexSlots stack ms 0 _ (by omega)]

/-! ### Reading records -/

theorem readAll_append (disk : σ) : ∀ (ps qs : List Path) (buf : RecordBuf),
    readAll fs disk (ps ++ qs) buf =
      ((readAll fs disk ps buf).1 ++ (readAll fs disk qs (readAll fs disk ps buf).2).1,
        (readAll fs disk qs (readAll fs disk ps buf).2).2) := by
  intro ps qs
  induction ps with
  | nil => intro buf; rfl
  | cons p ps ih =>
    intro buf
    rw [List.cons_append, readAll, readAll]
    cases fs.read disk p with
    | none => exact ih buf
    | some data => simp only [ih, List.append_assoc]

theorem readAll_congr {disk disk' : σ} : ∀ (ps : List Path) (buf : RecordBuf),
    (∀ p ∈ ps, fs.read disk' p = fs.read disk p) → readAll fs disk' ps buf = readAll fs disk ps buf := by
  intro ps
  induction ps with
  | nil => intro buf _; rfl
  | cons p ps ih =>
    intro buf h
    rw [readAll, readAll, h p List.mem_cons_self]
    have hrest : ∀ b, readAll fs disk' ps b = readAll fs disk ps b := fun b =>
      ih b fun q hq => h q (List.mem_cons_of_mem p hq)
    cases fs.read disk p with
    | none => exact hrest buf
    | some data => simp only [hrest]

/-- The files of the memories from slot `i` on hold their records. -/
def Written (disk : σ) (i : Nat) (ms : List Memory) : Prop :=
  ∀ k m, ms[k]? = some m → fs.read disk (memPath m.type (i + k)) = some (encodeRecord m)

/-- **Records that a flush wrote are read back**, whatever the buffer held. -/
theorem readAll_written {disk : σ} : ∀ (ms : List Memory) (i : Nat) (buf : RecordBuf),
    Written fs disk i ms → (readAll fs disk (memPaths i ms) buf).1 = ms := by
  intro ms
  induction ms with
  | nil => intro i buf _; rfl
  | cons m ms ih =>
    intro i buf h
    have hfirst := h 0 m rfl
    rw [Nat.add_zero] at hfirst
    have hrest : Written fs disk (i + 1) ms := by
      intro k n hk
      have := h (k + 1) n hk
      rwa [Nat.add_assoc, Nat.add_comm 1]
    rw [memPaths, readAll_record fs hfirst, ih (i + 1) _ hrest]

end AionOs
