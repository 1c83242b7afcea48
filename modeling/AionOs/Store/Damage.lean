import AionOs.Store.Persist

/-!
# A damaged disk

Runs of calls after a start from any disk.  Records that are skipped leave the loaded
entries in lower slots than their files, and a flush does not write clean entries.

* `OnDisk`: what the disk holds after a flush, against the disk at the start.
* `damage_reload`: what the next start finds after stores and a flush.
* `damage_coherent_iff`: it finds what was in RAM exactly when nothing was stored or the
  loaded entries are in the files of their slots.
-/

namespace AionOs

section Damage

variable {σ : Type} (fs : FileSystem σ)

/-- `kmalloc` does not fail, and the index buffer has room. -/
def RoomyCall (s : StoreSys σ) (c : StoreCall) : Prop :=
  c.Served s.ram ∧ s.ram.memStore.length + c.stored.toList.length ≤ indexRoom

/-! ### The disk under a run -/

/-- The disk when the memories `old` were flushed behind the loaded ones: the files of the
slots before them are those of the first disk. -/
structure OnDisk (disk0 : σ) (loaded old : List Memory) (disk : σ) : Prop where
  frame : ∀ t k, k < loaded.length → fs.read disk (memPath t k) = fs.read disk0 (memPath t k)
  written : Written fs disk loaded.length old
  index : old = [] ∧ disk = disk0 ∨
    old ≠ [] ∧ ∃ stack, fs.read disk indexPath = some (encodeIndex stack (loaded ++ old))

/-- A run that stored the memories `stored`. -/
structure DamageInv (disk0 : σ) (loaded stored : List Memory) (s : StoreSys σ) : Prop where
  flushed : ∃ old, OnDisk fs disk0 loaded old s.disk ∧ RamOver (loaded ++ old) s.ram
  memories : s.ram.memories = loaded ++ stored

variable {fs}

/-- If nothing is new since the last flush, all that was stored is on the disk. -/
theorem RamOver.memories_of_clean {ms : List Memory} {r : MemState} (h : RamOver ms r)
    (hd : r.memDirty = 0) : r.memories = ms := by
  obtain ⟨ns, hstore, hdirty⟩ := h.fresh
  have hroom := h.room
  rw [hstore, List.length_append, List.length_map, List.length_map, indexRoom_eq] at hroom
  have hzero : ns.length = 0 := by
    have := congrArg BitVec.toNat (hdirty.symm.trans hd)
    rw [BitVec.toNat_ofNat, show (0 : U64).toNat = 0 from rfl] at this
    omega
  rw [MemState.memories, hstore, List.length_eq_zero_iff.mp hzero, List.map_nil, List.append_nil,
    List.map_map]
  exact List.map_id _

theorem OnDisk.flush {disk0 disk : σ} {loaded old stored : List Memory} {r : MemState}
    (h : OnDisk fs disk0 loaded old disk) (hram : RamOver (loaded ++ old) r)
    (hmem : r.memories = loaded ++ stored) (hd : r.memDirty ≠ 0) (stack : Nat → Nat → U8) :
    OnDisk fs disk0 loaded stored (fs.applyAll disk (flushWrites stack r)) := by
  refine ⟨fun t k hk => ?_, fun k m hm => ?_, .inr ⟨?_, stack, ?_⟩⟩
  · refine (read_flush_clean fs disk stack fun e he => ?_).trans (h.frame t k hk)
    rw [(hram.get he).1, List.length_append]
    exact decide_eq_false (by omega)
  · have hget : r.memories[loaded.length + k]? = some m := by
      rw [hmem, List.getElem?_append_right (by omega), Nat.add_sub_cancel_left]
      exact hm
    obtain ⟨e, he, rfl⟩ := memories_get hget
    cases hdirty : e.dirty with
    | true => exact read_flush_dirty fs disk stack he hdirty
    | false =>
      have hold := (hram.get he).2 hdirty
      rw [List.getElem?_append_right (by omega), Nat.add_sub_cancel_left] at hold
      rw [read_flush_clean fs disk stack fun e' he' => by
        rw [he] at he'
        rwa [← Option.some.inj he']]
      exact h.written k _ hold
  · rintro rfl
    obtain ⟨ns, hstore, hdirty⟩ := hram.fresh
    have hlen := congrArg List.length hmem
    rw [memories_length, hstore, List.length_append, List.length_map, List.length_map,
      List.length_append, List.append_nil] at hlen
    have hns : ns.length = 0 := by omega
    rw [hns] at hdirty
    exact hd hdirty
  · rw [← hmem]
    exact read_flush_index fs disk stack r

theorem damageInv_step {disk0 : σ} {loaded stored : List Memory} {s : StoreSys σ} {c : StoreCall}
    (h : DamageInv fs disk0 loaded stored s) (hl : RoomyCall s c) :
    DamageInv fs disk0 loaded (stored ++ c.stored.toList) (s.call fs c) := by
  obtain ⟨⟨old, hdisk, hram⟩, hmem⟩ := h
  obtain ⟨hserved, hroom⟩ := hl
  have hpushed := hram.pushed hroom
  have hmem' : (s.ram.pushed c).memories = loaded ++ (stored ++ c.stored.toList) := by
    rw [indexRoom_eq] at hroom
    rw [memories_pushed (by rw [maxMemories_eq]; omega), hmem, List.append_assoc]
  rcases exec_cases hserved with ⟨he, _⟩ | ⟨hd, stack, he⟩
  · rw [StoreSys.call, he]
    exact ⟨⟨old, hdisk, hpushed⟩, hmem'⟩
  · rw [StoreSys.call, he]
    refine ⟨⟨_, hdisk.flush hpushed hmem' hd stack, ?_⟩, ?_⟩
    · rw [← hmem']
      exact hpushed.flushed
    · rw [flushed_memories]
      exact hmem'

theorem damageInv_run {disk0 : σ} {loaded : List Memory} : ∀ (calls : List StoreCall)
    (stored : List Memory) (s : StoreSys σ), DamageInv fs disk0 loaded stored s →
    (callMachine fs RoomyCall).Legal s calls →
    DamageInv fs disk0 loaded (stored ++ calls.filterMap StoreCall.stored)
      ((callMachine fs RoomyCall).run s calls) := by
  intro calls
  induction calls with
  | nil =>
    intro stored s h _
    rw [List.filterMap_nil, List.append_nil]
    exact h
  | cons c calls ih =>
    intro stored s h hl
    rw [filterMap_cons_toList, ← List.append_assoc]
    exact ih _ _ (damageInv_step h hl.1) hl.2

theorem length_readAll_le (disk : σ) : ∀ (ps : List Path) (buf : RecordBuf),
    (readAll fs disk ps buf).1.length ≤ ps.length := by
  intro ps
  induction ps with
  | nil => intro buf; exact Nat.le_refl _
  | cons p ps ih =>
    intro buf
    rw [readAll]
    cases fs.read disk p with
    | none => exact (ih buf).trans (Nat.le_succ _)
    | some data =>
      simp only [List.length_append, List.length_cons]
      have hone : (readRecord buf data).1.toList.length ≤ 1 := by
        cases (readRecord buf data).1 <;> simp
      have := ih (readRecord buf data).2
      omega

theorem damageInv_start {disk : σ} {heap : Heap}
    (hserves : heap.Serves (requests (diskMemories fs sizeofIndexBuf disk)))
    (hindex : (diskPaths fs sizeofIndexBuf disk).length ≤ indexRoom) :
    DamageInv fs disk (diskMemories fs sizeofIndexBuf disk) []
      (StoreSys.start fs sizeofIndexBuf disk heap) := by
  obtain ⟨hstore, hdirty, _⟩ := bootMemory_spec fs hserves
  have hle : (diskMemories fs sizeofIndexBuf disk).length ≤ (diskPaths fs sizeofIndexBuf disk).length :=
    length_readAll_le disk _ _
  refine ⟨⟨[], ⟨fun _ _ _ => rfl, fun k m hm => (by cases hm), .inl ⟨rfl, rfl⟩⟩, ⟨⟨[], ?_, hdirty⟩, ?_⟩⟩, ?_⟩
  · rw [List.append_nil]
    exact hstore.trans (List.append_nil _).symm
  · exact (congrArg List.length hstore).trans_le (by rw [List.length_map]; exact hle.trans hindex)
  · rw [List.append_nil]
    exact bootMemory_memories fs hserves

variable (fs)

/-- The records in the files that the slots and types of the memories on a disk name. -/
def slotMemories (disk : σ) : List Memory :=
  (readAll fs disk (memPaths 0 (diskMemories fs sizeofIndexBuf disk)) RecordBuf.bss).1

/-- **What the next start finds** after stores and a flush: the records in the files of the
first slots, as the disk was at the start, and what was stored. -/
theorem damage_reload {disk : σ} {heap : Heap}
    (hserves : heap.Serves (requests (diskMemories fs sizeofIndexBuf disk)))
    (hindex : (diskPaths fs sizeofIndexBuf disk).length ≤ indexRoom) (calls : List StoreCall)
    (hl : (callMachine fs RoomyCall).Legal (StoreSys.start fs sizeofIndexBuf disk heap) calls)
    (stack : Nat → Nat → U8) :
    let s := (callMachine fs RoomyCall).run (StoreSys.start fs sizeofIndexBuf disk heap)
      (calls ++ [.flush stack])
    let stored := calls.filterMap StoreCall.stored
    s.ram.memories = diskMemories fs sizeofIndexBuf disk ++ stored ∧
      diskMemories fs sizeofIndexBuf s.disk =
        if stored = [] then diskMemories fs sizeofIndexBuf disk else slotMemories fs disk ++ stored := by
  intro s stored
  have hinv := damageInv_run calls [] _ (damageInv_start hserves hindex) hl
  set t := (callMachine fs RoomyCall).run (StoreSys.start fs sizeofIndexBuf disk heap) calls with ht
  have hs : s = t.call fs (.flush stack) := Machine.run_concat _ _ _ _
  obtain ⟨⟨old, hdisk, hram⟩, hmem⟩ := hinv
  rw [List.nil_append] at hmem
  -- after the flush all that was stored is on the disk
  have hon : OnDisk fs disk (diskMemories fs sizeofIndexBuf disk) stored s.disk ∧
      s.ram.memories = diskMemories fs sizeofIndexBuf disk ++ stored ∧
      (diskMemories fs sizeofIndexBuf disk ++ stored).length ≤ indexRoom := by
    have hroom := hram.room
    rw [← memories_length, hmem] at hroom
    rw [hs, StoreSys.call, StoreCall.exec]
    by_cases hd : t.ram.memDirty = 0
    · have hold : old = stored :=
        List.append_cancel_left ((hram.memories_of_clean hd).symm.trans hmem)
      rw [aionMemoryFlush_clean hd]
      exact ⟨hold ▸ hdisk, hmem, hroom⟩
    · rw [aionMemoryFlush_dirty hd, flushed_memories]
      exact ⟨hdisk.flush hram hmem hd stack, hmem, hroom⟩
  obtain ⟨hon, hsmem, hroom⟩ := hon
  refine ⟨hsmem, ?_⟩
  rcases hon.index with ⟨hnil, hsame⟩ | ⟨hne, st, hidx⟩
  · rw [if_pos hnil, hsame]
  · rw [indexRoom_eq] at hroom
    have hcap := sizeofIndexBuf_eq
    rw [if_neg hne, diskMemories, diskPaths_encodeIndex fs hidx (by rw [maxMemories_eq]; omega)
      (by omega), memPaths_append, readAll_append, Nat.zero_add]
    have hfirst : readAll fs s.disk (memPaths 0 (diskMemories fs sizeofIndexBuf disk)) RecordBuf.bss =
        readAll fs disk (memPaths 0 (diskMemories fs sizeofIndexBuf disk)) RecordBuf.bss := by
      refine readAll_congr fs _ _ fun p hp => ?_
      obtain ⟨k, m, hk, rfl⟩ := mem_memPaths hp
      rw [Nat.zero_add]
      exact hon.frame _ _ (List.getElem?_eq_some_iff.mp hk).1
    rw [hfirst, readAll_written fs stored _ _ hon.written]
    rfl

/-- **When a damaged disk stays coherent.**  After a start from any disk, calls and a
flush, the next start loads exactly what was in RAM, if and only if nothing was stored or
the files that the slots of the loaded memories name hold these memories. -/
theorem damage_coherent_iff {disk : σ} {heap heap' : Heap}
    (hserves : heap.Serves (requests (diskMemories fs sizeofIndexBuf disk)))
    (hindex : (diskPaths fs sizeofIndexBuf disk).length ≤ indexRoom) (calls : List StoreCall)
    (hl : (callMachine fs RoomyCall).Legal (StoreSys.start fs sizeofIndexBuf disk heap) calls)
    (stack : Nat → Nat → U8)
    (hserves' : heap'.Serves (requests (diskMemories fs sizeofIndexBuf
      ((callMachine fs RoomyCall).run (StoreSys.start fs sizeofIndexBuf disk heap)
        (calls ++ [.flush stack])).disk))) :
    let s := (callMachine fs RoomyCall).run (StoreSys.start fs sizeofIndexBuf disk heap)
      (calls ++ [.flush stack])
    (bootMemory fs sizeofIndexBuf s.disk heap').memories = s.ram.memories ↔
      (∀ c ∈ calls, c.stored = none) ∨ slotMemories fs disk = diskMemories fs sizeofIndexBuf disk := by
  intro s
  obtain ⟨hmem, hdisk⟩ := damage_reload fs hserves hindex calls hl stack
  have hboot := bootMemory_memories fs hserves'
  have hmem' : s.ram.memories = _ := hmem
  have hdisk' : diskMemories fs sizeofIndexBuf s.disk = _ := hdisk
  rw [hboot, hmem', hdisk', ← List.filterMap_eq_nil_iff]
  by_cases hnil : calls.filterMap StoreCall.stored = []
  · rw [if_pos hnil, hnil, List.append_nil]
    exact ⟨fun _ => .inl rfl, fun _ => rfl⟩
  · rw [if_neg hnil, List.append_cancel_right_eq]
    exact ⟨.inr, fun h => h.resolve_left hnil⟩

end Damage

/-! ### A damaged disk -/

def sampleMemory (type : U8) (tick : U64) : Memory := ⟨type, 0, tick, ⟨[104, 105], by decide⟩⟩

/-- An index of two semantic memories; the record of the first is missing. -/
def damagedDisk : Path → Option (List U8) := fun p =>
  if p = indexPath then
    some (encodeIndex sampleStack [sampleMemory memSemantic 1, sampleMemory memSemantic 2])
  else if p = memPath memSemantic 1 then some (encodeRecord (sampleMemory memSemantic 2))
  else none

theorem damagedDisk_zero : sampleFs.read damagedDisk (memPath memSemantic 0) = none := by
  have hslot : memPath memSemantic 0 ≠ memPath memSemantic 1 := fun h => by
    have := (memPath_inj h).1
    omega
  rw [sampleFs, FileStore.ofFun_read, damagedDisk, if_neg (memPath_ne_indexPath _ _), if_neg hslot]

theorem damagedDisk_one : sampleFs.read damagedDisk (memPath memSemantic 1) =
    some (encodeRecord (sampleMemory memSemantic 2)) := by
  rw [sampleFs, FileStore.ofFun_read, damagedDisk, if_neg (memPath_ne_indexPath _ _), if_pos rfl]

theorem diskPaths_damaged : diskPaths sampleFs sizeofIndexBuf damagedDisk =
    [memPath memSemantic 0, memPath memSemantic 1] := by
  have hindex : sampleFs.read damagedDisk indexPath = some (encodeIndex sampleStack
      [sampleMemory memSemantic 1, sampleMemory memSemantic 2]) := by
    rw [sampleFs, FileStore.ofFun_read, damagedDisk, if_pos rfl]
  refine diskPaths_encodeIndex sampleFs hindex ?_ ?_
  · rw [maxMemories_eq, List.length_cons, List.length_singleton]
    omega
  · rw [sizeofIndexBuf_eq, List.length_cons, List.length_singleton]
    omega

theorem diskMemories_damaged : diskMemories sampleFs sizeofIndexBuf damagedDisk =
    [sampleMemory memSemantic 2] := by
  rw [diskMemories, diskPaths_damaged, readAll_none sampleFs damagedDisk_zero,
    readAll_record sampleFs damagedDisk_one, readAll]

theorem slotMemories_damaged : slotMemories sampleFs damagedDisk = [] := by
  rw [slotMemories, diskMemories_damaged, memPaths, memPaths]
  show (readAll sampleFs damagedDisk [memPath memSemantic 0] RecordBuf.bss).1 = []
  rw [readAll_none sampleFs damagedDisk_zero, readAll]

def damageCalls : List StoreCall := [.store (some (sampleEntry 3)) sampleStack]

theorem damageCalls_stored :
    damageCalls.filterMap StoreCall.stored = [sampleMemory memEpisodic 3] := rfl

theorem damaged_serves : sampleHeap.Serves
    (requests (diskMemories sampleFs sizeofIndexBuf damagedDisk)) := by
  rw [diskMemories_damaged]
  exact sampleHeap_serves _ (by rw [List.length_singleton]; omega)

theorem damaged_room : (diskPaths sampleFs sizeofIndexBuf damagedDisk).length ≤ indexRoom := by
  rw [diskPaths_damaged, indexRoom_eq, List.length_cons, List.length_singleton]
  omega

theorem legal_damageCalls : (callMachine sampleFs RoomyCall).Legal
    (StoreSys.start sampleFs sizeofIndexBuf damagedDisk sampleHeap) damageCalls := by
  obtain ⟨hstore, _, hheap⟩ := bootMemory_spec sampleFs damaged_serves
  rw [diskMemories_damaged] at hstore hheap
  have htwo := sampleHeap_serves ([sampleMemory memSemantic 2] ++ [sampleMemory memEpisodic 3])
    (by rw [List.length_append, List.length_singleton, List.length_singleton]; omega)
  rw [requests_append, Heap.serves_append] at htwo
  have hlen : (StoreSys.start sampleFs sizeofIndexBuf damagedDisk sampleHeap).ram.memStore.length = 1 :=
    congrArg List.length hstore
  have hstored : (StoreCall.store (some (sampleEntry 3)) sampleStack).stored.toList =
      [sampleMemory memEpisodic 3] := rfl
  refine ⟨⟨?_, ?_⟩, trivial⟩
  · rw [StoreCall.Served, hstored]
    exact hheap ▸ htwo.2
  · rw [hlen, hstored, indexRoom_eq, List.length_singleton]
    omega

theorem damaged_reload :
    diskMemories sampleFs sizeofIndexBuf ((callMachine sampleFs RoomyCall).run
      (StoreSys.start sampleFs sizeofIndexBuf damagedDisk sampleHeap)
      (damageCalls ++ [.flush sampleStack])).disk = [sampleMemory memEpisodic 3] := by
  have h := (damage_reload sampleFs damaged_serves damaged_room damageCalls legal_damageCalls
    sampleStack).2
  rw [damageCalls_stored, if_neg (List.cons_ne_nil _ _), slotMemories_damaged, List.nil_append] at h
  exact h

theorem damaged_serves_reload : sampleHeap.Serves (requests (diskMemories sampleFs sizeofIndexBuf
    ((callMachine sampleFs RoomyCall).run
      (StoreSys.start sampleFs sizeofIndexBuf damagedDisk sampleHeap)
      (damageCalls ++ [.flush sampleStack])).disk)) := by
  rw [damaged_reload]
  exact sampleHeap_serves _ (by rw [List.length_singleton]; omega)

theorem damage_coherent_sample :
    let s := (callMachine sampleFs RoomyCall).run
      (StoreSys.start sampleFs sizeofIndexBuf damagedDisk sampleHeap)
      (damageCalls ++ [.flush sampleStack])
    (bootMemory sampleFs sizeofIndexBuf s.disk sampleHeap).memories = s.ram.memories ↔
      (∀ c ∈ damageCalls, c.stored = none) ∨
        slotMemories sampleFs damagedDisk = diskMemories sampleFs sizeofIndexBuf damagedDisk :=
  damage_coherent_iff sampleFs damaged_serves damaged_room damageCalls legal_damageCalls sampleStack
    damaged_serves_reload

/-- The memory that was loaded is lost: the next start finds only the one that was stored. -/
theorem damage_loses_entry :
    let s := (callMachine sampleFs RoomyCall).run
      (StoreSys.start sampleFs sizeofIndexBuf damagedDisk sampleHeap)
      (damageCalls ++ [.flush sampleStack])
    s.ram.memories = [sampleMemory memSemantic 2, sampleMemory memEpisodic 3] ∧
      (bootMemory sampleFs sizeofIndexBuf s.disk sampleHeap).memories =
        [sampleMemory memEpisodic 3] := by
  intro s
  have hmem := (damage_reload sampleFs damaged_serves damaged_room damageCalls legal_damageCalls
    sampleStack).1
  rw [diskMemories_damaged, damageCalls_stored] at hmem
  refine ⟨hmem, ?_⟩
  rw [bootMemory_memories sampleFs damaged_serves_reload]
  exact damaged_reload

end AionOs
