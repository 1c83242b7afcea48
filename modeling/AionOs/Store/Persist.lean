import AionOs.Store.Flush

/-!
# Persistence

Runs of the machine over boots and power cuts.  `saved` is what was in RAM when the index
was last written.

* `SavedOn`: the disk holds a list of memories; `diskMemories_of_savedOn` reads it back.
* `commit_flush`: a flush is a commit: it is not seen before the index is written.
* `memory_persists`: every boot finds what was saved.
-/

namespace AionOs

/-! ### The machine -/

/-- The disk, the RAM while the machine is on, and what was in RAM at the last write of
the index. -/
structure PowerSys (σ : Type) where
  disk : σ
  ram : Option MemState
  saved : List Memory

inductive PowerOp where
  | boot (heap : Heap)
  | call (c : StoreCall)
  /-- Power is lost when the call has made `k` of its writes. -/
  | cut (c : StoreCall) (k : Nat)
  | powerOff

/-- The most entries that the index buffer has room for. -/
def indexRoom : Nat := 4095

theorem indexRoom_eq : indexRoom = 4095 := rfl

attribute [irreducible] indexRoom

section Power

variable {σ : Type} (fs : FileSystem σ)

/-- Some writes of a call, and the RAM that is left. -/
def PowerSys.write (s : PowerSys σ) (ws : List FileWrite) (after : MemState)
    (ram : Option MemState) : PowerSys σ where
  disk := fs.applyAll s.disk ws
  ram := ram
  saved := if indexPath ∈ ws.map Prod.fst then after.memories else s.saved

def PowerSys.step (s : PowerSys σ) : PowerOp → PowerSys σ
  | .boot heap => { s with ram := some (bootMemory fs sizeofIndexBuf s.disk heap) }
  | .call c =>
    match s.ram with
    | none => s
    | some r => s.write fs (c.exec r).1 (c.exec r).2 (some (c.exec r).2)
  | .cut c k =>
    match s.ram with
    | none => s
    | some r => s.write fs ((c.exec r).1.take k) (c.exec r).2 none
  | .powerOff => { s with ram := none }

/-- The machine is on, `kmalloc` does not fail, and the index buffer has room. -/
def CallAllowed (s : PowerSys σ) (c : StoreCall) : Prop :=
  ∃ r, s.ram = some r ∧ c.Served r ∧ r.memStore.length + c.stored.toList.length ≤ indexRoom

def PowerAllowed (s : PowerSys σ) : PowerOp → Prop
  | .boot heap => heap.Serves (requests (diskMemories fs sizeofIndexBuf s.disk))
  | .call c => CallAllowed s c
  | .cut c _ => CallAllowed s c
  | .powerOff => True

def powerMachine : Machine (PowerSys σ) PowerOp := ⟨PowerSys.step fs, PowerAllowed fs⟩

/-- A machine that was never on, with a disk. -/
def PowerSys.fresh (disk : σ) : PowerSys σ := ⟨disk, none, []⟩

/-! ### What a disk holds -/

/-- The disk holds the memories: an index and the records it names, or nothing at all. -/
def SavedOn (disk : σ) (ms : List Memory) : Prop :=
  ms.length ≤ indexRoom ∧
    (fs.read disk indexPath = none ∧ ms = [] ∨
      (∃ stack, fs.read disk indexPath = some (encodeIndex stack ms)) ∧ Written fs disk 0 ms)

/-- **What a disk holds is what a start finds.** -/
theorem diskMemories_of_savedOn {disk : σ} {ms : List Memory} (h : SavedOn fs disk ms) :
    diskMemories fs sizeofIndexBuf disk = ms := by
  obtain ⟨hlen, ⟨hnone, rfl⟩ | ⟨⟨stack, hindex⟩, hwritten⟩⟩ := h
  · have hpaths : diskPaths fs sizeofIndexBuf disk = [] := by
      rw [diskPaths]
      simp only [hnone]
    rw [diskMemories, hpaths]
    rfl
  · rw [indexRoom_eq] at hlen
    rw [diskMemories, diskPaths_encodeIndex fs hindex (by rw [maxMemories_eq]; omega)
      (by rw [sizeofIndexBuf_eq]; omega)]
    exact readAll_written fs ms 0 _ hwritten

/-- RAM holds what the disk holds, then the entries that were stored since. -/
structure RamOver (ms : List Memory) (r : MemState) : Prop where
  fresh : ∃ ns : List Memory, r.memStore = ms.map (Memory.entry false) ++ ns.map (Memory.entry true) ∧
    r.memDirty = BitVec.ofNat 64 ns.length
  room : r.memStore.length ≤ indexRoom

theorem RamOver.get {ms : List Memory} {r : MemState} (h : RamOver ms r) {k : Nat} {e : MemEntry}
    (he : r.memStore[k]? = some e) : e.dirty = decide (ms.length ≤ k) ∧
      (e.dirty = false → ms[k]? = some e.toMemory) := by
  obtain ⟨ns, hstore, _⟩ := h.fresh
  rw [hstore, List.getElem?_append, List.length_map] at he
  by_cases hk : k < ms.length
  · rw [if_pos hk, List.getElem?_map] at he
    obtain ⟨m, hm, rfl⟩ := Option.map_eq_some_iff.mp he
    exact ⟨(decide_eq_false (Nat.not_le_of_lt hk)).symm, fun _ => hm⟩
  · rw [if_neg hk, List.getElem?_map] at he
    obtain ⟨m, hm, rfl⟩ := Option.map_eq_some_iff.mp he
    exact ⟨(decide_eq_true (Nat.le_of_not_lt hk)).symm, fun hc => by cases hc⟩

theorem RamOver.inPlace {disk : σ} {ms : List Memory} {r : MemState} (h : RamOver ms r)
    (hs : SavedOn fs disk ms) : InPlace fs disk r := by
  intro k e he hd
  have hm := (h.get he).2 hd
  obtain ⟨_, ⟨_, rfl⟩ | ⟨_, hwritten⟩⟩ := hs
  · cases hm
  · have := hwritten k _ hm
    rwa [Nat.zero_add] at this

theorem memories_length (r : MemState) : r.memories.length = r.memStore.length := List.length_map _

/-- **A flush is a commit**: the records of new slots are not seen before the index is
written. -/
theorem commit_flush {disk : σ} {ms : List Memory} {r : MemState} (h : RamOver ms r)
    (hs : SavedOn fs disk ms) (stack : Nat → Nat → U8) :
    fs.Commit (SavedOn fs) disk ms r.memories (recordWrites 0 r.memStore)
      (indexPath, encodeIndex stack r.memories) := by
  constructor
  · intro ws hws
    have hname : ∀ q ∈ ws.map Prod.fst, ∃ t k, ms.length ≤ k ∧ q = memPath t k := by
      intro q hq
      obtain ⟨k, e, he, hd, hq⟩ := mem_names_recordWrites.mp ((hws.sublist.map Prod.fst).subset hq)
      have hk := (h.get he).1
      rw [hd] at hk
      exact ⟨e.type, k, of_decide_eq_true hk.symm, by rw [hq, Nat.zero_add]⟩
    have hindex : indexPath ∉ ws.map Prod.fst := fun hq => by
      obtain ⟨t, k, _, he⟩ := hname _ hq
      exact memPath_ne_indexPath t k he.symm
    refine ⟨hs.1, ?_⟩
    rw [fs.read_applyAll_of_notMem ws disk hindex]
    refine hs.2.imp id fun hw => ⟨hw.1, fun k m hm => ?_⟩
    rw [fs.read_applyAll_of_notMem]
    · exact hw.2 k m hm
    · intro hq
      obtain ⟨t, j, hj, he⟩ := hname _ hq
      have hjk := (memPath_inj he).1
      have hlt : k < ms.length := (List.getElem?_eq_some_iff.mp hm).1
      omega
  · refine ⟨by rw [memories_length]; exact h.room, .inr ⟨⟨stack, ?_⟩, ?_⟩⟩
    · exact read_flush_index fs disk stack r
    · exact (h.inPlace fs hs).written stack

/-! ### One step -/

/-- The disk holds what was saved, and RAM stands over it. -/
structure PowerInv (s : PowerSys σ) : Prop where
  disk : SavedOn fs s.disk s.saved
  ram : ∀ r, s.ram = some r → RamOver s.saved r

theorem RamOver.pushed {ms : List Memory} {r : MemState} (h : RamOver ms r) {c : StoreCall}
    (hroom : r.memStore.length + c.stored.toList.length ≤ indexRoom) : RamOver ms (r.pushed c) := by
  rw [MemState.pushed]
  cases hc : c.stored with
  | none => exact h
  | some m =>
    rw [hc, indexRoom_eq] at hroom
    have hlt : r.memStore.length + 1 ≤ 4095 := hroom
    obtain ⟨ns, hstore, hdirty⟩ := h.fresh
    have hpush : (r.push m).memStore = r.memStore ++ [m.entry true] :=
      push_of_lt (by rw [maxMemories_eq]; omega) m
    refine ⟨⟨ns ++ [m], ?_, ?_⟩, ?_⟩
    · rw [Option.elim_some, hpush, hstore, List.map_append, List.append_assoc]
      rfl
    · show r.memDirty + 1 = _
      rw [hdirty, List.length_append, List.length_singleton, BitVec.ofNat_add]
      rfl
    · rw [Option.elim_some, hpush, List.length_append, List.length_singleton, indexRoom_eq]
      exact hlt

theorem RamOver.flushed {ms : List Memory} {r : MemState} (h : RamOver ms r) :
    RamOver r.memories r.flushed := by
  refine ⟨⟨[], ?_, rfl⟩, ?_⟩
  · rw [flushed_eq_map]
    exact (List.append_nil _).symm
  · rw [flushed_eq_map, List.length_map, memories_length]
    exact h.room

/-- The names in the first writes of a flush tell whether the index was written. -/
theorem indexPath_mem_take (stack : Nat → Nat → U8) (r : MemState) (k : Nat) :
    indexPath ∈ ((flushWrites stack r).take k).map Prod.fst ↔ (recordWrites 0 r.memStore).length < k := by
  have hrec : indexPath ∉ (recordWrites 0 r.memStore).map Prod.fst := fun hq => by
    obtain ⟨_, e, _, _, he⟩ := mem_names_recordWrites.mp hq
    exact memPath_ne_indexPath _ _ he.symm
  rw [flushWrites]
  by_cases hk : (recordWrites 0 r.memStore).length < k
  · rw [List.take_of_length_le (by rw [List.length_append, List.length_singleton]; omega)]
    exact ⟨fun _ => hk, fun _ => by simp⟩
  · rw [List.take_append_of_le_length (by omega)]
    refine ⟨fun hq => absurd ?_ hrec, fun hc => absurd hc hk⟩
    exact ((List.take_sublist k _).map Prod.fst).subset hq

/-- Some of the writes of a call leave a disk that holds what is then saved. -/
theorem savedOn_write {s : PowerSys σ} (h : PowerInv fs s) {r : MemState} (hr : s.ram = some r)
    {c : StoreCall} (hserved : c.Served r)
    (hroom : r.memStore.length + c.stored.toList.length ≤ indexRoom) (k : Nat)
    (ram : Option MemState) :
    let t := s.write fs ((c.exec r).1.take k) (c.exec r).2 ram
    SavedOn fs t.disk t.saved ∧ ((c.exec r).1.length ≤ k → RamOver t.saved (c.exec r).2) := by
  intro t
  have hover := (h.ram r hr).pushed hroom
  rcases exec_cases hserved with ⟨he, _⟩ | ⟨_, stack, he⟩
  · have hdisk : t.disk = s.disk := by
      show fs.applyAll s.disk ((c.exec r).1.take k) = _
      rw [he, List.take_nil]
      rfl
    have hsaved : t.saved = s.saved := by
      show (if indexPath ∈ ((c.exec r).1.take k).map Prod.fst then _ else _) = _
      rw [he, List.take_nil]
      rfl
    rw [hdisk, hsaved, he]
    exact ⟨h.disk, fun _ => hover⟩
  · have hcommit := commit_flush fs hover h.disk stack
    have hdisk : t.disk = fs.applyAll s.disk ((flushWrites stack (r.pushed c)).take k) := by
      show fs.applyAll s.disk ((c.exec r).1.take k) = _
      rw [he]
    have hsaved : t.saved = if (recordWrites 0 (r.pushed c).memStore).length < k then
        (r.pushed c).memories else s.saved := by
      show (if indexPath ∈ ((c.exec r).1.take k).map Prod.fst then _ else _) = _
      rw [he]
      exact if_congr (indexPath_mem_take _ _ _) (flushed_memories _) rfl
    rw [hdisk, hsaved, he]
    refine ⟨hcommit.cut k, fun hk => ?_⟩
    rw [if_pos]
    · exact hover.flushed
    · rw [flushWrites, List.length_append, List.length_singleton] at hk
      omega

/-- **One step keeps the disk and the RAM in step with what was saved.** -/
theorem powerInv_step {s : PowerSys σ} {op : PowerOp} (h : PowerInv fs s) (hl : PowerAllowed fs s op) :
    PowerInv fs (s.step fs op) := by
  cases op with
  | boot heap =>
    obtain ⟨hstore, hdirty, _⟩ := bootMemory_spec fs (h := hl)
    refine ⟨h.disk, fun r hr => ?_⟩
    obtain rfl := Option.some.inj hr
    have hdisk := diskMemories_of_savedOn fs h.disk
    refine ⟨⟨[], ?_, hdirty⟩, ?_⟩
    · rw [hstore, hdisk]
      exact (List.append_nil _).symm
    · rw [hstore, hdisk, List.length_map]
      exact h.disk.1
  | call c =>
    obtain ⟨r, hr, hserved, hroom⟩ := hl
    obtain ⟨h1, h2⟩ := savedOn_write fs h hr hserved hroom (c.exec r).1.length (some (c.exec r).2)
    rw [List.take_length] at h1 h2
    rw [PowerSys.step, hr]
    refine ⟨h1, fun r' hr' => ?_⟩
    obtain rfl := Option.some.inj hr'
    exact h2 (Nat.le_refl _)
  | cut c k =>
    obtain ⟨r, hr, hserved, hroom⟩ := hl
    rw [PowerSys.step, hr]
    refine ⟨(savedOn_write fs h hr hserved hroom k none).1, fun r' hr' => ?_⟩
    cases hr'
  | powerOff => exact ⟨h.disk, fun r hr => by cases hr⟩

theorem powerInv_run {disk : σ} (hempty : ∀ p, fs.read disk p = none) (ops : List PowerOp)
    (hl : (powerMachine fs).Legal (PowerSys.fresh disk) ops) :
    PowerInv fs ((powerMachine fs).run (PowerSys.fresh disk) ops) := by
  refine Machine.run_invariant (I := PowerInv fs) (fun _ _ => powerInv_step fs) ops _ ?_ hl
  refine ⟨⟨?_, .inl ⟨hempty indexPath, rfl⟩⟩, fun r hr => by cases hr⟩
  rw [indexRoom_eq]
  exact Nat.zero_le _

/-- **Memories persist.**  From an empty file system, over every history of boots, stores,
flushes and power losses, between two calls or between two file writes of a flush, a boot
loads exactly what was in RAM when the index was last written. -/
theorem memory_persists {disk : σ} (hempty : ∀ p, fs.read disk p = none) (ops : List PowerOp)
    (heap : Heap)
    (hl : (powerMachine fs).Legal (PowerSys.fresh disk) (ops ++ [.boot heap])) :
    ((powerMachine fs).run (PowerSys.fresh disk) (ops ++ [.boot heap])).ram.map MemState.memories =
      some ((powerMachine fs).run (PowerSys.fresh disk) ops).saved := by
  rw [Machine.legal_append] at hl
  have hinv := powerInv_run fs hempty ops hl.1
  rw [Machine.run_concat]
  set s := (powerMachine fs).run (PowerSys.fresh disk) ops
  rw [← diskMemories_of_savedOn fs hinv.disk, ← bootMemory_memories fs hl.2.1]
  rfl

end Power

def sampleHeap : Heap := ⟨0x1000, 0x4001000⟩

theorem sampleHeap_ok : sampleHeap.Ok := ⟨by decide, by decide, by decide⟩

theorem sampleHeap_serves (ms : List Memory) (h : ms.length ≤ 4095) :
    sampleHeap.Serves (requests ms) := by
  have hroom : sampleHeap.room = 67108864 := by decide
  refine sampleHeap_ok.serves_of_le (b := 4097) (fun n hn => ?_) (by omega) ?_
  · obtain ⟨m, _, rfl⟩ := List.mem_map.mp hn
    have := m.contentLen_le
    omega
  · rw [requests, List.length_map, hroom]
    omega

def sampleFs : FileSystem (Path → Option (List U8)) := FileStore.ofFun Path (List U8)

def sampleEntry (tick : U64) : AionMemoryEntry := ⟨memEpisodic, 0, tick, some ⟨[104, 105], by decide⟩⟩

def sampleStack : Nat → Nat → U8 := fun _ _ => 0

/-- One memory is stored and flushed before the power goes. -/
def sampleOps : List PowerOp :=
  [.boot sampleHeap, .call (.store (some (sampleEntry 1)) sampleStack), .call (.flush sampleStack),
    .powerOff]

theorem legal_sampleOps :
    (powerMachine sampleFs).Legal (PowerSys.fresh fun _ => none) sampleOps := by
  have hserved : (StoreCall.store (some (sampleEntry 1)) sampleStack).Served
      (bootMemory sampleFs sizeofIndexBuf (fun _ => none) sampleHeap) :=
    sampleHeap_serves [_] (by rw [List.length_singleton]; omega)
  refine ⟨?_, ⟨_, rfl, hserved, ?_⟩, ⟨_, rfl, trivial, ?_⟩, trivial, trivial⟩
  · exact sampleHeap_serves [] (Nat.zero_le _)
  · rw [indexRoom_eq]
    show 0 + 1 ≤ 4095
    omega
  · refine Nat.le_trans (exec_length_le hserved) ?_
    rw [indexRoom_eq]
    show 0 + 1 ≤ 4095
    omega

theorem memory_persists_sample :
    ((powerMachine sampleFs).run (PowerSys.fresh fun _ => none)
        (sampleOps ++ [.boot sampleHeap])).ram.map MemState.memories =
      some ((powerMachine sampleFs).run (PowerSys.fresh fun _ => none) sampleOps).saved := by
  refine memory_persists sampleFs (fun _ => rfl) sampleOps sampleHeap ?_
  rw [Machine.legal_append]
  refine ⟨legal_sampleOps, ?_, trivial⟩
  have hinv := powerInv_run sampleFs (fun _ => rfl) sampleOps legal_sampleOps
  show sampleHeap.Serves (requests (diskMemories sampleFs sizeofIndexBuf _))
  rw [diskMemories_of_savedOn sampleFs hinv.disk]
  exact sampleHeap_serves _ (indexRoom_eq ▸ hinv.disk.1)

end AionOs
