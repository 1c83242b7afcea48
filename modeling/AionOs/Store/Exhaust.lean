import AionOs.Memory.HeapBlocks
import AionOs.Store.Evict

/-!
# An exhausted heap

Blocks of the heap are never given back, so a long life uses it up.  `heapLeft` is what a
list of calls leaves of it, read off the calls alone.

* `heapLeft_run`: the room of the heap in a run.
* `store_last`: a call stores its memory exactly when the block fits in what is left;
  a call that does not fit is dropped.
* `store_atomic_iff`: a call that is dropped changes nothing unless the store is full.
-/

namespace AionOs

/-! ### Calls on a heap that may be full -/

def Memory.block (m : Memory) : Nat := blockSize (m.contentLen + 1)

/-- The room that is left when each call takes its block if it fits. -/
def heapLeft : Nat → List StoreCall → Nat
  | room, [] => room
  | room, c :: calls =>
    heapLeft (c.stored.elim room fun m => if m.block ≤ room then room - m.block else room) calls

theorem exec_of_none {s : MemState} {c : StoreCall} (h : c.stored = none) :
    (c.exec s).2.heap = s.heap ∧ (c.exec s).2.memories = s.memories := by
  have hserved : c.Served s := by rw [StoreCall.Served, h]; exact trivial
  have hpushed : s.pushed c = s := by rw [MemState.pushed, h]; rfl
  rcases exec_cases hserved with ⟨he, _⟩ | ⟨_, stack, he⟩
  · rw [he, hpushed]
    exact ⟨rfl, rfl⟩
  · rw [he, hpushed]
    exact ⟨rfl, flushed_memories s⟩

theorem exec_last {s : MemState} {c : StoreCall} {m : Memory} (hm : c.stored = some m)
    (h : c.Served s) : (c.exec s).2.memories = (evict s).memories ++ [m] := by
  have hpushed : (s.pushed c).memories = (evict s).memories ++ [m] := by
    rw [MemState.pushed, hm]
    exact List.map_append
  rcases exec_cases h with ⟨he, _⟩ | ⟨_, stack, he⟩
  · rw [he, hpushed]
  · rw [he, flushed_memories, hpushed]

theorem exec_full {s : MemState} {c : StoreCall} {m : Memory} (hm : c.stored = some m)
    (h : kmalloc s.heap (BitVec.ofNat 64 (m.contentLen + 1)) = (0, s.heap)) :
    c.exec s = ([], evict s) := by
  rw [exec_null hm (congrArg Prod.fst h), h]
  exact congrArg (fun heap => ([], { evict s with heap := heap })) (evict_heap s).symm

theorem evict_sublist (s : MemState) : (evict s).memories.Sublist s.memories :=
  (evict_memStore_sublist s).map _

/-- **All that a call can do to RAM and heap.** -/
theorem exec_room {s : MemState} (ok : s.heap.Ok) (c : StoreCall) :
    (c.exec s).2.heap.Ok ∧ ∀ m, c.stored = some m →
      (m.block ≤ s.heap.room ∧ (c.exec s).2.heap.room = s.heap.room - m.block ∧
        (c.exec s).2.memories = (evict s).memories ++ [m]) ∨
      (s.heap.room < m.block ∧ (c.exec s).2.heap.room = s.heap.room ∧
        (c.exec s).2.memories = (evict s).memories) := by
  cases hc : c.stored with
  | none =>
    refine ⟨?_, fun m hm => by cases hm⟩
    rw [(exec_of_none hc).1]
    exact ok
  | some m =>
    have hle := m.contentLen_le
    rcases kmalloc_spec ok (n := m.contentLen + 1) (by omega) with ⟨hfit, hnz, hok, hroom⟩ | ⟨hlt, he⟩
    · have hserved : c.Served s := by
        rw [StoreCall.Served, hc]
        exact ⟨hnz, trivial⟩
      have hheap : (c.exec s).2.heap = (kmalloc s.heap (BitVec.ofNat 64 (m.contentLen + 1))).2 := by
        rw [exec_heap hserved, hc]
        rfl
      rw [hheap]
      refine ⟨hok, fun m' hm' => ?_⟩
      obtain rfl := Option.some.inj hm'
      exact .inl ⟨hfit, (Nat.sub_eq_of_eq_add hroom.symm).symm, exec_last hc hserved⟩
    · rw [exec_full hc he, evict_heap]
      refine ⟨ok, fun m' hm' => ?_⟩
      obtain rfl := Option.some.inj hm'
      exact .inr ⟨hlt, rfl, rfl⟩

/-! ### Runs -/

section Exhaust

variable {σ : Type} (fs : FileSystem σ)

def anyCall : StoreSys σ → StoreCall → Prop := fun _ _ => True

variable {fs}

/-- **The room of the heap in a run** is what the calls leave. -/
theorem heapLeft_run : ∀ (calls : List StoreCall) (s : StoreSys σ), s.ram.heap.Ok →
    let t := (callMachine fs anyCall).run s calls
    t.ram.heap.Ok ∧ t.ram.heap.room = heapLeft s.ram.heap.room calls := by
  intro calls
  induction calls with
  | nil => intro s ok; exact ⟨ok, rfl⟩
  | cons c calls ih =>
    intro s ok
    obtain ⟨hok, hcase⟩ := exec_room ok c
    have hstep : (s.call fs c).ram.heap.room =
        c.stored.elim s.ram.heap.room fun m =>
          if m.block ≤ s.ram.heap.room then s.ram.heap.room - m.block else s.ram.heap.room := by
      cases hc : c.stored with
      | none => exact congrArg Heap.room (exec_of_none hc).1
      | some m =>
        rcases hcase m hc with ⟨hfit, hroom, _⟩ | ⟨hlt, hroom, _⟩
        · exact hroom.trans (if_pos hfit).symm
        · exact hroom.trans (if_neg (Nat.not_le_of_lt hlt)).symm
    rw [Machine.run_cons, heapLeft, ← hstep]
    exact ih (s.call fs c) hok

theorem memories_run_subset : ∀ (calls : List StoreCall) (s : StoreSys σ), s.ram.heap.Ok →
    ∀ m ∈ ((callMachine fs anyCall).run s calls).ram.memories,
      m ∈ s.ram.memories ∨ m ∈ calls.filterMap StoreCall.stored := by
  intro calls
  induction calls with
  | nil => intro s _ m hm; exact .inl hm
  | cons c calls ih =>
    intro s ok m hm
    obtain ⟨hok, hcase⟩ := exec_room ok c
    rcases ih (s.call fs c) hok m hm with hmem | hmem
    · have hold : m ∈ (c.exec s.ram).2.memories := hmem
      cases hc : c.stored with
      | none =>
        rw [(exec_of_none hc).2] at hold
        exact .inl hold
      | some m' =>
        rcases hcase m' hc with ⟨_, _, he⟩ | ⟨_, _, he⟩
        · rw [he] at hold
          rcases List.mem_append.mp hold with hold | hold
          · exact .inl ((evict_sublist _).subset hold)
          · exact .inr (List.mem_filterMap.mpr ⟨c, List.mem_cons_self, by
              rw [hc, List.mem_singleton.mp hold]⟩)
        · rw [he] at hold
          exact .inl ((evict_sublist _).subset hold)
    · obtain ⟨c', hc', hm'⟩ := List.mem_filterMap.mp hmem
      exact .inr (List.mem_filterMap.mpr ⟨c', List.mem_cons_of_mem c hc', hm'⟩)

end Exhaust

/-! ### A life that uses up the heap -/

def emptyCall (tick : U64) : StoreCall :=
  .store (some ⟨memEpisodic, 0, tick, some ⟨[], by simp⟩⟩) sampleStack

def emptyMemory (tick : U64) : Memory := ⟨memEpisodic, 0, tick, ⟨[], by decide⟩⟩

theorem emptyMemory_block (tick : U64) : (emptyMemory tick).block = 16 := by
  show blockSize (0 + 1) = 16
  decide

theorem emptyCall_stored (tick : U64) : (emptyCall tick).stored = some (emptyMemory tick) := rfl

theorem heapLeft_replicate (tick : U64) : ∀ n : Nat,
    heapLeft (16 * n) (List.replicate n (emptyCall tick)) = 0 := by
  intro n
  induction n with
  | zero => rfl
  | succ n ih =>
    rw [List.replicate_succ, heapLeft, emptyCall_stored, Option.elim_some, emptyMemory_block,
      if_pos (by omega), show 16 * (n + 1) - 16 = 16 * n by omega]
    exact ih

def emptyStart (h : Heap) : StoreSys (Path → Option (List U8)) :=
  StoreSys.start sampleFs fullCap emptyDisk h

theorem emptyStart_ram (h : Heap) :
    (emptyStart h).ram.memories = [] ∧ (emptyStart h).ram.heap = h := by
  obtain ⟨h1, _, h3⟩ := start_empty emptyDisk_read fullCap h
  refine ⟨?_, h3⟩
  rw [MemState.memories, emptyStart, h1]
  rfl

theorem lost_after {s : StoreSys (Path → Option (List U8))} {n : Nat} (ok : s.ram.heap.Ok)
    (hroom : s.ram.heap.room = 16 * n) (hempty : s.ram.memories = []) :
    let t := (callMachine sampleFs anyCall).run s (List.replicate n (emptyCall 1))
    (t.call sampleFs (emptyCall 2)).ram.memories.getLast? ≠ some (emptyMemory 2) := by
  intro t hlast
  have hleft := @heapLeft_run _ sampleFs (List.replicate n (emptyCall 1)) s ok
  rw [hroom, heapLeft_replicate] at hleft
  have hsub : (t.call sampleFs (emptyCall 2)).ram.memories.Sublist t.ram.memories := by
    rcases (exec_room hleft.1 (emptyCall 2)).2 (emptyMemory 2) rfl with ⟨hfit, _⟩ | ⟨_, _, he⟩
    · rw [hleft.2, emptyMemory_block] at hfit
      omega
    · have hmem : (t.call sampleFs (emptyCall 2)).ram.memories = (evict t.ram).memories := he
      rw [hmem]
      exact evict_sublist t.ram
  have hmem := hsub.subset (List.mem_of_getLast? hlast)
  rcases memories_run_subset _ _ ok _ hmem with hin | hin
  · rw [hempty] at hin
    cases hin
  · rw [List.filterMap_replicate_of_some (emptyCall_stored 1)] at hin
    exact absurd (congrArg Memory.tick (List.eq_of_mem_replicate hin)) (by decide)

theorem evict_eq_self_iff {s : MemState} :
    (evict s).memStore = s.memStore ↔ s.memStore.length < maxMemories := by
  constructor
  · intro hsame
    by_contra hfull
    have hmax := maxMemories_eq
    have hlen := congrArg List.length hsame
    rw [length_evict, if_neg hfull] at hlen
    omega
  · intro hroom
    rw [evict_of_lt hroom]

/-- **A store that gets no block** leaves the entries and the count of new ones as they were
exactly if the store is not full. -/
theorem store_atomic_iff {s : MemState} {e : AionMemoryEntry} {text : CString} (he : e.content = some text)
    (hnull : (memStrdup s.heap (storedText text)).1 = none) (stack : Nat → Nat → U8) :
    let t := (aionMemoryStore (some e) stack s).2
    (t.memStore = s.memStore ∧ t.memStore.length = s.memStore.length ∧ t.memDirty = s.memDirty) ↔
      s.memStore.length < maxMemories := by
  have hstored : (StoreCall.store (some e) stack).stored =
      some ⟨e.type, e.importance, e.tick, storedText text⟩ := by
    rw [StoreCall.stored, he]
    rfl
  have hk : (kmalloc s.heap (BitVec.ofNat 64 ((storedText text).bytes.length + 1))).1 = 0 := by
    by_contra hk
    rw [memStrdup_of_ne_zero hk] at hnull
    cases hnull
  have hexec : (aionMemoryStore (some e) stack s).2 = { evict s with
      heap := (kmalloc s.heap (BitVec.ofNat 64 ((storedText text).bytes.length + 1))).2 } :=
    congrArg Prod.snd (exec_null hstored hk)
  intro t
  have ht : t = _ := hexec
  rw [ht, ← evict_eq_self_iff]
  refine ⟨fun h => h.1, fun h => ⟨h, congrArg List.length h, evict_memDirty s⟩⟩

theorem length_run_replicate : ∀ (n : Nat) (s : StoreSys (Path → Option (List U8))), s.ram.heap.Ok →
    16 * n ≤ s.ram.heap.room → s.ram.memories.length ≤ maxMemories →
    ((callMachine sampleFs anyCall).run s (List.replicate n (emptyCall 1))).ram.memories.length =
      min maxMemories (s.ram.memories.length + n) := by
  intro n
  induction n with
  | zero => intro s _ _ hle; exact (Nat.min_eq_right hle).symm
  | succ n ih =>
    intro s ok hroom hle
    obtain ⟨hok, hcase⟩ := exec_room ok (emptyCall 1)
    have hmax := maxMemories_eq
    rcases hcase (emptyMemory 1) rfl with ⟨_, hleft, he⟩ | ⟨hlt, _⟩
    · have hmem : (s.call sampleFs (emptyCall 1)).ram.memories =
          (evict s.ram).memories ++ [emptyMemory 1] := he
      have hlen : ∀ r : MemState, r.memories.length = r.memStore.length := fun r => List.length_map _
      have hnew : (s.call sampleFs (emptyCall 1)).ram.memories.length =
          min maxMemories (s.ram.memories.length + 1) := by
        rw [hmem, List.length_append, List.length_singleton, hlen, hlen, length_evict]
        rw [hlen] at hle
        split <;> omega
      rw [emptyMemory_block] at hleft
      have hroom' : 16 * n ≤ (s.call sampleFs (emptyCall 1)).ram.heap.room := by
        show 16 * n ≤ ((emptyCall 1).exec s.ram).2.heap.room
        omega
      have hrest := ih (s.call sampleFs (emptyCall 1)) hok hroom' (by omega)
      rw [List.replicate_succ]
      refine hrest.trans ?_
      rw [hnew]
      omega
    · rw [emptyMemory_block] at hlt
      omega

theorem full_after {s : StoreSys (Path → Option (List U8))} {n : Nat} (ok : s.ram.heap.Ok)
    (hroom : s.ram.heap.room = 16 * n) (hempty : s.ram.memories = []) (hn : maxMemories ≤ n) :
    let t := (callMachine sampleFs anyCall).run s (List.replicate n (emptyCall 1))
    t.ram.memStore.length = maxMemories ∧
      kmalloc t.ram.heap (BitVec.ofNat 64 ((emptyMemory 2).contentLen + 1)) = (0, t.ram.heap) ∧
      (memStrdup t.ram.heap (storedText CString.empty)).1 = none := by
  intro t
  have hleft := @heapLeft_run _ sampleFs (List.replicate n (emptyCall 1)) s ok
  rw [hroom, heapLeft_replicate] at hleft
  have hlen := length_run_replicate n s ok (by omega) (by rw [hempty]; exact Nat.zero_le _)
  rw [hempty, List.length_nil, Nat.zero_add, Nat.min_eq_left hn, MemState.memories, List.length_map] at hlen
  have hk : kmalloc t.ram.heap (BitVec.ofNat 64 ((emptyMemory 2).contentLen + 1)) = (0, t.ram.heap) := by
    rcases kmalloc_spec hleft.1 (n := (emptyMemory 2).contentLen + 1) (by decide) with ⟨hfit, _⟩ | ⟨_, he⟩
    · have hblock := emptyMemory_block 2
      rw [Memory.block] at hblock
      omega
    · exact he
  have hnull : (kmalloc t.ram.heap (BitVec.ofNat 64 ((storedText CString.empty).bytes.length + 1))).1 = 0 :=
    congrArg Prod.fst hk
  exact ⟨hlen, hk, by rw [memStrdup_of_zero hnull]⟩

/-- After 2^20 stores of empty contents heap and store are full. -/
theorem store_atomic_sample :
    let t := (callMachine sampleFs anyCall).run
      (emptyStart (kmallocInit (pmmBoot clearEfiMap) Heap.bss).1)
      (List.replicate 1048576 (emptyCall 1))
    let u := (aionMemoryStore (some ⟨memEpisodic, 0, 2, some CString.empty⟩) sampleStack t.ram).2
    t.ram.memStore.length = maxMemories ∧
      ((u.memStore = t.ram.memStore ∧ u.memStore.length = t.ram.memStore.length ∧ u.memDirty = t.ram.memDirty) ↔
        t.ram.memStore.length < maxMemories) := by
  have hinit := kmallocInit_room Heap.bss clearHeap_init
  have hmax := maxMemories_eq
  generalize (kmallocInit (pmmBoot clearEfiMap) Heap.bss).1 = h at hinit ⊢
  obtain ⟨ok, hroom⟩ := hinit
  obtain ⟨hempty, hheap⟩ := emptyStart_ram h
  obtain ⟨hlen, _, hnull⟩ := @full_after (emptyStart h) 1048576 (hheap.symm ▸ ok) (by rw [hheap, hroom]; rfl) hempty
    (by omega)
  exact ⟨hlen, store_atomic_iff rfl hnull sampleStack⟩

theorem evicted_after {s : StoreSys (Path → Option (List U8))} {n : Nat} (ok : s.ram.heap.Ok)
    (hroom : s.ram.heap.room = 16 * n) (hempty : s.ram.memories = []) (hn : maxMemories ≤ n) :
    let t := (callMachine sampleFs anyCall).run s (List.replicate n (emptyCall 1))
    (memStrdup t.ram.heap (storedText CString.empty)).1 = none ∧
      ((emptyCall 2).exec t.ram).2.memStore ≠ t.ram.memStore := by
  intro t
  obtain ⟨hlen, hk, hnull⟩ := full_after ok hroom hempty hn
  have hfull : ¬ t.ram.memStore.length < maxMemories := Nat.not_lt_of_le hlen.ge
  refine ⟨hnull, ?_⟩
  rw [exec_full rfl hk]
  exact fun hsame => hfull (evict_eq_self_iff.mp hsame)

/-- The store after that loses a memory for one that it does not keep. -/
theorem store_not_atomic :
    let t := (callMachine sampleFs anyCall).run
      (emptyStart (kmallocInit (pmmBoot clearEfiMap) Heap.bss).1)
      (List.replicate 1048576 (emptyCall 1))
    (memStrdup t.ram.heap (storedText CString.empty)).1 = none ∧
      ((emptyCall 2).exec t.ram).2.memStore ≠ t.ram.memStore := by
  have hinit := kmallocInit_room Heap.bss clearHeap_init
  have hmax := maxMemories_eq
  generalize (kmallocInit (pmmBoot clearEfiMap) Heap.bss).1 = h at hinit ⊢
  obtain ⟨ok, hroom⟩ := hinit
  obtain ⟨hempty, hheap⟩ := emptyStart_ram h
  exact evicted_after (hheap.symm ▸ ok) (by rw [hheap, hroom]; rfl) hempty (by omega)

end AionOs
