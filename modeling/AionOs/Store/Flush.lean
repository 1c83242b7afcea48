import AionOs.Lib.Machine
import AionOs.Store.Load

/-!
# Calls of the store

A call is a `aion_memory_store` or a `aion_memory_flush`; `exec` is what it writes and what
it leaves in RAM.

* `exec_cases`: a call stores its memory, and then flushes or not.
* `read_flush_dirty`, `read_flush_clean`, `read_flush_index`: what a flush leaves on the disk.
* `reload_flush`: if the clean entries are in place before a flush, a start finds all
  entries after it.
-/

namespace AionOs

open Bytes

/-! ### Calls -/

inductive StoreCall where
  | store (entry : Option AionMemoryEntry) (stack : Nat → Nat → U8)
  | flush (stack : Nat → Nat → U8)

def StoreCall.exec (s : MemState) : StoreCall → List FileWrite × MemState
  | .store entry stack => aionMemoryStore entry stack s
  | .flush stack => aionMemoryFlush stack s

def StoreCall.stored : StoreCall → Option Memory
  | .store (some e) _ => e.content.map fun text => ⟨e.type, e.importance, e.tick, storedText text⟩
  | .store none _ => none
  | .flush _ => none

/-- `kmalloc` does not fail in the call. -/
def StoreCall.Served (s : MemState) (c : StoreCall) : Prop := s.heap.Serves (requests c.stored.toList)

/-- The state when a memory was stored, before the flush that may follow. -/
def MemState.push (m : Memory) (s : MemState) : MemState :=
  { evict s with
    memStore := (evict s).memStore ++ [m.entry true]
    memDirty := s.memDirty + 1
    heap := (kmalloc s.heap (BitVec.ofNat 64 (m.contentLen + 1))).2 }

def MemState.flushed (s : MemState) : MemState :=
  { s with memStore := s.memStore.map fun e => e.toMemory.entry false, memDirty := 0 }

/-- The state of a call before the flush that may follow. -/
def MemState.pushed (s : MemState) (c : StoreCall) : MemState := c.stored.elim s fun m => s.push m

theorem evict_memDirty (s : MemState) : (evict s).memDirty = s.memDirty := by
  rw [evict]
  split <;> rfl

theorem evict_heap (s : MemState) : (evict s).heap = s.heap := by
  rw [evict]
  split <;> rfl

theorem evict_of_lt {s : MemState} (h : s.memStore.length < maxMemories) : evict s = s :=
  if_neg (Nat.not_le_of_lt h)

theorem push_of_lt {s : MemState} (h : s.memStore.length < maxMemories) (m : Memory) :
    (s.push m).memStore = s.memStore ++ [m.entry true] := by
  show (evict s).memStore ++ _ = _
  rw [evict_of_lt h]

theorem flushed_memories (s : MemState) : s.flushed.memories = s.memories := by
  rw [MemState.memories, MemState.memories, MemState.flushed, List.map_map]
  rfl

theorem flushed_eq_map (s : MemState) : s.flushed.memStore = s.memories.map (Memory.entry false) := by
  rw [MemState.memories, List.map_map]
  rfl

theorem aionMemoryFlush_dirty {s : MemState} (h : s.memDirty ≠ 0) (stack : Nat → Nat → U8) :
    aionMemoryFlush stack s = (flushWrites stack s, s.flushed) := if_neg h

theorem aionMemoryFlush_clean {s : MemState} (h : s.memDirty = 0) (stack : Nat → Nat → U8) :
    aionMemoryFlush stack s = ([], s) := if_pos h

theorem aionMemoryStore_served {s : MemState} {e : AionMemoryEntry} {text : CString}
    (he : e.content = some text)
    (hk : (kmalloc s.heap (BitVec.ofNat 64 ((storedText text).bytes.length + 1))).1 ≠ 0)
    (stack : Nat → Nat → U8) :
    let t := s.push ⟨e.type, e.importance, e.tick, storedText text⟩
    aionMemoryStore (some e) stack s =
      if t.memDirty ≥ 10 then aionMemoryFlush stack t else ([], t) := by
  intro t
  have ht : appendEntry stack ⟨e.type, e.importance, e.tick, storedText text⟩
      { evict s with
        heap := (kmalloc s.heap (BitVec.ofNat 64 ((storedText text).bytes.length + 1))).2 } =
      if t.memDirty ≥ 10 then aionMemoryFlush stack t else ([], t) := by
    rw [appendEntry]
    simp only [evict_memDirty]
    rfl
  rw [aionMemoryStore]
  simp only [he, evict_heap, memStrdup_of_ne_zero hk]
  exact ht

theorem exec_null {s : MemState} {c : StoreCall} {m : Memory} (hm : c.stored = some m)
    (hk : (kmalloc s.heap (BitVec.ofNat 64 (m.contentLen + 1))).1 = 0) :
    c.exec s = ([], { evict s with heap := (kmalloc s.heap (BitVec.ofNat 64 (m.contentLen + 1))).2 }) := by
  cases c with
  | flush stack => cases hm
  | store entry stack =>
    cases entry with
    | none => cases hm
    | some e =>
      obtain ⟨text, he, rfl⟩ := Option.map_eq_some_iff.mp hm
      rw [StoreCall.exec, aionMemoryStore]
      simp only [he, evict_heap, memStrdup_of_zero hk]
      rfl

/-- **All that a call can do** when `kmalloc` does not fail: it stores its memory, if it has
one, and then flushes or not. -/
theorem exec_cases {s : MemState} {c : StoreCall} (h : c.Served s) :
    (c.exec s = ([], s.pushed c) ∧
      (c.stored = none ∧ (∀ stack, c = .flush stack → s.memDirty = 0) ∨
        (s.pushed c).memDirty < 10)) ∨
    ((s.pushed c).memDirty ≠ 0 ∧
      ∃ stack, c.exec s = (flushWrites stack (s.pushed c), (s.pushed c).flushed)) := by
  cases c with
  | flush stack =>
    by_cases hd : s.memDirty = 0
    · exact .inl ⟨aionMemoryFlush_clean hd stack, .inl ⟨rfl, fun _ _ => hd⟩⟩
    · exact .inr ⟨hd, stack, aionMemoryFlush_dirty hd stack⟩
  | store entry stack =>
    have hnull : ∀ st : Nat → Nat → U8, (StoreCall.store entry stack) = .flush st → s.memDirty = 0 :=
      fun _ hc => by cases hc
    cases entry with
    | none => exact .inl ⟨rfl, .inl ⟨rfl, hnull⟩⟩
    | some e =>
      cases he : e.content with
      | none =>
        have hstored : (StoreCall.store (some e) stack).stored = none := by
          rw [StoreCall.stored, he]
          rfl
        have hpushed : s.pushed (.store (some e) stack) = s := by rw [MemState.pushed, hstored]; rfl
        refine .inl ⟨?_, .inl ⟨hstored, hnull⟩⟩
        rw [hpushed, StoreCall.exec, aionMemoryStore]
        simp only [he]
      | some text =>
        have hstored : (StoreCall.store (some e) stack).stored =
            some ⟨e.type, e.importance, e.tick, storedText text⟩ := by
          rw [StoreCall.stored, he]
          rfl
        have hpushed : s.pushed (.store (some e) stack) =
            s.push ⟨e.type, e.importance, e.tick, storedText text⟩ := by
          rw [MemState.pushed, hstored]
          rfl
        rw [StoreCall.Served, hstored] at h
        have hexec := aionMemoryStore_served he h.1 stack
        rw [hpushed, StoreCall.exec, hexec]
        set t := s.push ⟨e.type, e.importance, e.tick, storedText text⟩
        by_cases h10 : t.memDirty ≥ 10
        · have hd : t.memDirty ≠ 0 := by
            rintro hz
            rw [hz] at h10
            exact absurd h10 (by decide)
          rw [if_pos h10, aionMemoryFlush_dirty hd]
          exact .inr ⟨hd, stack, rfl⟩
        · rw [if_neg h10]
          exact .inl ⟨rfl, .inr (BitVec.not_le.mp h10)⟩

theorem exec_heap {s : MemState} {c : StoreCall} (h : c.Served s) :
    (c.exec s).2.heap = s.heap.after (requests c.stored.toList) := by
  have hpushed : (s.pushed c).heap = s.heap.after (requests c.stored.toList) := by
    rw [MemState.pushed]
    cases c.stored <;> rfl
  rcases exec_cases h with ⟨he, _⟩ | ⟨_, stack, he⟩
  · rw [he]
    exact hpushed
  · rw [he]
    exact hpushed

theorem pushed_length_le (s : MemState) (c : StoreCall) :
    (s.pushed c).memStore.length ≤ s.memStore.length + c.stored.toList.length := by
  have hevict : (evict s).memStore.length ≤ s.memStore.length := by
    rw [evict]
    split
    · exact List.length_eraseIdx_le _ _
    · exact Nat.le_refl _
  rw [MemState.pushed]
  cases c.stored with
  | none => exact Nat.le_refl _
  | some m =>
    show ((evict s).memStore ++ [m.entry true]).length ≤ s.memStore.length + 1
    rw [List.length_append, List.length_singleton]
    omega

theorem exec_length_le {s : MemState} {c : StoreCall} (h : c.Served s) :
    (c.exec s).2.memStore.length ≤ s.memStore.length + c.stored.toList.length := by
  have hle := pushed_length_le s c
  rcases exec_cases h with ⟨he, _⟩ | ⟨_, stack, he⟩
  · rw [he]
    exact hle
  · rw [he]
    show (List.map _ _).length ≤ _
    rwa [List.length_map]

theorem memories_pushed {s : MemState} {c : StoreCall}
    (h : s.memStore.length + c.stored.toList.length ≤ maxMemories) :
    (s.pushed c).memories = s.memories ++ c.stored.toList := by
  rw [MemState.pushed]
  cases hc : c.stored with
  | none => exact (List.append_nil _).symm
  | some m =>
    rw [hc] at h
    rw [Option.elim_some, MemState.memories, push_of_lt (Nat.lt_of_succ_le h), List.map_append]
    rfl

theorem memories_exec {s : MemState} {c : StoreCall} (h : c.Served s)
    (hroom : s.memStore.length + c.stored.toList.length ≤ maxMemories) :
    (c.exec s).2.memories = s.memories ++ c.stored.toList := by
  rw [← memories_pushed hroom]
  rcases exec_cases h with ⟨he, _⟩ | ⟨_, stack, he⟩
  · rw [he]
  · rw [he, flushed_memories]

/-! ### Runs of calls -/

structure StoreSys (σ : Type) where
  disk : σ
  ram : MemState

section Calls

variable {σ : Type} (fs : FileSystem σ)

def StoreSys.call (s : StoreSys σ) (c : StoreCall) : StoreSys σ where
  disk := fs.applyAll s.disk (c.exec s.ram).1
  ram := (c.exec s.ram).2

def callMachine (allowed : StoreSys σ → StoreCall → Prop) : Machine (StoreSys σ) StoreCall :=
  ⟨StoreSys.call fs, allowed⟩

def StoreSys.start (cap : Nat) (disk : σ) (heap : Heap) : StoreSys σ :=
  ⟨disk, bootMemory fs cap disk heap⟩

def ServedCall (s : StoreSys σ) (c : StoreCall) : Prop := c.Served s.ram

def callRequests (calls : List StoreCall) : List Nat := requests (calls.filterMap StoreCall.stored)

theorem filterMap_cons_toList {α β : Type} (f : α → Option β) (a : α) (l : List α) :
    (a :: l).filterMap f = (f a).toList ++ l.filterMap f := by
  rw [List.filterMap_cons]
  cases f a <;> rfl

theorem callRequests_cons (c : StoreCall) (calls : List StoreCall) :
    callRequests (c :: calls) = requests c.stored.toList ++ callRequests calls := by
  rw [callRequests, filterMap_cons_toList, requests_append]
  rfl

variable {fs}

theorem legal_of_serves : ∀ (calls : List StoreCall) (s : StoreSys σ),
    s.ram.heap.Serves (callRequests calls) → (callMachine fs ServedCall).Legal s calls := by
  intro calls
  induction calls with
  | nil => intro s _; exact trivial
  | cons c calls ih =>
    intro s h
    rw [callRequests_cons, Heap.serves_append] at h
    refine ⟨h.1, ih _ ?_⟩
    show (c.exec s.ram).2.heap.Serves _
    rw [exec_heap h.1]
    exact h.2

theorem memories_run : ∀ (calls : List StoreCall) (s : StoreSys σ),
    (callMachine fs ServedCall).Legal s calls →
    s.ram.memStore.length + (calls.filterMap StoreCall.stored).length ≤ maxMemories →
    ((callMachine fs ServedCall).run s calls).ram.memories =
      s.ram.memories ++ calls.filterMap StoreCall.stored := by
  intro calls
  induction calls with
  | nil => intro s _ _; exact (List.append_nil _).symm
  | cons c calls ih =>
    intro s hl hroom
    rw [filterMap_cons_toList, List.length_append] at hroom
    have hlen := exec_length_le hl.1
    have hmem := memories_exec hl.1 (by omega)
    rw [Machine.run_cons, filterMap_cons_toList, ← List.append_assoc, ← hmem]
    refine ih (s.call fs c) hl.2 ?_
    show (c.exec s.ram).2.memStore.length + _ ≤ _
    omega

end Calls

/-! ### The writes of a flush -/

theorem mem_recordWrites {q : Path} {v : List U8} : ∀ {es : List MemEntry} {i : Nat},
    (q, v) ∈ recordWrites i es ↔ ∃ k e, es[k]? = some e ∧ e.dirty = true ∧
      q = memPath e.type (i + k) ∧ v = encodeRecord e.toMemory := by
  intro es
  induction es with
  | nil => intro i; simp [recordWrites]
  | cons e es ih =>
    intro i
    have htail : (∃ k e', (e :: es)[k]? = some e' ∧ e'.dirty = true ∧ q = memPath e'.type (i + k) ∧
        v = encodeRecord e'.toMemory) ↔
        (e.dirty = true ∧ q = memPath e.type i ∧ v = encodeRecord e.toMemory) ∨
          (q, v) ∈ recordWrites (i + 1) es := by
      rw [ih]
      constructor
      · rintro ⟨k, e', hk, hd, hq, hv⟩
        cases k with
        | zero => cases hk; exact .inl ⟨hd, hq, hv⟩
        | succ k => exact .inr ⟨k, e', hk, hd, by rw [hq, Nat.add_right_comm, Nat.add_assoc], hv⟩
      · rintro (⟨hd, hq, hv⟩ | ⟨k, e', hk, hd, hq, hv⟩)
        · exact ⟨0, e, rfl, hd, hq, hv⟩
        · exact ⟨k + 1, e', hk, hd, by rw [hq, Nat.add_right_comm, Nat.add_assoc], hv⟩
    rw [htail, recordWrites]
    by_cases hd : e.dirty = true
    · rw [if_pos hd, List.mem_cons, Prod.mk.injEq]
      exact or_congr_left ⟨fun h => ⟨hd, h⟩, fun h => h.2⟩
    · rw [if_neg hd]
      exact ⟨.inr, fun h => h.resolve_left fun hc => hd hc.1⟩

theorem mem_names_recordWrites {q : Path} {es : List MemEntry} {i : Nat} :
    q ∈ (recordWrites i es).map Prod.fst ↔
      ∃ k e, es[k]? = some e ∧ e.dirty = true ∧ q = memPath e.type (i + k) := by
  rw [List.mem_map]
  constructor
  · rintro ⟨⟨q', v⟩, hw, rfl⟩
    obtain ⟨k, e, hk, hd, hq, _⟩ := mem_recordWrites.mp hw
    exact ⟨k, e, hk, hd, hq⟩
  · rintro ⟨k, e, hk, hd, hq⟩
    exact ⟨(q, encodeRecord e.toMemory), mem_recordWrites.mpr ⟨k, e, hk, hd, hq, rfl⟩, rfl⟩

/-- No file is written twice: the names tell the slots. -/
theorem nodup_recordWrites : ∀ (es : List MemEntry) (i : Nat),
    ((recordWrites i es).map Prod.fst).Nodup := by
  intro es
  induction es with
  | nil => intro i; exact List.nodup_nil
  | cons e es ih =>
    intro i
    rw [recordWrites]
    split
    · rw [List.map_cons, List.nodup_cons]
      refine ⟨fun h => ?_, ih (i + 1)⟩
      obtain ⟨k, e', _, _, hq⟩ := mem_names_recordWrites.mp h
      have := (memPath_inj hq).1
      omega
    · exact ih (i + 1)

theorem nodup_flushWrites (stack : Nat → Nat → U8) (s : MemState) :
    ((flushWrites stack s).map Prod.fst).Nodup := by
  rw [flushWrites, List.map_append, List.map_singleton]
  refine List.Nodup.append (nodup_recordWrites _ _) (List.nodup_singleton _) ?_
  intro q hq hq'
  obtain ⟨k, e, _, _, he⟩ := mem_names_recordWrites.mp hq
  rw [List.mem_singleton.mp hq'] at he
  exact memPath_ne_indexPath _ _ he.symm

/-! ### The disk after a flush -/

section Disk

variable {σ : Type} (fs : FileSystem σ)

theorem read_flush_index (disk : σ) (stack : Nat → Nat → U8) (s : MemState) :
    fs.read (fs.applyAll disk (flushWrites stack s)) indexPath =
      some (encodeIndex stack s.memories) :=
  fs.read_applyAll_of_mem _ _ (nodup_flushWrites stack s) (List.mem_append_right _ List.mem_cons_self)

theorem read_flush_dirty (disk : σ) (stack : Nat → Nat → U8) {s : MemState} {k : Nat} {e : MemEntry}
    (hk : s.memStore[k]? = some e) (hd : e.dirty = true) :
    fs.read (fs.applyAll disk (flushWrites stack s)) (memPath e.type k) =
      some (encodeRecord e.toMemory) := by
  refine fs.read_applyAll_of_mem _ _ (nodup_flushWrites stack s) (List.mem_append_left _ ?_)
  exact mem_recordWrites.mpr ⟨k, e, hk, hd, by rw [Nat.zero_add], rfl⟩

theorem read_flush_clean (disk : σ) (stack : Nat → Nat → U8) {s : MemState} {t : U8} {k : Nat}
    (h : ∀ e, s.memStore[k]? = some e → e.dirty = false) :
    fs.read (fs.applyAll disk (flushWrites stack s)) (memPath t k) = fs.read disk (memPath t k) := by
  refine fs.read_applyAll_of_notMem _ _ ?_
  rw [flushWrites, List.map_append, List.map_singleton, List.mem_append, List.mem_singleton, not_or]
  refine ⟨fun hq => ?_, memPath_ne_indexPath t k⟩
  obtain ⟨j, e, hj, hd, he⟩ := mem_names_recordWrites.mp hq
  have hjk := (memPath_inj he).1
  rw [Nat.zero_add] at hjk
  rw [h e (hjk ▸ hj)] at hd
  cases hd

/-- The clean entries have their records in the files of their slots. -/
def InPlace (disk : σ) (s : MemState) : Prop :=
  ∀ k e, s.memStore[k]? = some e → e.dirty = false →
    fs.read disk (memPath e.type k) = some (encodeRecord e.toMemory)

theorem memories_get {s : MemState} {k : Nat} {m : Memory} (h : s.memories[k]? = some m) :
    ∃ e, s.memStore[k]? = some e ∧ e.toMemory = m := by
  rw [MemState.memories, List.getElem?_map] at h
  obtain ⟨e, he, hm⟩ := Option.map_eq_some_iff.mp h
  exact ⟨e, he, hm⟩

variable {fs}

theorem InPlace.written {disk : σ} {s : MemState} (h : InPlace fs disk s) (stack : Nat → Nat → U8) :
    Written fs (fs.applyAll disk (flushWrites stack s)) 0 s.memories := by
  intro k m hm
  obtain ⟨e, he, rfl⟩ := memories_get hm
  rw [Nat.zero_add]
  cases hd : e.dirty with
  | true => exact read_flush_dirty fs disk stack he hd
  | false =>
    have hclean : ∀ e', s.memStore[k]? = some e' → e'.dirty = false := by
      intro e' he'
      rw [he] at he'
      rwa [← Option.some.inj he']
    rw [read_flush_clean fs disk stack hclean]
    exact h k e he hd

theorem Written.inPlace {disk : σ} {s : MemState} (h : Written fs disk 0 s.memories) :
    InPlace fs disk s.flushed := by
  intro k e he _
  have hm : s.memories[k]? = some e.toMemory := by
    rw [← flushed_memories, MemState.memories, List.getElem?_map, he]
    rfl
  have := h k _ hm
  rwa [Nat.zero_add] at this

/-- **A start finds what a flush wrote**, if the clean entries were in place. -/
theorem reload_flush {disk : σ} {s : MemState} {cap : Nat} (h : InPlace fs disk s)
    (hmax : s.memStore.length ≤ maxMemories) (hcap : 8 + 256 * s.memStore.length ≤ cap)
    (stack : Nat → Nat → U8) :
    diskPaths fs cap (fs.applyAll disk (flushWrites stack s)) = memPaths 0 s.memories ∧
      diskMemories fs cap (fs.applyAll disk (flushWrites stack s)) = s.memories := by
  have hlen : s.memories.length = s.memStore.length := List.length_map _
  have hpaths : diskPaths fs cap (fs.applyAll disk (flushWrites stack s)) = memPaths 0 s.memories :=
    diskPaths_encodeIndex fs (read_flush_index fs disk stack s) (by omega) (by omega)
  refine ⟨hpaths, ?_⟩
  rw [diskMemories, hpaths]
  exact readAll_written fs _ 0 _ (h.written stack)

end Disk

end AionOs
