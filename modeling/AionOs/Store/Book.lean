import AionOs.Store.Evict

/-!
# The books of the store

The count of entries, the dirty flags and the count of new entries are kept by different
statements.  An eviction can remove a dirty entry, so the last count is a bound.

* `Book`: what holds between them.
* `exec_book`: a call keeps it, whether its block is there or not.
* `store_bookkeeping`: it holds in every run.
-/

namespace AionOs

open Bytes

/-- The entries fit in `mem_store`, and the new entries are counted. -/
structure Book (s : MemState) : Prop where
  room : s.memStore.length ≤ maxMemories
  counted : s.memStore.countP (·.dirty) ≤ s.memDirty.toNat
  few : s.memDirty.toNat ≤ 9

/-! ### Calls -/

theorem Book.evict {s : MemState} (h : Book s) : Book (evict s) where
  room := (length_evict_lt h.room).le
  counted := by
    rw [evict_memDirty]
    exact (evict_memStore_sublist s).countP_le.trans h.counted
  few := by
    rw [evict_memDirty]
    exact h.few

theorem book_flushed {s : MemState} (h : s.memStore.length ≤ maxMemories) : Book s.flushed where
  room := by
    show (List.map _ _).length ≤ _
    rwa [List.length_map]
  counted := by
    have hclean : s.flushed.memStore.countP (·.dirty) = 0 := by
      rw [List.countP_eq_zero, flushed_eq_map]
      intro e he
      obtain ⟨m, _, rfl⟩ := List.mem_map.mp he
      exact Bool.false_ne_true
    rw [hclean]
    exact Nat.zero_le _
  few := Nat.zero_le 9

theorem countP_push (s : MemState) (m : Memory) :
    (s.push m).memStore.countP (·.dirty) = (AionOs.evict s).memStore.countP (·.dirty) + 1 := by
  show ((AionOs.evict s).memStore ++ [m.entry true]).countP _ = _
  rw [List.countP_append]
  rfl

/-- **One call keeps the books**, whatever the heap does. -/
theorem exec_book {s : MemState} (h : Book s) (c : StoreCall) : Book (c.exec s).2 := by
  cases hc : c.stored with
  | none =>
    have hserved : c.Served s := by rw [StoreCall.Served, hc]; exact trivial
    have hpushed : s.pushed c = s := by rw [MemState.pushed, hc]; rfl
    rcases exec_cases hserved with ⟨he, _⟩ | ⟨_, stack, he⟩
    · rw [he, hpushed]
      exact h
    · rw [he, hpushed]
      exact book_flushed h.room
  | some m =>
    by_cases hk : (kmalloc s.heap (BitVec.ofNat 64 (m.contentLen + 1))).1 = 0
    · rw [exec_null hc hk]
      exact ⟨h.evict.room, h.evict.counted, h.evict.few⟩
    · have hserved : c.Served s := by
        rw [StoreCall.Served, hc]
        exact ⟨hk, trivial⟩
      have hpushed : s.pushed c = s.push m := by rw [MemState.pushed, hc]; rfl
      have hroom := push_length_le m h.room
      rcases exec_cases hserved with ⟨he, hfew⟩ | ⟨_, stack, he⟩
      · rw [he, hpushed]
        have hdirty : (s.push m).memDirty.toNat = s.memDirty.toNat + 1 := toNat_succ_of_le h.few
        have hlt : (s.push m).memDirty.toNat < 10 := by
          rcases hfew with ⟨hnone, _⟩ | hlt
          · rw [hc] at hnone
            cases hnone
          · rw [hpushed] at hlt
            exact hlt
        refine ⟨hroom, ?_, Nat.le_of_lt_succ hlt⟩
        have hcount := h.evict.counted
        rw [evict_memDirty] at hcount
        rw [countP_push, hdirty]
        omega
      · rw [he, hpushed]
        exact book_flushed hroom

/-! ### The load -/

section Load

variable {σ : Type} (fs : FileSystem σ)

/-- The loop of `aion_memory_load_all` on heaps that others use too: `heaps i` is the heap at
slot `i`. -/
def loadSlotsOn (disk : σ) : (Nat → Heap) → Nat → List U8 → MemState → MemState
  | _, 0, _, s => s
  | heaps, count + 1, p, s =>
    loadSlotsOn disk (fun i => heaps (i + 1)) count (p.drop 256)
      (loadSlot fs disk p { s with heap := heaps 0 })

def aionMemoryLoadAllOn (heaps : Nat → Heap) (disk : σ) (s : MemState) : MemState :=
  match fs.read disk indexPath with
  | none => s
  | some data =>
    let buf := overwrite (data.take s.indexBuf.length) s.indexBuf
    let count := readField buf 0 8
    let count := if count > maxMemories then maxMemories else count
    loadSlotsOn fs disk heaps count (buf.drop 8) { s with indexBuf := buf }

def heapsFrom (heap : Heap) (heaps : Nat → Heap) : Nat → Heap
  | 0 => heap
  | i + 1 => heaps i

theorem loadSlots_eq_on (disk : σ) : ∀ (count : Nat) (p : List U8) (s : MemState),
    ∃ heaps, loadSlots fs disk count p s = loadSlotsOn fs disk heaps count p s := by
  intro count
  induction count with
  | zero => intro p s; exact ⟨fun _ => s.heap, rfl⟩
  | succ count ih =>
    intro p s
    obtain ⟨heaps, hrest⟩ := ih (p.drop 256) (loadSlot fs disk p s)
    exact ⟨heapsFrom s.heap heaps, hrest⟩

theorem aionMemoryLoadAll_eq_on (disk : σ) (s : MemState) :
    ∃ heaps, aionMemoryLoadAll fs disk s = aionMemoryLoadAllOn fs heaps disk s := by
  unfold aionMemoryLoadAll aionMemoryLoadAllOn
  cases fs.read disk indexPath with
  | none => exact ⟨fun _ => s.heap, rfl⟩
  | some data => exact loadSlots_eq_on fs disk _ _ _

variable {fs}

theorem loadSlot_cases (disk : σ) (p : List U8) (s : MemState) :
    (loadSlot fs disk p s).memDirty = s.memDirty ∧
      ((loadSlot fs disk p s).memStore = s.memStore ∨
        ∃ m : Memory, (loadSlot fs disk p s).memStore = s.memStore ++ [m.entry false]) := by
  cases hread : fs.read disk (cstr (p.take 255)) with
  | none =>
    rw [loadSlot_none fs hread]
    exact ⟨rfl, .inl rfl⟩
  | some data =>
    cases hr : (readRecord s.recordBuf data).1 with
    | none =>
      rw [loadSlot_skip fs hread hr]
      exact ⟨rfl, .inl rfl⟩
    | some m =>
      by_cases hk : (kmalloc s.heap (BitVec.ofNat 64 (m.contentLen + 1))).1 = 0
      · rw [loadSlot_full fs hread hr hk]
        exact ⟨rfl, .inl rfl⟩
      · rw [loadSlot_some fs hread hr hk]
        exact ⟨rfl, .inr ⟨m, rfl⟩⟩

/-- The loop adds at most one clean entry for each slot. -/
theorem loadSlotsOn_book (disk : σ) : ∀ (count : Nat) (heaps : Nat → Heap) (p : List U8) {s : MemState},
    Book s → s.memStore.length + count ≤ maxMemories → Book (loadSlotsOn fs disk heaps count p s) := by
  intro count
  induction count with
  | zero => intro heaps p s h _; exact h
  | succ count ih =>
    intro heaps p s h hroom
    obtain ⟨hdirty, hsame | ⟨m, hnew⟩⟩ := @loadSlot_cases _ fs disk p { s with heap := heaps 0 }
    · refine ih _ (p.drop 256) ⟨?_, ?_, ?_⟩ ?_
      · rw [hsame]
        exact h.room
      · rw [hsame, hdirty]
        exact h.counted
      · rw [hdirty]
        exact h.few
      · rw [hsame]
        show s.memStore.length + count ≤ maxMemories
        omega
    · have hlen : (s.memStore ++ [m.entry false]).length = s.memStore.length + 1 := List.length_append
      refine ih _ (p.drop 256) ⟨?_, ?_, ?_⟩ ?_
      · rw [hnew]
        show (s.memStore ++ [m.entry false]).length ≤ maxMemories
        omega
      · rw [hnew, hdirty, List.countP_append]
        exact h.counted
      · rw [hdirty]
        exact h.few
      · rw [hnew]
        show (s.memStore ++ [m.entry false]).length + count ≤ maxMemories
        omega

theorem book_init (disk : σ) (s : MemState) : Book (aionMemoryInit fs disk s) :=
  ⟨Nat.zero_le _, Nat.zero_le _, Nat.zero_le _⟩

theorem loadAllOn_book (heaps : Nat → Heap) (disk : σ) {s : MemState} (h : Book s) (hempty : s.memStore = []) :
    Book (aionMemoryLoadAllOn fs heaps disk s) := by
  unfold aionMemoryLoadAllOn
  cases fs.read disk indexPath with
  | none => exact h
  | some data =>
    refine loadSlotsOn_book disk _ heaps _ ⟨h.room, h.counted, h.few⟩ ?_
    show s.memStore.length + _ ≤ maxMemories
    rw [hempty, List.length_nil, Nat.zero_add]
    split
    · exact Nat.le_refl _
    · omega

end Load

/-! ### Runs -/

def bookMachine : Machine MemState (Heap × StoreCall) :=
  ⟨fun s a => (a.2.exec { s with heap := a.1 }).2, fun _ _ => True⟩

theorem book_run (calls : List (Heap × StoreCall)) {s : MemState} (h : Book s) :
    Book (bookMachine.run s calls) :=
  Machine.run_invariant (M := bookMachine)
    (fun _ a hs _ => exec_book ⟨hs.room, hs.counted, hs.few⟩ a.2) calls s h
    (Machine.legal_of_forall bookMachine (fun _ _ => trivial) calls s)

/-- **The books are kept.**  After the start of the store, a load of any disk or none, and any
calls, with any heap at each `kmalloc`, the entries fit, each has its contents, the dirty
ones are counted, and a flush that returns early leaves none dirty. -/
theorem store_bookkeeping {σ : Type} (fs : FileSystem σ) (disk : σ) (s : MemState)
    (load : Option (Nat → Heap)) (calls : List (Heap × StoreCall)) :
    let start := aionMemoryInit fs disk s
    let t := bookMachine.run (load.elim start fun heaps => aionMemoryLoadAllOn fs heaps disk start) calls
    t.memStore.length ≤ 65536 ∧
      (∀ e ∈ t.memStore, e.contentLen ≤ 4096 ∧ e.content.bytes.length = e.contentLen) ∧
      t.memStore.countP (·.dirty) ≤ t.memDirty.toNat ∧ t.memDirty.toNat ≤ 9 ∧
      (t.memDirty = 0 → ∀ e ∈ t.memStore, e.dirty = false) := by
  intro start t
  have hstart : Book start := book_init disk s
  have hbook : Book t := by
    refine book_run calls ?_
    cases load with
    | none => exact hstart
    | some heaps => exact loadAllOn_book heaps disk hstart rfl
  have hroom := hbook.room
  rw [maxMemories_eq] at hroom
  refine ⟨hroom, fun e _ => ⟨e.contentLen_le, rfl⟩, hbook.counted, hbook.few, fun hzero e he => ?_⟩
  have hcount := hbook.counted
  rw [hzero] at hcount
  have hnone := List.countP_eq_zero.mp (Nat.le_zero.mp hcount) e he
  exact Bool.eq_false_iff.mpr hnone

end AionOs
