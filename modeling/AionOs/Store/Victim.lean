import AionOs.Store.Exhaust

/-!
# The memory that is evicted

A full store makes room by dropping the episodic memory of least importance.  The search
for it starts at slot 0 with importance 255, so it stays there when no episodic memory is
below 255, whatever slot 0 holds.

* `LeastEpisodic`: the victim that the store is to choose.
* `worstLoop_spec`: what the search finds.
* `evicts_least_iff`: a store drops the right memory if and only if slot 0 is episodic or
  an episodic memory has an importance below 255.
-/

namespace AionOs

/-! ### The right victim -/

/-- Slot `v` holds `m`, the oldest of the episodic memories of least importance. -/
structure LeastEpisodic (ms : List Memory) (v : Nat) (m : Memory) : Prop where
  get : ms[v]? = some m
  episodic : m.type = memEpisodic
  least : ∀ n ∈ ms, n.type = memEpisodic → m.importance ≤ n.importance
  oldest : ∀ j n, ms[j]? = some n → n.type = memEpisodic → n.importance = m.importance → v ≤ j

/-- From `ms` to `ms'` the right memory was dropped, and the others were kept in order. -/
def EvictsLeast (ms ms' : List Memory) : Prop :=
  ∃ v m, LeastEpisodic ms v m ∧ ms.eraseIdx v <+: ms'

/-- The search does not stay at its default for want of a better slot. -/
def VictimFound (ms : List Memory) : Prop :=
  (∃ m, ms[0]? = some m ∧ m.type = memEpisodic) ∨
    ∃ m ∈ ms, m.type = memEpisodic ∧ m.importance < 255

theorem LeastEpisodic.head {m : Memory} {ms : List Memory} (hm : m.type = memEpisodic)
    (h : ∀ n ∈ ms, n.type = memEpisodic → m.importance ≤ n.importance) :
    LeastEpisodic (m :: ms) 0 m where
  get := rfl
  episodic := hm
  least n hn ht := by
    rcases List.mem_cons.mp hn with rfl | hn
    · exact BitVec.le_refl _
    · exact h n hn ht
  oldest j _ _ _ _ := Nat.zero_le j

theorem LeastEpisodic.cons {hd m : Memory} {ms : List Memory} {v : Nat} (h : LeastEpisodic ms v m)
    (hd_imp : hd.type = memEpisodic → m.importance < hd.importance) :
    LeastEpisodic (hd :: ms) (v + 1) m where
  get := h.get
  episodic := h.episodic
  least n hn ht := by
    rcases List.mem_cons.mp hn with rfl | hn
    · exact BitVec.le_of_lt (hd_imp ht)
    · exact h.least n hn ht
  oldest j n hj ht himp := by
    cases j with
    | zero =>
      obtain rfl : hd = n := Option.some.inj hj
      have hlt := hd_imp ht
      rw [himp] at hlt
      exact absurd hlt (BitVec.lt_irrefl _)
    | succ j => exact Nat.succ_le_succ (h.oldest j n hj ht himp)

/-! ### The search -/

/-- **What the search finds** from slot `i` on: nothing below the importance it came with,
or the right victim of the slots it went through. -/
theorem worstLoop_spec : ∀ (es : List MemEntry) (i : Nat) (w : Nat × U8),
    (worstLoop i es w = w.1 ∧
      ∀ m ∈ es.map MemEntry.toMemory, m.type = memEpisodic → w.2 ≤ m.importance) ∨
    ∃ v m, worstLoop i es w = i + v ∧ m.importance < w.2 ∧
      LeastEpisodic (es.map MemEntry.toMemory) v m := by
  intro es
  induction es with
  | nil => intro i w; exact .inl ⟨rfl, fun m hm => by cases hm⟩
  | cons e es ih =>
    intro i w
    rw [worstLoop, List.map_cons]
    by_cases hbetter : e.type = memEpisodic ∧ e.importance < w.2
    · rw [if_pos hbetter]
      right
      rcases ih (i + 1) (i, e.importance) with ⟨he, hnone⟩ | ⟨v, m, he, hlt, hleast⟩
      · exact ⟨0, e.toMemory, he, hbetter.2, .head hbetter.1 hnone⟩
      · exact ⟨v + 1, m, by rw [he]; omega, BitVec.lt_trans hlt hbetter.2, hleast.cons fun _ => hlt⟩
    · rw [if_neg hbetter]
      have hkeep : e.type = memEpisodic → w.2 ≤ e.importance := fun ht =>
        BitVec.not_lt.mp fun hlt => hbetter ⟨ht, hlt⟩
      rcases ih (i + 1) w with ⟨he, hnone⟩ | ⟨v, m, he, hlt, hleast⟩
      · refine .inl ⟨he, fun n hn ht => ?_⟩
        rcases List.mem_cons.mp hn with rfl | hn
        · exact hkeep ht
        · exact hnone n hn ht
      · refine .inr ⟨v + 1, m, by rw [he]; omega, hlt, hleast.cons fun ht => ?_⟩
        exact BitVec.lt_def.mpr (Nat.lt_of_lt_of_le (BitVec.lt_def.mp hlt) (BitVec.le_def.mp (hkeep ht)))

/-- If two slots give the same list when dropped, all between them hold the same. -/
theorem get_of_eraseIdx_zero {α : Type} {l : List α} {v : Nat}
    (h : l.eraseIdx 0 = l.eraseIdx v) : ∀ i ≤ v, l[i]? = l[0]? := by
  intro i
  induction i with
  | zero => intro _; rfl
  | succ i ih =>
    intro hi
    have hget := congrArg (fun l => l[i]?) h
    simp only [List.getElem?_eraseIdx, Nat.not_lt_zero, if_false, show i < v by omega, if_true] at hget
    exact hget.trans (ih (by omega))

/-- **The store drops the right memory** exactly when the search finds one. -/
theorem evictsLeast_iff {es : List MemEntry} {new : List Memory} :
    EvictsLeast (es.map MemEntry.toMemory)
        ((es.map MemEntry.toMemory).eraseIdx (worstIdx es) ++ new) ↔
      VictimFound (es.map MemEntry.toMemory) := by
  constructor
  · rintro ⟨v, m, hleast, hkept⟩
    by_contra hno
    rw [VictimFound, not_or] at hno
    have hmem := List.mem_of_getElem? hleast.get
    rcases worstLoop_spec es 0 (0, 255) with ⟨he, _⟩ | ⟨_, n, _, hlt, hn⟩
    · have hlen := (List.getElem?_eq_some_iff.mp hleast.get).1
      have hzero : worstIdx es = 0 := he
      rw [hzero] at hkept
      have hsame : (es.map MemEntry.toMemory).eraseIdx v =
          (es.map MemEntry.toMemory).eraseIdx 0 := by
        refine (List.prefix_iff_eq_take.mp hkept).trans ?_
        rw [List.take_append_of_le_length, List.take_of_length_le]
        · rw [List.length_eraseIdx_of_lt hlen, List.length_eraseIdx_of_lt (by omega)]
        · rw [List.length_eraseIdx_of_lt hlen, List.length_eraseIdx_of_lt (by omega)]
      have hfirst := get_of_eraseIdx_zero hsame.symm v (Nat.le_refl v)
      exact hno.1 ⟨m, hfirst ▸ hleast.get, hleast.episodic⟩
    · exact hno.2 ⟨n, List.mem_of_getElem? hn.get, hn.episodic, hlt⟩
  · intro hfound
    rcases worstLoop_spec es 0 (0, 255) with ⟨he, hnone⟩ | ⟨v, m, he, _, hleast⟩
    · have hzero : worstIdx es = 0 := he
      have h255 : ∀ a : U8, a ≤ 255 := fun a => BitVec.le_def.mpr (Nat.le_of_lt_succ a.isLt)
      have hall : ∀ n ∈ es.map MemEntry.toMemory, n.type = memEpisodic → ¬ n.importance < 255 :=
        fun n hn ht => BitVec.not_lt.mpr (hnone n hn ht)
      rcases hfound with ⟨m, hm, ht⟩ | ⟨m, hm, ht, hlt⟩
      · refine ⟨0, m, ⟨hm, ht, fun n hn hnt => ?_, fun j _ _ _ _ => Nat.zero_le j⟩, ?_⟩
        · exact BitVec.le_trans (h255 _) (hnone n hn hnt)
        · rw [hzero]
          exact List.prefix_append _ _
      · exact absurd hlt (hall m hm ht)
    · have hv : worstIdx es = v := he.trans (Nat.zero_add v)
      rw [hv]
      exact ⟨v, m, hleast, List.prefix_append _ _⟩

/-! ### The call -/

theorem aionMemoryStore_memories {s : MemState} {e : AionMemoryEntry} {text : CString}
    (he : e.content = some text) (stack : Nat → Nat → U8) :
    ∃ new, (aionMemoryStore (some e) stack s).2.memories = (evict s).memories ++ new := by
  rw [aionMemoryStore]
  simp only [he]
  cases hdup : memStrdup (evict s).heap (storedText text) with
  | mk content heap =>
    cases content with
    | none => exact ⟨[], (List.append_nil _).symm⟩
    | some content =>
      refine ⟨[⟨e.type, e.importance, e.tick, content⟩], ?_⟩
      simp only [appendEntry]
      split
      · rw [aionMemoryFlush]
        split
        · exact List.map_append
        · exact (flushed_memories _).trans List.map_append
      · exact List.map_append

theorem evict_memories_full {s : MemState} (hfull : s.memStore.length = maxMemories) :
    (evict s).memories = s.memories.eraseIdx (worstIdx s.memStore) := by
  rw [MemState.memories, evict, if_pos hfull.ge]
  exact (List.eraseIdx_map _ _ _).symm

/-- **Eviction respects type and importance** in a full store exactly when slot 0 is
episodic or some episodic memory has an importance below 255. -/
theorem evicts_least_iff {s : MemState} (hfull : s.memStore.length = maxMemories)
    {e : AionMemoryEntry} {text : CString} (he : e.content = some text) (stack : Nat → Nat → U8) :
    EvictsLeast s.memories (aionMemoryStore (some e) stack s).2.memories ↔
      VictimFound s.memories := by
  obtain ⟨new, hnew⟩ := aionMemoryStore_memories (s := s) he stack
  rw [hnew, evict_memories_full hfull]
  exact evictsLeast_iff

/-! ### A store that loses what it knows -/

def bareEntry (type importance : U8) : AionMemoryEntry :=
  ⟨type, importance, 0, some ⟨[], fun _ h => absurd h List.not_mem_nil⟩⟩

def bareMemory (type importance : U8) : Memory := ⟨type, importance, 0, ⟨[], Nat.zero_le _⟩⟩

def bareCall (type importance : U8) : StoreCall := .store (some (bareEntry type importance)) sampleStack

theorem bareCall_stored (type importance : U8) :
    (bareCall type importance).stored = some (bareMemory type importance) := rfl

/-- A semantic memory, then `n` episodic ones of importance 255. -/
def loudCalls (n : Nat) : List StoreCall :=
  bareCall memSemantic 0 :: List.replicate n (bareCall memEpisodic 255)

theorem loudCalls_stored (n : Nat) : (loudCalls n).filterMap StoreCall.stored =
    bareMemory memSemantic 0 :: List.replicate n (bareMemory memEpisodic 255) := by
  rw [loudCalls, List.filterMap_cons_some (bareCall_stored memSemantic 0),
    List.filterMap_replicate_of_some (bareCall_stored memEpisodic 255)]

theorem loudCalls_not_found (n : Nat) :
    ¬ VictimFound (bareMemory memSemantic 0 :: List.replicate n (bareMemory memEpisodic 255)) := by
  rintro (⟨m, hm, ht⟩ | ⟨m, hm, ht, hlt⟩)
  · obtain rfl := Option.some.inj hm
    exact absurd ht (by decide)
  · rcases List.mem_cons.mp hm with rfl | hm
    · exact absurd ht (by decide)
    · rw [List.eq_of_mem_replicate hm] at hlt
      exact absurd hlt (by decide)

theorem legal_loudCalls {h : Heap} (ok : h.Ok) (hroom : h.room = heapInitialSize) {n : Nat}
    (hn : n + 1 = maxMemories) :
    (callMachine sampleFs ServedCall).Legal (emptyStart h) (loudCalls n) := by
  have hmax := maxMemories_eq
  refine legal_of_serves _ _ ?_
  rw [(emptyStart_ram h).2, callRequests, loudCalls_stored]
  refine ok.serves_of_le (b := 1) (fun k hk => ?_) (by omega) ?_
  · obtain ⟨m, hm, rfl⟩ := List.mem_map.mp hk
    rcases List.mem_cons.mp hm with rfl | hm
    · exact Nat.le_refl 1
    · rw [List.eq_of_mem_replicate hm]
      exact Nat.le_refl 1
  · rw [requests, List.length_map, List.length_cons, List.length_replicate, hroom,
      show heapInitialSize = 16777216 from rfl]
    omega

theorem loudCalls_memories {h : Heap} (ok : h.Ok) (hroom : h.room = heapInitialSize) {n : Nat}
    (hn : n + 1 = maxMemories) :
    ((callMachine sampleFs ServedCall).run (emptyStart h) (loudCalls n)).ram.memories =
      bareMemory memSemantic 0 :: List.replicate n (bareMemory memEpisodic 255) := by
  have hempty : (emptyStart h).ram.memStore.length = 0 := by
    rw [← memories_length, (emptyStart_ram h).1]
    rfl
  rw [memories_run _ _ (legal_loudCalls ok hroom hn), (emptyStart_ram h).1, loudCalls_stored]
  · rfl
  · rw [hempty, loudCalls_stored, List.length_cons, List.length_replicate]
    omega

theorem loudCalls_full {h : Heap} (ok : h.Ok) (hroom : h.room = heapInitialSize) {n : Nat}
    (hn : n + 1 = maxMemories) :
    ((callMachine sampleFs ServedCall).run (emptyStart h) (loudCalls n)).ram.memStore.length =
      maxMemories := by
  rw [← memories_length, loudCalls_memories ok hroom hn, List.length_cons, List.length_replicate, hn]

theorem loudCalls_evicts {h : Heap} (ok : h.Ok) (hroom : h.room = heapInitialSize) {n : Nat}
    (hn : n + 1 = maxMemories) :
    let s := (callMachine sampleFs ServedCall).run (emptyStart h) (loudCalls n)
    (callMachine sampleFs ServedCall).Legal (emptyStart h) (loudCalls n) ∧
      s.ram.memStore.length = maxMemories ∧
      ¬ EvictsLeast s.ram.memories
        (aionMemoryStore (some (bareEntry memEpisodic 255)) sampleStack s.ram).2.memories := by
  intro s
  have hfull : s.ram.memStore.length = maxMemories := loudCalls_full ok hroom hn
  have hmem : s.ram.memories = _ := loudCalls_memories ok hroom hn
  refine ⟨legal_loudCalls ok hroom hn, hfull, fun hevict => ?_⟩
  obtain ⟨new, hnew⟩ := aionMemoryStore_memories (s := s.ram) (e := bareEntry memEpisodic 255) rfl sampleStack
  rw [hnew, evict_memories_full hfull] at hevict
  have hfound : VictimFound s.ram.memories := evictsLeast_iff.mp hevict
  rw [hmem] at hfound
  exact loudCalls_not_found n hfound

theorem evicts_least_sample :
    let s := (callMachine sampleFs ServedCall).run
      (emptyStart (kmallocInit (pmmBoot clearEfiMap) Heap.bss).1) (loudCalls 65535)
    EvictsLeast s.ram.memories
        (aionMemoryStore (some (bareEntry memEpisodic 255)) sampleStack s.ram).2.memories ↔
      VictimFound s.ram.memories :=
  evicts_least_iff
    (loudCalls_full (kmallocInit_room Heap.bss clearHeap_init).1
      (kmallocInit_room Heap.bss clearHeap_init).2 maxMemories_eq.symm) rfl sampleStack

/-- A full store of one semantic memory and episodic ones of importance 255 drops the
semantic one. -/
theorem evicts_semantic :
    let s := (callMachine sampleFs ServedCall).run
      (emptyStart (kmallocInit (pmmBoot clearEfiMap) Heap.bss).1) (loudCalls 65535)
    (callMachine sampleFs ServedCall).Legal
        (emptyStart (kmallocInit (pmmBoot clearEfiMap) Heap.bss).1) (loudCalls 65535) ∧
      s.ram.memStore.length = maxMemories ∧
      ¬ EvictsLeast s.ram.memories
        (aionMemoryStore (some (bareEntry memEpisodic 255)) sampleStack s.ram).2.memories :=
  loudCalls_evicts (kmallocInit_room Heap.bss clearHeap_init).1
    (kmallocInit_room Heap.bss clearHeap_init).2 maxMemories_eq.symm

end AionOs
