import AionOs.Store.Victim

/-!
# The room of the index buffer

A flush builds the index in a static buffer of 1 MiB through the pointer `ip`: eight bytes
of the count, then 256 bytes for every entry, whatever their number.  The store holds up
to 65536 entries.

* `indexBufWrites`: where the flush writes into the buffer.
* `indexInside_iff`: it stays inside for at most 4095 entries.
* `index_inside_iff`: it does so in a whole run exactly when the run stores no more.
-/

namespace AionOs

/-! ### The writes through `ip` -/

/-- The writes of the loop from `ip` on, as offset and size: the path, the importance. -/
def ipWrites : Nat → List MemEntry → List (Nat × Nat)
  | _, [] => []
  | ip, _ :: es => (ip, 255) :: (ip + 255, 1) :: ipWrites (ip + 256) es

/-- All that `aion_memory_flush` writes into `index_buf`. -/
def indexBufWrites (s : MemState) : List (Nat × Nat) :=
  if s.memDirty = 0 then [] else (0, 8) :: ipWrites 8 s.memStore

theorem ipWrites_le : ∀ (es : List MemEntry) (ip : Nat), ∀ w ∈ ipWrites ip es,
    w.1 + w.2 ≤ ip + 256 * es.length := by
  intro es
  induction es with
  | nil => intro ip w hw; cases hw
  | cons e es ih =>
    intro ip w hw
    rw [List.length_cons]
    simp only [ipWrites, List.mem_cons] at hw
    rcases hw with rfl | rfl | hw
    · show ip + 255 ≤ _
      omega
    · show ip + 255 + 1 ≤ _
      omega
    · have := ih (ip + 256) w hw
      omega

theorem last_mem_ipWrites : ∀ (es : List MemEntry) (ip : Nat), es ≠ [] →
    (ip + 256 * es.length - 1, 1) ∈ ipWrites ip es := by
  intro es
  induction es with
  | nil => intro ip h; exact absurd rfl h
  | cons e es ih =>
    intro ip _
    rw [List.length_cons]
    simp only [ipWrites, List.mem_cons]
    cases es with
    | nil => exact .inr (.inl rfl)
    | cons e' es =>
      have hlast := ih (ip + 256) (List.cons_ne_nil _ _)
      have hip : ip + 256 + 256 * (e' :: es).length - 1 = ip + 256 * ((e' :: es).length + 1) - 1 := by
        omega
      rw [hip] at hlast
      exact .inr (.inr hlast)

section IndexRoom

variable {σ : Type} (fs : FileSystem σ)

/-- A flush keeps inside `index_buf`, passes no more than its size, and what it passes is
read back entry by entry through a buffer of that size. -/
structure IndexInside (s : MemState) : Prop where
  writes : ∀ w ∈ indexBufWrites s, w.1 + w.2 ≤ sizeofIndexBuf
  length : ∀ stack data, (indexPath, data) ∈ (aionMemoryFlush stack s).1 → data.length ≤ sizeofIndexBuf
  readable : s.memDirty ≠ 0 → ∀ disk stack,
    diskPaths fs sizeofIndexBuf (fs.applyAll disk (aionMemoryFlush stack s).1) = memPaths 0 s.memories

variable {fs}

theorem indexPath_write {stack : Nat → Nat → U8} {s : MemState} {data : List U8}
    (h : (indexPath, data) ∈ flushWrites stack s) : data = encodeIndex stack s.memories := by
  rcases List.mem_append.mp h with h | h
  · obtain ⟨_, _, _, _, he, _⟩ := mem_recordWrites.mp h
    exact absurd he.symm (memPath_ne_indexPath _ _)
  · exact congrArg Prod.snd (List.mem_singleton.mp h)

/-- **The index of at most 4095 entries fits**, and no larger one. -/
theorem indexInside_iff {s : MemState} :
    IndexInside fs s ↔ s.memDirty = 0 ∨ s.memStore.length ≤ indexRoom := by
  have hsize := sizeofIndexBuf_eq
  have hmax := maxMemories_eq
  have hindex := indexRoom_eq
  constructor
  · intro h
    by_cases hd : s.memDirty = 0
    · exact .inl hd
    · right
      by_cases hnil : s.memStore = []
      · rw [hnil]
        exact Nat.zero_le _
      · have hin := h.writes (8 + 256 * s.memStore.length - 1, 1) (by
          rw [indexBufWrites, if_neg hd]
          exact List.mem_cons_of_mem _ (last_mem_ipWrites _ 8 hnil))
        have hin' : 8 + 256 * s.memStore.length - 1 + 1 ≤ sizeofIndexBuf := hin
        omega
  · intro h
    by_cases hd : s.memDirty = 0
    · refine ⟨fun w hw => ?_, fun stack data hw => ?_, fun hne => absurd hd hne⟩
      · rw [indexBufWrites, if_pos hd] at hw
        cases hw
      · rw [aionMemoryFlush_clean hd] at hw
        cases hw
    · have hlen : s.memStore.length ≤ indexRoom := h.resolve_left hd
      have hmem := memories_length s
      refine ⟨fun w hw => ?_, fun stack data hw => ?_, fun _ disk stack => ?_⟩
      · rw [indexBufWrites, if_neg hd] at hw
        rcases List.mem_cons.mp hw with rfl | hw
        · show 0 + 8 ≤ _
          omega
        · have := ipWrites_le s.memStore 8 w hw
          omega
      · rw [aionMemoryFlush_dirty hd] at hw
        rw [indexPath_write hw, encodeIndex, List.length_append, Bytes.length_leBytes,
          length_indexSlots stack _ 0 (by omega)]
        omega
      · rw [aionMemoryFlush_dirty hd]
        exact diskPaths_encodeIndex fs (read_flush_index fs disk stack s) (by omega) (by omega)

/-! ### Runs -/

theorem exec_few {s : MemState} {c : StoreCall} (h : c.Served s) (hfew : s.memDirty < 10) :
    (c.exec s).2.memDirty < 10 := by
  rcases exec_cases h with ⟨he, hcase⟩ | ⟨_, stack, he⟩
  · rw [he]
    rcases hcase with ⟨hnone, _⟩ | hlt
    · show (s.pushed c).memDirty < 10
      rw [MemState.pushed, hnone]
      exact hfew
    · exact hlt
  · rw [he]
    exact (by decide : (0 : U64) < 10)

theorem few_run (calls : List StoreCall) (s : StoreSys σ) (hfew : s.ram.memDirty < 10)
    (hl : (callMachine fs ServedCall).Legal s calls) :
    ((callMachine fs ServedCall).run s calls).ram.memDirty < 10 :=
  Machine.run_invariant (I := fun t : StoreSys σ => t.ram.memDirty < 10)
    (fun _ _ ht hc => exec_few hc ht) calls s hfew hl

theorem exists_stored_call {calls : List StoreCall} {k : Nat}
    (h : k < (calls.filterMap StoreCall.stored).length) :
    ∃ pre c, pre ++ [c] <+: calls ∧ (pre.filterMap StoreCall.stored).length = k ∧
      c.stored ≠ none := by
  have hsplit := (List.take_append_drop k (calls.filterMap StoreCall.stored)).symm
  obtain ⟨l₁, l₂, hl, h₁, h₂⟩ := List.filterMap_eq_append_iff.mp hsplit
  rw [List.drop_eq_getElem_cons h] at h₂
  obtain ⟨skip, c, post, rfl, hskip, hc, _⟩ := List.filterMap_eq_cons_iff.mp h₂
  refine ⟨l₁ ++ skip, c, ⟨post, by rw [hl]; simp⟩, ?_, by rw [hc]; exact Option.some_ne_none _⟩
  rw [List.filterMap_append, h₁, List.filterMap_eq_nil_iff.mpr hskip, List.append_nil, List.length_take]
  omega

/-- **The index stays in its buffer** in every flush of a run from `aion_memory_init`, the
automatic ones included, exactly when the run stores at most 4095 memories. -/
theorem index_inside_iff {s : StoreSys σ} {r : MemState} (hinit : s.ram = aionMemoryInit fs s.disk r)
    (calls : List StoreCall) (hl : (callMachine fs ServedCall).Legal s calls) :
    (∀ pre c, pre ++ [c] <+: calls →
        IndexInside fs (((callMachine fs ServedCall).run s pre).ram.pushed c)) ↔
      (calls.filterMap StoreCall.stored).length ≤ indexRoom := by
  have hindex := indexRoom_eq
  have hmax := maxMemories_eq
  have hempty : s.ram.memStore.length = 0 := by rw [hinit]; rfl
  have hfew : s.ram.memDirty < 10 := by rw [hinit]; exact (by decide : (0 : U64) < 10)
  have hcount : ∀ pre, pre <+: calls → (pre.filterMap StoreCall.stored).length ≤ indexRoom →
      ((callMachine fs ServedCall).run s pre).ram.memStore.length =
        (pre.filterMap StoreCall.stored).length := by
    rintro pre ⟨post, rfl⟩ hle
    have hmem := congrArg List.length
      (memories_run pre s ((Machine.legal_append _ _ _ _).mp hl).1 (by omega))
    rw [memories_length, List.length_append, memories_length] at hmem
    omega
  constructor
  · intro hall
    by_contra hmore
    obtain ⟨pre, c, hpre, hk, hc⟩ :=
      @exists_stored_call calls indexRoom (by omega)
    have hpre' : pre <+: calls := (List.prefix_append pre [c]).trans hpre
    obtain ⟨m, hm⟩ := Option.ne_none_iff_exists'.mp hc
    have hlen := hcount pre hpre' (by omega)
    obtain ⟨post, rfl⟩ := hpre'
    have hdirty := few_run pre s hfew ((Machine.legal_append _ _ _ _).mp hl).1
    rcases indexInside_iff.mp (hall pre c hpre) with hz | hroom
    · exact pushed_memDirty hc hdirty hz
    · rw [MemState.pushed, hm, Option.elim_some, push_of_lt (by omega), List.length_append,
        List.length_singleton] at hroom
      omega
  · intro hle pre c hpre
    have hpre' : pre <+: calls := (List.prefix_append pre [c]).trans hpre
    have hstored := (hpre.filterMap StoreCall.stored).length_le
    rw [List.filterMap_append, List.length_append] at hstored
    rw [filterMap_cons_toList, List.filterMap_nil, List.append_nil] at hstored
    have hlen := hcount pre hpre' (by omega)
    have hpushed := pushed_length_le ((callMachine fs ServedCall).run s pre).ram c
    exact indexInside_iff.mpr (.inr (by omega))

end IndexRoom

/-! ### One memory too many -/

def initStart (h : Heap) : StoreSys (Path → Option (List U8)) :=
  ⟨emptyDisk, aionMemoryInit sampleFs emptyDisk (MemState.powerOn sizeofIndexBuf h)⟩

def bareCalls (n : Nat) : List StoreCall := List.replicate n (bareCall memEpisodic 0)

theorem bareCalls_stored (n : Nat) :
    (bareCalls n).filterMap StoreCall.stored = List.replicate n (bareMemory memEpisodic 0) :=
  List.filterMap_replicate_of_some (bareCall_stored memEpisodic 0)

theorem legal_bareCalls {h : Heap} (ok : h.Ok) (hroom : h.room = heapInitialSize) {n : Nat}
    (hn : n ≤ maxMemories) : (callMachine sampleFs ServedCall).Legal (initStart h) (bareCalls n) := by
  have hmax := maxMemories_eq
  have hheap : (initStart h).ram.heap = h := rfl
  refine legal_of_serves _ _ ?_
  rw [hheap, callRequests, bareCalls_stored]
  refine ok.serves_of_le (b := 1) (fun k hk => ?_) (by omega) ?_
  · obtain ⟨m, hm, rfl⟩ := List.mem_map.mp hk
    rw [List.eq_of_mem_replicate hm]
    exact Nat.le_refl 1
  · rw [requests, List.length_map, List.length_replicate, hroom, show heapInitialSize = 16777216 from rfl]
    omega

theorem bareCalls_overrun {h : Heap} (ok : h.Ok) (hroom : h.room = heapInitialSize) {n : Nat}
    (hn : indexRoom ≤ n) (hn' : n < maxMemories) :
    (callMachine sampleFs ServedCall).Legal (initStart h) (bareCalls (n + 1)) ∧
      ¬ IndexInside sampleFs (((callMachine sampleFs ServedCall).run (initStart h) (bareCalls n)).ram.pushed
        (bareCall memEpisodic 0)) := by
  have hindex := indexRoom_eq
  have hmax := maxMemories_eq
  have hl := legal_bareCalls ok hroom (n := n) (by omega)
  refine ⟨legal_bareCalls ok hroom (by omega), fun hin => ?_⟩
  have hfew := few_run (bareCalls n) (initStart h) (by decide : (0 : U64) < 10) hl
  have hmem := memories_run (bareCalls n) (initStart h) hl (by
    rw [bareCalls_stored, List.length_replicate]
    show 0 + n ≤ _
    omega)
  have hlen := congrArg List.length hmem
  rw [memories_length, List.length_append, bareCalls_stored, List.length_replicate] at hlen
  have hlen' : ((callMachine sampleFs ServedCall).run (initStart h) (bareCalls n)).ram.memStore.length =
      0 + n := hlen
  rcases indexInside_iff.mp hin with hz | hle
  · exact pushed_memDirty (c := bareCall memEpisodic 0) (Option.some_ne_none _) hfew hz
  · rw [MemState.pushed, bareCall_stored, Option.elim_some, push_of_lt (by omega), List.length_append,
      List.length_singleton] at hle
    omega

theorem index_inside_sample :
    (∀ pre c, pre ++ [c] <+: bareCalls 4096 →
        IndexInside sampleFs (((callMachine sampleFs ServedCall).run
          (initStart (kmallocInit (pmmBoot clearEfiMap) Heap.bss).1) pre).ram.pushed c)) ↔
      ((bareCalls 4096).filterMap StoreCall.stored).length ≤ indexRoom :=
  index_inside_iff (s := initStart (kmallocInit (pmmBoot clearEfiMap) Heap.bss).1)
    (r := MemState.powerOn sizeofIndexBuf (kmallocInit (pmmBoot clearEfiMap) Heap.bss).1) rfl _
    (legal_bareCalls (kmallocInit_room Heap.bss clearHeap_init).1
      (kmallocInit_room Heap.bss clearHeap_init).2 (by rw [maxMemories_eq]; omega))

/-- The flush in store number 4100 runs over the end of the index buffer. -/
theorem index_overrun :
    (callMachine sampleFs ServedCall).Legal
        (initStart (kmallocInit (pmmBoot clearEfiMap) Heap.bss).1) (bareCalls 4100) ∧
      ¬ IndexInside sampleFs (((callMachine sampleFs ServedCall).run
        (initStart (kmallocInit (pmmBoot clearEfiMap) Heap.bss).1) (bareCalls 4099)).ram.pushed
          (bareCall memEpisodic 0)) :=
  bareCalls_overrun (kmallocInit_room Heap.bss clearHeap_init).1
    (kmallocInit_room Heap.bss clearHeap_init).2 (by rw [indexRoom_eq]; omega)
    (by rw [maxMemories_eq]; omega)

end AionOs
