import AionOs.Store.Damage

/-!
# A full store

Runs of calls from an empty disk, past the capacity.  An eviction moves the entries behind
it one slot down; a flush names files by slot and writes dirty entries only.

* `ShiftOk`: the records of the clean entries that an eviction moves are already in the
  files of their new slots.
* `evictInv_step`: such a call keeps the clean entries in place.
* `shiftOk_of_coherent`: any other call breaks the next start.
* `evict_coherent_iff`: the disk is coherent after every flush exactly when every eviction
  is of the first kind.
-/

namespace AionOs

section Evict

variable {σ : Type} (fs : FileSystem σ)

/-! ### Coherence -/

/-- The file that an index slot names decodes to the entry of that slot, and a start finds
the entries that are in RAM. -/
structure Coherent (cap : Nat) (s : StoreSys σ) : Prop where
  slots : ∀ (i : Nat) (m : Memory), s.ram.memories[i]? = some m → ∃ p data,
    (diskPaths fs cap s.disk)[i]? = some p ∧ fs.read s.disk p = some data ∧
      (readRecord RecordBuf.bss data).1 = some m
  reload : diskMemories fs cap s.disk = s.ram.memories

/-- If the call evicts, the clean entries behind the evicted one have their records in the
files of the slots that they move to. -/
def ShiftOk (s : StoreSys σ) (c : StoreCall) : Prop :=
  c.stored ≠ none → maxMemories ≤ s.ram.memStore.length → ∀ k e, worstIdx s.ram.memStore ≤ k →
    s.ram.memStore[k + 1]? = some e → e.dirty = false →
    fs.read s.disk (memPath e.type k) = some (encodeRecord e.toMemory)

variable {fs}

theorem memPaths_get : ∀ (ms : List Memory) (i k : Nat),
    (memPaths i ms)[k]? = ms[k]?.map fun m => memPath m.type (i + k) := by
  intro ms
  induction ms with
  | nil => intro i k; rfl
  | cons m ms ih =>
    intro i k
    cases k with
    | zero => rfl
    | succ k =>
      rw [memPaths, List.getElem?_cons_succ, List.getElem?_cons_succ, ih, Nat.add_right_comm,
        Nat.add_assoc]

theorem coherent_of_written {cap : Nat} {s : StoreSys σ}
    (hpaths : diskPaths fs cap s.disk = memPaths 0 s.ram.memories)
    (hwritten : Written fs s.disk 0 s.ram.memories) : Coherent fs cap s := by
  refine ⟨fun i m hm => ⟨memPath m.type i, encodeRecord m, ?_, ?_, readRecord_encode _ m⟩, ?_⟩
  · rw [hpaths, memPaths_get, hm, Nat.zero_add]
    rfl
  · have := hwritten i m hm
    rwa [Nat.zero_add] at this
  · rw [diskMemories, hpaths]
    exact readAll_written fs _ 0 _ hwritten

/-! ### The invariant -/

variable (fs)

/-- Clean entries are in place, all record files are records, and after a flush the index
names the entries. -/
structure EvictInv (cap : Nat) (s : StoreSys σ) : Prop where
  inPlace : InPlace fs s.disk s.ram
  records : ∀ t k data, fs.read s.disk (memPath t k) = some data → ∃ m, data = encodeRecord m
  room : s.ram.memStore.length ≤ maxMemories
  few : s.ram.memDirty < 10
  flushed : s.ram.memDirty = 0 → (∀ e ∈ s.ram.memStore, e.dirty = false) ∧
    diskPaths fs cap s.disk = memPaths 0 s.ram.memories

variable {fs}

theorem push_get (s : MemState) (m : Memory) {k : Nat} {e : MemEntry}
    (h : (s.push m).memStore[k]? = some e) : e = m.entry true ∨
      (s.memStore[k]? = some e ∧ (maxMemories ≤ s.memStore.length → k < worstIdx s.memStore)) ∨
      (maxMemories ≤ s.memStore.length ∧ worstIdx s.memStore ≤ k ∧ s.memStore[k + 1]? = some e) := by
  have hpush : (s.push m).memStore = (evict s).memStore ++ [m.entry true] := rfl
  rw [hpush, List.getElem?_append] at h
  by_cases hk : k < (evict s).memStore.length
  · rw [if_pos hk] at h
    by_cases hfull : s.memStore.length ≥ maxMemories
    · have hevict : (evict s).memStore = s.memStore.eraseIdx (worstIdx s.memStore) := by
        rw [evict, if_pos hfull]
      rw [hevict, List.getElem?_eraseIdx] at h
      split at h
      · next hw => exact .inr (.inl ⟨h, fun _ => hw⟩)
      · next hw => exact .inr (.inr ⟨hfull, Nat.le_of_not_lt hw, h⟩)
    · rw [evict_of_lt (Nat.lt_of_not_le hfull)] at h
      exact .inr (.inl ⟨h, fun hc => absurd hc hfull⟩)
  · rw [if_neg hk] at h
    exact .inl (List.mem_singleton.mp (List.mem_of_getElem? h))

/-- An entry that an eviction moves is in its new slot. -/
theorem push_get_shifted {s : MemState} (m : Memory) {k : Nat} {e : MemEntry}
    (hfull : maxMemories ≤ s.memStore.length) (hw : worstIdx s.memStore ≤ k)
    (h : s.memStore[k + 1]? = some e) : (s.push m).memStore[k]? = some e := by
  have hevict : (evict s).memStore = s.memStore.eraseIdx (worstIdx s.memStore) := by
    rw [evict, if_pos hfull]
  have hget : (evict s).memStore[k]? = some e := by
    rw [hevict, List.getElem?_eraseIdx, if_neg (Nat.not_lt_of_le hw), h]
  show ((evict s).memStore ++ [m.entry true])[k]? = some e
  rw [List.getElem?_append_left (List.getElem?_eq_some_iff.mp hget).1, hget]

theorem worstLoop_lt : ∀ (es : List MemEntry) (i n : Nat) (w : Nat × U8), w.1 < n →
    i + es.length ≤ n → worstLoop i es w < n := by
  intro es
  induction es with
  | nil => intro i n w h _; exact h
  | cons e es ih =>
    intro i n w h hn
    rw [List.length_cons] at hn
    rw [worstLoop]
    refine ih (i + 1) n _ ?_ (by omega)
    split
    · show i < n
      omega
    · exact h

theorem worstIdx_lt {es : List MemEntry} (h : 0 < es.length) : worstIdx es < es.length :=
  worstLoop_lt es 0 es.length (0, 255) h (Nat.zero_add _).le

theorem evict_memStore_sublist (s : MemState) : (evict s).memStore.Sublist s.memStore := by
  unfold evict
  split
  · exact List.eraseIdx_sublist _ _
  · exact List.Sublist.refl _

theorem length_evict (s : MemState) : (evict s).memStore.length =
    if s.memStore.length < maxMemories then s.memStore.length else s.memStore.length - 1 := by
  have hmax := maxMemories_eq
  by_cases hroom : s.memStore.length < maxMemories
  · rw [if_pos hroom, evict_of_lt hroom]
  · rw [if_neg hroom, evict, if_pos (Nat.le_of_not_lt hroom)]
    exact List.length_eraseIdx_of_lt (worstIdx_lt (by omega))

theorem length_evict_lt {s : MemState} (h : s.memStore.length ≤ maxMemories) :
    (evict s).memStore.length < maxMemories := by
  have hmax := maxMemories_eq
  rw [length_evict]
  split <;> omega

theorem push_length_le {s : MemState} (m : Memory) (h : s.memStore.length ≤ maxMemories) :
    (s.push m).memStore.length ≤ maxMemories := by
  have hpush : (s.push m).memStore = (evict s).memStore ++ [m.entry true] := rfl
  have hroom := length_evict_lt h
  rw [hpush, List.length_append, List.length_singleton]
  omega

theorem pushed_room {s : MemState} (c : StoreCall) (h : s.memStore.length ≤ maxMemories) :
    (s.pushed c).memStore.length ≤ maxMemories := by
  rw [MemState.pushed]
  cases c.stored with
  | none => exact h
  | some m => exact push_length_le m h

theorem inPlace_pushed {disk : σ} {r : MemState} {c : StoreCall} (h : InPlace fs disk r)
    (hshift : ShiftOk fs ⟨disk, r⟩ c) : InPlace fs disk (r.pushed c) := by
  rw [MemState.pushed]
  cases hc : c.stored with
  | none => exact h
  | some m =>
    intro k e he hd
    rw [Option.elim_some] at he
    rcases push_get r m he with rfl | ⟨hold, _⟩ | ⟨hfull, hw, hmoved⟩
    · cases hd
    · exact h k e hold hd
    · exact hshift (by rw [hc]; exact Option.some_ne_none m) hfull k e hw hmoved hd

theorem toNat_succ_of_le {d : U64} (h : d.toNat ≤ 9) : (d + 1).toNat = d.toNat + 1 := by
  rw [BitVec.toNat_add, show (1 : U64).toNat = 1 from rfl]
  omega

theorem few_ne_zero {d : U64} (h : d < 10) : d + 1 ≠ 0 := by
  have hlt : d.toNat < 10 := BitVec.lt_def.mp h
  have hsucc := toNat_succ_of_le (Nat.le_of_lt_succ hlt)
  intro hz
  rw [hz, show (0 : U64).toNat = 0 from rfl] at hsucc
  omega

theorem pushed_memDirty {s : MemState} {c : StoreCall} (hc : c.stored ≠ none)
    (h : s.memDirty < 10) : (s.pushed c).memDirty ≠ 0 := by
  obtain ⟨m, hm⟩ := Option.ne_none_iff_exists'.mp hc
  rw [MemState.pushed, hm]
  exact few_ne_zero h

/-- What a flush leaves of the invariant. -/
theorem evictInv_flush {cap : Nat} {disk : σ} {r : MemState} (hplace : InPlace fs disk r)
    (hrecords : ∀ t k data, fs.read disk (memPath t k) = some data → ∃ m, data = encodeRecord m)
    (hroom : r.memStore.length ≤ maxMemories) (hcap : 8 + 256 * maxMemories ≤ cap)
    (stack : Nat → Nat → U8) :
    EvictInv fs cap ⟨fs.applyAll disk (flushWrites stack r), r.flushed⟩ := by
  have hwritten := hplace.written stack
  have hmax := maxMemories_eq
  have hpaths := (reload_flush hplace hroom (by omega : _ ≤ cap) stack).1
  refine ⟨hwritten.inPlace, fun t k data hread => ?_, ?_, (by decide : (0 : U64) < 10),
    fun _ => ⟨fun e he => ?_, ?_⟩⟩
  · rcases fs.read_applyAll_cases (memPath t k) (flushWrites stack r) disk with hold | ⟨b, hb, hnew⟩
    · exact hrecords t k data (hold ▸ hread)
    · have hdata : data = b := Option.some.inj (hread.symm.trans hnew)
      rcases List.mem_append.mp hb with hb | hb
      · obtain ⟨_, e, _, _, _, hv⟩ := mem_recordWrites.mp hb
        exact ⟨e.toMemory, hdata.trans hv⟩
      · have := congrArg Prod.fst (List.mem_singleton.mp hb)
        exact absurd this (memPath_ne_indexPath t k)
  · show (List.map _ _).length ≤ _
    rwa [List.length_map]
  · obtain ⟨e', _, rfl⟩ := List.mem_map.mp he
    rfl
  · rw [flushed_memories]
    exact hpaths

/-- **One call keeps the clean entries in place**, if its eviction is harmless. -/
theorem evictInv_step {cap : Nat} (hcap : 8 + 256 * maxMemories ≤ cap) {s : StoreSys σ} {c : StoreCall}
    (h : EvictInv fs cap s) (hserved : c.Served s.ram) (hshift : ShiftOk fs s c) :
    EvictInv fs cap (s.call fs c) := by
  have hplace := inPlace_pushed h.inPlace hshift
  have hroom := pushed_room c h.room
  rcases exec_cases hserved with ⟨he, hcase⟩ | ⟨_, stack, he⟩
  · rw [StoreSys.call, he]
    rcases Option.eq_none_or_eq_some c.stored with hnone | ⟨m, hm⟩
    · have hpushed : s.ram.pushed c = s.ram := by rw [MemState.pushed, hnone]; rfl
      rw [hpushed]
      exact h
    · have hne : c.stored ≠ none := by rw [hm]; exact Option.some_ne_none m
      have hfew : (s.ram.pushed c).memDirty < 10 := hcase.resolve_left fun hc => hne hc.1
      exact ⟨hplace, h.records, hroom, hfew, fun hz => absurd hz (pushed_memDirty hne h.few)⟩
  · rw [StoreSys.call, he]
    exact evictInv_flush hplace h.records hroom hcap stack

theorem EvictInv.coherent {cap : Nat} (hcap : 8 + 256 * maxMemories ≤ cap) {s : StoreSys σ}
    (h : EvictInv fs cap s) (stack : Nat → Nat → U8) : Coherent fs cap (s.call fs (.flush stack)) := by
  rw [StoreSys.call, StoreCall.exec]
  by_cases hd : s.ram.memDirty = 0
  · rw [aionMemoryFlush_clean hd]
    obtain ⟨hclean, hpaths⟩ := h.flushed hd
    refine coherent_of_written hpaths fun k m hm => ?_
    obtain ⟨e, he, rfl⟩ := memories_get hm
    rw [Nat.zero_add]
    exact h.inPlace k e he (hclean e (List.mem_of_getElem? he))
  · rw [aionMemoryFlush_dirty hd]
    have hmax := maxMemories_eq
    have hroom := h.room
    refine coherent_of_written ?_ ?_
    · rw [flushed_memories]
      exact (reload_flush h.inPlace hroom (by omega) stack).1
    · rw [flushed_memories]
      exact h.inPlace.written stack

theorem flush_memDirty (fs : FileSystem σ) (s : StoreSys σ) (stack : Nat → Nat → U8) :
    (s.call fs (.flush stack)).ram.memDirty = 0 := by
  rw [StoreSys.call, StoreCall.exec]
  by_cases hd : s.ram.memDirty = 0
  · rw [aionMemoryFlush_clean hd]
    exact hd
  · rw [aionMemoryFlush_dirty hd]
    rfl

/-! ### The other direction -/

/-- A call that stores, and a flush, are one flush of what was pushed. -/
theorem call_flush {cap : Nat} {s : StoreSys σ} {c : StoreCall} (h : EvictInv fs cap s)
    (hserved : c.Served s.ram) (hne : c.stored ≠ none) (stack : Nat → Nat → U8) :
    ∃ st, (s.call fs c).call fs (.flush stack) =
      ⟨fs.applyAll s.disk (flushWrites st (s.ram.pushed c)), (s.ram.pushed c).flushed⟩ := by
  rcases exec_cases hserved with ⟨he, _⟩ | ⟨_, st, he⟩
  · refine ⟨stack, ?_⟩
    have hcall : s.call fs c = ⟨s.disk, s.ram.pushed c⟩ := by rw [StoreSys.call, he]; rfl
    rw [hcall, StoreSys.call, StoreCall.exec, aionMemoryFlush_dirty (pushed_memDirty hne h.few)]
  · refine ⟨st, ?_⟩
    have hcall : s.call fs c = ⟨fs.applyAll s.disk (flushWrites st (s.ram.pushed c)),
        (s.ram.pushed c).flushed⟩ := by rw [StoreSys.call, he]
    have hzero : (s.ram.pushed c).flushed.memDirty = 0 := rfl
    rw [hcall, StoreSys.call, StoreCall.exec, aionMemoryFlush_clean hzero]
    rfl

/-- **An eviction that moves a clean entry away from its record breaks the next start.** -/
theorem shiftOk_of_coherent {cap : Nat} (hcap : 8 + 256 * maxMemories ≤ cap) {s : StoreSys σ}
    {c : StoreCall} (h : EvictInv fs cap s) (hserved : c.Served s.ram) (stack : Nat → Nat → U8)
    (hco : Coherent fs cap ((s.call fs c).call fs (.flush stack))) : ShiftOk fs s c := by
  intro hne hfull k e hw he hd
  obtain ⟨st, hflush⟩ := call_flush h hserved hne stack
  obtain ⟨m, hm⟩ := Option.ne_none_iff_exists'.mp hne
  have hpushed : s.ram.pushed c = s.ram.push m := by rw [MemState.pushed, hm]; rfl
  rw [hflush, hpushed] at hco
  have hget := push_get_shifted m hfull hw he
  have hroom := push_length_le m h.room
  have hmax := maxMemories_eq
  -- the index names the files of the slots
  have hpaths : diskPaths fs cap (fs.applyAll s.disk (flushWrites st (s.ram.push m))) =
      memPaths 0 (s.ram.push m).memories := by
    have hlen := memories_length (s.ram.push m)
    exact diskPaths_encodeIndex fs (read_flush_index fs s.disk st _) (by omega) (by omega)
  have hmem : (s.ram.push m).memories[k]? = some e.toMemory := by
    rw [MemState.memories, List.getElem?_map, hget]
    rfl
  obtain ⟨p, data, hp, hdata, hrec⟩ := hco.slots k e.toMemory (by rw [flushed_memories]; exact hmem)
  have hpe : p = memPath e.type k := by
    have hp' : (memPaths 0 (s.ram.push m).memories)[k]? = some p := by rwa [hpaths] at hp
    rw [memPaths_get, hmem, Nat.zero_add] at hp'
    exact (Option.some.inj hp').symm
  -- and the file of this slot was not written
  have hsame : fs.read (fs.applyAll s.disk (flushWrites st (s.ram.push m))) (memPath e.type k) =
      fs.read s.disk (memPath e.type k) := by
    refine read_flush_clean fs s.disk st fun e' he' => ?_
    rw [hget] at he'
    rwa [← Option.some.inj he']
  have hold : fs.read s.disk (memPath e.type k) = some data := by rw [← hsame, ← hpe]; exact hdata
  obtain ⟨m', rfl⟩ := h.records _ _ _ hold
  rw [readRecord_encode] at hrec
  rw [hold, Option.some.inj hrec]

/-! ### Runs -/

theorem coherent_run_iff {cap : Nat} (hcap : 8 + 256 * maxMemories ≤ cap) (calls : List StoreCall)
    (s : StoreSys σ) (h : EvictInv fs cap s) (hl : (callMachine fs ServedCall).Legal s calls) :
    (∀ pre, pre <+: calls → ∀ stack,
        Coherent fs cap (((callMachine fs ServedCall).run s pre).call fs (.flush stack))) ↔
      ∀ pre c, pre ++ [c] <+: calls → ShiftOk fs ((callMachine fs ServedCall).run s pre) c := by
  have hstep : ∀ (t : StoreSys σ) c, EvictInv fs cap t → (callMachine fs ServedCall).legal t c →
      ((∀ stack, Coherent fs cap ((t.call fs c).call fs (.flush stack))) ↔ ShiftOk fs t c) :=
    fun t c ht hserved => ⟨fun hco => shiftOk_of_coherent hcap ht hserved (fun _ _ => 0) (hco _),
      fun hshift => (evictInv_step hcap ht hserved hshift).coherent hcap⟩
  rw [← Machine.forall_steps_iff hstep (fun _ _ ht hserved => evictInv_step hcap ht hserved) calls s h hl]
  constructor
  · intro hco pre c hpre
    have hlast := hco (pre ++ [c]) hpre
    rwa [Machine.run_concat] at hlast
  · intro hsteps pre hpre
    rcases List.eq_nil_or_concat pre with rfl | ⟨pre, c, rfl⟩
    · exact h.coherent hcap
    · rw [List.concat_eq_append] at hpre ⊢
      rw [Machine.run_concat]
      exact hsteps pre c hpre

theorem evictInv_run {cap : Nat} (hcap : 8 + 256 * maxMemories ≤ cap) :
    ∀ (calls : List StoreCall) (s : StoreSys σ), EvictInv fs cap s →
    (callMachine fs ServedCall).Legal s calls →
    (∀ pre c, pre ++ [c] <+: calls → ShiftOk fs ((callMachine fs ServedCall).run s pre) c) →
    EvictInv fs cap ((callMachine fs ServedCall).run s calls) := by
  intro calls
  induction calls with
  | nil => intro s h _ _; exact h
  | cons c calls ih =>
    intro s h hl hshift
    exact ih _ (evictInv_step hcap h hl.1 (hshift [] c (by simp))) hl.2 fun pre c' hpre =>
      hshift (c :: pre) c' (List.cons_prefix_cons.mpr ⟨rfl, hpre⟩)

theorem start_empty {disk : σ} (hempty : ∀ p, fs.read disk p = none) (cap : Nat) (heap : Heap) :
    (StoreSys.start fs cap disk heap).ram.memStore = [] ∧
      (StoreSys.start fs cap disk heap).ram.memDirty = 0 ∧
      (StoreSys.start fs cap disk heap).ram.heap = heap := by
  have hmem : diskMemories fs cap disk = [] := by
    have hpaths : diskPaths fs cap disk = [] := by
      rw [diskPaths]
      simp only [hempty indexPath]
    rw [diskMemories, hpaths]
    rfl
  have hserves : heap.Serves (requests (diskMemories fs cap disk)) := by rw [hmem]; exact trivial
  obtain ⟨h1, h2, h3⟩ := bootMemory_spec fs hserves
  rw [hmem] at h1 h3
  exact ⟨h1, h2, h3⟩

theorem evictInv_start {disk : σ} (hempty : ∀ p, fs.read disk p = none) (cap : Nat) (heap : Heap) :
    EvictInv fs cap (StoreSys.start fs cap disk heap) := by
  obtain ⟨hstore, hdirty, _⟩ := start_empty hempty cap heap
  refine ⟨fun k e he => ?_, fun t k data hread => ?_, ?_, ?_, fun _ => ⟨fun e he => ?_, ?_⟩⟩
  · rw [hstore] at he
    cases he
  · have := hread.symm.trans (hempty _)
    cases this
  · rw [hstore]
    exact Nat.zero_le _
  · rw [hdirty]
    decide
  · rw [hstore] at he
    cases he
  · rw [MemState.memories, hstore, diskPaths]
    have hnone : fs.read (StoreSys.start fs cap disk heap).disk indexPath = none := hempty indexPath
    simp only [hnone]
    rfl

theorem shiftOk_of_room {s : StoreSys σ} {calls : List StoreCall}
    (hl : (callMachine fs ServedCall).Legal s calls)
    (hroom : s.ram.memStore.length + (calls.filterMap StoreCall.stored).length ≤ maxMemories)
    {pre : List StoreCall} {c : StoreCall} (hpre : pre ++ [c] <+: calls) :
    ShiftOk fs ((callMachine fs ServedCall).run s pre) c := by
  intro hne hfull
  obtain ⟨m, hm⟩ := Option.ne_none_iff_exists'.mp hne
  have hcount := (hpre.filterMap StoreCall.stored).length_le
  rw [List.filterMap_append, List.length_append, List.filterMap_cons, hm] at hcount
  simp only [List.filterMap_nil, List.length_singleton] at hcount
  obtain ⟨post, rfl⟩ := hpre
  rw [List.append_assoc, Machine.legal_append] at hl
  have hmem := congrArg List.length (memories_run pre s hl.1 (by omega))
  rw [memories_length, List.length_append, memories_length] at hmem
  omega

/-- **When evictions keep the disk coherent.**  In a run from an empty disk, the disk is
coherent after every flush, if and only if every eviction of the run moves only dirty
entries and entries whose records are already in the files of their new slots. -/
theorem evict_coherent_iff {disk : σ} (hempty : ∀ p, fs.read disk p = none) {cap : Nat}
    (hcap : 8 + 256 * maxMemories ≤ cap) (heap : Heap) (calls : List StoreCall)
    (hl : (callMachine fs ServedCall).Legal (StoreSys.start fs cap disk heap) calls) :
    (∀ pre, pre <+: calls → ∀ stack, Coherent fs cap
      (((callMachine fs ServedCall).run (StoreSys.start fs cap disk heap) pre).call fs
        (.flush stack))) ↔
      ∀ pre c, pre ++ [c] <+: calls →
        ShiftOk fs ((callMachine fs ServedCall).run (StoreSys.start fs cap disk heap) pre) c :=
  coherent_run_iff hcap calls _ (evictInv_start hempty cap heap) hl

end Evict

/-! ### A run past the capacity -/

def fullCap : Nat := 8 + 256 * maxMemories

def emptyDisk : Path → Option (List U8) := fun _ => none

theorem emptyDisk_read (p : Path) : sampleFs.read emptyDisk p = none := rfl

def fillCall (i : Nat) : StoreCall := .store (some (sampleEntry (BitVec.ofNat 64 i))) sampleStack

def fillMemory (i : Nat) : Memory := sampleMemory memEpisodic (BitVec.ofNat 64 i)

def fillCalls : List StoreCall := (List.range maxMemories).map fillCall ++ [.flush sampleStack]

theorem fillCalls_stored :
    fillCalls.filterMap StoreCall.stored = (List.range maxMemories).map fillMemory := by
  have hfill : StoreCall.stored ∘ fillCall = some ∘ fillMemory := rfl
  rw [fillCalls, List.filterMap_append, List.filterMap_map, hfill, List.filterMap_eq_map]
  exact List.append_nil _

def fillStart : StoreSys (Path → Option (List U8)) := StoreSys.start sampleFs fullCap emptyDisk sampleHeap

theorem fillStart_ram : fillStart.ram.memStore = [] ∧ fillStart.ram.heap = sampleHeap := by
  obtain ⟨h1, _, h3⟩ := start_empty emptyDisk_read fullCap sampleHeap
  exact ⟨h1, h3⟩

theorem legal_overflow :
    (callMachine sampleFs ServedCall).Legal fillStart (fillCalls ++ [fillCall maxMemories]) := by
  refine legal_of_serves _ _ ?_
  have hstored : (fillCalls ++ [fillCall maxMemories]).filterMap StoreCall.stored =
      (List.range maxMemories).map fillMemory ++ [fillMemory maxMemories] := by
    rw [List.filterMap_append, fillCalls_stored]
    rfl
  have hroom : sampleHeap.room = 67108864 := by decide
  rw [fillStart_ram.2, callRequests, hstored]
  refine sampleHeap_ok.serves_of_le (b := 3) (fun n hn => ?_) (by omega) ?_
  · obtain ⟨m, hm, rfl⟩ := List.mem_map.mp hn
    rcases List.mem_append.mp hm with hm | hm
    · obtain ⟨i, _, rfl⟩ := List.mem_map.mp hm
      exact Nat.le_refl 3
    · rw [List.mem_singleton.mp hm]
      exact Nat.le_refl 3
  · rw [requests, List.length_map, List.length_append, List.length_map, List.length_range,
      List.length_singleton, maxMemories_eq, hroom]
    omega

theorem legal_fillCalls : (callMachine sampleFs ServedCall).Legal fillStart fillCalls :=
  ((Machine.legal_append _ _ _ _).mp legal_overflow).1

theorem fill_room : fillStart.ram.memStore.length + (fillCalls.filterMap StoreCall.stored).length ≤
    maxMemories := by
  rw [fillStart_ram.1, fillCalls_stored, List.length_map, List.length_range]
  exact (Nat.zero_add _).le

def full : StoreSys (Path → Option (List U8)) := (callMachine sampleFs ServedCall).run fillStart fillCalls

theorem full_inv : EvictInv sampleFs fullCap full :=
  evictInv_run (Nat.le_refl _) fillCalls _ (evictInv_start (fun _ => rfl) fullCap sampleHeap)
    legal_fillCalls fun _ _ hpre => shiftOk_of_room legal_fillCalls fill_room hpre

theorem full_memories : full.ram.memories = (List.range maxMemories).map fillMemory := by
  have hmem := memories_run fillCalls fillStart legal_fillCalls fill_room
  have hnil : fillStart.ram.memories = [] := by rw [MemState.memories, fillStart_ram.1]; rfl
  rw [fillCalls_stored, hnil, List.nil_append] at hmem
  exact hmem

theorem full_get {i : Nat} (h : i < maxMemories) :
    full.ram.memStore[i]? = some ((fillMemory i).entry false) := by
  have hdirty : full.ram.memDirty = 0 := by
    rw [full, fillCalls, Machine.run_concat]
    exact flush_memDirty _ _ _
  have hmem : full.ram.memories[i]? = some (fillMemory i) := by
    rw [full_memories, List.getElem?_map, List.getElem?_range h]
    rfl
  obtain ⟨e, he, hem⟩ := memories_get hmem
  have hclean := (full_inv.flushed hdirty).1 e (List.mem_of_getElem? he)
  rw [he, ← hem, ← hclean]
  rfl

theorem worstLoop_zero : ∀ (es : List MemEntry) (i j : Nat), worstLoop i es (j, 0) = j := by
  intro es
  induction es with
  | nil => intro i j; rfl
  | cons e es ih =>
    intro i j
    rw [worstLoop, if_neg (fun h => BitVec.not_lt_zero h.2), ih]

theorem worstIdx_full : worstIdx full.ram.memStore = 0 := by
  have hfirst := full_get (i := 0) (by rw [maxMemories_eq]; omega)
  cases hes : full.ram.memStore with
  | nil =>
    rw [hes] at hfirst
    cases hfirst
  | cons e es =>
    rw [hes] at hfirst
    obtain rfl : e = (fillMemory 0).entry false := Option.some.inj hfirst
    rw [worstIdx, worstLoop, if_pos ⟨rfl, (by decide : (0 : U8) < 255)⟩]
    exact worstLoop_zero es 1 0

theorem evict_coherent_sample :
    (∀ pre, pre <+: fillCalls ++ [fillCall maxMemories] → ∀ stack, Coherent sampleFs fullCap
      (((callMachine sampleFs ServedCall).run
        (StoreSys.start sampleFs fullCap emptyDisk sampleHeap) pre).call sampleFs (.flush stack))) ↔
      ∀ pre c, pre ++ [c] <+: fillCalls ++ [fillCall maxMemories] →
        ShiftOk sampleFs ((callMachine sampleFs ServedCall).run
          (StoreSys.start sampleFs fullCap emptyDisk sampleHeap) pre) c :=
  evict_coherent_iff (fun _ => rfl) (Nat.le_refl _) sampleHeap _ legal_overflow

/-- One memory more than the capacity, and a flush: the next start does not find the
entries in RAM. -/
theorem evict_incoherent :
    (callMachine sampleFs ServedCall).Legal fillStart (fillCalls ++ [fillCall maxMemories]) ∧
      ¬ Coherent sampleFs fullCap
        ((((callMachine sampleFs ServedCall).run fillStart fillCalls).call sampleFs
          (fillCall maxMemories)).call sampleFs (.flush sampleStack)) := by
  refine ⟨legal_overflow, fun hco => ?_⟩
  have hserved : (fillCall maxMemories).Served full.ram :=
    ((Machine.legal_append _ _ _ _).mp legal_overflow).2.1
  have hmax := maxMemories_eq
  have hfull : maxMemories ≤ full.ram.memStore.length := by
    rw [← memories_length, full_memories, List.length_map, List.length_range]
  have hshift := shiftOk_of_coherent (Nat.le_refl _) full_inv hserved sampleStack hco
  -- memory 1 moves to slot 0, whose file holds memory 0
  have hget1 := full_get (i := 0 + 1) (by omega)
  have hget0 := full_get (i := 0) (by omega)
  have h1 := hshift (by exact Option.some_ne_none _) hfull 0 _ (by rw [worstIdx_full]) hget1 rfl
  have h0 := full_inv.inPlace 0 _ hget0 rfl
  have htype : ((fillMemory (0 + 1)).entry false).type = ((fillMemory 0).entry false).type := rfl
  rw [htype, h0] at h1
  have hsame := encodeRecord_inj (Option.some.inj h1)
  exact absurd (congrArg Memory.tick hsame) (by decide)

end AionOs
