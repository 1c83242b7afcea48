import Mathlib.Data.List.Find
import AionOs.Action.Recall
import AionOs.Lib.Ram
import AionOs.Memory.HeapBlocks

/-!
# The store and its pointers

The functions of `consciousness/memory/aion_memory.c` once more, with `content` the pointer that it
is.  The heap is shared with the drivers, whose blocks are written at any time.

* `strdup_spec`: a string that is copied is held for ever.
* `step_refines`: a step of the pointers is one of the contents.
* `pointers_refine`: so is a whole run, after any start.
* `strings_stay`: what a pointer of the store points to never changes, though its entry be evicted.
-/

namespace AionOs

open Bytes CText

namespace Pointers

/-! ### State -/

structure PtrEntry where
  type : U8
  importance : U8
  tick : U64
  content : U64
  contentLen : Nat
  le : contentLen ≤ maxContentLen
  dirty : Bool

structure PtrState where
  memStore : List PtrEntry
  memDirty : U64
  storeExists : Bool
  indexBuf : List U8
  recordBuf : RecordBuf
  heap : Heap
  bytes : Nat → U8

def PtrState.powerOn (cap : Nat) (heap : Heap) (bytes : Nat → U8) : PtrState where
  memStore := []
  memDirty := 0
  storeExists := false
  indexBuf := List.replicate cap 0
  recordBuf := RecordBuf.bss
  heap := heap
  bytes := bytes

def PtrEntry.memory (bytes : Nat → U8) (e : PtrEntry) : Memory where
  type := e.type
  importance := e.importance
  tick := e.tick
  content := ⟨Ram.read bytes e.content.toNat e.contentLen, by rw [Ram.length_read]; exact e.le⟩

def PtrEntry.view (bytes : Nat → U8) (e : PtrEntry) : MemEntry := (e.memory bytes).entry e.dirty

def PtrState.view (s : PtrState) : MemState where
  memStore := s.memStore.map (PtrEntry.view s.bytes)
  memDirty := s.memDirty
  storeExists := s.storeExists
  indexBuf := s.indexBuf
  recordBuf := s.recordBuf
  heap := s.heap

/-! ### The code -/

/-- The string at an address: the bytes before the first zero byte. -/
def cstrAt (bytes : Nat → U8) (p : U64) : List U8 := cstr (Ram.read bytes p.toNat (2 ^ 64 - p.toNat))

def memStrdup (text : MemText) (s : PtrState) : Option U64 × PtrState :=
  let (p, heap) := kmalloc s.heap (BitVec.ofNat 64 (text.bytes.length + 1))
  if p = 0 then (none, { s with heap := heap })
  else (some p, { s with heap := heap, bytes := Ram.copy s.bytes p.toNat (text.bytes ++ [0]) })

section Load

variable {σ : Type} (fs : FileSystem σ)

def aionMemoryInit (disk : σ) (s : PtrState) : PtrState :=
  { s with memStore := [], memDirty := 0, storeExists := aionMemoryHasStore fs disk }

/-- One round of the loop of `aion_memory_load_all`. -/
def loadSlot (disk : σ) (p : List U8) (s : PtrState) : PtrState :=
  match fs.read disk (cstr (p.take 255)) with
  | none => s
  | some data =>
    let (record, buf) := readRecord s.recordBuf data
    let s := { s with recordBuf := buf }
    match record with
    | none => s
    | some m =>
      match memStrdup m.content s with
      | (none, s) => s
      | (some content, s) => { s with
          memStore := s.memStore ++
            [⟨m.type, m.importance, m.tick, content, m.contentLen, m.content.le, false⟩] }

def loadSlots (disk : σ) : Nat → List U8 → PtrState → PtrState
  | 0, _, s => s
  | count + 1, p, s => loadSlots disk count (p.drop 256) (loadSlot fs disk p s)

def aionMemoryLoadAll (disk : σ) (s : PtrState) : PtrState :=
  match fs.read disk indexPath with
  | none => s
  | some data =>
    let buf := overwrite (data.take s.indexBuf.length) s.indexBuf
    let count := readField buf 0 8
    let count := if count > maxMemories then maxMemories else count
    loadSlots fs disk count (buf.drop 8) { s with indexBuf := buf }

def bootMemory (cap : Nat) (disk : σ) (heap : Heap) (bytes : Nat → U8) : PtrState :=
  let s := aionMemoryInit fs disk (PtrState.powerOn cap heap bytes)
  if aionMemoryHasStore fs disk then aionMemoryLoadAll fs disk s else s

end Load

/-- The contents are read from the heap when they are written. -/
def aionMemoryFlush (stack : Nat → Nat → U8) (s : PtrState) : List FileWrite × PtrState :=
  if s.memDirty = 0 then ([], s)
  else (flushWrites stack s.view,
    { s with memStore := s.memStore.map fun e => { e with dirty := false }, memDirty := 0 })

def worstLoop : Nat → List PtrEntry → Nat × U8 → Nat
  | _, [], w => w.1
  | i, e :: es, w =>
    worstLoop (i + 1) es
      (if e.type = memEpisodic ∧ e.importance < w.2 then (i, e.importance) else w)

/-- The eviction of a full store.  The block stays as it is. -/
def evict (s : PtrState) : PtrState :=
  if s.memStore.length ≥ maxMemories then
    let worst := worstLoop 0 s.memStore (0, 255)
    { s with
      memStore := s.memStore.eraseIdx worst
      heap := s.memStore[worst]?.elim s.heap fun e => kfree s.heap e.content }
  else s

def appendEntry (stack : Nat → Nat → U8) (e : PtrEntry) (s : PtrState) : List FileWrite × PtrState :=
  let s := { s with memStore := s.memStore ++ [e], memDirty := s.memDirty + 1 }
  if s.memDirty ≥ 10 then aionMemoryFlush stack s else ([], s)

def aionMemoryStore (entry : Option AionMemoryEntry) (stack : Nat → Nat → U8) (s : PtrState) :
    List FileWrite × PtrState :=
  match entry with
  | none => ([], s)
  | some e =>
    match e.content with
    | none => ([], s)
    | some text =>
      match memStrdup (storedText text) (evict s) with
      | (none, s) => ([], s)
      | (some content, s) =>
        appendEntry stack
          ⟨e.type, e.importance, e.tick, content, (storedText text).bytes.length, (storedText text).le, true⟩ s

/-- `aion_memory_search`: the pointer of the last entry in whose string the key occurs. -/
def aionMemorySearch (key : List U8) (s : PtrState) : Option U64 :=
  (s.memStore.findRev? fun e => (strstr (cstrAt s.bytes e.content) key).isSome).map PtrEntry.content

/-! ### The blocks -/

/-- The heap is an interval up to `hi`; the strings of the entries are among the filled blocks, and
the drivers have the others. -/
structure Owns (lo hi : Nat) (filled : List (Nat × List U8)) (others : List (Nat × Nat)) (s : PtrState) :
    Prop where
  ok : s.heap.Ok
  heapEnd : s.heap.heapEnd.toNat = hi
  holds : Ram.Holds lo s.heap.heapPtr.toNat filled others s.bytes
  entries : ∀ e ∈ s.memStore, ∃ text : List U8, (e.content.toNat, text ++ [0]) ∈ filled ∧
    text.length = e.contentLen

variable {lo hi : Nat} {filled : List (Nat × List U8)} {others : List (Nat × Nat)}

theorem kmalloc_block {h : Heap} (ok : h.Ok) {size : U64}
    (hsize : h.heapPtr.toNat + roundUp size.toNat 16 < 2 ^ 64) :
    (kmalloc h size = (0, h)) ∨
      ((kmalloc h size).1 ≠ 0 ∧ (kmalloc h size).1 = h.heapPtr ∧ (kmalloc h size).2.Ok ∧
        (kmalloc h size).2.heapEnd = h.heapEnd ∧
        (kmalloc h size).2.heapPtr.toNat = h.heapPtr.toNat + roundUp size.toNat 16) := by
  rcases kmalloc_cases hsize with ⟨hfit, p, hp, hr⟩ | ⟨_, hr⟩
  · have hpos := ok.pos
    rw [hr]
    refine .inr ⟨fun hz => ?_, rfl, ⟨?_, ?_, ok.top⟩, rfl, hp⟩
    · rw [show h.heapPtr = 0 from hz] at hpos
      exact absurd hpos (by decide)
    · rw [hp]
      exact hfit
    · rw [hp]
      omega
  · exact .inl hr

theorem length_copied (text : MemText) :
    text.bytes.length + 1 ≤ roundUp (BitVec.ofNat 64 (text.bytes.length + 1)).toNat 16 ∧
      roundUp (BitVec.ofNat 64 (text.bytes.length + 1)).toNat 16 ≤ 4096 + 16 := by
  have hle : text.bytes.length ≤ 4096 := text.le
  have hsize : (BitVec.ofNat 64 (text.bytes.length + 1)).toNat = text.bytes.length + 1 := by
    rw [BitVec.toNat_ofNat, Nat.mod_eq_of_lt (by omega)]
  have hup := roundUp_le (text.bytes.length + 1) 16
  rw [hsize]
  exact ⟨le_roundUp _ (by decide), by omega⟩

/-- **A string that is copied** lies in a block of its own, with its zero byte. -/
theorem strdup_spec {s : PtrState} (h : Owns lo hi filled others s) (text : MemText) :
    (memStrdup text s = (none, s) ∧ AionOs.memStrdup s.heap text = (none, s.heap)) ∨
      ∃ (p : U64) (heap : Heap) (bytes : Nat → U8),
        memStrdup text s = (some p, { s with heap := heap, bytes := bytes }) ∧
        AionOs.memStrdup s.heap text = (some text, heap) ∧
        Owns lo hi ((p.toNat, text.bytes ++ [0]) :: filled) others { s with heap := heap, bytes := bytes } := by
  obtain ⟨hle, hup⟩ := length_copied text
  have hptr := h.ok.le
  have htop := h.ok.top
  rcases @kmalloc_block s.heap h.ok (BitVec.ofNat 64 (text.bytes.length + 1)) (by omega) with
    hnone | ⟨hnz, hp, hok, hend, hmoved⟩
  · left
    rw [memStrdup, memStrdup_eq, hnone]
    exact ⟨rfl, rfl⟩
  · right
    refine ⟨s.heap.heapPtr, _, Ram.copy s.bytes s.heap.heapPtr.toNat (text.bytes ++ [0]), ?_,
      memStrdup_of_ne_zero hnz, hok, (congrArg BitVec.toNat hend).trans h.heapEnd, ?_, fun e he => ?_⟩
    · rw [memStrdup]
      simp only [hp] at hnz ⊢
      rw [if_neg hnz]
    · rw [hmoved]
      exact h.holds.fill (by rw [List.length_append, List.length_singleton]; exact hle)
    · obtain ⟨own, hmem, hlen⟩ := h.entries e he
      exact ⟨own, List.mem_cons_of_mem _ hmem, hlen⟩

theorem Owns.read_text {s : PtrState} (h : Owns lo hi filled others s) {p : Nat} {text : List U8}
    (hp : (p, text ++ [0]) ∈ filled) : Ram.read s.bytes p text.length = text := by
  have hcells := h.holds.cells _ hp
  dsimp only at hcells
  rw [← Ram.take_read s.bytes p (m := (text ++ [0]).length) (by simp), hcells]
  exact List.take_left

theorem Owns.memory_text {s : PtrState} (h : Owns lo hi filled others s) {e : PtrEntry} {text : List U8}
    (hp : (e.content.toNat, text ++ [0]) ∈ filled) (hlen : text.length = e.contentLen) :
    (e.memory s.bytes).content.bytes = text := by
  show Ram.read s.bytes e.content.toNat e.contentLen = text
  rw [← hlen]
  exact h.read_text hp

theorem Owns.view_eq {s t : PtrState} (h : Owns lo hi filled others s) {filled' : List (Nat × List U8)}
    {others' : List (Nat × Nat)} (h' : Owns lo hi filled' others' t) (hsub : filled ⊆ filled') {e : PtrEntry}
    (he : e ∈ s.memStore) : e.view t.bytes = e.view s.bytes := by
  obtain ⟨text, hp, hlen⟩ := h.entries e he
  have htext : (e.memory t.bytes).content = (e.memory s.bytes).content :=
    MemText.ext ((h'.memory_text (hsub hp) hlen).trans (h.memory_text hp hlen).symm)
  rw [PtrEntry.view, PtrEntry.view]
  exact congrArg _ (Memory.ext rfl rfl rfl htext)

/-! ### The steps -/

theorem append_refines {s : PtrState} (h : Owns lo hi filled others s) {p : U64} {heap : Heap} {bytes : Nat → U8}
    {text : MemText}
    (h' : Owns lo hi ((p.toNat, text.bytes ++ [0]) :: filled) others { s with heap := heap, bytes := bytes })
    (type importance : U8) (tick : U64) (dirty : Bool) :
    let e : PtrEntry := ⟨type, importance, tick, p, text.bytes.length, text.le, dirty⟩
    let t : PtrState := { s with heap := heap, bytes := bytes, memStore := s.memStore ++ [e] }
    Owns lo hi ((p.toNat, text.bytes ++ [0]) :: filled) others t ∧
      t.view = { s.view with
        memStore := s.view.memStore ++ [Memory.entry dirty ⟨type, importance, tick, text⟩]
        heap := heap } := by
  intro e t
  refine ⟨⟨h'.ok, h'.heapEnd, h'.holds, fun e' he' => ?_⟩, ?_⟩
  · rcases List.mem_append.mp he' with he' | he'
    · exact h'.entries e' he'
    · rw [List.mem_singleton.mp he']
      exact ⟨text.bytes, List.mem_cons_self, rfl⟩
  · have hold : s.memStore.map (PtrEntry.view bytes) = s.memStore.map (PtrEntry.view s.bytes) :=
      List.map_congr_left fun e' he' => h.view_eq h' (List.subset_cons_self _ _) he'
    have hnew : e.view bytes = Memory.entry dirty ⟨type, importance, tick, text⟩ :=
      congrArg (Memory.entry dirty) (Memory.ext rfl rfl rfl (MemText.ext (h'.memory_text List.mem_cons_self rfl)))
    rw [PtrState.view, PtrState.view]
    simp only [t, List.map_append, hold, List.map_cons, List.map_nil, hnew]

theorem worstLoop_view (bytes : Nat → U8) : ∀ (es : List PtrEntry) (i : Nat) (w : Nat × U8),
    AionOs.worstLoop i (es.map (PtrEntry.view bytes)) w = worstLoop i es w := by
  intro es
  induction es with
  | nil => intro i w; rfl
  | cons e es ih => intro i w; exact ih (i + 1) _

theorem evict_refines {s : PtrState} (h : Owns lo hi filled others s) :
    Owns lo hi filled others (evict s) ∧ (evict s).view = AionOs.evict s.view := by
  have hworst : worstIdx (s.memStore.map (PtrEntry.view s.bytes)) = worstLoop 0 s.memStore (0, 255) :=
    worstLoop_view s.bytes s.memStore 0 (0, 255)
  have hfree : ∀ o : Option PtrEntry, (o.elim s.heap fun e => kfree s.heap e.content) = s.heap := by
    intro o
    cases o with
    | none => rfl
    | some e => rfl
  rw [evict, AionOs.evict]
  simp only [hfree]
  by_cases hfull : s.memStore.length ≥ maxMemories
  · have hfull' : s.view.memStore.length ≥ maxMemories := by
      rw [PtrState.view, List.length_map]
      exact hfull
    rw [if_pos hfull, if_pos hfull']
    refine ⟨⟨h.ok, h.heapEnd, h.holds, fun e he => h.entries e (List.mem_of_mem_eraseIdx he)⟩, ?_⟩
    simp only [PtrState.view, hworst, List.eraseIdx_map]
  · have hfull' : ¬ s.view.memStore.length ≥ maxMemories := by
      rw [PtrState.view, List.length_map]
      exact hfull
    rw [if_neg hfull, if_neg hfull']
    exact ⟨h, rfl⟩

theorem flush_refines {s : PtrState} (h : Owns lo hi filled others s) (stack : Nat → Nat → U8) :
    Owns lo hi filled others (aionMemoryFlush stack s).2 ∧
      (aionMemoryFlush stack s).1 = (AionOs.aionMemoryFlush stack s.view).1 ∧
      (aionMemoryFlush stack s).2.view = (AionOs.aionMemoryFlush stack s.view).2 := by
  by_cases hdirty : s.memDirty = 0
  · rw [aionMemoryFlush, if_pos hdirty, aionMemoryFlush_clean hdirty]
    exact ⟨h, rfl, rfl⟩
  · rw [aionMemoryFlush, if_neg hdirty, aionMemoryFlush_dirty hdirty]
    refine ⟨⟨h.ok, h.heapEnd, h.holds, fun e he => ?_⟩, rfl, ?_⟩
    · obtain ⟨e', he', rfl⟩ := List.mem_map.mp he
      exact h.entries e' he'
    · simp only [PtrState.view, MemState.flushed, List.map_map]
      rfl

/-- What a step leaves of the strings, and that it is a step of the contents. -/
def Refines (lo hi : Nat) (others : List (Nat × Nat)) (filled : List (Nat × List U8)) (t : PtrState)
    (t' : MemState) : Prop :=
  ∃ new, Owns lo hi (new ++ filled) others t ∧ t.view = t'

theorem loadSlot_refines {σ : Type} (fs : FileSystem σ) (disk : σ) (p : List U8) {s : PtrState}
    (h : Owns lo hi filled others s) :
    Refines lo hi others filled (loadSlot fs disk p s) (AionOs.loadSlot fs disk p s.view) := by
  rw [loadSlot, AionOs.loadSlot]
  cases fs.read disk (cstr (p.take 255)) with
  | none => exact ⟨[], h, rfl⟩
  | some data =>
    have hread : readRecord s.view.recordBuf data = readRecord s.recordBuf data := rfl
    dsimp only
    rw [hread]
    cases readRecord s.recordBuf data with
    | mk record buf =>
      have hbuf : Owns lo hi filled others { s with recordBuf := buf } := ⟨h.ok, h.heapEnd, h.holds, h.entries⟩
      cases record with
      | none => exact ⟨[], hbuf, rfl⟩
      | some m =>
        dsimp only
        rcases strdup_spec hbuf m.content with ⟨hptr, hval⟩ | ⟨q, heap, bytes, hptr, hval, howns⟩
        · rw [hptr, show AionOs.memStrdup s.view.heap m.content = (none, s.heap) from hval]
          exact ⟨[], hbuf, rfl⟩
        · rw [hptr, show AionOs.memStrdup s.view.heap m.content = (some m.content, heap) from hval]
          obtain ⟨howns', hview⟩ := append_refines hbuf howns m.type m.importance m.tick false
          exact ⟨[(q.toNat, m.content.bytes ++ [0])], howns', hview⟩

theorem loadSlots_refines {σ : Type} (fs : FileSystem σ) (disk : σ) : ∀ (count : Nat) (p : List U8)
    {filled : List (Nat × List U8)} {s : PtrState}, Owns lo hi filled others s →
    Refines lo hi others filled (loadSlots fs disk count p s) (AionOs.loadSlots fs disk count p s.view) := by
  intro count
  induction count with
  | zero => intro p filled s h; exact ⟨[], h, rfl⟩
  | succ count ih =>
    intro p filled s h
    obtain ⟨new, howns, hview⟩ := loadSlot_refines fs disk p h
    obtain ⟨new', howns', hview'⟩ := ih (p.drop 256) howns
    rw [hview] at hview'
    exact ⟨new' ++ new, List.append_assoc new' new filled ▸ howns', hview'⟩

/-- **The start** loads the same memories, each into a block of its own. -/
theorem boot_refines {σ : Type} (fs : FileSystem σ) (cap : Nat) (disk : σ) {heap : Heap} (ok : heap.Ok)
    {bytes : Nat → U8} (holds : Ram.Holds lo heap.heapPtr.toNat filled others bytes) :
    Refines lo heap.heapEnd.toNat others filled (bootMemory fs cap disk heap bytes)
      (AionOs.bootMemory fs cap disk heap) := by
  have hinit : Owns lo heap.heapEnd.toNat filled others (aionMemoryInit fs disk (PtrState.powerOn cap heap bytes)) :=
    ⟨ok, rfl, holds, fun _ h => nomatch h⟩
  rw [bootMemory, AionOs.bootMemory]
  by_cases hstore : aionMemoryHasStore fs disk = true
  · rw [if_pos hstore, if_pos hstore, aionMemoryLoadAll, AionOs.aionMemoryLoadAll]
    cases fs.read disk indexPath with
    | none => exact ⟨[], hinit, rfl⟩
    | some data => exact loadSlots_refines fs disk _ _ ⟨hinit.ok, hinit.heapEnd, hinit.holds, hinit.entries⟩
  · rw [if_neg hstore, if_neg hstore]
    exact ⟨[], hinit, rfl⟩

def exec (s : PtrState) : StoreCall → List FileWrite × PtrState
  | .store entry stack => aionMemoryStore entry stack s
  | .flush stack => aionMemoryFlush stack s

theorem appendEntry_refines {s : PtrState} {s' : MemState} {e : PtrEntry} {m : Memory}
    (h : Owns lo hi filled others { s with memStore := s.memStore ++ [e] })
    (hview : PtrState.view { s with memStore := s.memStore ++ [e] } =
      { s' with memStore := s'.memStore ++ [m.entry true] }) (stack : Nat → Nat → U8) :
    (appendEntry stack e s).1 = (AionOs.appendEntry stack m s').1 ∧
      Owns lo hi filled others (appendEntry stack e s).2 ∧
      (appendEntry stack e s).2.view = (AionOs.appendEntry stack m s').2 := by
  have hdirty : s.memDirty = s'.memDirty := congrArg MemState.memDirty hview
  have hcounted : PtrState.view { s with memStore := s.memStore ++ [e], memDirty := s.memDirty + 1 } =
      { s' with memStore := s'.memStore ++ [m.entry true], memDirty := s'.memDirty + 1 } := by
    rw [← hdirty]
    exact congrArg (fun t : MemState => { t with memDirty := s.memDirty + 1 }) hview
  have howns : Owns lo hi filled others { s with memStore := s.memStore ++ [e], memDirty := s.memDirty + 1 } :=
    ⟨h.ok, h.heapEnd, h.holds, h.entries⟩
  rw [appendEntry, AionOs.appendEntry]
  dsimp only
  rw [hdirty] at hcounted howns ⊢
  by_cases hten : s'.memDirty + 1 ≥ 10
  · rw [if_pos hten, if_pos hten, ← hcounted]
    obtain ⟨howns', hwrites, hview'⟩ := flush_refines howns stack
    exact ⟨hwrites, howns', hview'⟩
  · rw [if_neg hten, if_neg hten]
    exact ⟨rfl, howns, hcounted⟩

/-- **A call** writes the same files and leaves the same memories. -/
theorem exec_refines {s : PtrState} (h : Owns lo hi filled others s) (c : StoreCall) :
    (exec s c).1 = (c.exec s.view).1 ∧ Refines lo hi others filled (exec s c).2 (c.exec s.view).2 := by
  cases c with
  | flush stack =>
    obtain ⟨howns, hwrites, hview⟩ := flush_refines h stack
    exact ⟨hwrites, [], howns, hview⟩
  | store entry stack =>
    show (aionMemoryStore entry stack s).1 = (AionOs.aionMemoryStore entry stack s.view).1 ∧
      Refines lo hi others filled (aionMemoryStore entry stack s).2
        (AionOs.aionMemoryStore entry stack s.view).2
    unfold aionMemoryStore AionOs.aionMemoryStore
    cases entry with
    | none => exact ⟨rfl, [], h, rfl⟩
    | some e =>
      dsimp only
      cases e.content with
      | none => exact ⟨rfl, [], h, rfl⟩
      | some text =>
        obtain ⟨hevict, hview⟩ := evict_refines h
        dsimp only
        rw [← hview]
        rcases strdup_spec hevict (storedText text) with ⟨hptr, hval⟩ | ⟨q, heap, bytes, hptr, hval, howns⟩
        · rw [hptr, show AionOs.memStrdup (evict s).view.heap (storedText text) = (none, (evict s).heap) from hval]
          exact ⟨rfl, [], hevict, rfl⟩
        · rw [hptr, show AionOs.memStrdup (evict s).view.heap (storedText text) = (some (storedText text), heap)
            from hval]
          obtain ⟨howns', hview'⟩ := append_refines hevict howns e.type e.importance e.tick true
          obtain ⟨hwrites, hlast, hsame⟩ := @appendEntry_refines lo hi _ others
            { evict s with heap := heap, bytes := bytes } { (evict s).view with heap := heap } _
            ⟨e.type, e.importance, e.tick, storedText text⟩ howns' hview' stack
          exact ⟨hwrites, [(q.toNat, (storedText text).bytes ++ [0])], hlast, hsame⟩

/-! ### Strings -/

theorem cstr_append (text rest : List U8) : cstr (text ++ 0 :: rest) = cstr text := by
  unfold cstr
  induction text with
  | nil => rfl
  | cons b text ih =>
    rw [List.cons_append, List.takeWhile_cons, List.takeWhile_cons, ih]

theorem Owns.cstr_text {s : PtrState} (h : Owns lo hi filled others s) {p : U64} {text : List U8}
    (hp : (p.toNat, text ++ [0]) ∈ filled) : cstrAt s.bytes p = cstr text := by
  have hinside := (h.holds.inside _ hp).2
  have htop := s.heap.heapPtr.isLt
  have hcells := h.holds.cells _ hp
  dsimp only at hinside hcells
  have hlen : (text ++ [0]).length ≤ 2 ^ 64 - p.toNat := by omega
  have hfront := Ram.take_read s.bytes p.toNat hlen
  rw [hcells] at hfront
  rw [cstrAt, ← List.take_append_drop (text ++ [0]).length (Ram.read s.bytes p.toNat (2 ^ 64 - p.toNat)), hfront,
    List.append_assoc, List.singleton_append, cstr_append]

theorem Owns.cstr_entry {s : PtrState} (h : Owns lo hi filled others s) {e : PtrEntry} (he : e ∈ s.memStore) :
    cstrAt s.bytes e.content = cstr (e.memory s.bytes).content.bytes := by
  obtain ⟨text, hp, hlen⟩ := h.entries e he
  rw [h.cstr_text hp, h.memory_text hp hlen]

/-- **A search** gives the pointer of the memory that it finds. -/
theorem search_refines {s : PtrState} (h : Owns lo hi filled others s) (key : List U8) :
    (aionMemorySearch key s).map (cstrAt s.bytes) = (AionOs.aionMemorySearch key s.view).content := by
  have hsame : s.memStore.reverse.find? ((fun e : MemEntry => (strstr (cstr e.content.bytes) key).isSome) ∘
        PtrEntry.view s.bytes) =
      s.memStore.reverse.find? fun e => (strstr (cstrAt s.bytes e.content) key).isSome := by
    refine List.find?_congr fun e he => ?_
    rw [h.cstr_entry (List.mem_reverse.mp he)]
    rfl
  rw [aionMemorySearch, AionOs.aionMemorySearch, PtrState.view, List.findRev?_eq_find?_reverse,
    List.findRev?_eq_find?_reverse, ← List.map_reverse, List.find?_map, hsame]
  cases hfind : s.memStore.reverse.find? fun e => (strstr (cstrAt s.bytes e.content) key).isSome with
  | none => rfl
  | some e =>
    have he : e ∈ s.memStore := List.mem_reverse.mp (List.mem_of_find?_eq_some hfind)
    exact congrArg some (h.cstr_entry he)

/-! ### The system -/

/-- The store, and the blocks that the drivers have got, each as start and size. -/
structure PtrSys (σ : Type) where
  disk : σ
  ram : PtrState
  others : List (Nat × Nat)

inductive PtrEvent where
  | call (c : StoreCall)
  /-- A driver asks for a block. -/
  | kmalloc (size : U64)
  /-- Something writes a byte: a driver, or a device. -/
  | write (a : Nat) (b : U8)

section System

variable {σ : Type} (fs : FileSystem σ)

def step (s : PtrSys σ) : PtrEvent → PtrSys σ
  | .call c => ⟨fs.applyAll s.disk (exec s.ram c).1, (exec s.ram c).2, s.others⟩
  | .kmalloc size =>
    let (p, heap) := AionOs.kmalloc s.ram.heap size
    ⟨s.disk, { s.ram with heap := heap },
      if p = 0 then s.others else (p.toNat, size.toNat) :: s.others⟩
  | .write a b => { s with ram := { s.ram with bytes := Ram.poke s.ram.bytes a b } }

/-- A block does not run over the end of the address space; a byte is written outside the heap, or in
a block that a driver has got. -/
def Possible (lo hi : Nat) (s : PtrSys σ) : PtrEvent → Prop
  | .call _ => True
  | .kmalloc size => s.ram.heap.heapPtr.toNat + roundUp size.toNat 16 < 2 ^ 64
  | .write a _ => (∃ b ∈ s.others, b.1 ≤ a ∧ a < b.1 + b.2) ∨ a < lo ∨ hi ≤ a

def machine (lo hi : Nat) : Machine (PtrSys σ) PtrEvent := ⟨step fs, Possible lo hi⟩

/-- The same for the contents. -/
def valueStep (s : StoreSys σ) : PtrEvent → StoreSys σ
  | .call c => s.call fs c
  | .kmalloc size => { s with ram := { s.ram with heap := (AionOs.kmalloc s.ram.heap size).2 } }
  | .write _ _ => s

def valueMachine : Machine (StoreSys σ) PtrEvent := ⟨valueStep fs, fun _ _ => True⟩

def PtrSys.view (s : PtrSys σ) : StoreSys σ := ⟨s.disk, s.ram.view⟩

def start (cap : Nat) (disk : σ) (heap : Heap) (bytes : Nat → U8) : PtrSys σ :=
  ⟨disk, bootMemory fs cap disk heap bytes, []⟩

variable {fs}

/-- **A step of the pointers is one of the contents**, and keeps the strings. -/
theorem step_refines {s : PtrSys σ} (h : Owns lo hi filled s.others s.ram) {e : PtrEvent}
    (hp : Possible lo hi s e) : ∃ new, Owns lo hi (new ++ filled) (step fs s e).others (step fs s e).ram ∧
      (step fs s e).view = valueStep fs s.view e := by
  cases e with
  | call c =>
    obtain ⟨hwrites, new, howns, hview⟩ := exec_refines h c
    refine ⟨new, howns, ?_⟩
    show (⟨fs.applyAll s.disk (exec s.ram c).1, (exec s.ram c).2.view⟩ : StoreSys σ) = _
    rw [hwrites, hview]
    rfl
  | kmalloc size =>
    have hview : (step fs s (.kmalloc size)).view = valueStep fs s.view (.kmalloc size) := rfl
    refine ⟨[], ?_, hview⟩
    have hnew : step fs s (.kmalloc size) = ⟨s.disk, { s.ram with heap := (AionOs.kmalloc s.ram.heap size).2 },
      if (AionOs.kmalloc s.ram.heap size).1 = 0 then s.others
      else ((AionOs.kmalloc s.ram.heap size).1.toNat, size.toNat) :: s.others⟩ := rfl
    rw [hnew]
    rcases kmalloc_block h.ok hp with hnone | ⟨hnz, hstart, hok, hend, hmoved⟩
    · rw [hnone, if_pos rfl]
      exact h
    · rw [if_neg hnz, hstart]
      refine ⟨hok, (congrArg BitVec.toNat hend).trans h.heapEnd, ?_, h.entries⟩
      dsimp only
      rw [hmoved]
      exact h.holds.give (le_roundUp _ (by decide))
  | write a b =>
    have hkept : Owns lo hi filled s.others { s.ram with bytes := Ram.poke s.ram.bytes a b } := by
      refine ⟨h.ok, h.heapEnd, h.holds.poke ?_ b, h.entries⟩
      have hle := h.ok.le
      have hend := h.heapEnd
      rcases hp with hother | hlow | hhigh
      · exact .inl hother
      · exact .inr (.inl hlow)
      · exact .inr (.inr (by omega))
    refine ⟨[], hkept, ?_⟩
    have hmem : s.ram.memStore.map (PtrEntry.view (Ram.poke s.ram.bytes a b)) =
        s.ram.memStore.map (PtrEntry.view s.ram.bytes) :=
      List.map_congr_left fun e he => h.view_eq hkept (List.Subset.refl _) he
    show (⟨s.disk, PtrState.view { s.ram with bytes := Ram.poke s.ram.bytes a b }⟩ : StoreSys σ) = s.view
    rw [PtrSys.view, PtrState.view, PtrState.view, hmem]

theorem run_refines : ∀ (events : List PtrEvent) {filled : List (Nat × List U8)} {s : PtrSys σ},
    Owns lo hi filled s.others s.ram → (machine fs lo hi).Legal s events →
    let t := (machine fs lo hi).run s events
    ∃ new, Owns lo hi (new ++ filled) t.others t.ram ∧ t.view = (valueMachine fs).run s.view events := by
  intro events
  induction events with
  | nil => intro filled s h _; exact ⟨[], h, rfl⟩
  | cons e events ih =>
    intro filled s h hl
    obtain ⟨new, howns, hview⟩ := step_refines h hl.1
    obtain ⟨new', howns', hview'⟩ := ih howns hl.2
    refine ⟨new' ++ new, List.append_assoc new' new filled ▸ howns', hview'.trans ?_⟩
    rw [hview]
    rfl

end System

/-! ### A driver with a block -/

/-- The block of a driver is written before and after a memory is stored. -/
def sampleEvents : List PtrEvent :=
  [.kmalloc 100, .write 0x1001 7, .call (.store (some (sampleEntry 1)) sampleStack)]

def sampleLater : List PtrEvent := [.write 0x1002 9, .call (.flush sampleStack)]

def sampleStart : PtrSys (Path → Option (List U8)) := start sampleFs 8 emptyDisk sampleHeap fun _ => 0

theorem legal_sampleEvents : (machine sampleFs sampleHeap.heapPtr.toNat sampleHeap.heapEnd.toNat).Legal sampleStart
    (sampleEvents ++ sampleLater) := by
  have hblock : (0x1000, 100) ∈ (step sampleFs sampleStart (.kmalloc 100)).others := List.mem_cons_self
  refine ⟨?_, .inl ⟨_, hblock, by decide, by decide⟩, trivial, .inl ⟨_, hblock, by decide, by decide⟩, trivial,
    trivial⟩
  show sampleHeap.heapPtr.toNat + roundUp (100 : U64).toNat 16 < 2 ^ 64
  decide

end Pointers

end AionOs
