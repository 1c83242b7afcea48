import AionOs.Lib.FileStore
import AionOs.Memory.Heap
import AionOs.Store.Record

/-!
# The memory store

The functions of `consciousness/memory/aion_memory.c`.  The file system is a parameter
that reads back what was last written; what a call writes to it is a list of writes in
order, so that a power cut can fall between any two of them.

A memory in RAM is its contents, not the address of its block: blocks of the heap are
never reused.  The index buffers are as large as the index they hold.
-/

namespace AionOs

open Bytes

abbrev FileSystem (σ : Type) := FileStore σ Path (List U8)

abbrev FileWrite := Path × List U8

/-! ### State -/

@[ext] structure MemEntry extends Memory where
  dirty : Bool
  deriving DecidableEq

def Memory.entry (dirty : Bool) (m : Memory) : MemEntry := ⟨m, dirty⟩

/-- The static variables: `mem_store` up to `mem_count`, the counters, the buffers of
`aion_memory_load_all`, and the heap. -/
structure MemState where
  memStore : List MemEntry
  memDirty : U64
  storeExists : Bool
  indexBuf : List U8
  recordBuf : RecordBuf
  heap : Heap

/-- The machine when `aion_memory_init` is called, with an index buffer of `cap` bytes. -/
def MemState.powerOn (cap : Nat) (heap : Heap) : MemState where
  memStore := []
  memDirty := 0
  storeExists := false
  indexBuf := List.replicate cap 0
  recordBuf := RecordBuf.bss
  heap := heap

def sizeofIndexBuf : Nat := 1024 * 1024

theorem sizeofIndexBuf_eq : sizeofIndexBuf = 1048576 := rfl

attribute [irreducible] sizeofIndexBuf

def MemState.memories (s : MemState) : List Memory := s.memStore.map MemEntry.toMemory

/-! ### `mem_strdup` -/

structure CString where
  bytes : List U8
  ne_zero : ∀ b ∈ bytes, b ≠ 0

theorem nil_ne_zero : ∀ b ∈ ([] : List U8), b ≠ 0 := fun _ h => absurd h List.not_mem_nil

def CString.empty : CString := ⟨[], nil_ne_zero⟩

/-- `mem_strdup`: a block for the text and a zero byte, or `NULL`. -/
def memStrdup (heap : Heap) (s : MemText) : Option MemText × Heap :=
  let (p, heap) := kmalloc heap (BitVec.ofNat 64 (s.bytes.length + 1))
  (if p = 0 then none else some s, heap)

/-! ### `aion_memory_init`, `aion_memory_load_all` -/

section Load

variable {σ : Type} (fs : FileSystem σ)

def aionMemoryHasStore (disk : σ) : Bool := (fs.read disk indexPath).isSome

def aionMemoryInit (disk : σ) (s : MemState) : MemState :=
  { s with memStore := [], memDirty := 0, storeExists := aionMemoryHasStore fs disk }

/-- One round of the loop of `aion_memory_load_all`, with the slot at `p`. -/
def loadSlot (disk : σ) (p : List U8) (s : MemState) : MemState :=
  let path := cstr (p.take 255)
  match fs.read disk path with
  | none => s
  | some data =>
    let (record, buf) := readRecord s.recordBuf data
    let s := { s with recordBuf := buf }
    match record with
    | none => s
    | some m =>
      match memStrdup s.heap m.content with
      | (none, heap) => { s with heap := heap }
      | (some content, heap) =>
        { s with memStore := s.memStore ++ [{ m with content := content }.entry false], heap := heap }

/-- The loop over `count` slots from `p` on. -/
def loadSlots (disk : σ) : Nat → List U8 → MemState → MemState
  | 0, _, s => s
  | count + 1, p, s => loadSlots disk count (p.drop 256) (loadSlot fs disk p s)

def aionMemoryLoadAll (disk : σ) (s : MemState) : MemState :=
  match fs.read disk indexPath with
  | none => s
  | some data =>
    let buf := overwrite (data.take s.indexBuf.length) s.indexBuf
    let count := readField buf 0 8
    let count := if count > maxMemories then maxMemories else count
    loadSlots fs disk count (buf.drop 8) { s with indexBuf := buf }

/-- The start of the consciousness: memories are loaded if the index exists. -/
def bootMemory (cap : Nat) (disk : σ) (heap : Heap) : MemState :=
  let s := aionMemoryInit fs disk (MemState.powerOn cap heap)
  if aionMemoryHasStore fs disk then aionMemoryLoadAll fs disk s else s

end Load

/-! ### `aion_memory_flush` -/

/-- The record files that a flush writes, for the entries from slot `i` on. -/
def recordWrites : Nat → List MemEntry → List FileWrite
  | _, [] => []
  | i, e :: es =>
    if e.dirty then (memPath e.type i, encodeRecord e.toMemory) :: recordWrites (i + 1) es
    else recordWrites (i + 1) es

/-- `char path[256]` after the name was printed: behind the zero byte stands what stood
on the stack. -/
def pathArray (name : Path) (stack : Nat → U8) : List U8 :=
  name ++ 0 :: (List.range (256 - (name.length + 1))).map stack

/-- A slot of the index: 255 bytes of the path, the importance. -/
def indexSlot (m : Memory) (i : Nat) (stack : Nat → U8) : List U8 :=
  (pathArray (memPath m.type i) stack).take 255 ++ [m.importance]

def indexSlots (stack : Nat → Nat → U8) : Nat → List Memory → List U8
  | _, [] => []
  | i, m :: ms => indexSlot m i (stack i) ++ indexSlots stack (i + 1) ms

def encodeIndex (stack : Nat → Nat → U8) (ms : List Memory) : List U8 :=
  leBytes 8 ms.length ++ indexSlots stack 0 ms

/-- What `aion_memory_flush` writes: the dirty records, then the index. -/
def flushWrites (stack : Nat → Nat → U8) (s : MemState) : List FileWrite :=
  recordWrites 0 s.memStore ++ [(indexPath, encodeIndex stack s.memories)]

def aionMemoryFlush (stack : Nat → Nat → U8) (s : MemState) : List FileWrite × MemState :=
  if s.memDirty = 0 then ([], s)
  else (flushWrites stack s,
    { s with memStore := s.memStore.map fun e => e.toMemory.entry false, memDirty := 0 })

/-! ### `aion_memory_store` -/

/-- `AionMemoryEntry`; the contents may be `NULL`. -/
structure AionMemoryEntry where
  type : U8
  importance : U8
  tick : U64
  content : Option CString

/-- The search for the least important episodic memory, from slot `i` on, with
`worst_idx` and `worst_imp`. -/
def worstLoop : Nat → List MemEntry → Nat × U8 → Nat
  | _, [], w => w.1
  | i, e :: es, w =>
    worstLoop (i + 1) es
      (if e.type = memEpisodic ∧ e.importance < w.2 then (i, e.importance) else w)

/-- `worst_idx`; `0` if there is no episodic memory of importance below 255. -/
def worstIdx (es : List MemEntry) : Nat := worstLoop 0 es (0, 255)

/-- The eviction of a full store.  `kfree` gives nothing back. -/
def evict (s : MemState) : MemState :=
  if s.memStore.length ≥ maxMemories then
    { s with memStore := s.memStore.eraseIdx (worstIdx s.memStore) }
  else s

/-- `clen`: `strlen` in a `uint32_t`, cut to `MAX_CONTENT_LEN`. -/
def storedLen (text : CString) : Nat :=
  let clen := text.bytes.length % 2 ^ 32
  if clen > maxContentLen then maxContentLen else clen

theorem storedLen_le (text : CString) : storedLen text ≤ maxContentLen := by
  rw [storedLen]
  split
  · exact Nat.le_refl _
  · omega

def storedText (text : CString) : MemText :=
  ⟨text.bytes.take (storedLen text), (List.length_take_le _ _).trans (storedLen_le text)⟩

/-- The entry is appended; every 10 new entries are written. -/
def appendEntry (stack : Nat → Nat → U8) (m : Memory) (s : MemState) : List FileWrite × MemState :=
  let s := { s with memStore := s.memStore ++ [m.entry true], memDirty := s.memDirty + 1 }
  if s.memDirty ≥ 10 then aionMemoryFlush stack s else ([], s)

/-- The entry may be a null pointer. -/
def aionMemoryStore (entry : Option AionMemoryEntry) (stack : Nat → Nat → U8) (s : MemState) :
    List FileWrite × MemState :=
  match entry with
  | none => ([], s)
  | some e =>
    match e.content with
    | none => ([], s)
    | some text =>
      let s := evict s
      match memStrdup s.heap (storedText text) with
      | (none, heap) => ([], { s with heap := heap })
      | (some content, heap) =>
        appendEntry stack ⟨e.type, e.importance, e.tick, content⟩ { s with heap := heap }

end AionOs
