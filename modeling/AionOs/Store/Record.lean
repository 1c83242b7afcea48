import AionOs.Lib.Bytes
import AionOs.Memory.Pmm

/-!
# Memory records

The formats of `consciousness/memory/aion_memory.c`: a memory, the packed record it is
stored as, the name of its file.

* `memPath_inj`: the name of a file tells the slot and the directory.
* `readRecord_encode`: a record read into any buffer gives the memory back.
* `encodeRecord_inj`: a record holds one memory.
-/

namespace AionOs

open Bytes

/-! ### Constants -/

abbrev Path := List U8

def memEpisodic : U8 := 0
def memSemantic : U8 := 1
def memSelf : U8 := 2

/-- `MEM_MAGIC`, "AMEM" -/
def memMagic : U32 := 0x414D454D

def maxMemories : Nat := 65536

def maxContentLen : Nat := 4096

def indexPath : Path := ascii "/AION/memory/index.bin"
def episodicDir : Path := ascii "/AION/memory/episodic/"
def semanticDir : Path := ascii "/AION/memory/semantic/"
def selfDir : Path := ascii "/AION/memory/self/"

@[simp] theorem maxMemories_eq : maxMemories = 65536 := rfl
@[simp] theorem maxContentLen_eq : maxContentLen = 4096 := rfl

attribute [irreducible] maxMemories

/-! ### Memories -/

/-- The contents of a memory: at most `MAX_CONTENT_LEN` bytes. -/
@[ext] structure MemText where
  bytes : List U8
  le : bytes.length ≤ maxContentLen
  deriving DecidableEq

@[ext] structure Memory where
  type : U8
  importance : U8
  tick : U64
  content : MemText
  deriving DecidableEq

def Memory.contentLen (m : Memory) : Nat := m.content.bytes.length

theorem Memory.contentLen_le (m : Memory) : m.contentLen ≤ 4096 := m.content.le

/-! ### Names of files -/

theorem episodicDir_eq : episodicDir =
    [47, 65, 73, 79, 78, 47, 109, 101, 109, 111, 114, 121, 47, 101, 112, 105, 115, 111, 100, 105, 99, 47] := by
  decide

theorem semanticDir_eq : semanticDir =
    [47, 65, 73, 79, 78, 47, 109, 101, 109, 111, 114, 121, 47, 115, 101, 109, 97, 110, 116, 105, 99, 47] := by
  decide

theorem selfDir_eq : selfDir =
    [47, 65, 73, 79, 78, 47, 109, 101, 109, 111, 114, 121, 47, 115, 101, 108, 102, 47] := by
  decide

theorem indexPath_eq : indexPath =
    [47, 65, 73, 79, 78, 47, 109, 101, 109, 111, 114, 121, 47, 105, 110, 100, 101, 120, 46, 98, 105, 110] := by
  decide

theorem ascii_mem : ascii ".mem" = [46, 109, 101, 109] := by decide

def memTypeDir (type : U8) : Path :=
  if type = memEpisodic then episodicDir
  else if type = memSelf then selfDir
  else semanticDir

/-- `snprintf(path, sizeof(path), "%s%llu.mem", dir, i)`; the name is never cut. -/
def memPath (type : U8) (i : Nat) : Path := memTypeDir type ++ decimal i ++ ascii ".mem"

theorem memTypeDir_slash (type : U8) : 47#8 ∈ (memTypeDir type).getLast? ∧
    (∀ b ∈ memTypeDir type, b ≠ 0#8) ∧ (memTypeDir type).length ≤ 22 := by
  rw [memTypeDir]
  split
  · rw [episodicDir_eq]
    exact ⟨rfl, by simp, by simp⟩
  · split
    · rw [selfDir_eq]
      exact ⟨rfl, by simp, by simp⟩
    · rw [semanticDir_eq]
      exact ⟨rfl, by simp, by simp⟩

/-- **The name of a file tells the slot**, and the directory. -/
theorem memPath_inj {t t' : U8} {i j : Nat} (h : memPath t i = memPath t' j) :
    i = j ∧ memTypeDir t = memTypeDir t' := by
  have hd := List.dropLast_append_getLast? _ (memTypeDir_slash t).1
  have hd' := List.dropLast_append_getLast? _ (memTypeDir_slash t').1
  have hslash : ∀ k, ∀ b ∈ decimal k, b ≠ 47#8 := by
    intro k b hb he
    have := decimal_digit hb
    rw [he] at this
    simp at this
  have hcut := List.append_cancel_right h
  rw [← hd, ← hd', List.append_assoc, List.append_assoc, List.singleton_append,
    List.singleton_append] at hcut
  obtain ⟨h1, h2⟩ := append_sep_inj (hslash i) (hslash j) hcut
  exact ⟨decimal_injective h2, by rw [← hd, ← hd', h1]⟩

theorem memPath_ne_indexPath (t : U8) (i : Nat) : memPath t i ≠ indexPath := by
  intro h
  have hlast := congrArg List.getLast? h
  rw [memPath, ascii_mem, indexPath_eq, List.getLast?_append_of_ne_nil _ (by decide)] at hlast
  exact absurd hlast (by decide)

theorem memPath_ne_zero {t : U8} {i : Nat} : ∀ b ∈ memPath t i, b ≠ 0#8 := by
  intro b hb
  obtain ⟨_, hz, _⟩ := memTypeDir_slash t
  rw [memPath, ascii_mem, List.mem_append, List.mem_append] at hb
  rcases hb with (hb | hb) | hb
  · exact hz b hb
  · rintro rfl
    have := decimal_digit hb
    simp at this
  · revert b
    decide

theorem length_memPath_le (t : U8) {i : Nat} (h : i < 10 ^ 20) : (memPath t i).length ≤ 46 := by
  obtain ⟨_, _, hlen⟩ := memTypeDir_slash t
  have hdec := length_decimal_le (w := 20) (by omega) h
  rw [memPath, ascii_mem, List.length_append, List.length_append]
  simp only [List.length_cons, List.length_nil]
  omega

/-! ### Records -/

/-- `MemoryRecord`: magic, type, importance, flags, tick, timestamp, content length. -/
def recordHeader (m : Memory) : List (Nat × Nat) :=
  [(4, memMagic.toNat), (1, m.type.toNat), (1, m.importance.toNat), (2, 0), (8, m.tick.toNat), (8, 0),
    (4, m.contentLen)]

def sizeofRecord : Nat := 28

/-- The bytes that `aion_memory_flush` writes for a memory. -/
def encodeRecord (m : Memory) : List U8 := pack (recordHeader m) ++ m.content.bytes

structure RecordBuf where
  bytes : List U8
  length_eq : bytes.length = maxContentLen + sizeofRecord

def RecordBuf.bss : RecordBuf := ⟨List.replicate (maxContentLen + sizeofRecord) 0, List.length_replicate⟩

/-- `fs_read_file` into the buffer. -/
def RecordBuf.fill (buf : RecordBuf) (data : List U8) : RecordBuf where
  bytes := overwrite (data.take (maxContentLen + sizeofRecord)) buf.bytes
  length_eq := by
    rw [length_overwrite, buf.length_eq]
    rw [buf.length_eq]
    exact List.length_take_le _ _

theorem RecordBuf.fill_bytes (buf : RecordBuf) (data : List U8) :
    (buf.fill data).bytes = overwrite (data.take (maxContentLen + sizeofRecord)) buf.bytes := rfl

/-- The checks of `aion_memory_load_all` on a buffer into which `bytes` bytes were read.
They do not compare `bytes` with the length that the record declares. -/
def parseRecord (buf : RecordBuf) (bytes : Nat) : Option Memory :=
  if bytes < sizeofRecord then none
  else if readField buf.bytes 0 4 ≠ memMagic.toNat then none
  else
    let clen := readField buf.bytes 24 4
    if h : clen > maxContentLen then none
    else some {
      type := BitVec.ofNat 8 (readField buf.bytes 4 1)
      importance := BitVec.ofNat 8 (readField buf.bytes 5 1)
      tick := BitVec.ofNat 64 (readField buf.bytes 8 8)
      content := ⟨(buf.bytes.drop sizeofRecord).take clen,
        (List.length_take_le _ _).trans (Nat.le_of_not_gt h)⟩ }

/-- One file read into the buffer: the memory, if the record is accepted, and the buffer. -/
def readRecord (buf : RecordBuf) (data : List U8) : Option Memory × RecordBuf :=
  let buf := buf.fill data
  (parseRecord buf (data.take (maxContentLen + sizeofRecord)).length, buf)

theorem readRecord_fst (buf : RecordBuf) (data : List U8) : (readRecord buf data).1 =
    parseRecord (buf.fill data) (data.take (maxContentLen + sizeofRecord)).length := rfl

theorem length_encodeRecord (m : Memory) : (encodeRecord m).length = sizeofRecord + m.contentLen := by
  rw [encodeRecord, List.length_append, length_pack]
  rfl

/-- **A record read into any buffer gives the memory back.** -/
theorem readRecord_encode (buf : RecordBuf) (m : Memory) :
    (readRecord buf (encodeRecord m)).1 = some m := by
  have hlen := length_encodeRecord m
  have hle := m.contentLen_le
  have hhead : sizeofRecord = 28 := rfl
  have htake : (encodeRecord m).take (maxContentLen + sizeofRecord) = encodeRecord m := by
    rw [List.take_of_length_le]
    rw [hlen, maxContentLen_eq]
    omega
  have hfill : (buf.fill (encodeRecord m)).bytes = overwrite (encodeRecord m) buf.bytes := by
    rw [RecordBuf.fill_bytes, htake]
  have hfield : ∀ before after w n off, recordHeader m = before ++ (w, n) :: after →
      offset before = off → off + w ≤ 28 → n < 256 ^ w →
      readField (buf.fill (encodeRecord m)).bytes off w = n := by
    rintro before after w n off he rfl hoff hn
    rw [hfill, readField_overwrite (by omega), encodeRecord, he]
    exact readField_pack before after w n hn _
  have hmagic := hfield [] _ 4 _ 0 rfl (by simp) (by omega) memMagic.isLt
  have htype := hfield [(4, _)] _ 1 _ 4 rfl (by simp) (by omega) m.type.isLt
  have himp := hfield [(4, _), (1, _)] _ 1 _ 5 rfl (by simp) (by omega) m.importance.isLt
  have htick := hfield [(4, _), (1, _), (1, _), (2, 0)] _ 8 _ 8 rfl (by simp) (by omega) m.tick.isLt
  have hclen := hfield [(4, _), (1, _), (1, _), (2, 0), (8, _), (8, 0)] [] 4 _ 24 rfl (by simp)
    (by omega) (by omega)
  have hcontent : ((buf.fill (encodeRecord m)).bytes.drop sizeofRecord).take
      (readField (buf.fill (encodeRecord m)).bytes 24 4) = m.content.bytes := by
    have hpack : (pack (recordHeader m)).length = sizeofRecord := by rw [length_pack]; rfl
    rw [hclen, hfill, take_drop_overwrite (by omega), encodeRecord, List.drop_left' hpack]
    exact List.take_length
  rw [readRecord_fst, htake]
  have hnot : ¬ readField (buf.fill (encodeRecord m)).bytes 24 4 > maxContentLen := by
    rw [hclen, maxContentLen_eq]
    omega
  rw [parseRecord, if_neg (by omega), if_neg (not_not_intro hmagic)]
  simp only [dif_neg hnot, Option.some.injEq]
  refine Memory.ext ?_ ?_ ?_ (MemText.ext ?_)
  · exact (congrArg (BitVec.ofNat 8) htype).trans (BitVec.ofNat_toNat 8 m.type)
  · exact (congrArg (BitVec.ofNat 8) himp).trans (BitVec.ofNat_toNat 8 m.importance)
  · exact (congrArg (BitVec.ofNat 64) htick).trans (BitVec.ofNat_toNat 64 m.tick)
  · exact hcontent

theorem encodeRecord_inj {m n : Memory} (h : encodeRecord m = encodeRecord n) : m = n := by
  have hm := readRecord_encode RecordBuf.bss m
  rw [h, readRecord_encode] at hm
  exact (Option.some.inj hm).symm

end AionOs
