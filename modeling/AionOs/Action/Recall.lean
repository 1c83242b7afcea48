import Mathlib.Data.List.TakeWhile
import AionOs.Action.Params
import AionOs.Store.Evict

/-!
# Recall

`MEMORY_STORE` keeps `key: value` among all other memories; `MEMORY_RECALL` takes the last
memory in which the key occurs.

* `aionMemorySearch_found`, `aionMemorySearch_missing`: what a search finds.
* `texts_run`: the memories after a run.
* `recall_iff`: when a recall gives the value that was stored last under the key.
-/

namespace AionOs

open Bytes CText

/-! ### The code -/

@[ext] structure AionMemoryResult where
  found : Bool
  content : Option (List U8)

/-- `aion_memory_search`: from the last entry down. -/
def aionMemorySearch (key : List U8) (s : MemState) : AionMemoryResult :=
  match s.memStore.findRev? fun e => (strstr (cstr e.content.bytes) key).isSome with
  | none => ⟨false, none⟩
  | some e => ⟨true, some (cstr e.content.bytes)⟩

def CString.ofBuffer (buf : List U8) : CString where
  bytes := cstr buf
  ne_zero := fun b hb => by
    have := List.mem_takeWhile_imp hb
    simpa using this

/-- `record_result`: the format, not yet the message. -/
def recordResult (fmt : List U8) (results : List (List U8)) : List (List U8) :=
  if results.length ≥ 32 then results else results ++ [fmt.take 255]

def memoryStoreEntry (token : Token) : AionMemoryEntry :=
  let key := (parseParamStr token (ascii "key") 128).getD []
  let value := (parseParamStr token (ascii "value") 1024).getD []
  let importance := (parseParamInt token (ascii "importance")).getD 1
  { type := memSemantic
    importance := if importance.toInt > 255 then 255 else importance.truncate 8
    tick := 0
    content := some (CString.ofBuffer ((key ++ ascii ": " ++ value).take 1199)) }

def experienceEntry (tick : U64) (output : CString) : AionMemoryEntry where
  type := memEpisodic
  importance := 1
  tick := tick
  content := some output

structure ActionSys (σ : Type) where
  store : StoreSys σ
  results : List (List U8)

section Actions

variable {σ : Type} (fs : FileSystem σ)

def actMemoryStore (token : Token) (stack : Nat → Nat → U8) (s : ActionSys σ) : ActionSys σ where
  store := s.store.call fs (.store (some (memoryStoreEntry token)) stack)
  results := recordResult (ascii "MEMORY_STORE: key=%s stored") s.results

def actMemoryRecall (token : Token) (s : ActionSys σ) : AionMemoryResult × ActionSys σ :=
  let r := aionMemorySearch ((parseParamStr token (ascii "key") 128).getD []) s.store.ram
  let fmt := if r.found then ascii "MEMORY_RECALL: key=%s value=%s"
    else ascii "MEMORY_RECALL: key=%s not found"
  (r, { s with results := recordResult fmt s.results })

def storeExperience (tick : U64) (output : CString) (stack : Nat → Nat → U8) (s : ActionSys σ) :
    ActionSys σ :=
  { s with store := s.store.call fs (.store (some (experienceEntry tick output)) stack) }

/-! ### Runs -/

/-- A text of at most `max` characters, none of them `"`, `<` or `>`. -/
structure PlainText (max : Nat) where
  bytes : List U8
  le : bytes.length ≤ max
  plain : ∀ b ∈ bytes, b ≠ 0 ∧ b ≠ quote ∧ b ≠ charByte '<' ∧ b ≠ charByte '>'

abbrev Value := PlainText 1023

structure Key extends PlainText 127 where
  ne_nil : bytes ≠ []

inductive RecallOp where
  | memoryStore (key : Key) (value : Value) (stack : Nat → Nat → U8)
  | memoryRecall (key : Key)
  | experience (tick : U64) (output : CString) (stack : Nat → Nat → U8)

theorem PlainText.not_mem {max : Nat} (t : PlainText max) : quote ∉ t.bytes ∧ charByte '>' ∉ t.bytes :=
  ⟨fun h => (t.plain _ h).2.1 rfl, fun h => (t.plain _ h).2.2.2 rfl⟩

theorem length_storeToken (key : Key) (value : Value) :
    (memoryStoreAction.token key.bytes value.bytes).length < 2048 := by
  have hk := key.le
  have hv := value.le
  have hname : memoryStoreAction.entry.name.length = 16 := by decide
  have hkey : memoryStoreAction.key.word.length = 4 := by decide
  have hvalue : memoryStoreAction.value.word.length = 6 := by decide
  simp only [TwoParams.token, StringParam.quoted, List.length_append, List.length_cons,
    List.length_nil, hname, hkey, hvalue]
  omega

theorem length_recallToken (key : Key) :
    (memoryRecallAction.token memoryKey key.bytes).length < 2048 := by
  have hk := key.le
  have hname : memoryRecallAction.entry.name.length = 17 := by decide
  have hkey : memoryKey.word.length = 4 := by decide
  simp only [NamedAction.token, StringParam.quoted, List.length_append, List.length_cons,
    List.length_nil, hname, hkey]
  omega

def storeToken (key : Key) (value : Value) : Token where
  bytes := memoryStoreAction.token key.bytes value.bytes
  lt := length_storeToken key value

def recallToken (key : Key) : Token where
  bytes := memoryRecallAction.token memoryKey key.bytes
  lt := length_recallToken key

def RecallOp.text : RecallOp → Option (List U8)
  | .memoryStore key value _ => some (key.bytes ++ ascii ": " ++
      if memoryStoreAction.value.word <:+ key.bytes then charByte ' ' :: memoryStoreAction.value.word
      else value.bytes)
  | .memoryRecall _ => none
  | .experience _ output _ => some (storedText output).bytes

def RecallOp.call : RecallOp → Option StoreCall
  | .memoryStore key value stack => some (.store (some (memoryStoreEntry (storeToken key value))) stack)
  | .memoryRecall _ => none
  | .experience tick output stack => some (.store (some (experienceEntry tick output)) stack)

def ActionSys.step (s : ActionSys σ) : RecallOp → ActionSys σ
  | .memoryStore key value stack => actMemoryStore fs (storeToken key value) stack s
  | .memoryRecall key => (actMemoryRecall (recallToken key) s).2
  | .experience tick output stack => storeExperience fs tick output stack s

/-- `kmalloc` does not fail, and the store is not full when an entry is stored. -/
def RoomyOp (s : ActionSys σ) (op : RecallOp) : Prop :=
  ∀ c, op.call = some c → c.Served s.store.ram ∧ s.store.ram.memStore.length < maxMemories

def recallMachine : Machine (ActionSys σ) RecallOp := ⟨ActionSys.step fs, RoomyOp⟩

def MemState.texts (s : MemState) : List (List U8) := s.memories.map fun m => cstr m.content.bytes

/-! ### What a search finds -/

theorem findRev?_eq_some {α : Type} {p : α → Bool} {l : List α} {a : α} : l.findRev? p = some a ↔
    ∃ older newer, l = older ++ a :: newer ∧ p a ∧ ∀ b ∈ newer, p b = false := by
  rw [List.findRev?_eq_find?_reverse, List.find?_eq_some_iff_append]
  constructor
  · rintro ⟨hp, as, bs, hl, has⟩
    refine ⟨bs.reverse, as.reverse, ?_, hp, fun b hb => ?_⟩
    · rw [← List.reverse_reverse l, hl]
      simp
    · simpa using has b (List.mem_reverse.mp hb)
  · rintro ⟨older, newer, rfl, hp, hnewer⟩
    refine ⟨hp, newer.reverse, older.reverse, by simp, fun b hb => ?_⟩
    rw [hnewer b (List.mem_reverse.mp hb)]
    rfl

theorem findRev?_eq_none {α : Type} {p : α → Bool} {l : List α} :
    l.findRev? p = none ↔ ∀ b ∈ l, p b = false := by
  rw [List.findRev?_eq_find?_reverse, List.find?_eq_none]
  simp

/-- A search takes the last memory in which the key occurs. -/
theorem aionMemorySearch_eq (key : List U8) (s : MemState) : aionMemorySearch key s =
    match s.texts.findRev? fun t => (strstr t key).isSome with
    | none => ⟨false, none⟩
    | some t => ⟨true, some t⟩ := by
  have htexts : s.texts = s.memStore.map fun e => cstr e.content.bytes := by
    rw [MemState.texts, MemState.memories, List.map_map]
    rfl
  rw [aionMemorySearch, htexts, List.findRev?_eq_find?_reverse, List.findRev?_eq_find?_reverse,
    ← List.map_reverse, List.find?_map]
  simp only [Function.comp_def]
  cases s.memStore.reverse.find? fun e => (strstr (cstr e.content.bytes) key).isSome <;> rfl

theorem strstr_false {s word : List U8} : (strstr s word).isSome = false ↔ ¬ word <:+: s := by
  rw [← strstr_isSome, Bool.not_eq_true]

theorem aionMemorySearch_found {key : List U8} {s : MemState} {t : List U8} :
    aionMemorySearch key s = ⟨true, some t⟩ ↔
      ∃ older newer, s.texts = older ++ t :: newer ∧ key <:+: t ∧ ∀ u ∈ newer, ¬ key <:+: u := by
  have hfind : aionMemorySearch key s = ⟨true, some t⟩ ↔
      (s.texts.findRev? fun t => (strstr t key).isSome) = some t := by
    rw [aionMemorySearch_eq]
    generalize (s.texts.findRev? fun t => (strstr t key).isSome) = r
    cases r <;> simp
  rw [hfind, findRev?_eq_some]
  simp only [strstr_isSome, strstr_false]

theorem aionMemorySearch_missing {key : List U8} {s : MemState} :
    aionMemorySearch key s = ⟨false, none⟩ ↔ ∀ t ∈ s.texts, ¬ key <:+: t := by
  have hfind : aionMemorySearch key s = ⟨false, none⟩ ↔
      (s.texts.findRev? fun t => (strstr t key).isSome) = none := by
    rw [aionMemorySearch_eq]
    generalize (s.texts.findRev? fun t => (strstr t key).isSome) = r
    cases r <;> simp
  rw [hfind, findRev?_eq_none]
  simp only [strstr_false]

/-! ### What the operations store -/

theorem cstr_eq_self {l : List U8} (h : ∀ b ∈ l, b ≠ 0) : cstr l = l :=
  List.takeWhile_eq_self_iff.mpr fun b hb => bne_iff_ne.mpr (h b hb)

theorem storedText_of_le {text : CString} (h : text.bytes.length ≤ maxContentLen) :
    (storedText text).bytes = text.bytes := by
  rw [maxContentLen_eq] at h
  have hlen : storedLen text = text.bytes.length := by
    rw [storedLen, maxContentLen_eq, Nat.mod_eq_of_lt (by omega)]
    exact if_neg (by omega)
  show text.bytes.take (storedLen text) = text.bytes
  rw [hlen, List.take_length]

theorem storeToken_key (key : Key) (value : Value) :
    parseParamStr (storeToken key value) (ascii "key") 128 = some key.bytes := by
  have ht : (storeToken key value).bytes = memoryStoreAction.entry.name ++
    memoryKey.quoted key.bytes ++ memoryStoreAction.value.quoted value.bytes := rfl
  exact StringParam.read_first memoryStoreAction.plain key.not_mem.1 (Nat.lt_succ_of_le key.le) ht

theorem storeToken_value (key : Key) (value : Value) :
    parseParamStr (storeToken key value) (ascii "value") 1024 = some
      (if memoryStoreAction.value.word <:+ key.bytes then charByte ' ' :: memoryStoreAction.value.word
        else value.bytes) :=
  StringParam.read_second memoryStoreAction.plain memoryStoreAction.apart key.not_mem.1 value.not_mem.1
    (Nat.lt_succ_of_le value.le) rfl

theorem recallToken_key (key : Key) :
    parseParamStr (recallToken key) (ascii "key") 128 = some key.bytes := by
  have ht : (recallToken key).bytes = memoryRecallAction.entry.name ++ memoryKey.quoted key.bytes ++ [] :=
    (List.append_nil _).symm
  exact StringParam.read_first memoryRecallAction.plain key.not_mem.1 (Nat.lt_succ_of_le key.le) ht

theorem text_store_ok {key : Key} {value : Value} {stack : Nat → Nat → U8} {t : List U8}
    (h : (RecallOp.memoryStore key value stack).text = some t) : t.length ≤ 1199 ∧ ∀ b ∈ t, b ≠ 0 := by
  have hk := key.le
  have hv := value.le
  have hword : (charByte ' ' :: memoryStoreAction.value.word).length = 7 := by decide
  have hword0 : ∀ b ∈ charByte ' ' :: memoryStoreAction.value.word, b ≠ 0 := by decide
  have hsep : ∀ b ∈ ascii ": ", b ≠ 0 := by decide
  have hseplen : (ascii ": ").length = 2 := by decide
  rw [RecallOp.text, Option.some.injEq] at h
  subst h
  constructor
  · rw [List.length_append, List.length_append, hseplen]
    split
    · rw [hword]
      omega
    · omega
  · intro b hb
    rw [List.mem_append, List.mem_append] at hb
    rcases hb with (hb | hb) | hb
    · exact (key.plain b hb).1
    · exact hsep b hb
    · split at hb
      · exact hword0 b hb
      · exact (value.plain b hb).1

theorem memoryStoreEntry_content {key : Key} {value : Value} {stack : Nat → Nat → U8} {t : List U8}
    (h : (RecallOp.memoryStore key value stack).text = some t) :
    (memoryStoreEntry (storeToken key value)).content = some (CString.ofBuffer t) := by
  have hlen := (text_store_ok h).1
  rw [RecallOp.text, Option.some.injEq] at h
  rw [memoryStoreEntry]
  simp only [storeToken_key, storeToken_value, Option.getD_some]
  rw [h, List.take_of_length_le hlen]

theorem call_text {op : RecallOp} {c : StoreCall} (h : op.call = some c) :
    ∃ m, c.stored = some m ∧ op.text = some (cstr m.content.bytes) := by
  cases op with
  | memoryRecall key => cases h
  | memoryStore key value stack =>
    cases h
    obtain ⟨t, ht⟩ : ∃ t, (RecallOp.memoryStore key value stack).text = some t := ⟨_, rfl⟩
    obtain ⟨hlen, hzero⟩ := text_store_ok ht
    have hbuffer : (CString.ofBuffer t).bytes = t := cstr_eq_self hzero
    have hstored : (storedText (CString.ofBuffer t)).bytes = t := by
      rw [storedText_of_le, hbuffer]
      rw [hbuffer, maxContentLen_eq]
      omega
    rw [ht, StoreCall.stored, memoryStoreEntry_content ht]
    refine ⟨_, rfl, ?_⟩
    rw [hstored, cstr_eq_self hzero]
  | experience tick output stack =>
    cases h
    have hzero : ∀ b ∈ (storedText output).bytes, b ≠ 0 :=
      fun b hb => output.ne_zero b (List.mem_of_mem_take hb)
    exact ⟨_, rfl, congrArg some (cstr_eq_self hzero).symm⟩

theorem text_of_call_none {op : RecallOp} (h : op.call = none) : op.text = none := by
  cases op with
  | memoryRecall key => rfl
  | memoryStore key value stack => cases h
  | experience tick output stack => cases h

theorem step_store (s : ActionSys σ) (op : RecallOp) :
    (s.step fs op).store = op.call.elim s.store fun c => s.store.call fs c := by
  cases op <;> rfl

/-- **One operation** adds its text to the memories. -/
theorem texts_step {s : ActionSys σ} {op : RecallOp} (h : RoomyOp s op) :
    (s.step fs op).store.ram.texts = s.store.ram.texts ++ op.text.toList := by
  rw [step_store]
  cases hc : op.call with
  | none => rw [text_of_call_none hc, Option.elim_none, Option.toList_none, List.append_nil]
  | some c =>
    obtain ⟨hserved, hroom⟩ := h c hc
    obtain ⟨m, hm, ht⟩ := call_text hc
    have hlen : s.store.ram.memStore.length + c.stored.toList.length ≤ maxMemories := by
      rw [hm]
      exact hroom
    have hmem := memories_exec hserved hlen
    rw [hm] at hmem
    rw [Option.elim_some, ht]
    show ((c.exec s.store.ram).2.memories.map fun m => cstr m.content.bytes) = _
    rw [hmem, List.map_append]
    rfl

def runTexts (ops : List RecallOp) : List (List U8) := ops.filterMap RecallOp.text

/-- **A run** adds the texts of its operations, in order. -/
theorem texts_run : ∀ (ops : List RecallOp) (s : ActionSys σ), (recallMachine fs).Legal s ops →
    ((recallMachine fs).run s ops).store.ram.texts = s.store.ram.texts ++ runTexts ops := by
  intro ops
  induction ops with
  | nil => intro s _; exact (List.append_nil _).symm
  | cons op ops ih =>
    intro s hl
    have hcons : runTexts (op :: ops) = op.text.toList ++ runTexts ops := filterMap_cons_toList _ _ _
    have hstep := texts_step fs hl.1
    rw [Machine.run_cons, hcons, ← List.append_assoc, ← hstep]
    exact ih _ hl.2

/-! ### What a recall gives -/

def RecallOp.valueOf (key : Key) : RecallOp → Option Value
  | .memoryStore key' value _ => if key'.bytes = key.bytes then some value else none
  | _ => none

def latest (key : Key) (ops : List RecallOp) : Option Value :=
  (ops.filterMap (RecallOp.valueOf key)).getLast?

/-- `key: value` -/
def record (key : Key) (value : Value) : List U8 := key.bytes ++ ascii ": " ++ value.bytes

/-- After the run, a recall gives the value that was stored last under the key, or reports
that there is none. -/
def Recalls (s : ActionSys σ) (ops : List RecallOp) (key : Key) : Prop :=
  (actMemoryRecall (recallToken key) s).1 = match latest key ops with
    | none => ⟨false, none⟩
    | some value => ⟨true, some (record key value)⟩

/-- The record of the key is among the texts of the run, and the key is in none behind it;
where nothing was stored under the key, it is in none at all. -/
def Undisturbed (ops : List RecallOp) (key : Key) : Prop :=
  match latest key ops with
  | none => ∀ t ∈ runTexts ops, ¬ key.bytes <:+: t
  | some value => ∃ older newer, runTexts ops = older ++ record key value :: newer ∧
      ∀ t ∈ newer, ¬ key.bytes <:+: t

theorem record_infix (key : Key) (value : Value) : key.bytes <:+: record key value := by
  rw [record, List.append_assoc]
  exact (List.prefix_append _ _).isInfix

theorem recalls_iff {s : ActionSys σ} {ops : List RecallOp} (h : s.store.ram.texts = runTexts ops)
    (key : Key) : Recalls s ops key ↔ Undisturbed ops key := by
  rw [Recalls, Undisturbed, actMemoryRecall]
  simp only [recallToken_key, Option.getD_some]
  cases latest key ops with
  | none => simp only [aionMemorySearch_missing, h]
  | some value => simp only [aionMemorySearch_found, h, record_infix, true_and]

theorem texts_of_empty {s : ActionSys σ} (hempty : s.store.ram.memStore = []) {ops : List RecallOp}
    (hl : (recallMachine fs).Legal s ops) :
    ((recallMachine fs).run s ops).store.ram.texts = runTexts ops := by
  rw [texts_run fs ops s hl, MemState.texts, MemState.memories, hempty]
  rfl

/-- **Recall.**  From an empty store, after every run, a recall of a key gives what was stored
last under it if and only if the key is not in a text that was stored later. -/
theorem recall_iff {s : ActionSys σ} (hempty : s.store.ram.memStore = []) {ops : List RecallOp}
    (hl : (recallMachine fs).Legal s ops) (key : Key) :
    Recalls ((recallMachine fs).run s ops) ops key ↔ Undisturbed ops key :=
  recalls_iff (texts_of_empty fs hempty hl) key

variable {fs} in
theorem legal_recall_of_serves : ∀ (ops : List RecallOp) (s : ActionSys σ),
    s.store.ram.heap.Serves (callRequests (ops.filterMap RecallOp.call)) →
    s.store.ram.memStore.length + ops.length ≤ maxMemories → (recallMachine fs).Legal s ops := by
  intro ops
  induction ops with
  | nil => intro s _ _; exact trivial
  | cons op ops ih =>
    intro s hserves hroom
    rw [List.length_cons] at hroom
    rw [List.filterMap_cons] at hserves
    cases hc : op.call with
    | none =>
      rw [hc] at hserves
      refine ⟨fun c h => (Option.some_ne_none c (h.symm.trans hc)).elim, ih _ ?_ ?_⟩
      · show (s.step fs op).store.ram.heap.Serves _
        rw [step_store, hc]
        exact hserves
      · show (s.step fs op).store.ram.memStore.length + _ ≤ _
        rw [step_store, hc]
        show s.store.ram.memStore.length + _ ≤ _
        omega
    | some c =>
      rw [hc] at hserves
      simp only [callRequests_cons, Heap.serves_append] at hserves
      obtain ⟨hserved, hrest⟩ := hserves
      have hlen := exec_length_le (c := c) hserved
      have hone : c.stored.toList.length ≤ 1 := by cases c.stored <;> simp
      refine ⟨fun c' h => ?_, ih _ ?_ ?_⟩
      · obtain rfl : c = c' := Option.some.inj (hc.symm.trans h)
        exact ⟨hserved, by omega⟩
      · show (s.step fs op).store.ram.heap.Serves _
        rw [step_store, hc]
        show (c.exec s.store.ram).2.heap.Serves _
        rw [exec_heap hserved]
        exact hrest
      · show (s.step fs op).store.ram.memStore.length + _ ≤ _
        rw [step_store, hc]
        show (c.exec s.store.ram).2.memStore.length + _ ≤ _
        omega

end Actions

/-! ### A key in the text of its own action -/

def echoKey : Key := ⟨⟨ascii "a", by decide, by decide⟩, by decide⟩

def echoValue : Value := ⟨ascii "1", by decide, by decide⟩

def echoOutput : CString := ⟨closed (storeToken echoKey echoValue).bytes [], by decide⟩

/-- The action, and the experience of the same tick. -/
def echoOps : List RecallOp :=
  [.memoryStore echoKey echoValue sampleStack, .experience 0 echoOutput sampleStack]

def echoStart : ActionSys (Path → Option (List U8)) :=
  ⟨StoreSys.start sampleFs sizeofIndexBuf emptyDisk sampleHeap, []⟩

theorem echoStart_empty : echoStart.store.ram.memStore = [] ∧
    echoStart.store.ram.heap = sampleHeap := by
  have h := start_empty (fun _ => rfl : ∀ p, sampleFs.read emptyDisk p = none) sizeofIndexBuf sampleHeap
  exact ⟨h.1, h.2.2⟩

theorem legal_echoOps : (recallMachine sampleFs).Legal echoStart echoOps := by
  obtain ⟨hempty, hheap⟩ := echoStart_empty
  apply legal_recall_of_serves
  · rw [hheap]
    exact sampleHeap_serves [_, _] (by simp)
  · rw [hempty, maxMemories_eq]
    decide

theorem recall_sample : Recalls ((recallMachine sampleFs).run echoStart echoOps) echoOps echoKey ↔
    Undisturbed echoOps echoKey :=
  recall_iff sampleFs echoStart_empty.1 legal_echoOps echoKey

/-- The experience hides the value. -/
theorem recall_hidden : (recallMachine sampleFs).Legal echoStart echoOps ∧
    latest echoKey echoOps = some echoValue ∧
    ¬ Recalls ((recallMachine sampleFs).run echoStart echoOps) echoOps echoKey := by
  have hlatest : latest echoKey echoOps = some echoValue := rfl
  refine ⟨legal_echoOps, hlatest, fun h => ?_⟩
  have hclear := (recalls_iff (texts_of_empty sampleFs echoStart_empty.1 legal_echoOps) echoKey).mp h
  rw [Undisturbed, hlatest] at hclear
  obtain ⟨older, newer, htexts, hnewer⟩ := hclear
  have hrun : runTexts echoOps = [record echoKey echoValue, echoOutput.bytes] := by decide
  rw [hrun] at htexts
  rcases older with _ | ⟨x, older⟩
  · rw [List.nil_append, List.cons.injEq] at htexts
    exact hnewer echoOutput.bytes (htexts.2 ▸ List.mem_singleton_self _) (by decide)
  · rw [List.cons_append, List.cons.injEq] at htexts
    have hsame : echoOutput.bytes = record echoKey echoValue := by
      rcases older with _ | ⟨y, older⟩
      · exact (List.cons.inj htexts.2).1
      · have hlen := congrArg List.length htexts.2
        simp at hlen
    exact absurd hsame (by decide)

end AionOs
