import AionOs.Action.Dispatch

/-!
# Quoted parameters

The scanner ends a token at the first `>`; the reader of a parameter looks for the first
`key="` and ends the value at the next quote.

* `StringParam.read_first`, `StringParam.read_second`: the reader, in a token with one or two
  parameters.
* `calls_matched`: a text with one token.
* `params_survive_iff`: when the reader gets the values that were written.
-/

namespace AionOs

open Bytes CText

/-! ### Reading a parameter -/

structure StringParam where
  key : List U8
  size : Nat
  plain : quote ∉ key ∧ charByte '>' ∉ key
  room : key.length + 2 < size ∧ key.length + 2 ≤ 63

def StringParam.word (p : StringParam) : List U8 := p.key ++ ascii "="

theorem StringParam.quote_word (p : StringParam) : quote ∉ p.word := by
  rw [StringParam.word, List.mem_append, not_or]
  exact ⟨p.plain.1, by decide⟩

theorem StringParam.length_word (p : StringParam) : p.word.length = p.key.length + 1 := by
  rw [StringParam.word, List.length_append]
  rfl

def StringParam.read (p : StringParam) (token : Token) : Option (List U8) :=
  parseParamStr token p.key p.size

theorem StringParam.search_eq (p : StringParam) :
    (p.key ++ ascii "=" ++ [quote]).take 63 = p.word ++ [quote] := by
  apply List.take_of_length_le
  rw [List.length_append, ← StringParam.word, p.length_word]
  exact p.room.2

theorem StringParam.read_some {p : StringParam} {token : Token} {tail : List U8}
    (h : strstr token.bytes (p.word ++ [quote]) = some (p.word ++ quote :: tail)) :
    p.read token = (strchr tail quote).map fun stop =>
      tail.take (if tail.length - stop.length ≥ p.size then p.size - 1
        else tail.length - stop.length) := by
  have hdrop : (p.word ++ quote :: tail).drop (p.word ++ [quote]).length = tail := by
    rw [show p.word ++ quote :: tail = (p.word ++ [quote]) ++ tail by
      rw [List.append_assoc, List.singleton_append], List.drop_left]
  rw [StringParam.read, parseParamStr]
  simp only [p.search_eq, h, hdrop]
  cases strchr tail quote <;> rfl

theorem StringParam.read_value {p : StringParam} {token : Token} {v rest : List U8} (hv : quote ∉ v)
    (hlen : v.length < p.size)
    (h : strstr token.bytes (p.word ++ [quote]) = some (p.word ++ quote :: (v ++ quote :: rest))) :
    p.read token = some v := by
  have hdist : (v ++ quote :: rest).length - (quote :: rest).length = v.length := by
    rw [List.length_append, Nat.add_sub_cancel]
  rw [StringParam.read_some h, strchr_append hv, Option.map_some, hdist, if_neg (by omega),
    List.take_left]

theorem StringParam.read_subset {p : StringParam} {token : Token} {v : List U8}
    (h : p.read token = some v) : v ⊆ token.bytes := by
  rw [StringParam.read, parseParamStr] at h
  simp only at h
  split at h
  · cases h
  · next t hs =>
    split at h
    · cases h
    · cases h
      exact fun b hb => (strstr_suffix hs).subset (List.mem_of_mem_drop (List.mem_of_mem_take hb))

/-! ### Tokens with parameters -/

def StringParam.quoted (p : StringParam) (v : List U8) : List U8 :=
  charByte ' ' :: (p.word ++ quote :: (v ++ [quote]))

theorem StringParam.length_quoted (p : StringParam) (v : List U8) :
    (p.quoted v).length = p.key.length + v.length + 4 := by
  simp only [StringParam.quoted, List.length_cons, List.length_append, List.length_nil, p.length_word]
  omega

/-- A text without `<` around one token. -/
structure Surround where
  before : List U8
  after : List U8
  plain : charByte '<' ∉ before ∧ charByte '<' ∉ after

def Surround.text (s : Surround) (token : List U8) : List U8 := s.before ++ closed token s.after

/-- A token that an entry is found for and that fits the buffer is its only call. -/
theorem calls_matched {a : ActionDef} {mid : List U8} (s : Surround) (hgt : charByte '>' ∉ mid)
    (hlen : mid.length < 2048) (hmatch : matchAt (mid ++ charByte '>' :: s.after) = some a) :
    actionParseAndExecute (some (s.text mid)) = [(a.handler, ⟨mid, hlen⟩)] := by
  have hout : tryActions (charByte '<' :: (mid ++ charByte '>' :: s.after)) actions =
      .executed a.handler ⟨mid, hlen⟩ (mid.length + 1) := by
    rw [tryActions_matchAt, hmatch]
    exact callHandler_short hgt hlen s.after a.handler
  have hafter : (mid ++ charByte '>' :: s.after).drop (mid.length + 1) = s.after := by
    rw [← List.drop_drop, List.drop_left, List.drop_one, List.tail_cons]
  rw [actionParseAndExecute, Surround.text, closed, scan_append s.plain.1]
  simp only [hout, hafter, scan_none s.plain.2]
  rfl

theorem calls_gt {output : List U8} {handler : Handler} {token : Token}
    (h : (handler, token) ∈ actionParseAndExecute (some output)) : charByte '>' ∉ token.bytes := by
  obtain ⟨_, mid, _, _, _, hmid, htoken⟩ := mem_calls_at h
  exact fun hmem => hmid (htoken.subset hmem)

/-! ### Reading back what was written -/

theorem StringParam.quoted_append (p : StringParam) (name v rest : List U8) :
    name ++ p.quoted v ++ rest = (name ++ charByte ' ' :: p.word) ++ quote :: (v ++ quote :: rest) := by
  simp [StringParam.quoted]

theorem StringParam.quote_front (p : StringParam) {name : List U8} (h : quote ∉ name) :
    quote ∉ name ++ charByte ' ' :: p.word := by
  rw [List.mem_append, List.mem_cons]
  rintro (hn | hb | hw)
  · exact h hn
  · exact absurd hb (by decide)
  · exact p.quote_word hw

theorem StringParam.read_first {p : StringParam} {name v rest : List U8} {token : Token}
    (hname : quote ∉ name) (hv : quote ∉ v) (hlen : v.length < p.size)
    (ht : token.bytes = name ++ p.quoted v ++ rest) : p.read token = some v := by
  have hpre := p.quote_front hname
  have hsuffix : p.word <:+ name ++ charByte ' ' :: p.word :=
    (List.suffix_cons _ _).trans (List.suffix_append _ _)
  have hstr : strstr token.bytes (p.word ++ [quote]) =
      some (p.word ++ quote :: (v ++ quote :: rest)) := by
    rw [ht, p.quoted_append, strstr_until p.quote_word hpre, if_pos hsuffix]
  exact StringParam.read_value hv hlen hstr

/-- The second one is looked for in the value of the first one, too. -/
theorem StringParam.read_second {p q : StringParam} {name v u : List U8} {token : Token}
    (hname : quote ∉ name) (hapart : ¬ q.word <:+ name ++ charByte ' ' :: p.word) (hv : quote ∉ v)
    (hu : quote ∉ u) (hlen : u.length < q.size)
    (ht : token.bytes = name ++ p.quoted v ++ q.quoted u) :
    q.read token = some (if q.word <:+ v then charByte ' ' :: q.word else u) := by
  have hpre := p.quote_front hname
  have hmid : quote ∉ charByte ' ' :: q.word :=
    List.not_mem_cons_of_ne_of_not_mem (by decide) q.quote_word
  have hquoted : q.quoted u = (charByte ' ' :: q.word) ++ quote :: (u ++ quote :: []) := rfl
  have hstr : strstr token.bytes (q.word ++ [quote]) = if q.word <:+ v
      then some (q.word ++ quote :: q.quoted u) else some (q.word ++ quote :: (u ++ quote :: [])) := by
    rw [ht, p.quoted_append, strstr_until q.quote_word hpre, if_neg hapart,
      strstr_until q.quote_word hv, hquoted, strstr_until q.quote_word hmid,
      if_pos (List.suffix_cons _ _)]
  by_cases hs : q.word <:+ v
  · rw [if_pos hs, hquoted] at hstr
    rw [if_pos hs]
    refine StringParam.read_value hmid ?_ hstr
    rw [List.length_cons, q.length_word]
    exact q.room.1
  · rw [if_neg hs] at hstr
    rw [if_neg hs]
    exact StringParam.read_value hu hlen hstr

/-! ### The actions -/

/-- An entry that is called by its name. -/
structure NamedAction where
  entry : ActionDef
  mem : entry ∈ actions
  first : ∀ b ∈ actions, b.name <+: entry.name → b = entry
  plain : quote ∉ entry.name

theorem NamedAction.matchAt_quoted (a : NamedAction) (p : StringParam) (v rest : List U8) :
    matchAt (a.entry.name ++ p.quoted v ++ rest) = some a.entry := by
  rw [List.append_assoc, StringParam.quoted, List.cons_append]
  exact matchAt_name a.mem a.first (.inl rfl) _

structure TwoParams extends NamedAction where
  key : StringParam
  value : StringParam
  apart : ¬ value.word <:+ entry.name ++ charByte ' ' :: key.word

def displayAction : NamedAction :=
  ⟨⟨ascii "ACT:DISPLAY", .actDisplay⟩, by decide, by decide, by decide⟩

def displayText : StringParam := ⟨ascii "text", 512, by decide, by decide⟩

def memoryKey : StringParam := ⟨ascii "key", 128, by decide, by decide⟩

def memoryStoreAction : TwoParams where
  entry := ⟨ascii "ACT:MEMORY_STORE", .actMemoryStore⟩
  mem := by decide
  first := by decide
  plain := by decide
  key := memoryKey
  value := ⟨ascii "value", 1024, by decide, by decide⟩
  apart := by decide

def memoryRecallAction : NamedAction :=
  ⟨⟨ascii "ACT:MEMORY_RECALL", .actMemoryRecall⟩, by decide, by decide, by decide⟩

def fileWriteAction : TwoParams where
  entry := ⟨ascii "ACT:FILE_WRITE", .actFileWrite⟩
  mem := by decide
  first := by decide
  plain := by decide
  key := ⟨ascii "path", 512, by decide, by decide⟩
  value := ⟨ascii "data", 4096, by decide, by decide⟩
  apart := by decide

def NamedAction.token (a : NamedAction) (p : StringParam) (v : List U8) : List U8 :=
  a.entry.name ++ p.quoted v

def TwoParams.token (a : TwoParams) (v u : List U8) : List U8 :=
  a.entry.name ++ a.key.quoted v ++ a.value.quoted u

/-- The handler is called with a token that has these values. -/
def Delivered (output : List U8) (handler : Handler) (args : List (StringParam × List U8)) : Prop :=
  ∃ token, (handler, token) ∈ actionParseAndExecute (some output) ∧
    ∀ arg ∈ args, arg.1.read token = some arg.2

theorem Delivered.gt {output : List U8} {handler : Handler} {args : List (StringParam × List U8)}
    (h : Delivered output handler args) : ∀ arg ∈ args, charByte '>' ∉ arg.2 := by
  obtain ⟨token, hcall, hargs⟩ := h
  exact fun arg harg hgt => calls_gt hcall (StringParam.read_subset (hargs arg harg) hgt)

theorem StringParam.quoted_gt (p : StringParam) {v : List U8} (h : charByte '>' ∉ v) :
    charByte '>' ∉ p.quoted v := by
  have hkey := p.plain.2
  have hword : charByte '>' ∉ p.word := by
    rw [StringParam.word, List.mem_append, not_or]
    exact ⟨hkey, by decide⟩
  rw [StringParam.quoted, List.mem_cons, List.mem_append, List.mem_cons, List.mem_append,
    List.mem_singleton]
  rintro (h' | h' | h' | h' | h')
  · exact absurd h' (by decide)
  · exact hword h'
  · exact absurd h' (by decide)
  · exact h h'
  · exact absurd h' (by decide)

theorem TwoParams.token_gt (a : TwoParams) {v u : List U8} (hv : charByte '>' ∉ v)
    (hu : charByte '>' ∉ u) : charByte '>' ∉ a.token v u := by
  rw [TwoParams.token, List.mem_append, List.mem_append, not_or, not_or]
  exact ⟨⟨(actions_names _ a.mem).2.1, a.key.quoted_gt hv⟩, a.value.quoted_gt hu⟩

theorem TwoParams.calls (a : TwoParams) (s : Surround) {v u : List U8} (hv : charByte '>' ∉ v)
    (hu : charByte '>' ∉ u) (hlen : (a.token v u).length < 2048) :
    actionParseAndExecute (some (s.text (a.token v u))) =
      [(a.entry.handler, ⟨a.token v u, hlen⟩)] := by
  refine calls_matched s (a.token_gt hv hu) hlen ?_
  rw [TwoParams.token, List.append_assoc]
  exact a.matchAt_quoted a.key v _

theorem NamedAction.calls (a : NamedAction) (p : StringParam) (s : Surround) {v : List U8}
    (hv : charByte '>' ∉ v) (hlen : (a.token p v).length < 2048) :
    actionParseAndExecute (some (s.text (a.token p v))) = [(a.entry.handler, ⟨a.token p v, hlen⟩)] := by
  have hplain : charByte '>' ∉ a.token p v := by
    rw [NamedAction.token, List.mem_append, not_or]
    exact ⟨(actions_names _ a.mem).2.1, p.quoted_gt hv⟩
  exact calls_matched s hplain hlen (a.matchAt_quoted p v _)

theorem TwoParams.delivered_iff (a : TwoParams) (s : Surround) {v u : List U8} (hv : quote ∉ v)
    (hu : quote ∉ u) (hvlen : v.length < a.key.size) (hulen : u.length < a.value.size)
    (hlen : (a.token v u).length < 2048) :
    Delivered (s.text (a.token v u)) a.entry.handler [(a.key, v), (a.value, u)] ↔
      charByte '>' ∉ v ∧ charByte '>' ∉ u ∧
        (a.value.word <:+ v → u = charByte ' ' :: a.value.word) := by
  have hread : ∀ token : Token, token.bytes = a.token v u → a.value.read token =
      some (if a.value.word <:+ v then charByte ' ' :: a.value.word else u) :=
    fun token ht => StringParam.read_second a.plain a.apart hv hu hulen ht
  constructor
  · intro h
    have hgtv := h.gt (a.key, v) (by simp)
    have hgtu := h.gt (a.value, u) (by simp)
    obtain ⟨token, hcall, hargs⟩ := h
    rw [a.calls s hgtv hgtu hlen, List.mem_singleton, Prod.mk.injEq] at hcall
    refine ⟨hgtv, hgtu, fun hs => ?_⟩
    have hvalue := hargs (a.value, u) (by simp)
    rw [hread token (by rw [hcall.2]), if_pos hs] at hvalue
    exact (Option.some.inj hvalue).symm
  · rintro ⟨hgtv, hgtu, hs⟩
    refine ⟨⟨a.token v u, hlen⟩, by rw [a.calls s hgtv hgtu hlen]; exact List.mem_singleton_self _, ?_⟩
    intro arg harg
    rw [List.mem_cons, List.mem_singleton] at harg
    rcases harg with rfl | rfl
    · exact StringParam.read_first a.plain hv hvlen rfl
    · rw [hread _ rfl]
      split
      · next hsuffix => rw [hs hsuffix]
      · rfl

theorem NamedAction.delivered_iff (a : NamedAction) (p : StringParam) (s : Surround) {v : List U8}
    (hv : quote ∉ v) (hvlen : v.length < p.size) (hlen : (a.token p v).length < 2048) :
    Delivered (s.text (a.token p v)) a.entry.handler [(p, v)] ↔ charByte '>' ∉ v := by
  refine ⟨fun h => h.gt (p, v) (by simp), fun hgt => ?_⟩
  refine ⟨⟨a.token p v, hlen⟩, by rw [a.calls p s hgt hlen]; exact List.mem_singleton_self _,
    fun arg harg => ?_⟩
  rw [List.mem_singleton.mp harg]
  exact StringParam.read_first a.plain hv hvlen (List.append_nil _).symm

/-- **Quoted parameters.**  For every text around a token and all values that fit the buffers:
a text to display arrives if and only if it has no `>`; the two parameters of the other actions
arrive if and only if they have no `>` and the first one does not end like the start of the
second one. -/
theorem params_survive_iff (s : Surround) :
    (∀ v : List U8, quote ∉ v → v.length < displayText.size →
      (displayAction.token displayText v).length < 2048 →
      (Delivered (s.text (displayAction.token displayText v)) .actDisplay [(displayText, v)] ↔
        charByte '>' ∉ v)) ∧
    ∀ a ∈ [memoryStoreAction, fileWriteAction], ∀ v u : List U8, quote ∉ v → quote ∉ u →
      v.length < a.key.size → u.length < a.value.size → (a.token v u).length < 2048 →
      (Delivered (s.text (a.token v u)) a.entry.handler [(a.key, v), (a.value, u)] ↔
        charByte '>' ∉ v ∧ charByte '>' ∉ u ∧
          (a.value.word <:+ v → u = charByte ' ' :: a.value.word)) :=
  ⟨fun _ hv hvlen hlen => displayAction.delivered_iff displayText s hv hvlen hlen,
    fun a _ _ _ hv hu hvlen hulen hlen => a.delivered_iff s hv hu hvlen hulen hlen⟩

def Surround.nothing : Surround := ⟨[], [], by decide⟩

theorem params_survive_sample :
    Delivered (Surround.nothing.text (memoryStoreAction.token (ascii "a<b") (ascii "c=d")))
      .actMemoryStore [(memoryStoreAction.key, ascii "a<b"), (memoryStoreAction.value, ascii "c=d")] :=
  ((params_survive_iff Surround.nothing).2 memoryStoreAction (by simp) (ascii "a<b") (ascii "c=d")
    (by decide) (by decide) (by decide) (by decide) (by decide)).mpr (by decide)

/-- A `>` in a value ends the token, and a first value that ends in `value=` hides the second. -/
theorem params_lost :
    ¬ Delivered (Surround.nothing.text (memoryStoreAction.token (ascii "k") (ascii "a>b")))
      .actMemoryStore [(memoryStoreAction.key, ascii "k"), (memoryStoreAction.value, ascii "a>b")] ∧
    ¬ Delivered (Surround.nothing.text (memoryStoreAction.token (ascii "value=") (ascii "v")))
      .actMemoryStore [(memoryStoreAction.key, ascii "value="), (memoryStoreAction.value, ascii "v")] := by
  constructor
  · intro h
    have hgt := h.gt (memoryStoreAction.value, ascii "a>b") (by simp)
    exact absurd hgt (by decide)
  · intro h
    have hcond := (memoryStoreAction.delivered_iff Surround.nothing (by decide) (by decide) (by decide)
      (by decide) (by decide)).mp h
    exact absurd (hcond.2.2 (by decide)) (by decide)

end AionOs
