import AionOs.Lib.CArray
import AionOs.Lib.Machine
import AionOs.Store.AionMemory

/-!
# The working memory

`consciousness/runtime/llm.c`: the tokens of the life so far, fed from texts and from what
the model answers.  The model itself is not part of the repository; what its functions
return is part of an operation, and the sequence it has evaluated is `kvCache`.

A copy that is not inside `context_tokens` gives no state at all.

* `llmFeed_spec`, `thinkLoop_spec`: what a call appends.
* `context_window`: no run leaves the array, and what a feed keeps.
-/

namespace AionOs

/-! ### The code -/

abbrev LlamaToken := BitVec 32

def ctxSize : Nat := 4096

structure LlmState where
  ready : Bool
  contextTokens : CArray LlamaToken ctxSize
  contextLen : Int
  /-- The sequence that the model has evaluated. -/
  kvCache : List LlamaToken

/-- `context_tokens[0..context_len)` -/
def LlmState.context (s : LlmState) : List LlamaToken := s.contextTokens.front s.contextLen

/-- The tokens that `llama_tokenize` left in `new_tokens`. -/
structure NewTokens where
  tokens : List LlamaToken
  le : tokens.length ≤ 512

/-- `llama_decode` returned `code`. -/
def llamaDecode (code : Int) (batch kvCache : List LlamaToken) : List LlamaToken :=
  if code = 0 then kvCache ++ batch else kvCache

/-- The oldest tokens are forgotten, and the others evaluated anew. -/
def compressContext (code : Int) (s : LlmState) : Option LlmState := do
  let keep : Int := (ctxSize * 3) / 4
  let drop := s.contextLen - keep
  let kept ← s.contextTokens.load drop keep
  let tokens ← s.contextTokens.store 0 kept
  let batch ← tokens.load 0 keep
  some { s with contextTokens := tokens, contextLen := keep, kvCache := llamaDecode code batch [] }

/-- The new tokens enter the context and are evaluated. -/
def feedTokens (new : NewTokens) (code : Int) (s : LlmState) : Option (Int × LlmState) := do
  let tokens ← s.contextTokens.store s.contextLen new.tokens
  some (code, { s with
    contextTokens := tokens
    contextLen := s.contextLen + new.tokens.length
    kvCache := llamaDecode code new.tokens s.kvCache })

/-- `llm_feed`: `llama_tokenize` gave `tokenized`, none if it was negative, and
`llama_decode` gives `recode` on a compressed context and `code` on the new tokens. -/
def llmFeed (text : Option CString) (tokenized : Option NewTokens) (recode code : Int) (s : LlmState) :
    Option (Int × LlmState) :=
  if s.ready = false ∨ text.isNone then some (-1, s)
  else
    match tokenized with
    | none => some (-1, s)
    | some new => do
      let s ← if s.contextLen + new.tokens.length > ctxSize - 128 then compressContext recode s else some s
      feedTokens new code s

/-- What the model does in a round of `llm_think`: the token it samples, its text, none if
`llama_token_to_piece` is negative, and the result of `llama_decode`. -/
structure Round where
  token : LlamaToken
  isEog : Bool
  piece : Option (List U8)
  code : Int

/-- The output enters the context too, as long as there is room. -/
def appendToken (token : LlamaToken) (s : LlmState) : Option LlmState :=
  if s.contextLen < ctxSize - 1 then do
    let tokens ← s.contextTokens.store s.contextLen [token]
    some { s with contextTokens := tokens, contextLen := s.contextLen + 1 }
  else some s

/-- The loop of `llm_think` over the rounds that `max_tokens` allows, with the text so far. -/
def thinkLoop (outSz : Int) : List Round → List U8 → LlmState → Option (List U8 × LlmState)
  | [], out, s => some (out, s)
  | r :: rounds, out, s =>
    if r.isEog then some (out, s)
    else
      match r.piece with
      | none => some (out, s)
      | some piece => do
        let out := if out.length + piece.length < outSz - 1 then out ++ piece else out
        let s ← appendToken r.token s
        let s := { s with kvCache := llamaDecode r.code [r.token] s.kvCache }
        if r.code ≠ 0 then some (out, s) else thinkLoop outSz rounds out s

def roundsOf (maxTokens : Int) (rounds : Nat → Round) : List Round :=
  (List.range maxTokens.toNat).map rounds

/-- `llm_think`: what is returned, and the text in `out_buf`. -/
def llmThink (outSz maxTokens : Int) (rounds : Nat → Round) (s : LlmState) :
    Option (Int × List U8 × LlmState) :=
  if s.ready = false ∨ s.contextLen = 0 then some (-1, [], s)
  else do
    let (out, s) ← thinkLoop outSz (roundsOf maxTokens rounds) [] s
    some (out.length, out, s)

/-! ### Runs -/

inductive LlmOp where
  | feed (text : Option CString) (tokenized : Option NewTokens) (recode code : Int)
  | think (outSz maxTokens : Int) (rounds : Nat → Round)

/-- `none` when a copy left the array. -/
def llmStep (s : Option LlmState) (op : LlmOp) : Option LlmState :=
  match op with
  | .feed text tokenized recode code => s.bind fun s => (llmFeed text tokenized recode code s).map Prod.snd
  | .think outSz maxTokens rounds => s.bind fun s => (llmThink outSz maxTokens rounds s).map fun r => r.2.2

def llmMachine (allowed : Option LlmState → LlmOp → Prop) : Machine (Option LlmState) LlmOp :=
  ⟨llmStep, allowed⟩

def AnyOp (_ : Option LlmState) (_ : LlmOp) : Prop := True

/-- After `llm_init`, if it was successful. -/
def LlmState.start (ready : Bool) : LlmState := ⟨ready, CArray.fill ctxSize 0, 0, []⟩

theorem ctxSize_eq : ctxSize = 4096 := rfl

attribute [irreducible] ctxSize

/-! ### What a call appends -/

structure LlmState.Within (s : LlmState) : Prop where
  nonneg : 0 ≤ s.contextLen
  lt : s.contextLen < ctxSize

theorem LlmState.Within.length_context {s : LlmState} (h : s.Within) :
    (s.context.length : Int) = s.contextLen := by
  have := h.nonneg
  rw [LlmState.context, CArray.length_front _ h.lt.le]
  omega

/-- **The compression** keeps the last 3072 tokens. -/
theorem compressContext_spec {s : LlmState} (h : s.Within) (hlen : 3072 ≤ s.contextLen) (code : Int) :
    ∃ s', compressContext code s = some s' ∧ s'.Within ∧ s'.ready = s.ready ∧ s'.contextLen = 3072 ∧
      s'.context = s.context.drop (s.contextLen - 3072).toNat ∧
      s'.kvCache = llamaDecode code s'.context [] := by
  have hctx := ctxSize_eq
  have hlt := h.lt
  have hkeep : ((ctxSize : Int) * 3) / 4 = 3072 := by rw [hctx]; rfl
  set kept := s.context.drop (s.contextLen - 3072).toNat with hkept
  have hklen : (kept.length : Int) = 3072 := by
    have := h.length_context
    rw [hkept, List.length_drop]
    omega
  have hload : s.contextTokens.load (s.contextLen - 3072) 3072 = some kept :=
    CArray.load_front _ (by omega) hlen (by omega)
  obtain ⟨tokens, hstore, hfront⟩ := @CArray.store_zero _ _ s.contextTokens kept (by omega)
  rw [hklen] at hfront
  have hbatch : tokens.load 0 3072 = some kept := by
    have := @CArray.load_front _ _ tokens 3072 3072 (by omega) (Int.le_refl _) (by omega)
    rwa [hfront, Int.sub_self, Int.toNat_zero, List.drop_zero] at this
  refine ⟨⟨s.ready, tokens, 3072, llamaDecode code kept []⟩, ?_, ⟨?_, ?_⟩, rfl, rfl, hfront, ?_⟩
  · rw [compressContext]
    simp only [hkeep, hload, hstore, hbatch, Option.bind_eq_bind, Option.bind_some]
  · show (0 : Int) ≤ 3072
    omega
  · show (3072 : Int) < ctxSize
    omega
  · show _ = llamaDecode code (tokens.front 3072) []
    rw [hfront]

/-- What a feed keeps of the context: all of it, or its last 3072 tokens. -/
def keptTokens (n : Nat) (s : LlmState) : List LlamaToken :=
  if s.contextLen + n > 3968 then s.context.drop (s.contextLen - 3072).toNat else s.context

/-- The evaluated tokens before the new ones. -/
def keptCache (n : Nat) (recode : Int) (s : LlmState) : List LlamaToken :=
  if s.contextLen + n > 3968 then llamaDecode recode (keptTokens n s) [] else s.kvCache

theorem feedTokens_spec {s : LlmState} (h : s.Within) (new : NewTokens)
    (hroom : s.contextLen + new.tokens.length < 4096) (code : Int) :
    ∃ s', feedTokens new code s = some (code, s') ∧ s'.Within ∧ s'.ready = s.ready ∧
      s'.context = s.context ++ new.tokens ∧ s'.kvCache = llamaDecode code new.tokens s.kvCache := by
  have hctx := ctxSize_eq
  have hnonneg := h.nonneg
  obtain ⟨tokens, hstore, hfront⟩ :=
    @CArray.store_front _ _ s.contextTokens s.contextLen new.tokens h.nonneg (by omega)
  refine ⟨⟨s.ready, tokens, s.contextLen + new.tokens.length, llamaDecode code new.tokens s.kvCache⟩,
    ?_, ⟨?_, ?_⟩, rfl, hfront, rfl⟩
  · rw [feedTokens, hstore]
    rfl
  · show 0 ≤ s.contextLen + new.tokens.length
    omega
  · show s.contextLen + new.tokens.length < ctxSize
    omega

/-- **What a feed does** that gets tokens. -/
theorem llmFeed_spec {s : LlmState} (h : s.Within) (hready : s.ready = true) {text : Option CString}
    (htext : text ≠ none) (new : NewTokens) (recode code : Int) :
    ∃ s', llmFeed text (some new) recode code s = some (code, s') ∧ s'.Within ∧ s'.ready = s.ready ∧
      s'.context = keptTokens new.tokens.length s ++ new.tokens ∧
      s'.kvCache = llamaDecode code new.tokens (keptCache new.tokens.length recode s) := by
  have hctx := ctxSize_eq
  have hn := new.le
  have hlimit : (ctxSize : Int) - 128 = 3968 := by rw [hctx]; rfl
  have hcond : ¬ (s.ready = false ∨ text.isNone) := by
    rintro (hfalse | hnone)
    · rw [hready] at hfalse
      cases hfalse
    · exact htext (Option.isNone_iff_eq_none.mp hnone)
  rw [llmFeed, if_neg hcond, keptCache, keptTokens]
  simp only [hlimit]
  by_cases hfull : s.contextLen + new.tokens.length > 3968
  · obtain ⟨s', hs', hwithin, hrdy, hlen, hcontext, hcache⟩ := compressContext_spec h (by omega) recode
    obtain ⟨t, ht, htwithin, htready, htcontext, htcache⟩ :=
      feedTokens_spec hwithin new (by omega) code
    rw [if_pos hfull, if_pos hfull, if_pos hfull]
    refine ⟨t, ?_, htwithin, htready.trans hrdy, htcontext.trans (by rw [hcontext]),
      htcache.trans (by rw [hcache, hcontext])⟩
    rw [hs']
    exact ht
  · rw [if_neg hfull, if_neg hfull, if_neg hfull]
    exact feedTokens_spec h new (by omega) code

/-! ### What the model says -/

/-- The rounds in which a token enters: up to the end of the answer or the first token that
`llama_decode` refuses, which is the last one. -/
def spoken : List Round → List Round
  | [] => []
  | r :: rounds =>
    if r.isEog ∨ r.piece.isNone then [] else if r.code ≠ 0 then [r] else r :: spoken rounds

def tokensOf (rounds : List Round) : List LlamaToken := rounds.map Round.token

def decoded (rounds : List Round) : List Round := rounds.filter fun r => r.code = 0

theorem decoded_eq_self {rounds : List Round} (h : ∀ r ∈ rounds, r.code = 0) : decoded rounds = rounds :=
  List.filter_eq_self.mpr fun r hr => by simpa using h r hr

def LlmState.room (s : LlmState) : Nat := (4095 - s.contextLen).toNat

theorem appendToken_spec {s : LlmState} (h : s.Within) (token : LlamaToken) :
    ∃ s', appendToken token s = some s' ∧ s'.Within ∧ s'.ready = s.ready ∧ s'.kvCache = s.kvCache ∧
      s'.context = s.context ++ [token].take s.room ∧ s'.room = s.room - 1 := by
  have hctx := ctxSize_eq
  have hnonneg := h.nonneg
  have hlt := h.lt
  rw [appendToken]
  by_cases hroom : s.contextLen < ctxSize - 1
  · obtain ⟨tokens, hstore, hfront⟩ :=
      @CArray.store_front _ _ s.contextTokens s.contextLen [token] h.nonneg (by
        rw [List.length_singleton]; omega)
    have htake : [token].take s.room = [token] := List.take_of_length_le (by
      rw [List.length_singleton, LlmState.room]; omega)
    rw [if_pos hroom, hstore, htake]
    refine ⟨⟨s.ready, tokens, s.contextLen + 1, s.kvCache⟩, rfl, ⟨?_, ?_⟩, rfl, rfl, hfront, ?_⟩
    · show 0 ≤ s.contextLen + 1
      omega
    · show s.contextLen + 1 < ctxSize
      omega
    · show (4095 - (s.contextLen + 1)).toNat = (4095 - s.contextLen).toNat - 1
      omega
  · have hzero : s.room = 0 := by rw [LlmState.room]; omega
    rw [if_neg hroom, hzero]
    exact ⟨s, rfl, h, rfl, rfl, (List.append_nil _).symm, hzero⟩

/-- **What the loop does**: the tokens that it samples enter the context while there is room,
and those that are not refused are evaluated. -/
theorem thinkLoop_spec (outSz : Int) : ∀ (rounds : List Round) (out : List U8) {s : LlmState}, s.Within →
    ∃ out' s', thinkLoop outSz rounds out s = some (out', s') ∧ s'.Within ∧ s'.ready = s.ready ∧
      s'.context = s.context ++ (tokensOf (spoken rounds)).take s.room ∧
      s'.kvCache = s.kvCache ++ tokensOf (decoded (spoken rounds)) := by
  intro rounds
  induction rounds with
  | nil =>
    intro out s h
    exact ⟨out, s, rfl, h, rfl, by rw [spoken, tokensOf]; simp, (List.append_nil _).symm⟩
  | cons r rounds ih =>
    intro out s h
    rw [thinkLoop, spoken]
    by_cases heog : r.isEog = true
    · rw [if_pos heog, if_pos (.inl heog)]
      exact ⟨out, s, rfl, h, rfl, by rw [tokensOf]; simp, (List.append_nil _).symm⟩
    · rw [if_neg heog]
      cases hpiece : r.piece with
      | none =>
        rw [if_pos (.inr rfl)]
        exact ⟨out, s, rfl, h, rfl, by rw [tokensOf]; simp, (List.append_nil _).symm⟩
      | some piece =>
        have hlive : ¬ (r.isEog = true ∨ (some piece).isNone = true) := by simp [heog]
        obtain ⟨t, ht, htwithin, htready, htcache, htcontext, htroom⟩ := appendToken_spec h r.token
        rw [if_neg hlive]
        simp only [ht, Option.bind_eq_bind, Option.bind_some]
        by_cases hcode : r.code ≠ 0
        · rw [if_pos hcode, if_pos hcode]
          refine ⟨_, _, rfl, ⟨htwithin.nonneg, htwithin.lt⟩, htready, htcontext, ?_⟩
          have hnone : decoded [r] = [] := List.filter_cons_of_neg (by simpa using hcode)
          rw [hnone]
          show llamaDecode r.code [r.token] t.kvCache = s.kvCache ++ []
          rw [llamaDecode, if_neg hcode, htcache, List.append_nil]
        · rw [if_neg hcode, if_neg hcode]
          rw [not_not] at hcode
          obtain ⟨out', u, hu, huwithin, huready, hucontext, hucache⟩ :=
            ih _ (s := { t with kvCache := llamaDecode r.code [r.token] t.kvCache })
              ⟨htwithin.nonneg, htwithin.lt⟩
          refine ⟨out', u, hu, huwithin, huready.trans htready, hucontext.trans ?_, hucache.trans ?_⟩
          · show t.context ++ (tokensOf (spoken rounds)).take t.room = _
            rw [htcontext, htroom, List.append_assoc]
            congr 1
            cases s.room with
            | zero => rfl
            | succ k => simp [tokensOf]
          · have hcons : decoded (r :: spoken rounds) = r :: decoded (spoken rounds) :=
              List.filter_cons_of_pos (by simpa using hcode)
            show llamaDecode r.code [r.token] t.kvCache ++ _ = _
            rw [llamaDecode, if_pos hcode, htcache, hcons, List.append_assoc]
            rfl

/-- The text of some rounds, behind what was said before: a piece that does not fit is left out. -/
def answerText (outSz : Int) : List Round → List U8 → List U8
  | [], out => out
  | r :: rounds, out =>
    if r.isEog then out
    else
      match r.piece with
      | none => out
      | some piece =>
        let out := if out.length + piece.length < outSz - 1 then out ++ piece else out
        if r.code ≠ 0 then out else answerText outSz rounds out

/-- The text does not depend on the state. -/
theorem thinkLoop_text {outSz : Int} : ∀ {rounds : List Round} {out out' : List U8} {s s' : LlmState},
    thinkLoop outSz rounds out s = some (out', s') → out' = answerText outSz rounds out := by
  intro rounds
  induction rounds with
  | nil =>
    intro out out' s s' h
    cases h
    rfl
  | cons r rounds ih =>
    intro out out' s s' h
    rw [thinkLoop] at h
    rw [answerText]
    by_cases heog : r.isEog = true
    · rw [if_pos heog] at h ⊢
      cases h
      rfl
    · rw [if_neg heog] at h ⊢
      cases hpiece : r.piece with
      | none =>
        rw [hpiece] at h
        cases h
        rfl
      | some piece =>
        rw [hpiece] at h
        dsimp only at h ⊢
        cases happend : appendToken r.token s with
        | none =>
          rw [happend] at h
          cases h
        | some t =>
          rw [happend, Option.bind_eq_bind, Option.bind_some] at h
          by_cases hcode : r.code ≠ 0
          · rw [if_pos hcode] at h ⊢
            cases h
            rfl
          · rw [if_neg hcode] at h ⊢
            exact ih h

theorem answerText_length {outSz : Int} : ∀ (rounds : List Round) {out : List U8}, out.length < outSz →
    (answerText outSz rounds out).length < outSz := by
  intro rounds
  induction rounds with
  | nil => intro out h; exact h
  | cons r rounds ih =>
    intro out h
    rw [answerText]
    split
    · exact h
    · split
      · exact h
      · next piece _ =>
        have hnext : ((if out.length + piece.length < outSz - 1 then out ++ piece else out).length :
            Int) < outSz := by
          split
          · rw [List.length_append]
            omega
          · exact h
        dsimp only
        split
        · exact hnext
        · exact ih hnext

/-! ### One call -/

def fed (text : Option CString) (tokenized : Option NewTokens) (s : LlmState) : Option NewTokens :=
  if s.ready = false ∨ text.isNone then none else tokenized

def said (maxTokens : Int) (rounds : Nat → Round) (s : LlmState) : List Round :=
  if s.ready = false ∨ s.contextLen = 0 then [] else spoken (roundsOf maxTokens rounds)

/-- **A feed** that gets no tokens does nothing. -/
theorem llmStep_feed {s : LlmState} (h : s.Within) (text : Option CString) (tokenized : Option NewTokens)
    (recode code : Int) :
    (fed text tokenized s = none ∧ llmStep (some s) (.feed text tokenized recode code) = some s) ∨
    ∃ new s', fed text tokenized s = some new ∧
      llmStep (some s) (.feed text tokenized recode code) = some s' ∧ s'.Within ∧ s'.ready = s.ready ∧
      s'.context = keptTokens new.tokens.length s ++ new.tokens ∧
      s'.kvCache = llamaDecode code new.tokens (keptCache new.tokens.length recode s) := by
  rw [fed, llmStep, Option.bind_some]
  by_cases hcond : s.ready = false ∨ text.isNone
  · unfold llmFeed
    rw [if_pos hcond, if_pos hcond]
    exact .inl ⟨rfl, rfl⟩
  · rw [if_neg hcond]
    have hready : s.ready = true := by
      cases hr : s.ready with
      | true => rfl
      | false => exact absurd (.inl hr) hcond
    have htext : text ≠ none := fun hnone => hcond (.inr (by rw [hnone]; rfl))
    cases tokenized with
    | none =>
      unfold llmFeed
      rw [if_neg hcond]
      exact .inl ⟨rfl, rfl⟩
    | some new =>
      obtain ⟨s', hs', hrest⟩ := llmFeed_spec h hready htext new recode code
      exact .inr ⟨new, s', rfl, by rw [hs']; rfl, hrest⟩

/-- **A thought.** -/
theorem llmStep_think {s : LlmState} (h : s.Within) (outSz maxTokens : Int) (rounds : Nat → Round) :
    ∃ s', llmStep (some s) (.think outSz maxTokens rounds) = some s' ∧ s'.Within ∧ s'.ready = s.ready ∧
      s'.context = s.context ++ (tokensOf (said maxTokens rounds s)).take s.room ∧
      s'.kvCache = s.kvCache ++ tokensOf (decoded (said maxTokens rounds s)) := by
  rw [said, llmStep, Option.bind_some, llmThink]
  by_cases hcond : s.ready = false ∨ s.contextLen = 0
  · rw [if_pos hcond, if_pos hcond]
    exact ⟨s, rfl, h, rfl, by rw [tokensOf]; simp, (List.append_nil _).symm⟩
  · rw [if_neg hcond, if_neg hcond]
    obtain ⟨out, s', hs', hrest⟩ := thinkLoop_spec outSz (roundsOf maxTokens rounds) [] h
    exact ⟨s', by rw [hs']; rfl, hrest⟩

theorem llmStep_within {s : LlmState} (h : s.Within) (op : LlmOp) :
    ∃ s', llmStep (some s) op = some s' ∧ s'.Within ∧ s'.ready = s.ready := by
  cases op with
  | feed text tokenized recode code =>
    rcases llmStep_feed h text tokenized recode code with ⟨_, hs'⟩ | ⟨_, s', _, hs', hwithin, hready, _⟩
    · exact ⟨s, hs', h, rfl⟩
    · exact ⟨s', hs', hwithin, hready⟩
  | think outSz maxTokens rounds =>
    obtain ⟨s', hs', hwithin, hready, _⟩ := llmStep_think h outSz maxTokens rounds
    exact ⟨s', hs', hwithin, hready⟩

theorem within_start (ready : Bool) : (LlmState.start ready).Within := by
  refine ⟨Int.le_refl 0, ?_⟩
  show (0 : Int) < ctxSize
  rw [ctxSize_eq]
  decide

theorem llm_run_within {allowed : Option LlmState → LlmOp → Prop} (ops : List LlmOp) {s : LlmState}
    (h : s.Within) :
    ∃ t, (llmMachine allowed).run (some s) ops = some t ∧ t.Within ∧ t.ready = s.ready := by
  refine Machine.run_keeps (I := fun o => ∃ t, o = some t ∧ t.Within ∧ t.ready = s.ready) ?_ ops
    ⟨s, rfl, h, rfl⟩
  rintro _ op ⟨t, rfl, hwithin, hready⟩
  obtain ⟨t', ht', hwithin', hready'⟩ := llmStep_within hwithin op
  exact ⟨t', ht', hwithin', hready'.trans hready⟩

/-- **The bounds of the context window.**  Whatever the texts, the limits and the results of
the model, no call leaves `context_tokens`, the length stays below `CTX_SIZE`, and a feed
that gets tokens drops no negative number of them and keeps the old context or its last 3072
tokens, with the new ones behind. -/
theorem context_window (ready : Bool) (ops : List LlmOp) :
    ∃ s, (llmMachine AnyOp).run (some (LlmState.start ready)) ops = some s ∧
      0 ≤ s.contextLen ∧ s.contextLen < 4096 ∧
      ∀ text new recode code, s.ready = true → text ≠ none →
        (s.contextLen + new.tokens.length > 4096 - 128 → 0 ≤ s.contextLen - 4096 * 3 / 4) ∧
        ∃ s', llmFeed text (some new) recode code s = some (code, s') ∧
          (s'.context = s.context ++ new.tokens ∨ 3072 ≤ s.context.length ∧
            s'.context = s.context.drop (s.context.length - 3072) ++ new.tokens) := by
  obtain ⟨s, hs, h, _⟩ := @llm_run_within AnyOp ops _ (within_start ready)
  have hlt := h.lt
  rw [ctxSize_eq] at hlt
  refine ⟨s, hs, h.nonneg, hlt, fun text new recode code hready htext => ?_⟩
  have hn := new.le
  have hlen := h.length_context
  refine ⟨fun hfull => by omega, ?_⟩
  obtain ⟨s', hs', _, _, hcontext, _⟩ := llmFeed_spec h hready htext new recode code
  refine ⟨s', hs', ?_⟩
  rw [hcontext, keptTokens]
  split
  · refine .inr ⟨by omega, ?_⟩
    rw [show (s.contextLen - 3072).toNat = s.context.length - 3072 by omega]
  · exact .inl rfl

end AionOs
