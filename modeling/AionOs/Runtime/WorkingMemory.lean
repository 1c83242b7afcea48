import AionOs.Runtime.Llm

/-!
# What the working memory forgets

A feed compresses the context before it is full; a thought goes on to speak when it is, and
then the tokens are evaluated but not recorded.

* `LlmOp.taken`: the tokens that a call takes in.
* `forgets_oldest`: as long as every answer fits, the context is the end of all tokens that
  were taken in.
-/

namespace AionOs

/-! ### All tokens -/

/-- The tokens that a call takes in: those of the text, or those that were generated and
decoded. -/
def LlmOp.taken (s : LlmState) : LlmOp → List LlamaToken
  | .feed text tokenized _ _ => (fed text tokenized s).elim [] NewTokens.tokens
  | .think _ maxTokens rounds => tokensOf (decoded (said maxTokens rounds s))

/-- The model with all the tokens that were taken in. -/
structure LlmLife where
  llm : Option LlmState
  taken : List LlamaToken

def LlmLife.step (s : LlmLife) (op : LlmOp) : LlmLife where
  llm := llmStep s.llm op
  taken := s.taken ++ s.llm.elim [] fun t => op.taken t

def LlmLife.start (ready : Bool) : LlmLife := ⟨some (LlmState.start ready), []⟩

/-- A call of `consciousness_run` in which every `llama_decode` succeeds. -/
def Decodes : LlmOp → Prop
  | .feed _ _ recode code => recode = 0 ∧ code = 0
  | .think outSz maxTokens rounds => outSz = 4096 ∧ maxTokens = 256 ∧ ∀ i, (rounds i).code = 0

def AnswerFits (s : LlmLife) : LlmOp → Prop
  | .feed _ _ _ _ => True
  | .think _ maxTokens rounds => ∀ t, s.llm = some t →
    t.contextLen + (said maxTokens rounds t).length < ctxSize

def lifeMachine (allowed : LlmLife → LlmOp → Prop) : Machine LlmLife LlmOp :=
  ⟨LlmLife.step, fun s op => Decodes op ∧ allowed s op⟩

/-! ### The end of all tokens -/

/-- The context is the end of all tokens. -/
structure Remembers (s : LlmLife) (t : LlmState) : Prop where
  within : t.Within
  suffix : t.context <:+ s.taken

theorem spoken_subset : ∀ (rounds : List Round), spoken rounds ⊆ rounds := by
  intro rounds
  induction rounds with
  | nil => exact List.Subset.refl _
  | cons r rounds ih =>
    rw [spoken]
    split
    · exact List.nil_subset _
    · split
      · exact List.cons_subset_cons r (List.nil_subset _)
      · exact List.cons_subset_cons r ih

theorem said_code {maxTokens : Int} {rounds : Nat → Round} (h : ∀ i, (rounds i).code = 0) (s : LlmState) :
    ∀ r ∈ said maxTokens rounds s, r.code = 0 := by
  intro r hr
  rw [said] at hr
  split at hr
  · cases hr
  · obtain ⟨i, _, rfl⟩ := List.mem_map.mp (spoken_subset _ hr)
    exact h i

theorem keptTokens_suffix (n : Nat) (s : LlmState) : keptTokens n s <:+ s.context := by
  rw [keptTokens]
  split
  · exact List.drop_suffix _ _
  · exact List.suffix_rfl

theorem suffix_append_right {α : Type} {l m : List α} (h : l <:+ m) (r : List α) : l ++ r <:+ m ++ r := by
  obtain ⟨pre, rfl⟩ := h
  exact ⟨pre, (List.append_assoc _ _ _).symm⟩

/-- **One call** whose answer fits forgets only the oldest tokens. -/
theorem remembers_step {s : LlmLife} {t : LlmState} {op : LlmOp} (hs : s.llm = some t)
    (h : Remembers s t) (hl : (lifeMachine AnswerFits).legal s op) :
    ∃ t', (s.step op).llm = some t' ∧ Remembers (s.step op) t' := by
  obtain ⟨hdecodes, hfits⟩ := hl
  have htaken : (s.step op).taken = s.taken ++ op.taken t := by
    show s.taken ++ s.llm.elim [] _ = _
    rw [hs]
    rfl
  have hstep : (s.step op).llm = llmStep (some t) op := by
    show llmStep s.llm op = _
    rw [hs]
  cases op with
  | feed text tokenized recode code =>
    rcases llmStep_feed h.within text tokenized recode code with
      ⟨hnone, hsame⟩ | ⟨new, t', hfed, ht', hwithin, _, hcontext, _⟩
    · have hnil : (LlmOp.feed text tokenized recode code).taken t = [] := by
        rw [LlmOp.taken, hnone]
        rfl
      refine ⟨t, hstep.trans hsame, h.within, ?_⟩
      rw [htaken, hnil, List.append_nil]
      exact h.suffix
    · have hnew : (LlmOp.feed text tokenized recode code).taken t = new.tokens := by
        rw [LlmOp.taken, hfed]
        rfl
      refine ⟨t', hstep.trans ht', hwithin, ?_⟩
      rw [htaken, hnew, hcontext]
      exact suffix_append_right ((keptTokens_suffix _ t).trans h.suffix) _
  | think outSz maxTokens rounds =>
    obtain ⟨t', ht', hwithin, _, hcontext, _⟩ := llmStep_think h.within outSz maxTokens rounds
    have hcode := @said_code maxTokens rounds hdecodes.2.2 t
    have hroom := hfits t hs
    rw [ctxSize_eq] at hroom
    have htake : (tokensOf (said maxTokens rounds t)).take t.room = tokensOf (said maxTokens rounds t) := by
      refine List.take_of_length_le ?_
      rw [tokensOf, List.length_map, LlmState.room]
      omega
    refine ⟨t', hstep.trans ht', hwithin, ?_⟩
    rw [htaken, LlmOp.taken, decoded_eq_self hcode, hcontext, htake]
    exact suffix_append_right h.suffix _

/-- **Only the oldest is forgotten.**  In every run in which every answer fits, the context
is the end of all tokens that were taken in. -/
theorem forgets_oldest (ready : Bool) (ops : List LlmOp)
    (hl : (lifeMachine AnswerFits).Legal (LlmLife.start ready) ops) :
    ∃ t, ((lifeMachine AnswerFits).run (LlmLife.start ready) ops).llm = some t ∧
      t.context <:+ ((lifeMachine AnswerFits).run (LlmLife.start ready) ops).taken := by
  have hinv := Machine.run_invariant (M := lifeMachine AnswerFits)
    (I := fun s => ∃ t, s.llm = some t ∧ Remembers s t)
    (fun s op ⟨t, hs, h⟩ hop => remembers_step hs h hop) ops (LlmLife.start ready)
    ⟨LlmState.start ready, rfl, within_start ready, by
      rw [LlmState.context]
      exact List.nil_suffix⟩ hl
  obtain ⟨t, ht, h⟩ := hinv
  exact ⟨t, ht, h.suffix⟩

/-! ### Sixteen ticks -/

def oneToken : NewTokens := ⟨[0], by decide⟩

def tickFeed : LlmOp := .feed (some CString.empty) (some oneToken) 0 0

/-- The model speaks to the end, and numbers its tokens. -/
def tickRound (i : Nat) : Round := ⟨BitVec.ofNat 32 i, false, some [], 0⟩

def tickThink : LlmOp := .think 4096 256 tickRound

/-- Ticks that take in one token and speak 256. -/
def ticks (n : Nat) : List LlmOp := (List.replicate n [tickFeed, tickThink]).flatten

theorem spoken_eq_self : ∀ {rounds : List Round},
    (∀ r ∈ rounds, r.isEog = false ∧ r.piece ≠ none ∧ r.code = 0) → spoken rounds = rounds := by
  intro rounds
  induction rounds with
  | nil => intro _; rfl
  | cons r rounds ih =>
    intro h
    obtain ⟨heog, hpiece, hcode⟩ := h r List.mem_cons_self
    have hlive : ¬ (r.isEog = true ∨ r.piece.isNone = true) := by simp [heog, hpiece]
    rw [spoken, if_neg hlive, if_neg (not_not.mpr hcode), ih fun r' hr' => h r' (List.mem_cons_of_mem r hr')]

theorem said_tick {s : LlmState} (hready : s.ready = true) (hlen : s.contextLen ≠ 0) :
    said 256 tickRound s = roundsOf 256 tickRound := by
  have hcond : ¬ (s.ready = false ∨ s.contextLen = 0) := by simp [hready, hlen]
  rw [said, if_neg hcond]
  apply spoken_eq_self
  intro r hr
  obtain ⟨i, _, rfl⟩ := List.mem_map.mp hr
  exact ⟨rfl, Option.some_ne_none _, rfl⟩

def tickTokens : List LlamaToken := (List.range 256).map (BitVec.ofNat 32)

theorem tokensOf_tick : tokensOf (roundsOf 256 tickRound) = tickTokens := by
  rw [tokensOf, roundsOf, List.map_map]
  rfl

theorem tickFeed_spec {s : LlmState} (h : s.Within) (hready : s.ready = true) (hlen : s.contextLen < 3968) :
    ∃ s', llmStep (some s) tickFeed = some s' ∧ s'.Within ∧ s'.ready = true ∧
      s'.contextLen = s.contextLen + 1 := by
  have hfed : fed (some CString.empty) (some oneToken) s = some oneToken := by
    rw [fed, if_neg (by simp [hready])]
  rcases llmStep_feed h (some CString.empty) (some oneToken) 0 0 with
    ⟨hnone, _⟩ | ⟨new, s', hnew, hs', hwithin, hrdy, hcontext, _⟩
  · rw [hfed] at hnone
    cases hnone
  · rw [hfed] at hnew
    cases hnew
    have hkept : keptTokens oneToken.tokens.length s = s.context :=
      if_neg (by show ¬ s.contextLen + 1 > 3968; omega)
    have hlen' := congrArg List.length hcontext
    rw [hkept, List.length_append] at hlen'
    have h1 := h.length_context
    have h2 := hwithin.length_context
    have hone : oneToken.tokens.length = 1 := rfl
    exact ⟨s', hs', hwithin, hrdy.trans hready, by omega⟩

theorem tickThink_spec {s : LlmState} (h : s.Within) (hready : s.ready = true) (hlen : 0 < s.contextLen) :
    ∃ s', llmStep (some s) tickThink = some s' ∧ s'.Within ∧ s'.ready = true ∧
      s'.context = s.context ++ tickTokens.take s.room ∧ tickThink.taken s = tickTokens := by
  have hsaid := said_tick hready (by omega)
  obtain ⟨s', hs', hwithin, hrdy, hcontext, _⟩ := llmStep_think h 4096 256 tickRound
  rw [hsaid, tokensOf_tick] at hcontext
  refine ⟨s', hs', hwithin, hrdy.trans hready, hcontext, ?_⟩
  rw [tickThink, LlmOp.taken, decoded_eq_self (said_code (fun _ => rfl) s), hsaid, tokensOf_tick]

theorem length_tickTokens : tickTokens.length = 256 := by
  rw [tickTokens, List.length_map, List.length_range]

/-- **The first 15 ticks** fit. -/
theorem ticks_spec : ∀ n ≤ 15, ∃ s, ((lifeMachine AnswerFits).run (LlmLife.start true) (ticks n)).llm = some s ∧
    s.Within ∧ s.ready = true ∧ s.contextLen = 257 * n ∧
      (lifeMachine AnswerFits).Legal (LlmLife.start true) (ticks n) := by
  intro n
  induction n with
  | zero => intro _; exact ⟨LlmState.start true, rfl, within_start true, rfl, rfl, trivial⟩
  | succ n ih =>
    intro hn
    obtain ⟨s, hs, hwithin, hready, hlen, hl⟩ := ih (by omega)
    obtain ⟨t, ht, htwithin, htready, htlen⟩ := tickFeed_spec hwithin hready (by omega)
    obtain ⟨u, hu, huwithin, huready, hucontext, _⟩ := tickThink_spec htwithin htready (by omega)
    have hticks : ticks (n + 1) = ticks n ++ [tickFeed, tickThink] := by
      rw [ticks, List.replicate_succ', List.flatten_concat, ticks]
    have hlenu : u.contextLen = 257 * (n + 1 : Nat) := by
      have h1 := htwithin.length_context
      have h2 := huwithin.length_context
      rw [hucontext, List.length_append, List.length_take, length_tickTokens, LlmState.room] at h2
      omega
    rw [hticks, Machine.run_append, Machine.legal_append]
    generalize (lifeMachine AnswerFits).run (LlmLife.start true) (ticks n) = life at hs
    have hfeed : (life.step tickFeed).llm = some t := by
      show llmStep life.llm tickFeed = _
      rw [hs, ht]
    refine ⟨u, ?_, huwithin, huready, hlenu, hl, ⟨⟨rfl, rfl⟩, trivial⟩, ⟨⟨rfl, rfl, fun _ => rfl⟩, ?_⟩, trivial⟩
    · show llmStep (life.step tickFeed).llm tickThink = _
      rw [hfeed, hu]
    · intro t' ht'
      obtain rfl : t = t' := Option.some.inj (hfeed.symm.trans ht')
      rw [said_tick htready (by omega), roundsOf, List.length_map, List.length_range, ctxSize_eq]
      show t.contextLen + (256 : Nat) < (4096 : Nat)
      omega

theorem forgets_oldest_sample :
    ∃ t, ((lifeMachine AnswerFits).run (LlmLife.start true) (ticks 15)).llm = some t ∧
      t.context <:+ ((lifeMachine AnswerFits).run (LlmLife.start true) (ticks 15)).taken := by
  obtain ⟨_, _, _, _, _, hl⟩ := ticks_spec 15 (Nat.le_refl 15)
  exact forgets_oldest true (ticks 15) hl

theorem getLast?_take_tickTokens {n : Nat} (h0 : 0 < n) (h : n ≤ 256) :
    (tickTokens.take n).getLast? = some (BitVec.ofNat 32 (n - 1)) := by
  obtain ⟨k, rfl⟩ := Nat.exists_eq_add_of_lt h0
  rw [tickTokens, ← List.map_take, List.take_range, Nat.min_eq_left h, List.getLast?_map,
    List.range_succ, List.getLast?_concat, Option.map_some]
  rfl

/-- A tick after the first 15: the answer has 256 tokens and the context takes 239 of them. -/
theorem forgets_newest :
    let s := (lifeMachine fun _ _ => True).run (LlmLife.start true) (ticks 16)
    (lifeMachine fun _ _ => True).Legal (LlmLife.start true) (ticks 16) ∧
      ∃ t, s.llm = some t ∧ ¬ t.context <:+ s.taken := by
  obtain ⟨s, hs, hwithin, hready, hlen, hl⟩ := ticks_spec 15 (Nat.le_refl 15)
  obtain ⟨t, ht, htwithin, htready, htlen⟩ := tickFeed_spec hwithin hready (by omega)
  obtain ⟨u, hu, _, _, hucontext, htaken⟩ := tickThink_spec htwithin htready (by omega)
  have hticks : ticks 16 = ticks 15 ++ [tickFeed, tickThink] := by
    rw [ticks, List.replicate_succ', List.flatten_concat, ticks]
  have hsame : (lifeMachine fun _ _ => True).step = (lifeMachine AnswerFits).step := rfl
  have hlax := Machine.Legal.weaken (M := lifeMachine AnswerFits) (N := lifeMachine fun _ _ => True)
    (I := fun _ => True) hsame (fun _ _ _ _ => trivial) (fun _ _ _ hop => ⟨hop.1, trivial⟩)
    (ticks 15) (LlmLife.start true) trivial hl
  rw [hticks, Machine.run_append, Machine.legal_append,
    Machine.run_congr (M := lifeMachine AnswerFits) hsame (ticks 15)]
  generalize (lifeMachine AnswerFits).run (LlmLife.start true) (ticks 15) = life at hs
  have hfeed : (life.step tickFeed).llm = some t := by
    show llmStep life.llm tickFeed = _
    rw [hs, ht]
  refine ⟨⟨hlax, ⟨⟨rfl, rfl⟩, trivial⟩, ⟨⟨rfl, rfl, fun _ => rfl⟩, trivial⟩, trivial⟩, u, ?_, ?_⟩
  · show llmStep (life.step tickFeed).llm tickThink = _
    rw [hfeed, hu]
  · show ¬ u.context <:+ (life.step tickFeed).taken ++ (life.step tickFeed).llm.elim [] _
    rw [hfeed, hucontext]
    show ¬ t.context ++ tickTokens.take t.room <:+ (life.step tickFeed).taken ++ tickThink.taken t
    rw [htaken, show t.room = 239 by rw [LlmState.room]; omega]
    -- token 238 is the last one of the context, and token 255 the last one of all
    rintro ⟨before, hbefore⟩
    have hlast := congrArg List.getLast? hbefore
    have hall : tickTokens.take 256 = tickTokens := List.take_of_length_le length_tickTokens.le
    have h238 := @getLast?_take_tickTokens 239 (by decide) (by decide)
    have h255 := @getLast?_take_tickTokens 256 (by decide) (by decide)
    rw [hall] at h255
    rw [List.getLast?_append, List.getLast?_append, h238, List.getLast?_append, h255] at hlast
    exact absurd (Option.some.inj hlast) (by decide)

end AionOs
