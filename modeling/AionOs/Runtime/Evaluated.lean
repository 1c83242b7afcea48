import AionOs.Runtime.Llm

/-!
# What the model has evaluated

The context and the sequence in the cache of the model are written by separate statements,
and only the last of the two decodes of a feed is looked at.

* `KeepsStep`: what a call must not meet.
* `evaluated_iff`: both sequences agree after every call of a run exactly if no call of it
  meets that.
-/

namespace AionOs

/-- The model has evaluated exactly the context. -/
def InStep (s : LlmState) : Prop := s.kvCache = s.context

/-- No batch of a feed is refused that is not empty.  A thought ends in the context, and all
of it is decoded; or its last token is the first one that has no room, and is refused. -/
def KeepsStep (s : LlmState) : LlmOp → Prop
  | .feed text tokenized recode code => ∀ new, fed text tokenized s = some new →
    (s.contextLen + new.tokens.length > 4096 - 128 → recode = 0) ∧ (new.tokens ≠ [] → code = 0)
  | .think _ maxTokens rounds =>
    (∀ r ∈ said maxTokens rounds s, r.code = 0) ∧
      s.contextLen + (said maxTokens rounds s).length ≤ 4096 - 1 ∨
    (∃ r ∈ said maxTokens rounds s, r.code ≠ 0) ∧
      s.contextLen + (said maxTokens rounds s).length = 4096

/-! ### A feed -/

theorem llamaDecode_eq_append_iff {code : Int} {batch cache : List LlamaToken} :
    llamaDecode code batch cache = cache ++ batch ↔ (batch ≠ [] → code = 0) := by
  unfold llamaDecode
  split
  · rename_i hcode
    exact ⟨fun _ _ => hcode, fun _ => rfl⟩
  · rename_i hcode
    constructor
    · intro h hbatch
      exact absurd (List.self_eq_append_right.mp h) hbatch
    · intro h
      have hnil : batch = [] := by_contra fun hbatch => hcode (h hbatch)
      rw [hnil, List.append_nil]

theorem keptCache_eq {n : Nat} {recode : Int} {s : LlmState} (hstep : InStep s)
    (hcode : s.contextLen + n > 3968 → recode = 0) : keptCache n recode s = keptTokens n s := by
  unfold keptCache
  split
  · rename_i hfull
    rw [llamaDecode, if_pos (hcode hfull), List.nil_append]
  · rename_i hroom
    rw [keptTokens, if_neg hroom]
    exact hstep

/-- If it is refused, at least 3072 tokens are missing. -/
theorem length_kvCache_lt {n : Nat} {recode code : Int} {s : LlmState} (h : s.Within) (hn : n ≤ 512)
    (hfull : s.contextLen + n > 3968) (hcode : recode ≠ 0) (new : List LlamaToken) :
    (llamaDecode code new (keptCache n recode s)).length < (keptTokens n s ++ new).length := by
  have hlt := h.lt
  have hlen := h.length_context
  rw [ctxSize_eq] at hlt
  have hkept : (keptTokens n s).length = 3072 := by
    rw [keptTokens, if_pos hfull, List.length_drop]
    omega
  have hcache : keptCache n recode s = [] := by
    rw [keptCache, if_pos hfull, llamaDecode, if_neg hcode]
  rw [hcache, List.length_append, hkept, llamaDecode]
  split
  · rw [List.nil_append]
    omega
  · rw [List.length_nil]
    omega

theorem step_inStep_iff {s t : LlmState} {op : LlmOp} (ht : llmStep (some s) op = some t) :
    (∃ t, llmStep (some s) op = some t ∧ InStep t) ↔ InStep t := by
  refine ⟨?_, fun hstep => ⟨t, ht, hstep⟩⟩
  rintro ⟨t', ht', hstep⟩
  obtain rfl : t = t' := Option.some.inj (ht.symm.trans ht')
  exact hstep

theorem feed_inStep_iff {s : LlmState} (h : s.Within) (hstep : InStep s) (text : Option CString)
    (tokenized : Option NewTokens) (recode code : Int) :
    (∃ t, llmStep (some s) (.feed text tokenized recode code) = some t ∧ InStep t) ↔
      KeepsStep s (.feed text tokenized recode code) := by
  rcases llmStep_feed h text tokenized recode code with
    ⟨hnone, hs⟩ | ⟨new, t, hnew, ht, _, _, hcontext, hcache⟩
  · refine ⟨fun _ new hnew => ?_, fun _ => ⟨s, hs, hstep⟩⟩
    rw [hnone] at hnew
    cases hnew
  · have hpost : (∃ t, llmStep (some s) (.feed text tokenized recode code) = some t ∧ InStep t) ↔
        llamaDecode code new.tokens (keptCache new.tokens.length recode s) =
          keptTokens new.tokens.length s ++ new.tokens := by
      rw [← hcontext, ← hcache]
      exact step_inStep_iff ht
    have hkeeps : KeepsStep s (.feed text tokenized recode code) ↔
        (s.contextLen + new.tokens.length > 3968 → recode = 0) ∧ (new.tokens ≠ [] → code = 0) := by
      refine ⟨fun hall => hall new hnew, fun hgood new' hnew' => ?_⟩
      obtain rfl : new = new' := Option.some.inj (hnew.symm.trans hnew')
      exact hgood
    rw [hpost, hkeeps]
    by_cases hre : s.contextLen + new.tokens.length > 3968 → recode = 0
    · rw [keptCache_eq hstep hre, llamaDecode_eq_append_iff, and_iff_right hre]
    · have hre' := hre
      rw [Classical.not_imp] at hre
      have hlt := @length_kvCache_lt _ recode code s h new.le hre.1 hre.2 new.tokens
      refine iff_of_false (fun heq => ?_) fun hall => hre' hall.1
      rw [heq] at hlt
      exact lt_irrefl _ hlt

/-! ### A thought -/

theorem decoded_spoken {rounds : List Round} (h : ∃ r ∈ spoken rounds, r.code ≠ 0) :
    decoded (spoken rounds) = (spoken rounds).dropLast := by
  induction rounds with
  | nil =>
    obtain ⟨_, hr, _⟩ := h
    cases hr
  | cons r rounds ih =>
    unfold spoken at h ⊢
    by_cases hend : r.isEog = true ∨ r.piece.isNone = true
    · rw [if_pos hend]
      rfl
    · rw [if_neg hend] at h ⊢
      by_cases hcode : r.code ≠ 0
      · rw [if_pos hcode]
        exact List.filter_cons_of_neg (by simpa using hcode)
      · rw [if_neg hcode] at h ⊢
        have hrest : ∃ r' ∈ spoken rounds, r'.code ≠ 0 := by
          obtain ⟨r', hr', hbad⟩ := h
          rcases List.mem_cons.mp hr' with rfl | hr'
          · exact absurd hbad hcode
          · exact ⟨r', hr', hbad⟩
        have hne : spoken rounds ≠ [] := by
          obtain ⟨r', hr', _⟩ := hrest
          exact List.ne_nil_of_mem hr'
        have hcons : decoded (r :: spoken rounds) = r :: decoded (spoken rounds) :=
          List.filter_cons_of_pos (by simpa using hcode)
        rw [hcons, ih hrest, List.dropLast_cons_of_ne_nil hne]

theorem decoded_said {maxTokens : Int} {rounds : Nat → Round} {s : LlmState}
    (h : ∃ r ∈ said maxTokens rounds s, r.code ≠ 0) :
    decoded (said maxTokens rounds s) = (said maxTokens rounds s).dropLast := by
  unfold said at h ⊢
  split at h
  · obtain ⟨_, hr, _⟩ := h
    cases hr
  · rename_i hready
    rw [if_neg hready]
    exact decoded_spoken h

theorem take_eq_dropLast_iff {α : Type} {l : List α} {n : Nat} (h : l ≠ []) :
    l.take n = l.dropLast ↔ l.length = n + 1 := by
  have hpos := List.length_pos_iff.mpr h
  rw [List.dropLast_eq_take]
  constructor
  · intro heq
    have hlen := congrArg List.length heq
    rw [List.length_take, List.length_take] at hlen
    omega
  · intro hlen
    rw [hlen, Nat.add_sub_cancel]

theorem think_inStep_iff {s : LlmState} (h : s.Within) (hstep : InStep s) (outSz maxTokens : Int)
    (rounds : Nat → Round) :
    (∃ t, llmStep (some s) (.think outSz maxTokens rounds) = some t ∧ InStep t) ↔
      KeepsStep s (.think outSz maxTokens rounds) := by
  obtain ⟨t, ht, _, _, hcontext, hcache⟩ := llmStep_think h outSz maxTokens rounds
  have hnonneg := h.nonneg
  have hlt := h.lt
  rw [ctxSize_eq] at hlt
  have hpost : (∃ t, llmStep (some s) (.think outSz maxTokens rounds) = some t ∧ InStep t) ↔
      (tokensOf (said maxTokens rounds s)).take s.room = tokensOf (decoded (said maxTokens rounds s)) := by
    rw [step_inStep_iff ht, InStep, hcontext, hcache, hstep, List.append_cancel_left_eq, eq_comm]
  rw [hpost, KeepsStep]
  by_cases hcode : ∀ r ∈ said maxTokens rounds s, r.code = 0
  · have hnone : ¬ ∃ r ∈ said maxTokens rounds s, r.code ≠ 0 := fun ⟨r, hr, hbad⟩ => hbad (hcode r hr)
    rw [decoded_eq_self hcode, List.take_eq_self_iff, tokensOf, List.length_map, LlmState.room]
    constructor
    · intro hroom
      exact .inl ⟨hcode, by omega⟩
    · rintro (⟨_, hroom⟩ | ⟨hbad, _⟩)
      · omega
      · exact absurd hbad hnone
  · have hbad : ∃ r ∈ said maxTokens rounds s, r.code ≠ 0 := by
      by_contra hnone
      exact hcode fun r hr => by_contra fun hbad => hnone ⟨r, hr, hbad⟩
    have hne : tokensOf (said maxTokens rounds s) ≠ [] := by
      obtain ⟨r, hr, _⟩ := hbad
      exact List.ne_nil_of_mem (List.mem_map_of_mem hr)
    have hlast : tokensOf (said maxTokens rounds s).dropLast =
        (tokensOf (said maxTokens rounds s)).dropLast := by
      rw [tokensOf, List.map_dropLast, tokensOf]
    rw [decoded_said hbad, hlast, take_eq_dropLast_iff hne, tokensOf, List.length_map, LlmState.room]
    constructor
    · intro hroom
      exact .inr ⟨hbad, by omega⟩
    · rintro (⟨hgood, _⟩ | ⟨_, hroom⟩)
      · exact absurd hgood hcode
      · omega

theorem inStep_iff {s : LlmState} (h : s.Within) (hstep : InStep s) (op : LlmOp) :
    (∃ t, llmStep (some s) op = some t ∧ InStep t) ↔ KeepsStep s op := by
  cases op with
  | feed text tokenized recode code => exact feed_inStep_iff h hstep text tokenized recode code
  | think outSz maxTokens rounds => exact think_inStep_iff h hstep outSz maxTokens rounds

theorem inStep_start (ready : Bool) : InStep (LlmState.start ready) := by
  unfold InStep LlmState.context
  rfl

/-! ### Runs -/

/-- **The evaluated context.**  In a run of feeds and thoughts the model has evaluated exactly
the recorded context after every call if and only if every call keeps step. -/
theorem evaluated_iff (ready : Bool) (ops : List LlmOp) :
    (∀ pre op, pre ++ [op] <+: ops → ∃ t,
      (llmMachine AnyOp).run (some (LlmState.start ready)) (pre ++ [op]) = some t ∧ InStep t) ↔
    ∀ pre op, pre ++ [op] <+: ops → ∃ s,
      (llmMachine AnyOp).run (some (LlmState.start ready)) pre = some s ∧ KeepsStep s op := by
  have hall := Machine.forall_steps_iff (M := llmMachine AnyOp)
    (I := fun o => ∃ s, o = some s ∧ s.Within ∧ InStep s)
    (P := fun o op => ∃ t, llmStep o op = some t ∧ InStep t)
    (Q := fun o op => ∃ s, o = some s ∧ KeepsStep s op)
    (by
      rintro _ op ⟨s, rfl, hwithin, hstep⟩ _
      rw [inStep_iff hwithin hstep]
      refine ⟨fun h => ⟨s, rfl, h⟩, ?_⟩
      rintro ⟨s', hs', h⟩
      obtain rfl : s = s' := Option.some.inj hs'
      exact h)
    (by
      rintro _ op ⟨s, rfl, hwithin, hstep⟩ _ ⟨s', hs', hkeeps⟩
      obtain rfl : s = s' := Option.some.inj hs'
      obtain ⟨t, ht, hin⟩ := (inStep_iff hwithin hstep op).mpr hkeeps
      obtain ⟨t', ht', htwithin, _⟩ := llmStep_within hwithin op
      obtain rfl : t = t' := Option.some.inj (ht.symm.trans ht')
      exact ⟨t, ht, htwithin, hin⟩)
    ops (some (LlmState.start ready))
    ⟨LlmState.start ready, rfl, within_start ready, inStep_start ready⟩
    (Machine.legal_of_forall _ (fun _ _ => trivial) ops _)
  refine Iff.trans ?_ hall
  refine forall_congr' fun pre => forall_congr' fun op => imp_congr_right fun _ => ?_
  rw [Machine.run_concat]
  rfl

/-! ### Eight full feeds -/

def fullBatch : NewTokens := ⟨List.replicate 512 0, List.length_replicate.le⟩

/-- A batch of 512 tokens is decoded and a longer one is not. -/
def fullFeed : LlmOp := .feed (some CString.empty) (some fullBatch) 1 0

theorem fed_fullBatch {s : LlmState} (hready : s.ready = true) :
    fed (some CString.empty) (some fullBatch) s = some fullBatch :=
  if_neg (by simp [hready])

theorem length_fullBatch : fullBatch.tokens.length = 512 := List.length_replicate

theorem fullFeeds_spec : ∀ n ≤ 7, ∃ s,
    (llmMachine AnyOp).run (some (LlmState.start true)) (List.replicate n fullFeed) = some s ∧
      s.Within ∧ s.ready = true ∧ s.contextLen = 512 * n ∧ InStep s := by
  intro n
  induction n with
  | zero => intro _; exact ⟨LlmState.start true, rfl, within_start true, rfl, rfl, inStep_start true⟩
  | succ n ih =>
    intro hn
    obtain ⟨s, hs, hwithin, hready, hlen, hstep⟩ := ih (by omega)
    have hfed := fed_fullBatch hready
    have hfew := length_fullBatch
    have hkeeps : KeepsStep s fullFeed := by
      intro new hnew
      obtain rfl : fullBatch = new := Option.some.inj (hfed.symm.trans hnew)
      exact ⟨fun hfull => by omega, fun _ => rfl⟩
    obtain ⟨t, ht, hin⟩ := (inStep_iff hwithin hstep fullFeed).mpr hkeeps
    refine ⟨t, ?_, ?_⟩
    · rw [List.replicate_succ', Machine.run_concat, hs]
      exact ht
    · rcases llmStep_feed hwithin (some CString.empty) (some fullBatch) 1 0 with
        ⟨hnone, _⟩ | ⟨new, t', hnew, ht', htwithin, htready, hcontext, _⟩
      · rw [hfed] at hnone
        cases hnone
      · obtain rfl : fullBatch = new := Option.some.inj (hfed.symm.trans hnew)
        obtain rfl : t = t' := Option.some.inj (ht.symm.trans ht')
        have hlent := htwithin.length_context
        have hlens := hwithin.length_context
        rw [hcontext, keptTokens, if_neg (by omega), List.length_append, hfew] at hlent
        exact ⟨htwithin, htready.trans hready, by omega, hin⟩

/-- The compressed context of the eighth feed is longer than a batch. -/
theorem eighth_feed_out_of_step : ¬ ∀ pre op, pre ++ [op] <+: List.replicate 8 fullFeed → ∃ t,
    (llmMachine AnyOp).run (some (LlmState.start true)) (pre ++ [op]) = some t ∧ InStep t := by
  intro hall
  obtain ⟨s, hs, hwithin, hready, hlen, hstep⟩ := fullFeeds_spec 7 (Nat.le_refl 7)
  have height : List.replicate 7 fullFeed ++ [fullFeed] = List.replicate 8 fullFeed := List.replicate_succ'.symm
  obtain ⟨t, ht, hin⟩ := hall (List.replicate 7 fullFeed) fullFeed (by rw [height])
  rw [Machine.run_concat, hs] at ht
  have hkeeps := (inStep_iff hwithin hstep fullFeed).mp ⟨t, ht, hin⟩
  have hfew := length_fullBatch
  exact absurd ((hkeeps fullBatch (fed_fullBatch hready)).1 (by omega)) (by decide)

end AionOs
