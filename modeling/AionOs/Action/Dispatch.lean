import AionOs.Action.Parse

/-!
# Dispatch by name

The table is searched for the first entry whose name the text starts with.

* `NameAt.prefix_iff`: the names that match a text are those that its own name starts with.
* `matchAt_least`: the entry that is called.
* `tryActions_head`, `mem_calls_at`: all that can happen at a `<`, and where a call comes from.
* `dispatch_exact_iff`: when it is the one of exactly that name, and which entries can be
  called at all.
-/

namespace AionOs

open Bytes CText

/-! ### The table -/

theorem actions_names : ∀ a ∈ actions, charByte ' ' ∉ a.name ∧ charByte '>' ∉ a.name ∧
    charByte '<' ∉ a.name ∧ a.name.length < 2048 := by decide +kernel

theorem actions_inj : ∀ a ∈ actions, ∀ b ∈ actions, a.name = b.name ∨ a.handler = b.handler → a = b := by
  decide +kernel

theorem actions_pairwise : actions.Pairwise fun a b => ¬ b.name <+: a.name := by decide +kernel

/-- The entry whose handler is called for a text behind a `<`. -/
def matchAt (text : List U8) : Option ActionDef := actions.find? fun a => a.name.isPrefixOf text

theorem tryActions_matchAt (text : List U8) : tryActions (charByte '<' :: text) actions =
    (matchAt text).elim .passed fun a => callHandler (charByte '<' :: text) a.handler :=
  tryActions_eq _ _

theorem matchAt_mem {text : List U8} {a : ActionDef} (h : matchAt text = some a) :
    a ∈ actions ∧ a.name <+: text := by
  rw [matchAt] at h
  have hp := List.find?_some h
  exact ⟨List.mem_of_find?_eq_some h, List.isPrefixOf_iff_prefix.mp hp⟩

theorem matchAt_none {text : List U8} (h : matchAt text = none) {a : ActionDef} (ha : a ∈ actions) :
    ¬ a.name <+: text := by
  intro hp
  exact (List.find?_eq_none.mp h) a ha (List.isPrefixOf_iff_prefix.mpr hp)

/-- Any other entry that matches is further down, and its name is the longer one. -/
theorem matchAt_least {text : List U8} {a b : ActionDef} (h : matchAt text = some a) (hb : b ∈ actions)
    (hp : b.name <+: text) (hle : b.name <+: a.name) : b = a := by
  obtain ⟨_, as, bs, hsplit, has⟩ := List.find?_eq_some_iff_append.mp h
  have hpair := actions_pairwise
  rw [hsplit, List.pairwise_append, List.pairwise_cons] at hpair
  rw [hsplit, List.mem_append, List.mem_cons] at hb
  rcases hb with hb | rfl | hb
  · have := has b hb
    rw [List.isPrefixOf_iff_prefix.mpr hp] at this
    cases this
  · rfl
  · exact absurd hle (hpair.2.1.1 b hb)

theorem matchAt_name {a : ActionDef} (ha : a ∈ actions) (h : ∀ b ∈ actions, b.name <+: a.name → b = a)
    {c : U8} (hc : c = charByte ' ' ∨ c = charByte '>') (rest : List U8) :
    matchAt (a.name ++ c :: rest) = some a := by
  cases hm : matchAt (a.name ++ c :: rest) with
  | none => exact absurd (List.prefix_append _ _) (matchAt_none hm ha)
  | some b =>
    obtain ⟨hb, hp⟩ := matchAt_mem hm
    obtain ⟨hspace, hgt, _⟩ := actions_names b hb
    have hba : b.name <+: a.name := by
      rcases hc with rfl | rfl
      · exact (prefix_until hspace rest).mp hp
      · exact (prefix_until hgt rest).mp hp
    rw [h b hb hba]

/-! ### Names in a text -/

/-- The text from a `<` on goes on with `name`, up to a space or a `>`, and has a `>`. -/
def NameAt (text name : List U8) : Prop :=
  ∃ c rest, text = charByte '<' :: (name ++ c :: rest) ∧ (c = charByte ' ' ∨ c = charByte '>') ∧
    charByte ' ' ∉ name ∧ charByte '>' ∉ name ∧ charByte '>' ∈ c :: rest

def registered (name : List U8) : Option Handler :=
  (actions.find? fun a => a.name = name).map ActionDef.handler

/-- The handler of exactly this name is called, and none if there is none. -/
def DispatchExact (stop : Stop) (name : List U8) : Prop :=
  match registered name with
  | some h => ∃ token dist, stop.outcome = .executed h token dist
  | none => stop.outcome = .passed

def tokenSpan (text : List U8) : Nat := ((text.drop 1).takeWhile (· ≠ charByte '>')).length

theorem tokenSpan_closed {mid : List U8} (h : charByte '>' ∉ mid) (rest : List U8) :
    tokenSpan (closed mid rest) = mid.length := by
  have hmid : ∀ b ∈ mid, b ≠ charByte '>' := fun b hb hc => h (hc ▸ hb)
  rw [tokenSpan, closed, List.drop_one, List.tail_cons, List.takeWhile_append_of_pos (by simpa using hmid),
    List.takeWhile_cons_of_neg (by simp), List.append_nil]

theorem NameAt.exists_closed {text name : List U8} (h : NameAt text name) :
    ∃ mid rest, charByte '>' ∉ mid ∧ text = closed mid rest := by
  obtain ⟨c, rest, rfl, _, _, _, hgt⟩ := h
  obtain ⟨mid, rest', hmid, hs⟩ := exists_first (List.mem_append_right name hgt)
  exact ⟨mid, rest', hmid, congrArg _ hs⟩

theorem NameAt.prefix_iff {text name : List U8} (h : NameAt text name) {a : ActionDef}
    (ha : a ∈ actions) : a.name <+: text.drop 1 ↔ a.name <+: name := by
  obtain ⟨c, rest, rfl, hc, _⟩ := h
  obtain ⟨hspace, hgt, _⟩ := actions_names a ha
  rw [List.drop_one, List.tail_cons]
  rcases hc with rfl | rfl
  · exact prefix_until hspace rest
  · exact prefix_until hgt rest

theorem registered_eq_some {name : List U8} {a : ActionDef} (ha : a ∈ actions) (hn : a.name = name) :
    registered name = some a.handler := by
  cases hfind : actions.find? fun a => a.name = name with
  | none =>
    have := List.find?_eq_none.mp hfind a ha
    simp [hn] at this
  | some b =>
    have hb : b.name = name := by simpa using List.find?_some hfind
    have hba := actions_inj b (List.mem_of_find?_eq_some hfind) a ha (.inl (hb.trans hn.symm))
    rw [registered, hfind, hba]
    rfl

theorem registered_cases (name : List U8) : (registered name = none ∧ ∀ a ∈ actions, a.name ≠ name) ∨
    ∃ a ∈ actions, a.name = name ∧ registered name = some a.handler := by
  by_cases h : ∃ a ∈ actions, a.name = name
  · obtain ⟨a, ha, hn⟩ := h
    exact .inr ⟨a, ha, hn, registered_eq_some ha hn⟩
  · have hnone : ∀ a ∈ actions, a.name ≠ name := fun a ha hn => h ⟨a, ha, hn⟩
    refine .inl ⟨?_, hnone⟩
    rw [registered, List.find?_eq_none.mpr (by simpa using hnone)]
    rfl

/-! ### What is called -/

/-- The handler that is called is that of the first entry that matches, if the length of
the token fits an `int`. -/
theorem NameAt.outcome {text name : List U8} (h : NameAt text name) :
    (tryActions text actions = .passed ∧ ∀ a ∈ actions, ¬ a.name <+: name) ∨
    ∃ a ∈ actions, a.name <+: name ∧ (∀ b ∈ actions, b.name <+: a.name → b = a) ∧
      ((FitsInt (tokenSpan text) ∧
          ∃ token dist, tryActions text actions = .executed a.handler token dist) ∨
        (¬ FitsInt (tokenSpan text) ∧ tryActions text actions = .overrun)) := by
  obtain ⟨mid, rest, hmid, htext⟩ := h.exists_closed
  have htry : tryActions text actions =
      (matchAt (text.drop 1)).elim .passed fun a => callHandler (closed mid rest) a.handler := by
    rw [htext]
    exact tryActions_matchAt _
  cases hmatch : matchAt (text.drop 1) with
  | none =>
    rw [hmatch] at htry
    exact .inl ⟨htry, fun a ha hp => matchAt_none hmatch ha ((h.prefix_iff ha).mpr hp)⟩
  | some a =>
    rw [hmatch, Option.elim_some] at htry
    obtain ⟨ha, hp⟩ := matchAt_mem hmatch
    refine .inr ⟨a, ha, (h.prefix_iff ha).mp hp, fun b hb hba => ?_, ?_⟩
    · exact matchAt_least hmatch hb (hba.trans hp) hba
    · rw [htext, tokenSpan_closed hmid, ← htext, htry]
      rcases callHandler_closed hmid rest a.handler with ⟨hfits, token, _, hcall⟩ | ⟨hno, hcall⟩
      · exact .inl ⟨hfits, token, _, hcall⟩
      · exact .inr ⟨hno, hcall⟩

theorem dispatchExact_iff {stop : Stop} (hs : stop.outcome = tryActions stop.text actions)
    {name : List U8} (h : NameAt stop.text name) : DispatchExact stop name ↔
      ∀ a ∈ actions, a.name <+: name → a.name = name ∧ FitsInt (tokenSpan stop.text) := by
  rw [DispatchExact, hs]
  rcases h.outcome with ⟨hpass, hnone⟩ | ⟨a, ha, hp, hleast, hcase⟩
  · rcases registered_cases name with ⟨hreg, _⟩ | ⟨b, hb, hbn, _⟩
    · rw [hreg]
      exact ⟨fun _ b hb hp => absurd hp (hnone b hb), fun _ => hpass⟩
    · exact absurd (hbn ▸ List.prefix_rfl) (hnone b hb)
  · constructor
    · intro hexact
      rcases registered_cases name with ⟨hreg, _⟩ | ⟨b, hb, hbn, hreg⟩
      · rw [hreg] at hexact
        rcases hcase with ⟨_, token, dist, hcall⟩ | ⟨_, hcall⟩
        · rw [hcall] at hexact
          cases hexact
        · rw [hcall] at hexact
          cases hexact
      · rw [hreg] at hexact
        obtain ⟨token', dist', hexact⟩ := hexact
        rcases hcase with ⟨hfits, token, dist, hcall⟩ | ⟨_, hcall⟩
        · rw [hcall] at hexact
          have hab : a = b := actions_inj a ha b hb (.inr (Outcome.executed.inj hexact).1)
          rw [← hbn, ← hab]
          exact fun c hc hca => ⟨by rw [hleast c hc hca], hfits⟩
        · rw [hcall] at hexact
          cases hexact
    · intro hcond
      obtain ⟨han, hfits⟩ := hcond a ha hp
      rw [registered_eq_some ha han]
      rcases hcase with ⟨_, token, dist, hcall⟩ | ⟨hno, _⟩
      · exact ⟨token, dist, hcall⟩
      · exact absurd hfits hno

theorem mem_calls {output : List U8} {handler : Handler} {token : Token} :
    (handler, token) ∈ actionParseAndExecute (some output) ↔
      ∃ stop ∈ scan output, ∃ dist, stop.outcome = .executed handler token dist := by
  rw [actionParseAndExecute, List.mem_filterMap]
  refine exists_congr fun stop => and_congr_right fun _ => ?_
  rw [Stop.invoked]
  split
  · next h t d hout =>
    rw [hout]
    constructor
    · intro he
      cases he
      exact ⟨d, rfl⟩
    · rintro ⟨d', he⟩
      cases he
      rfl
  · next hne =>
    constructor
    · intro he
      cases he
    · rintro ⟨d, hd⟩
      exact absurd hd (hne _ _ _)

theorem tryActions_head (rest : List U8) :
    (tryActions (charByte '<' :: rest) actions = .passed ∧
      (charByte '>' ∈ rest → matchAt rest = none)) ∨
    (∃ mid tail a token, charByte '>' ∉ mid ∧ rest = mid ++ charByte '>' :: tail ∧
      matchAt rest = some a ∧ token.bytes <+: mid ∧
      tryActions (charByte '<' :: rest) actions = .executed a.handler token (mid.length + 1)) ∨
    (2 ^ 31 ≤ rest.length ∧ tryActions (charByte '<' :: rest) actions = .overrun) := by
  rw [tryActions_matchAt]
  cases hmatch : matchAt rest with
  | none => exact .inl ⟨rfl, fun _ => rfl⟩
  | some a =>
    rw [Option.elim_some]
    by_cases hgt : charByte '>' ∈ rest
    · obtain ⟨mid, tail, hmid, rfl⟩ := exists_first hgt
      rcases callHandler_closed hmid tail a.handler with ⟨_, token, htoken, hcall⟩ | ⟨hno, hover⟩
      · exact .inr (.inl ⟨mid, tail, a, token, hmid, rfl, rfl, htoken ▸ List.take_prefix _ _, hcall⟩)
      · refine .inr (.inr ⟨?_, hover⟩)
        rw [FitsInt] at hno
        rw [List.length_append]
        omega
    · refine .inl ⟨?_, fun h => absurd h hgt⟩
      rw [callHandler, strchr_none (List.not_mem_cons_of_ne_of_not_mem (by decide) hgt)]

/-- A call comes from a `<`, the first entry that matches there and a text up to the next `>`. -/
theorem mem_calls_at {output : List U8} {handler : Handler} {token : Token}
    (h : (handler, token) ∈ actionParseAndExecute (some output)) :
    ∃ rest mid a, matchAt rest = some a ∧ a.handler = handler ∧ charByte '>' ∉ mid ∧
      token.bytes <+: mid := by
  obtain ⟨stop, hstop, dist, hcall⟩ := mem_calls.mp h
  obtain ⟨hhead, hout⟩ := mem_scan hstop
  obtain ⟨rest, hrest⟩ := List.head?_eq_some_iff.mp hhead
  rw [hout, hrest] at hcall
  rcases tryActions_head rest with ⟨hpass, _⟩ | ⟨mid, _, a, t, hmid, _, hmatch, ht, hexec⟩ | ⟨_, hover⟩
  · rw [hpass] at hcall
    cases hcall
  · rw [hexec] at hcall
    cases hcall
    exact ⟨rest, mid, a, hmatch, rfl, hmid, ht⟩
  · rw [hover] at hcall
    cases hcall

theorem called_iff {a : ActionDef} (ha : a ∈ actions) :
    (∃ output token, (a.handler, token) ∈ actionParseAndExecute (some output)) ↔
      ∀ b ∈ actions, b.name <+: a.name → b = a := by
  constructor
  · rintro ⟨output, token, hmem⟩ b hb hba
    obtain ⟨rest, _, c, hmatch, hhandler, _⟩ := mem_calls_at hmem
    obtain ⟨hc, hp⟩ := matchAt_mem hmatch
    have hca : c = a := actions_inj c hc a ha (.inr hhandler)
    rw [hca] at hp hmatch
    exact matchAt_least hmatch hb (hba.trans hp) hba
  · intro hleast
    obtain ⟨_, hgt, _, hlen⟩ := actions_names a ha
    have hmatch : matchAt (a.name ++ [charByte '>']) = some a :=
      matchAt_name ha hleast (.inr rfl) []
    have hout : tryActions (closed a.name []) actions =
        .executed a.handler ⟨a.name, hlen⟩ (a.name.length + 1) := by
      rw [closed, tryActions_matchAt, hmatch]
      exact callHandler_short hgt hlen [] a.handler
    refine ⟨closed a.name [], ⟨a.name, hlen⟩, mem_calls.mpr ⟨⟨closed a.name [], _⟩, ?_, _, hout⟩⟩
    rw [closed, scan_head]
    exact List.mem_cons_self

/-- **Dispatch by exact name.**  At every stop of every scan where a name and a `>` follow,
the handler of exactly that name is called, or none, if and only if no other name of the
table is a prefix of it and the length of the token fits an `int`.  An entry can be called
if and only if no other name of the table is a prefix of its own. -/
theorem dispatch_exact_iff (output : List U8) :
    (∀ stop ∈ scan output, ∀ name, NameAt stop.text name → (DispatchExact stop name ↔
      ∀ a ∈ actions, a.name <+: name → a.name = name ∧ FitsInt (tokenSpan stop.text))) ∧
    ∀ a ∈ actions, (∃ output token, (a.handler, token) ∈ actionParseAndExecute (some output)) ↔
      ∀ b ∈ actions, b.name <+: a.name → b = a :=
  ⟨fun _ hstop _ hn => dispatchExact_iff (mem_scan hstop).2 hn, fun _ ha => called_iff ha⟩

def pixelText : List U8 := ascii "<ACT:DISPLAY_PIXEL x=1>"

def pixelName : List U8 := ascii "ACT:DISPLAY_PIXEL"

def pixelStop : Stop := ⟨pixelText, tryActions pixelText actions⟩

theorem pixelStop_mem : pixelStop ∈ scan pixelText := by
  have hscan := scan_head (ascii "ACT:DISPLAY_PIXEL x=1>")
  rw [show pixelText = charByte '<' :: ascii "ACT:DISPLAY_PIXEL x=1>" from rfl, hscan]
  exact List.mem_cons_self

theorem nameAt_pixelText : NameAt pixelText pixelName :=
  ⟨charByte ' ', ascii "x=1>", by decide, .inl rfl, by decide, by decide, by decide⟩

theorem dispatch_exact_sample : DispatchExact pixelStop pixelName ↔
    ∀ a ∈ actions, a.name <+: pixelName → a.name = pixelName ∧ FitsInt (tokenSpan pixelStop.text) :=
  (dispatch_exact_iff pixelText).1 pixelStop pixelStop_mem pixelName nameAt_pixelText

/-- `ACT:DISPLAY` stands before `ACT:DISPLAY_PIXEL`: its handler is called for both. -/
theorem dispatch_shadowed : pixelStop ∈ scan pixelText ∧ NameAt pixelStop.text pixelName ∧
    registered pixelName = some .actDisplayPixel ∧
    (∃ token dist, pixelStop.outcome = .executed .actDisplay token dist) ∧
    ∀ output token, (.actDisplayPixel, token) ∉ actionParseAndExecute (some output) := by
  refine ⟨pixelStop_mem, nameAt_pixelText, by decide, ?_, fun output token hmem => ?_⟩
  · have hcall := tryActions_matchAt (ascii "ACT:DISPLAY_PIXEL x=1" ++ charByte '>' :: [])
    have hmatch : matchAt (ascii "ACT:DISPLAY_PIXEL x=1" ++ charByte '>' :: []) =
        some ⟨ascii "ACT:DISPLAY", .actDisplay⟩ := by decide
    rw [hmatch, Option.elim_some] at hcall
    exact ⟨⟨ascii "ACT:DISPLAY_PIXEL x=1", by decide⟩, _,
      hcall.trans (callHandler_short (by decide) _ [] .actDisplay)⟩
  · have ha : (⟨pixelName, .actDisplayPixel⟩ : ActionDef) ∈ actions := by decide
    have hall := (called_iff ha).mp ⟨output, token, hmem⟩
    exact absurd (hall ⟨ascii "ACT:DISPLAY", .actDisplay⟩ (by decide) (by decide)) (by decide)

end AionOs
