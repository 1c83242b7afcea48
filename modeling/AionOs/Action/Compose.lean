import Mathlib.Data.List.Find
import AionOs.Action.Params

/-!
# Texts in chunks

A scan looks ahead for the next `>` without a bound, and goes on behind a token or one
character further on.

* `tryActions_closed`: what happens at a `<` is decided by the text up to the next `>`.
* `outcomes_append`: a closed chunk and what follows it are scanned one after the other.
* `parse_compositional`: the calls of two chunks, and where the tokens of a text stand.
-/

namespace AionOs

open Bytes CText

/-! ### Runs -/

def outcomes (p : List U8) : List Outcome := (scan p).map Stop.outcome

def Outcome.invoked : Outcome → Option (Handler × Token)
  | .executed h token _ => some (h, token)
  | _ => none

def Outcome.isOverrun : Outcome → Bool
  | .passed | .executed _ _ _ => false
  | .overrun => true

/-- The calls of a run that comes to its end; none if a `memcpy` is out of bounds on the way. -/
def executed (output : List U8) : Option (List (Handler × Token)) :=
  if (outcomes output).any Outcome.isOverrun then none else some (actionParseAndExecute (some output))

theorem calls_eq (output : List U8) :
    actionParseAndExecute (some output) = (outcomes output).filterMap Outcome.invoked := by
  rw [actionParseAndExecute, outcomes, List.filterMap_map]
  refine List.filterMap_congr fun stop _ => ?_
  rw [Stop.invoked, Function.comp_apply]
  cases stop.outcome <;> rfl

/-! ### One stop -/

/-- Nothing behind the next `>` matters. -/
theorem tryActions_closed {mid : List U8} (hmid : charByte '>' ∉ mid) (tail tail' : List U8) :
    tryActions (closed mid tail) actions = tryActions (closed mid tail') actions := by
  have hmatch : matchAt (mid ++ charByte '>' :: tail) = matchAt (mid ++ charByte '>' :: tail') := by
    have hprefix : ∀ a ∈ actions, a.name.isPrefixOf (mid ++ charByte '>' :: tail) =
        a.name.isPrefixOf (mid ++ charByte '>' :: tail') := fun a ha => by
      have hgt := (actions_names a ha).2.1
      rw [Bool.eq_iff_iff, List.isPrefixOf_iff_prefix, List.isPrefixOf_iff_prefix, prefix_until hgt,
        prefix_until hgt]
    exact List.find?_congr hprefix
  have hhead : ∀ t, tryActions (closed mid t) actions =
      (matchAt (mid ++ charByte '>' :: t)).elim .passed fun a => callHandler (closed mid t) a.handler :=
    fun t => tryActions_matchAt _
  rw [hhead, hhead, hmatch]
  cases matchAt (mid ++ charByte '>' :: tail') with
  | none => rfl
  | some a =>
    rw [Option.elim_some, Option.elim_some]
    rcases callHandler_closed hmid tail a.handler with ⟨hfits, token, htoken, hcall⟩ | ⟨hno, hover⟩
    · rcases callHandler_closed hmid tail' a.handler with ⟨_, token', htoken', hcall'⟩ | ⟨hno, _⟩
      · rw [hcall, hcall', show token = token' from Token.ext (htoken.trans htoken'.symm)]
      · exact absurd hfits hno
    · rcases callHandler_closed hmid tail' a.handler with ⟨hfits, _⟩ | ⟨_, hover'⟩
      · exact absurd hfits hno
      · rw [hover, hover']

/-! ### Two chunks -/

/-- Every `<` of the text is followed by a `>`. -/
def Closed (text : List U8) : Prop := ∀ after, charByte '<' :: after <:+ text → charByte '>' ∈ after

theorem Closed.suffix {text tail : List U8} (h : Closed text) (hs : tail <:+ text) : Closed tail :=
  fun after ha => h after (ha.trans hs)

theorem outcomes_none {p : List U8} (h : charByte '<' ∉ p) : outcomes p = [] := by
  rw [outcomes, scan_none h]
  rfl

theorem outcomes_passed {rest : List U8} (h : tryActions (charByte '<' :: rest) actions = .passed) :
    outcomes (charByte '<' :: rest) = .passed :: outcomes rest := by
  rw [outcomes, scan_head, h]
  rfl

theorem outcomes_executed {mid tail : List U8} {hd : Handler} {token : Token}
    (h : tryActions (closed mid tail) actions = .executed hd token (mid.length + 1)) :
    outcomes (closed mid tail) = .executed hd token (mid.length + 1) :: outcomes tail := by
  have hdrop : (mid ++ charByte '>' :: tail).drop (mid.length + 1) = tail := by
    rw [← List.drop_drop, List.drop_left, List.drop_one, List.tail_cons]
  rw [closed] at h
  rw [outcomes, closed, scan_head, h]
  dsimp only
  rw [hdrop]
  rfl

theorem outcomes_overrun {rest : List U8} (h : tryActions (charByte '<' :: rest) actions = .overrun) :
    outcomes (charByte '<' :: rest) = [.overrun] := by
  rw [outcomes, scan_head, h]
  rfl

/-- A text is scanned from its first `<` on. -/
theorem outcomes_skip {pre : List U8} (h : charByte '<' ∉ pre) (rest : List U8) :
    outcomes (pre ++ rest) = outcomes rest := by
  by_cases hr : charByte '<' ∈ rest
  · obtain ⟨mid, tail, hmid, rfl⟩ := exists_first hr
    have hboth : charByte '<' ∉ pre ++ mid := by
      rw [List.mem_append, not_or]
      exact ⟨h, hmid⟩
    rw [← List.append_assoc, outcomes, outcomes, scan_append hboth, scan_append hmid]
  · rw [outcomes_none hr, outcomes_none]
    rw [List.mem_append, not_or]
    exact ⟨h, hr⟩

/-- **Two chunks** are scanned one after the other, if the first one comes to its end. -/
theorem outcomes_append {s₁ : List U8} (h : Closed s₁) (s₂ : List U8) : outcomes (s₁ ++ s₂) =
    outcomes s₁ ++ if (outcomes s₁).any Outcome.isOverrun then [] else outcomes s₂ := by
  induction s₁ using strchr_induct (charByte '<') with
  | missing s₁ hlt =>
    rw [outcomes_skip hlt, outcomes_none hlt]
    rfl
  | first pre rest hpre ih =>
    obtain ⟨mid, tail, hmid, rfl⟩ := exists_first (h rest (List.suffix_append _ _))
    have hrest : Closed (mid ++ charByte '>' :: tail) :=
      h.suffix ((List.suffix_cons _ _).trans (List.suffix_append _ _))
    have hjoin : ∀ t, pre ++ charByte '<' :: (mid ++ charByte '>' :: t) = pre ++ closed mid t :=
      fun _ => rfl
    have hlong : (pre ++ closed mid tail) ++ s₂ = pre ++ closed mid (tail ++ s₂) := by
      rw [List.append_assoc, closed, List.cons_append, List.append_assoc, List.cons_append, closed]
    have hsame := tryActions_closed hmid (tail ++ s₂) tail
    rw [hjoin, hlong, outcomes_skip hpre, outcomes_skip hpre]
    rcases tryActions_head (mid ++ charByte '>' :: tail) with
      ⟨hpass, _⟩ | ⟨mid', tail', a, token, hmid', hsplit, _, _, hexec⟩ | ⟨_, hover⟩
    · have hafter := ih _ List.suffix_rfl hrest
      rw [List.append_assoc, List.cons_append] at hafter
      rw [closed, closed, outcomes_passed (hsame.trans hpass), outcomes_passed hpass, hafter]
      rfl
    · obtain ⟨rfl, rfl⟩ := first_inj hmid hmid' hsplit
      have hend : tail <:+ mid ++ charByte '>' :: tail :=
        (List.suffix_cons _ _).trans (List.suffix_append _ _)
      have htail := ih tail hend (hrest.suffix hend)
      rw [outcomes_executed (hsame.trans hexec), outcomes_executed hexec, htail]
      rfl
    · rw [closed, closed, outcomes_overrun (hsame.trans hover), outcomes_overrun hover]
      rfl

theorem executed_eq {output : List U8} (hlen : output.length < 2 ^ 31) :
    executed output = some (actionParseAndExecute (some output)) := by
  refine if_neg ?_
  induction output using strchr_induct (charByte '<') with
  | missing output hlt =>
    rw [outcomes_none hlt]
    simp
  | first pre rest hpre ih =>
    rw [List.length_append, List.length_cons] at hlen
    rw [outcomes_skip hpre]
    rcases tryActions_head rest with
      ⟨hpass, _⟩ | ⟨mid, tail, a, token, _, rfl, _, _, hexec⟩ | ⟨hlong, _⟩
    · have hrest := ih rest List.suffix_rfl (by omega)
      rw [outcomes_passed hpass, List.any_cons, Outcome.isOverrun, Bool.false_or]
      exact hrest
    · rw [List.length_append, List.length_cons] at hlen
      have htail := ih tail ((List.suffix_cons _ _).trans (List.suffix_append _ _)) (by omega)
      rw [← closed, outcomes_executed hexec, List.any_cons, Outcome.isOverrun, Bool.false_or]
      exact htail
    · omega

/-! ### Where the tokens stand -/

/-- The tokens of the calls stand in the text one after the other, each of them at the front of
what is between a `<` and the next `>`. -/
def InOrder (output : List U8) (calls : List (Handler × Token)) : Prop :=
  ∃ (pieces : List (List U8 × List U8)) (rest : List U8),
    output = pieces.flatMap (fun p => p.1 ++ closed p.2 []) ++ rest ∧
      List.Forall₂ (fun p c => charByte '>' ∉ p.2 ∧ c.2.bytes <+: p.2) pieces calls

theorem InOrder.append {output : List U8} {calls : List (Handler × Token)} (h : InOrder output calls)
    (pre : List U8) : InOrder (pre ++ output) calls := by
  obtain ⟨pieces, rest, rfl, hall⟩ := h
  cases hall with
  | nil => exact ⟨[], pre ++ rest, rfl, .nil⟩
  | @cons p c pieces calls hp hall =>
    refine ⟨(pre ++ p.1, p.2) :: pieces, rest, ?_, .cons hp hall⟩
    rw [List.flatMap_cons, List.flatMap_cons]
    simp only [List.append_assoc]

theorem inOrder_calls (output : List U8) : InOrder output ((outcomes output).filterMap Outcome.invoked) := by
  induction output using strchr_induct (charByte '<') with
  | missing output hlt =>
    rw [outcomes_none hlt]
    exact ⟨[], output, rfl, .nil⟩
  | first pre rest hpre ih =>
    rw [outcomes_skip hpre]
    refine InOrder.append ?_ pre
    rcases tryActions_head rest with
      ⟨hpass, _⟩ | ⟨mid, tail, a, token, hmid, rfl, _, htoken, hexec⟩ | ⟨_, hover⟩
    · rw [outcomes_passed hpass]
      exact (ih rest List.suffix_rfl).append [charByte '<']
    · obtain ⟨pieces, rest, htail, hall⟩ :=
        ih tail ((List.suffix_cons _ _).trans (List.suffix_append _ _))
      rw [← closed, outcomes_executed hexec]
      refine ⟨([], mid) :: pieces, rest, ?_, .cons ⟨hmid, htoken⟩ hall⟩
      rw [List.flatMap_cons, List.append_assoc, ← htail]
      simp [closed]
    · rw [outcomes_overrun hover]
      exact ⟨[], _, rfl, .nil⟩

/-- **Chunks.**  For every chunk in which each `<` is followed by a `>`, and everything behind
it: what is executed is what is executed for the one and then for the other; where a copy out of
bounds ends one of the runs, it ends the whole one, and none does in a text below 2 GB.  For every
text: the tokens that are executed are apart from each other and in order. -/
theorem parse_compositional (s₁ s₂ : List U8) (h : Closed s₁) :
    executed (s₁ ++ s₂) = ((executed s₁).bind fun a => (executed s₂).map (a ++ ·)) ∧
    (executed s₁ ≠ none → actionParseAndExecute (some (s₁ ++ s₂)) =
      actionParseAndExecute (some s₁) ++ actionParseAndExecute (some s₂)) ∧
    (∀ output : List U8, output.length < 2 ^ 31 →
      executed output = some (actionParseAndExecute (some output))) ∧
    ∀ output, InOrder output (actionParseAndExecute (some output)) := by
  have happend := outcomes_append h s₂
  refine ⟨?_, fun hends => ?_, fun _ => executed_eq, fun output => calls_eq output ▸ inOrder_calls output⟩
  · rw [executed, executed, executed, calls_eq, calls_eq, calls_eq, happend]
    by_cases hover : (outcomes s₁).any Outcome.isOverrun
    · rw [if_pos hover, if_pos hover, List.append_nil, if_pos hover]
      rfl
    · rw [if_neg hover, if_neg hover, Option.bind_some, List.any_append, Bool.eq_false_iff.mpr hover,
        Bool.false_or]
      split
      · rfl
      · rw [Option.map_some, List.filterMap_append]
  · have hover : ¬ (outcomes s₁).any Outcome.isOverrun := fun hover => hends (if_pos hover)
    rw [calls_eq, calls_eq, calls_eq, happend, if_neg hover, List.filterMap_append]

theorem closed_stop : Closed (ascii "<ACT:AUDIO_STOP>") := by
  have hsplit : ascii "<ACT:AUDIO_STOP>" = charByte '<' :: ascii "ACT:AUDIO_STOP>" := rfl
  intro after hs
  rw [hsplit, List.suffix_cons_iff, List.cons.injEq, eq_self_iff_true, true_and] at hs
  rcases hs with rfl | hs
  · decide
  · exact absurd (hs.subset List.mem_cons_self) (by decide)

theorem parse_compositional_sample :
    executed (ascii "<ACT:AUDIO_STOP>" ++ ascii "<ACT:DISPLAY_CLEAR>") =
      (executed (ascii "<ACT:AUDIO_STOP>")).bind
        fun a => (executed (ascii "<ACT:DISPLAY_CLEAR>")).map (a ++ ·) :=
  (parse_compositional _ (ascii "<ACT:DISPLAY_CLEAR>") closed_stop).1

end AionOs
