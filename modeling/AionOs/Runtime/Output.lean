import AionOs.Lib.Bytes
import AionOs.Lib.CText
import AionOs.Runtime.WorkingMemory

/-!
# The text of an answer

`llm_think` leaves out a piece that does not fit `out_buf`, and goes on with the next one.

* `answerText_eq`: the text is what fits of the pieces, one after the other.
* `fits_unbroken_iff`: when that is a prefix of all of them.
* `no_holes_iff`: the calls whose text has no hole.
-/

namespace AionOs

open Bytes

/-! ### The code -/

/-- `llm_think` with `out_buf`: what it returns, and what it leaves in the buffer. -/
def thinkInto (maxTokens : Int) (rounds : Nat → Round) (outBuf : List U8) (s : LlmState) :
    Option (Int × List U8) :=
  if s.ready = false ∨ s.contextLen = 0 then some (-1, outBuf)
  else (llmThink outBuf.length maxTokens rounds s).map fun r => (r.1, overwrite (r.2.1 ++ [0#8]) outBuf)

/-! ### Pieces -/

def piecesOf (rounds : List Round) : List (List U8) := (spoken rounds).filterMap Round.piece

/-- The pieces that fit, where each one has to be shorter than the room that is left. -/
def fitting (room : Nat) : List (List U8) → List U8
  | [] => []
  | p :: ps => if p.length < room then p ++ fitting (room - p.length) ps else fitting room ps

theorem fitting_length (room : Nat) (ps : List (List U8)) : (fitting room ps).length ≤ room - 1 := by
  induction ps generalizing room with
  | nil => exact Nat.zero_le _
  | cons p ps ih =>
    rw [fitting]
    split
    · have := ih (room - p.length)
      rw [List.length_append]
      omega
    · exact ih room

/-- **The text of the loop.** -/
theorem answerText_eq {outSz : Int} (rounds : List Round) (out : List U8) :
    answerText outSz rounds out = out ++ fitting (outSz - 1 - out.length).toNat (piecesOf rounds) := by
  induction rounds generalizing out with
  | nil => rw [answerText, piecesOf, spoken, List.filterMap_nil, fitting, List.append_nil]
  | cons r rounds ih =>
    rw [answerText, piecesOf, spoken]
    by_cases heog : r.isEog = true
    · rw [if_pos heog, if_pos (.inl heog), List.filterMap_nil, fitting, List.append_nil]
    · rw [if_neg heog]
      cases hpiece : r.piece with
      | none => rw [if_pos (.inr rfl), List.filterMap_nil, fitting, List.append_nil]
      | some piece =>
        have hlive : ¬ (r.isEog = true ∨ (some piece).isNone = true) := by simp [heog]
        have hfits : (out.length + piece.length : Int) < outSz - 1 ↔
            piece.length < (outSz - 1 - out.length).toNat := by omega
        rw [if_neg hlive]
        dsimp only
        by_cases hcode : r.code ≠ 0
        · rw [if_pos hcode, if_pos hcode, List.filterMap_cons_some hpiece, List.filterMap_nil, fitting,
            fitting, fitting, ← if_congr hfits rfl rfl]
          split
          · rw [List.append_nil]
          · rw [List.append_nil]
        · rw [if_neg hcode, if_neg hcode, List.filterMap_cons_some hpiece, fitting, ih, ← piecesOf]
          by_cases hfit : (out.length + piece.length : Int) < outSz - 1
          · have hroom : (outSz - 1 - (out ++ piece).length).toNat =
                (outSz - 1 - out.length).toNat - piece.length := by
              rw [List.length_append]
              omega
            rw [if_pos hfit, if_pos (hfits.mp hfit), hroom, List.append_assoc]
          · rw [if_neg hfit, if_neg fun h => hfit (hfits.mpr h)]

/-- The pieces that still fit go on where `left` does, and have no zero. -/
def Continues (room : Nat) (left : List U8) : List (List U8) → Prop
  | [] => True
  | q :: qs =>
    if q.length < room then 0#8 ∉ q ∧ q <+: left ∧ Continues (room - q.length) (left.drop q.length) qs
    else Continues room left qs

/-- Up to the first piece that does not fit there is no zero, and what fits behind it is a part
of it. -/
def Unbroken (room : Nat) : List (List U8) → Prop
  | [] => True
  | p :: ps => if p.length < room then 0#8 ∉ p ∧ Unbroken (room - p.length) ps else Continues room p ps

theorem continues_iff {room : Nat} {left : List U8} {ps : List (List U8)} :
    Continues room left ps ↔ 0#8 ∉ fitting room ps ∧ fitting room ps <+: left := by
  induction ps generalizing room left with
  | nil => simp [Continues, fitting]
  | cons q qs ih =>
    rw [Continues, fitting]
    split
    · rw [ih, List.mem_append, not_or]
      constructor
      · rintro ⟨hq, ⟨rest, rfl⟩, hzero, hprefix⟩
        rw [List.drop_left] at hprefix
        exact ⟨⟨hq, hzero⟩, (List.prefix_append_right_inj q).mpr hprefix⟩
      · rintro ⟨⟨hq, hzero⟩, hprefix⟩
        obtain ⟨rest, rfl⟩ := (List.prefix_append q _).trans hprefix
        rw [List.prefix_append_right_inj] at hprefix
        exact ⟨hq, List.prefix_append q rest, hzero, by rw [List.drop_left]; exact hprefix⟩
    · exact ih

/-- **What fits is a prefix of everything** exactly if nothing is spliced. -/
theorem fits_unbroken_iff {room : Nat} {ps : List (List U8)} :
    Unbroken room ps ↔ 0#8 ∉ fitting room ps ∧ fitting room ps <+: ps.flatten := by
  induction ps generalizing room with
  | nil => simp [Unbroken, fitting]
  | cons p ps ih =>
    rw [Unbroken, fitting, List.flatten_cons]
    split
    · rw [ih, List.mem_append, not_or, List.prefix_append_right_inj, and_assoc]
    · next hlong =>
      -- what fits behind is shorter than the piece that was left out
      have hshort := fitting_length room ps
      have hpiece : fitting room ps <+: p ++ ps.flatten ↔ fitting room ps <+: p :=
        ⟨fun h => List.prefix_of_prefix_length_le h (List.prefix_append p _) (by omega),
          fun h => h.trans (List.prefix_append p _)⟩
      rw [continues_iff, hpiece]

/-! ### One call -/

structure OutBuf where
  bytes : List U8
  pos : 0 < bytes.length

/-- The string in the buffer is a prefix of all pieces, ends inside and is as long as it is said
to be. -/
def NoHoles (maxTokens : Int) (rounds : Nat → Round) (old : OutBuf) (s : LlmState) : Prop :=
  ∃ n buf, thinkInto maxTokens rounds old.bytes s = some (n, buf) ∧ buf.length = old.bytes.length ∧
    cstr buf <+: (piecesOf (roundsOf maxTokens rounds)).flatten ∧ 0#8 ∈ buf ∧ ((cstr buf).length : Int) = n

theorem cstr_length_iff (out rest : List U8) : (cstr (out ++ 0#8 :: rest)).length = out.length ↔ 0#8 ∉ out := by
  constructor
  · intro h hmem
    obtain ⟨pre, tail, hpre, rfl⟩ := CText.exists_first hmem
    have hne : ∀ b ∈ pre, b ≠ 0#8 := fun b hb hc => hpre (hc ▸ hb)
    rw [List.append_assoc, List.cons_append, cstr_append_zero hne, List.length_append,
      List.length_cons] at h
    omega
  · intro h
    have hne : ∀ b ∈ out, b ≠ 0#8 := fun b hb hc => h (hc ▸ hb)
    rw [cstr_append_zero hne]

theorem thinkInto_spec {s : LlmState} (h : s.Within) (hready : s.ready = true) (hcontext : s.contextLen ≠ 0)
    (maxTokens : Int) (rounds : Nat → Round) (old : OutBuf) {out : List U8}
    (hout : fitting (old.bytes.length - 1) (piecesOf (roundsOf maxTokens rounds)) = out) :
    out.length + 1 ≤ old.bytes.length ∧ thinkInto maxTokens rounds old.bytes s =
      some ((out.length : Int), out ++ 0#8 :: old.bytes.drop (out.length + 1)) := by
  have hlive : ¬ (s.ready = false ∨ s.contextLen = 0) := by simp [hready, hcontext]
  obtain ⟨out', s', hloop, _⟩ := thinkLoop_spec old.bytes.length (roundsOf maxTokens rounds) [] h
  have hroom : ((old.bytes.length : Int) - 1 - ([] : List U8).length).toNat = old.bytes.length - 1 := by
    rw [List.length_nil]
    omega
  have hsame : out' = out := by
    rw [thinkLoop_text hloop, answerText_eq, List.nil_append, hroom, hout]
  have hlen : out.length + 1 ≤ old.bytes.length := by
    have := fitting_length (old.bytes.length - 1) (piecesOf (roundsOf maxTokens rounds))
    have := old.pos
    rw [← hout]
    omega
  have hcall : llmThink old.bytes.length maxTokens rounds s = some ((out.length : Int), out, s') := by
    rw [llmThink, if_neg hlive, hloop, hsame]
    rfl
  refine ⟨hlen, ?_⟩
  rw [thinkInto, if_neg hlive, hcall, Option.map_some, overwrite, List.length_append, List.length_singleton,
    List.append_assoc, List.singleton_append]

theorem noHoles_iff {s : LlmState} (h : s.Within) (maxTokens : Int) (rounds : Nat → Round) (old : OutBuf) :
    NoHoles maxTokens rounds old s ↔ s.ready = true ∧ s.contextLen ≠ 0 ∧
      Unbroken (old.bytes.length - 1) (piecesOf (roundsOf maxTokens rounds)) := by
  rw [NoHoles]
  by_cases hearly : s.ready = false ∨ s.contextLen = 0
  · rw [thinkInto, if_pos hearly]
    constructor
    · rintro ⟨n, buf, hcall, _, _, _, hlen⟩
      cases hcall
      omega
    · rintro ⟨hready, hcontext, _⟩
      rcases hearly with hc | hc
      · rw [hready] at hc
        cases hc
      · exact absurd hc hcontext
  · have hlive : s.ready = true ∧ s.contextLen ≠ 0 := by simpa using hearly
    generalize hout : fitting (old.bytes.length - 1) (piecesOf (roundsOf maxTokens rounds)) = out
    obtain ⟨hlen, hcall⟩ := thinkInto_spec h hlive.1 hlive.2 maxTokens rounds old hout
    rw [hcall, and_iff_right hlive.1, and_iff_right hlive.2, fits_unbroken_iff, hout]
    constructor
    · rintro ⟨n, buf, hn, _, hprefix, _, hcount⟩
      cases hn
      have hzero := (cstr_length_iff out _).mp (by exact_mod_cast hcount)
      rw [cstr_append_zero fun b hb hc => hzero (hc ▸ hb)] at hprefix
      exact ⟨hzero, hprefix⟩
    · rintro ⟨hzero, hprefix⟩
      refine ⟨_, _, rfl, ?_, ?_, by simp, by rw [(cstr_length_iff out _).mpr hzero]⟩
      · rw [List.length_append, List.length_cons, List.length_drop]
        omega
      · rw [cstr_append_zero fun b hb hc => hzero (hc ▸ hb)]
        exact hprefix

/-- **No holes.**  After every run, for every buffer, every limit and everything that the model
says: the string in the buffer is a prefix of what was generated, with its zero inside and its
length returned, if and only if the loop is reached, no piece that is copied has a zero, and the
pieces that still fit behind the first one that does not spell the start of it. -/
theorem no_holes_iff (ready : Bool) (ops : List LlmOp) :
    ∃ s, (llmMachine AnyOp).run (some (LlmState.start ready)) ops = some s ∧
      ∀ (maxTokens : Int) (rounds : Nat → Round) (old : OutBuf), NoHoles maxTokens rounds old s ↔
        s.ready = true ∧ s.contextLen ≠ 0 ∧
          Unbroken (old.bytes.length - 1) (piecesOf (roundsOf maxTokens rounds)) := by
  obtain ⟨s, hs, h, _⟩ := @llm_run_within AnyOp ops _ (within_start ready)
  exact ⟨s, hs, fun maxTokens rounds old => noHoles_iff h maxTokens rounds old⟩

/-- Three pieces; the second one does not fit eight bytes. -/
def holeRounds (i : Nat) : Round := ⟨0, false, ([ascii "<ACT", ascii ":SLEEP_MS", ascii ">"])[i]?, 0⟩

def eightBytes : OutBuf := ⟨List.replicate 8 0, by decide⟩

/-- The third piece is put behind the first one. -/
theorem hole_spliced : ∃ s, (llmMachine AnyOp).run (some (LlmState.start true)) [tickFeed] = some s ∧
    thinkInto 3 holeRounds eightBytes.bytes s = some (5, ascii "<ACT>" ++ [0, 0, 0]) ∧
    ¬ NoHoles 3 holeRounds eightBytes s := by
  have hfits : fitting (eightBytes.bytes.length - 1) (piecesOf (roundsOf 3 holeRounds)) = ascii "<ACT>" := by
    decide
  rcases llmStep_feed (within_start true) (some CString.empty) (some oneToken) 0 0 with
    ⟨hnone, _⟩ | ⟨new, s, hnew, hs, h, hready, hcontext, _⟩
  · cases hnone
  · have hlen := h.length_context
    have hpos : s.contextLen ≠ 0 := by
      cases hnew
      have hone : oneToken.tokens.length = 1 := rfl
      rw [hcontext, List.length_append, hone] at hlen
      omega
    refine ⟨s, hs, (thinkInto_spec h hready hpos 3 holeRounds eightBytes hfits).2, fun hholes => ?_⟩
    have hunbroken := ((noHoles_iff h 3 holeRounds eightBytes).mp hholes).2.2
    rw [fits_unbroken_iff, hfits] at hunbroken
    exact absurd hunbroken.2 (by decide)

end AionOs
