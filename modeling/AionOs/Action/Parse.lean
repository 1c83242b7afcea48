import AionOs.Lib.Bytes
import AionOs.Lib.CText
import AionOs.Memory.Pmm

/-!
# Action tokens

The scanner and the parameter readers of `consciousness/core/action.c`.

* `scan`: where `action_parse_and_execute` stops, and what it does there.
* `tryActions_eq`, `callHandler_closed`: all that can happen at a `<`.
* `scan_none`, `scan_append`: a text is scanned from its first `<` on.
-/

namespace AionOs

open Bytes CText

/-! ### Tokens -/

def quote : U8 := 0x22

/-- What stands in `token_buf`. -/
@[ext] structure Token where
  bytes : List U8
  lt : bytes.length < 2048
  deriving DecidableEq

/-- `parse_param_str`: the value, cut to a buffer of `outSz` bytes. -/
def parseParamStr (token : Token) (key : List U8) (outSz : Nat) : Option (List U8) :=
  let search := (key ++ ascii "=" ++ [quote]).take 63
  match strstr token.bytes search with
  | none => none
  | some p =>
    let p := p.drop search.length
    match strchr p quote with
    | none => none
    | some stop =>
      let len := p.length - stop.length
      some (p.take (if len ≥ outSz then outSz - 1 else len))

/-- The loop over the digits, from the value `out` on. -/
def readDigits : U64 → List U8 → U64
  | out, [] => out
  | out, b :: p =>
    if charByte '0' ≤ b ∧ b ≤ charByte '9' then
      readDigits (out * 10 + (b - charByte '0').zeroExtend 64) p
    else out

/-- `parse_param_int`, with the `int64_t` in two's complement. -/
def parseParamInt (token : Token) (key : List U8) : Option U64 :=
  let search := (key ++ ascii "=").take 63
  (strstr token.bytes search).map fun p => readDigits 0 (p.drop search.length)

/-! ### The table -/

inductive Handler where
  | actDisplay
  | actDisplayPixel
  | actDisplayClear
  | actAudioFreq
  | actAudioPcm
  | actAudioStop
  | actMemoryStore
  | actMemoryRecall
  | actFileRead
  | actFileWrite
  | actNetFetch
  | actCpuFreqSet
  | actSleepMs
  | actHardwareQuery
  deriving DecidableEq

structure ActionDef where
  name : List U8
  handler : Handler
  deriving DecidableEq

def actions : List ActionDef :=
  [⟨ascii "ACT:DISPLAY", .actDisplay⟩,
   ⟨ascii "ACT:DISPLAY_PIXEL", .actDisplayPixel⟩,
   ⟨ascii "ACT:DISPLAY_CLEAR", .actDisplayClear⟩,
   ⟨ascii "ACT:AUDIO_FREQ", .actAudioFreq⟩,
   ⟨ascii "ACT:AUDIO_PCM", .actAudioPcm⟩,
   ⟨ascii "ACT:AUDIO_STOP", .actAudioStop⟩,
   ⟨ascii "ACT:MEMORY_STORE", .actMemoryStore⟩,
   ⟨ascii "ACT:MEMORY_RECALL", .actMemoryRecall⟩,
   ⟨ascii "ACT:FILE_READ", .actFileRead⟩,
   ⟨ascii "ACT:FILE_WRITE", .actFileWrite⟩,
   ⟨ascii "ACT:NET_FETCH", .actNetFetch⟩,
   ⟨ascii "ACT:CPU_FREQ_SET", .actCpuFreqSet⟩,
   ⟨ascii "ACT:SLEEP_MS", .actSleepMs⟩,
   ⟨ascii "ACT:HARDWARE_QUERY", .actHardwareQuery⟩]

/-! ### The scanner -/

/-- `tlen`, from `end - p`: an `int`, cut to the buffer. -/
def tokenLen (dist : Nat) : Int :=
  let tlen := (BitVec.ofNat 32 (dist - 1)).toInt
  if tlen ≥ 2048 then 2047 else tlen

theorem tokenLen_lt (dist : Nat) : tokenLen dist < 2048 := by
  rw [tokenLen]
  split <;> omega

/-- The copy to `token_buf`; none if `memcpy` is called with a negative length. -/
def copyToken (p : List U8) (dist : Nat) : Option Token :=
  if tokenLen dist < 0 then none
  else some ⟨(p.drop 1).take (tokenLen dist).toNat, by
    have := tokenLen_lt dist
    have := List.length_take_le (tokenLen dist).toNat (p.drop 1)
    omega⟩

/-- What happens at a `<`: nothing, the call of a handler with the `>` at a distance of
`dist`, or a `memcpy` out of bounds. -/
inductive Outcome where
  | passed
  | executed (handler : Handler) (token : Token) (dist : Nat)
  | overrun

/-- The call of the handler of an entry that matches, with the `<` at `p`. -/
def callHandler (p : List U8) (handler : Handler) : Outcome :=
  match strchr p (charByte '>') with
  | none => .passed
  | some stop =>
    let dist := p.length - stop.length
    match copyToken p dist with
    | none => .overrun
    | some token => .executed handler token dist

/-- The loop over the table, with the `<` at `p`. -/
def tryActions (p : List U8) : List ActionDef → Outcome
  | [] => .passed
  | a :: as =>
    if a.name.isPrefixOf (p.drop 1) then callHandler p a.handler else tryActions p as

/-- A `<` where the scan stops. -/
structure Stop where
  /-- The text from the `<` on. -/
  text : List U8
  outcome : Outcome

/-- The loop of `action_parse_and_execute`. -/
def scan (p : List U8) : List Stop :=
  match _h : strchr p (charByte '<') with
  | none => []
  | some p' =>
    ⟨p', tryActions p' actions⟩ ::
      match tryActions p' actions with
      | .passed => scan (p'.drop 1)
      | .executed _ _ dist => scan (p'.drop (dist + 1))
      | .overrun => []
termination_by p.length
decreasing_by
  all_goals
    have hlen := strchr_length _h
    rw [List.length_drop]
    omega

def Stop.invoked (s : Stop) : Option (Handler × Token) :=
  match s.outcome with
  | .executed h token _ => some (h, token)
  | _ => none

/-- The calls that `action_parse_and_execute` makes, in order; the text may be a null
pointer. -/
def actionParseAndExecute (output : Option (List U8)) : List (Handler × Token) :=
  match output with
  | none => []
  | some output => (scan output).filterMap Stop.invoked

/-! ### What happens at a `<` -/

def FitsInt (n : Nat) : Prop := n % 2 ^ 32 < 2 ^ 31

theorem tokenLen_neg {n : Nat} : tokenLen (n + 1) < 0 ↔ ¬ FitsInt n := by
  rw [tokenLen, FitsInt, Nat.add_sub_cancel, BitVec.toInt_eq_toNat_cond, BitVec.toNat_ofNat]
  split <;> split <;> omega

theorem tokenLen_of_lt {n : Nat} (h : n < 2048) : tokenLen (n + 1) = n := by
  rw [tokenLen, Nat.add_sub_cancel, BitVec.toInt_eq_toNat_cond, BitVec.toNat_ofNat]
  split <;> split <;> omega

theorem tokenLen_le {n : Nat} (h : FitsInt n) : tokenLen (n + 1) ≤ n := by
  rw [FitsInt] at h
  rw [tokenLen, Nat.add_sub_cancel, BitVec.toInt_eq_toNat_cond, BitVec.toNat_ofNat]
  split <;> split <;> omega

/-- A `<` with a `>` behind it, and what stands between them. -/
def closed (mid rest : List U8) : List U8 := charByte '<' :: (mid ++ charByte '>' :: rest)

theorem strchr_closed {mid : List U8} (h : charByte '>' ∉ mid) (rest : List U8) :
    strchr (closed mid rest) (charByte '>') = some (charByte '>' :: rest) := by
  have hpre : charByte '>' ∉ charByte '<' :: mid := List.not_mem_cons_of_ne_of_not_mem (by decide) h
  exact strchr_append hpre rest

/-- A token is cut to the buffer, unless its length does not fit an `int`. -/
theorem callHandler_closed {mid : List U8} (h : charByte '>' ∉ mid) (rest : List U8)
    (handler : Handler) :
    (FitsInt mid.length ∧ ∃ token, token.bytes = mid.take (tokenLen (mid.length + 1)).toNat ∧
        callHandler (closed mid rest) handler = .executed handler token (mid.length + 1)) ∨
      (¬ FitsInt mid.length ∧ callHandler (closed mid rest) handler = .overrun) := by
  have hdist : (closed mid rest).length - (charByte '>' :: rest).length = mid.length + 1 := by
    rw [closed, List.length_cons, List.length_append]
    omega
  rw [callHandler]
  simp only [strchr_closed h, hdist]
  by_cases hfits : FitsInt mid.length
  · have hneg : ¬ tokenLen (mid.length + 1) < 0 := fun hneg => tokenLen_neg.mp hneg hfits
    have hle := tokenLen_le hfits
    rw [copyToken, if_neg hneg]
    refine .inl ⟨hfits, _, ?_, rfl⟩
    show ((closed mid rest).drop 1).take _ = _
    rw [closed, List.drop_one, List.tail_cons, List.take_append_of_le_length (by omega)]
  · rw [copyToken, if_pos (tokenLen_neg.mpr hfits)]
    exact .inr ⟨hfits, rfl⟩

theorem callHandler_short {mid : List U8} (h : charByte '>' ∉ mid) (hlen : mid.length < 2048)
    (rest : List U8) (handler : Handler) :
    callHandler (closed mid rest) handler = .executed handler ⟨mid, hlen⟩ (mid.length + 1) := by
  have hfits : FitsInt mid.length := by
    rw [FitsInt]
    omega
  rcases callHandler_closed h rest handler with ⟨_, token, htoken, hcall⟩ | ⟨hno, _⟩
  · rw [tokenLen_of_lt hlen, Int.toNat_natCast, List.take_length] at htoken
    rw [hcall, show token = ⟨mid, hlen⟩ from Token.ext htoken]
  · exact absurd hfits hno

theorem tryActions_eq (p : List U8) (as : List ActionDef) : tryActions p as =
    (as.find? fun a => a.name.isPrefixOf (p.drop 1)).elim .passed fun a => callHandler p a.handler := by
  induction as with
  | nil => rfl
  | cons a as ih =>
    rw [tryActions, List.find?_cons]
    by_cases h : a.name.isPrefixOf (p.drop 1)
    · rw [if_pos h, h]
      rfl
    · rw [if_neg h, ih, Bool.eq_false_iff.mpr h]

/-! ### The scan -/

theorem scan_none {p : List U8} (h : charByte '<' ∉ p) : scan p = [] := by
  rw [scan]
  split
  · rfl
  · next p' hp =>
    rw [strchr_none h] at hp
    cases hp

theorem scan_append {pre : List U8} (h : charByte '<' ∉ pre) (rest : List U8) :
    scan (pre ++ charByte '<' :: rest) =
      ⟨charByte '<' :: rest, tryActions (charByte '<' :: rest) actions⟩ ::
        match tryActions (charByte '<' :: rest) actions with
        | .passed => scan rest
        | .executed _ _ dist => scan (rest.drop dist)
        | .overrun => [] := by
  rw [scan]
  split
  · next hp =>
    rw [strchr_append h] at hp
    cases hp
  · next p' hp =>
    rw [strchr_append h] at hp
    cases hp
    rfl

theorem scan_head (rest : List U8) : scan (charByte '<' :: rest) =
    ⟨charByte '<' :: rest, tryActions (charByte '<' :: rest) actions⟩ ::
      match tryActions (charByte '<' :: rest) actions with
      | .passed => scan rest
      | .executed _ _ dist => scan (rest.drop dist)
      | .overrun => [] := scan_append List.not_mem_nil rest

/-- At every stop the table is tried on a text that starts with `<`. -/
theorem mem_scan {p : List U8} {stop : Stop} (h : stop ∈ scan p) :
    stop.text.head? = some (charByte '<') ∧ stop.outcome = tryActions stop.text actions := by
  induction p using strchr_induct (charByte '<') with
  | missing p hnone =>
    rw [scan_none hnone] at h
    cases h
  | first pre rest hpre ih =>
    rw [scan_append hpre, List.mem_cons] at h
    rcases h with rfl | h
    · exact ⟨rfl, rfl⟩
    · split at h
      · exact ih rest List.suffix_rfl h
      · next dist _ => exact ih (rest.drop dist) (List.drop_suffix _ _) h
      · cases h

end AionOs
