import AionOs.Action.Attributes
import AionOs.Action.Handlers

/-!
# Numbers

`parse_param_int` reads a numeral modulo `2 ^ 64`, and the handlers cast the result to 32 or to
8 bits; only the importance of a memory is compared with its bound.

* `paramInt_given`: the number of a numeral.
* `mod_eq_min_iff`: a cast against the largest value of its type.
* `numbers_iff`: when a numeral arrives, or the largest value.
-/

namespace AionOs

open Bytes CText

/-! ### Casts -/

/-- The first `key=` of a token stands before this numeral. -/
def Given (token : Token) (key : List U8) (n : Numeral) : Prop :=
  ∃ rest, behind token (intSearch key) = some (n.digits ++ rest) ∧ DigitsEnd rest

theorem paramInt_given {token : Token} {key : List U8} {n : Numeral} (h : Given token key n)
    (default : U64) : paramInt token key default = BitVec.ofNat 64 n.val := by
  obtain ⟨rest, hbehind, hend⟩ := h
  rw [paramInt, parseParamInt_eq, hbehind, Option.map_some, readDigits_numeral n hend, Option.getD_some]

theorem toNat_truncate_ofNat {w : Nat} (hw : w ≤ 64) (n : Nat) :
    ((BitVec.ofNat 64 n).truncate w).toNat = n % 2 ^ w := by
  rw [BitVec.truncate_eq_setWidth, BitVec.toNat_setWidth, BitVec.toNat_ofNat,
    Nat.mod_mod_of_dvd _ (Nat.pow_dvd_pow 2 hw)]

theorem given_truncate {token : Token} {key : List U8} {n : Numeral} (h : Given token key n)
    (default : U64) {w : Nat} (hw : w ≤ 64) :
    ((paramInt token key default).truncate w).toNat = n.val % 2 ^ w := by
  rw [paramInt_given h, toNat_truncate_ofNat hw]

/-- A number modulo the largest one and one against the smaller of the two. -/
theorem mod_eq_min_iff (n max : Nat) : n % (max + 1) = min n max ↔ n ≤ max ∨ n % (max + 1) = max := by
  by_cases h : n ≤ max
  · rw [Nat.mod_eq_of_lt (by omega), Nat.min_eq_left h]
    exact ⟨fun _ => .inl h, fun _ => rfl⟩
  · rw [Nat.min_eq_right (by omega)]
    exact ⟨.inr, fun hc => hc.resolve_left h⟩

theorem importance_iff (n : Nat) : (if (BitVec.ofNat 64 n).toInt > 255 then (255 : U8)
      else (BitVec.ofNat 64 n).truncate 8).toNat = min n 255 ↔
    n ≤ 255 ∨ (256 ≤ n % 2 ^ 64 ∧ n % 2 ^ 64 < 2 ^ 63) ∨ n % 256 = 255 := by
  have hbyte := toNat_truncate_ofNat (w := 8) (by omega) n
  have hint : (BitVec.ofNat 64 n).toInt > 255 ↔ 256 ≤ n % 2 ^ 64 ∧ n % 2 ^ 64 < 2 ^ 63 := by
    rw [BitVec.toInt_eq_toNat_cond, BitVec.toNat_ofNat]
    split <;> omega
  by_cases hclamped : (BitVec.ofNat 64 n).toInt > 255
  · have hlarge := hint.mp hclamped
    have hmax : (255 : U8).toNat = 255 := rfl
    rw [if_pos hclamped, hmax, Nat.min_eq_right (by omega)]
    exact ⟨fun _ => .inr (.inl hlarge), fun _ => rfl⟩
  · rw [if_neg hclamped, hbyte, or_iff_right (a := 256 ≤ n % 2 ^ 64 ∧ n % 2 ^ 64 < 2 ^ 63)
      (fun h => hclamped (hint.mpr h))]
    exact mod_eq_min_iff n 255

/-! ### The parameters -/

inductive NumParam where
  | hz
  | ms
  | volume
  | x
  | y
  | importance
  deriving DecidableEq

def NumParam.key : NumParam → List U8
  | .hz => ascii "hz"
  | .ms => ascii "ms"
  | .volume => ascii "volume"
  | .x => ascii "x"
  | .y => ascii "y"
  | .importance => ascii "importance"

def NumParam.max : NumParam → Nat
  | .hz | .ms | .x | .y => 2 ^ 32 - 1
  | .volume | .importance => 255

def NumParam.handler : NumParam → Handler
  | .hz | .ms | .volume => .actAudioFreq
  | .x | .y => .actDisplayPixel
  | .importance => .actMemoryStore

def NumParam.ofCall : NumParam → DriverCall → Option Nat
  | .hz, .audioPlayTone v _ _ => some v.toNat
  | .ms, .audioPlayTone _ v _ => some v.toNat
  | .volume, .audioPlayTone _ _ v => some v.toNat
  | .x, .displaySetPixel v _ _ => some v.toNat
  | .y, .displaySetPixel _ v _ => some v.toNat
  | _, _ => none

section Numbers

variable {σ : Type} (fs : FileSystem σ)

/-- The handler hands on the number, or the largest one of the type; or it hands on nothing. -/
def Saturates (p : NumParam) (token : Token) (n : Nat) (env : CallEnv) (s : HandlerSys σ) : Prop :=
  let s' := p.handler.run fs token env s
  match p with
  | .importance => (memoryStoreEntry token).importance.toNat = min n 255
  | p => s'.driverCalls = s.driverCalls ∨
      ∃ c, s'.driverCalls = s.driverCalls ++ [c] ∧ p.ofCall c = some (min n p.max)

/-- The number fits, or it happens to wrap to the largest one. -/
def NumParam.Fits (p : NumParam) (n : Nat) : Prop :=
  match p with
  | .importance => n ≤ 255 ∨ (256 ≤ n % 2 ^ 64 ∧ n % 2 ^ 64 < 2 ^ 63) ∨ n % 256 = 255
  | p => n ≤ p.max ∨ n % (p.max + 1) = p.max

theorem handed_iff {p : NumParam} {calls : List DriverCall} {c : DriverCall} {n v : Nat}
    (hc : p.ofCall c = some v) (hv : v = n % (p.max + 1)) : (calls ++ [c] = calls ∨
      ∃ c', calls ++ [c] = calls ++ [c'] ∧ p.ofCall c' = some (min n p.max)) ↔
    n ≤ p.max ∨ n % (p.max + 1) = p.max := by
  rw [← mod_eq_min_iff, ← hv]
  constructor
  · rintro (h | ⟨c', h, hn⟩)
    · have := congrArg List.length h
      rw [List.length_append, List.length_singleton] at this
      omega
    · have hsame : c = c' := by simpa using h
      rw [← hsame, hc, Option.some.injEq] at hn
      exact hn
  · intro hn
    exact .inr ⟨c, rfl, hn ▸ hc⟩

/-- **Numbers.**  For every token and every numeral of any length in it: a handler hands on
the number, or the largest value of the type, if and only if the number fits the type or is
congruent to the largest value; an importance that fits 63 bits is cut to its bound. -/
theorem numbers_iff (p : NumParam) (token : Token) (n : Numeral) (h : Given token p.key n)
    (env : CallEnv) (s : HandlerSys σ) : Saturates fs p token n.val env s ↔ p.Fits n.val := by
  cases p with
  | importance =>
    show (if (paramInt token (ascii "importance") 1).toInt > 255 then (255 : U8)
      else (paramInt token (ascii "importance") 1).truncate 8).toNat = min n.val 255 ↔ _
    rw [show paramInt token (ascii "importance") 1 = _ from paramInt_given h 1]
    exact importance_iff n.val
  | hz => exact handed_iff rfl (given_truncate h 440 (by omega))
  | ms => exact handed_iff rfl (given_truncate h 100 (by omega))
  | volume => exact handed_iff rfl (given_truncate h 64 (by omega))
  | x => exact handed_iff rfl (given_truncate h 0 (by omega))
  | y => exact handed_iff rfl (given_truncate h 0 (by omega))

end Numbers

/-- `2 ^ 32` -/
def wrapsTone : Numeral := ⟨ascii "4294967296", by decide, by decide⟩

def toneToken : Token := ⟨ascii "ACT:AUDIO_FREQ hz=4294967296", by decide⟩

/-- `2 ^ 63` -/
def wrapsImportance : Numeral := ⟨ascii "9223372036854775808", by decide, by decide⟩

def importanceToken : Token := ⟨ascii "ACT:MEMORY_STORE importance=9223372036854775808", by decide⟩

theorem given_toneToken : Given toneToken NumParam.hz.key wrapsTone :=
  ⟨[], by decide +kernel, by simp [DigitsEnd]⟩

theorem given_importanceToken : Given importanceToken NumParam.importance.key wrapsImportance :=
  ⟨[], by decide +kernel, by simp [DigitsEnd]⟩

theorem numbers_sample : Saturates sampleFs .hz toneToken wrapsTone.val quietEnv handlerStart ↔
    NumParam.hz.Fits wrapsTone.val :=
  numbers_iff sampleFs .hz toneToken wrapsTone given_toneToken quietEnv handlerStart

/-- A frequency of `2 ^ 32` becomes none, and an importance of `2 ^ 63` the least one. -/
theorem numbers_wrap :
    (Given toneToken NumParam.hz.key wrapsTone ∧
      ¬ Saturates sampleFs .hz toneToken wrapsTone.val quietEnv handlerStart) ∧
    (Given importanceToken NumParam.importance.key wrapsImportance ∧
      ¬ Saturates sampleFs .importance importanceToken wrapsImportance.val quietEnv handlerStart) := by
  have htone : wrapsTone.val = 4294967296 := by decide
  have himportance : wrapsImportance.val = 9223372036854775808 := by decide
  refine ⟨⟨given_toneToken, fun h => ?_⟩, given_importanceToken, fun h => ?_⟩
  · have hfits := (handed_iff rfl (given_truncate given_toneToken 440 (by omega))).mp h
    rw [htone] at hfits
    exact absurd hfits (by unfold NumParam.max; decide)
  · have hbyte : (memoryStoreEntry importanceToken).importance = 0 := by decide +kernel
    have hmin : (memoryStoreEntry importanceToken).importance.toNat = min wrapsImportance.val 255 := h
    rw [hbyte, himportance] at hmin
    exact absurd hmin (by decide)

end AionOs
