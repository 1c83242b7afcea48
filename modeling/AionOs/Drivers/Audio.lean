import AionOs.Action.Handlers

/-!
# The audio driver

`audio_play_tone` of `kernel/drivers/audio/audio.c`, in 32-bit arithmetic.  A division by zero
gives no result at all.

* `toneLoop_isSome`, `audioPlayTone_isSome`: when a tone is computed.
* `tones_return_iff`: the texts whose tones are all computed.
* `tone_length_iff`: the durations for which a tone has the length that is asked for.
-/

namespace AionOs

open Bytes

/-! ### The code -/

def divide (a b : U32) : Option U32 := if b = 0 then none else some (a / b)

def remainder (a b : U32) : Option U32 := if b = 0 then none else some (a % b)

structure PcmCall where
  samples : List (BitVec 16)
  len : U32
  sampleRate : U32
  channels : U8
  deriving DecidableEq

def toneLoop (period : U32) (volume : U8) : Nat → U32 → Option (List (BitVec 16))
  | 0, _ => some []
  | n + 1, i => do
    let r ← remainder i period
    let level : BitVec 16 := volume.zeroExtend 16 * 128
    let rest ← toneLoop period volume n (i + 1)
    some ((if r < period / 2 then level else -level) :: rest)

/-- `audio_play_tone`: the calls of `audio_play_pcm`. -/
def audioPlayTone (hdaReady : Bool) (hz ms : U32) (volume : U8) : Option (List PcmCall) :=
  if hdaReady = false then some []
  else do
    let sampleRate : U32 := 44100
    let samples := sampleRate * ms / 1000
    let period ← divide sampleRate hz
    let samples := if samples > 44100 then 44100 else samples
    let pcmBuf ← toneLoop period volume samples.toNat 0
    some [⟨pcmBuf, samples * 2, sampleRate, 1⟩]

/-! ### Tones -/

theorem toneLoop_isSome {period : U32} {volume : U8} {n : Nat} {i : U32} :
    (toneLoop period volume n i).isSome ↔ n = 0 ∨ period ≠ 0 := by
  induction n generalizing i with
  | zero => simp [toneLoop]
  | succ n ih =>
    rw [toneLoop, remainder, or_iff_right (Nat.succ_ne_zero n)]
    by_cases hp : period = 0
    · rw [if_pos hp]
      simp [hp]
    · have htail : (toneLoop period volume n (i + 1)).isSome := ih.mpr (.inr hp)
      obtain ⟨rest, hrest⟩ := Option.isSome_iff_exists.mp htail
      rw [if_neg hp, Option.bind_eq_bind, Option.bind_some, hrest]
      exact ⟨fun _ => hp, fun _ => rfl⟩

/-- A frequency and a duration without a division by zero. -/
def Playable (hz ms : U32) : Prop := hz ≠ 0 ∧ (hz.toNat ≤ 44100 ∨ 44100 * ms.toNat % 2 ^ 32 < 1000)

instance (hz ms : U32) : Decidable (Playable hz ms) := inferInstanceAs (Decidable (_ ∧ _))

/-- `samples`, cut to the buffer. -/
def toneSamples (ms : U32) : U32 :=
  if (44100 : U32) * ms / 1000 > 44100 then 44100 else 44100 * ms / 1000

theorem audioPlayTone_ready (hz ms : U32) (volume : U8) : audioPlayTone true hz ms volume =
    (divide 44100 hz).bind fun period => (toneLoop period volume (toneSamples ms).toNat 0).bind fun pcmBuf =>
      some [⟨pcmBuf, toneSamples ms * 2, 44100, 1⟩] := rfl

theorem toNat_toneSamples (ms : U32) :
    (toneSamples ms).toNat = min 44100 (44100 * ms.toNat % 2 ^ 32 / 1000) := by
  have hsamples : ((44100 : U32) * ms / 1000).toNat = 44100 * ms.toNat % 2 ^ 32 / 1000 := by
    rw [BitVec.toNat_udiv, BitVec.toNat_mul]
    rfl
  have hmax : (44100 : U32).toNat = 44100 := rfl
  have hlong : (44100 : U32) * ms / 1000 > 44100 ↔ 44100 < 44100 * ms.toNat % 2 ^ 32 / 1000 := by
    rw [gt_iff_lt, BitVec.lt_def, hmax, hsamples]
  rw [toneSamples]
  split
  · next h =>
    have := hlong.mp h
    rw [hmax]
    omega
  · next h =>
    have := mt hlong.mpr h
    rw [hsamples]
    omega

/-- Nothing is computed for less than a sample. -/
theorem toneSamples_eq_zero (ms : U32) : (toneSamples ms).toNat = 0 ↔ 44100 * ms.toNat % 2 ^ 32 < 1000 := by
  rw [toNat_toneSamples]
  omega

/-- The period is zero above the sample rate. -/
theorem period_eq_zero {hz : U32} (h : hz ≠ 0) : (44100 : U32) / hz = 0 ↔ 44100 < hz.toNat := by
  have hpos : 0 < hz.toNat := Nat.pos_of_ne_zero fun hz' => h (BitVec.eq_of_toNat_eq hz')
  have hdiv : ((44100 : U32) / hz).toNat = 44100 / hz.toNat := BitVec.toNat_udiv
  rw [← BitVec.toNat_inj, hdiv]
  show 44100 / hz.toNat = 0 ↔ _
  rw [Nat.div_eq_zero_iff]
  omega

/-- **When a tone is computed.** -/
theorem audioPlayTone_isSome (hz ms : U32) (volume : U8) :
    (audioPlayTone true hz ms volume).isSome ↔ Playable hz ms := by
  rw [audioPlayTone_ready, Playable]
  by_cases hzero : hz = 0
  · rw [show divide 44100 hz = none from if_pos hzero]
    exact ⟨fun h => absurd h (by simp), fun h => absurd hzero h.1⟩
  · have hloop : ((toneLoop (44100 / hz) volume (toneSamples ms).toNat 0).bind fun pcmBuf =>
        some [(⟨pcmBuf, toneSamples ms * 2, 44100, 1⟩ : PcmCall)]).isSome ↔
          (toneLoop (44100 / hz) volume (toneSamples ms).toNat 0).isSome := by
      cases toneLoop (44100 / hz) volume (toneSamples ms).toNat 0 <;> rfl
    rw [show divide 44100 hz = some (44100 / hz) from if_neg hzero, Option.bind_some, hloop, toneLoop_isSome,
      toneSamples_eq_zero, ne_eq, period_eq_zero hzero, and_iff_right hzero]
    omega

/-! ### The length of a tone -/

/-- The level of a sample, in 16-bit arithmetic. -/
def toneLevel (volume : U8) : BitVec 16 := volume.zeroExtend 16 * 128

theorem toInt_toneLevel (volume : U8) : (toneLevel volume).toInt = volume.toNat * 128 ∧
    (-toneLevel volume).toInt = -(volume.toNat * 128) := by
  have hv := volume.isLt
  have hlevel : (toneLevel volume).toNat = volume.toNat * 128 := by
    rw [toneLevel, BitVec.zeroExtend, BitVec.toNat_mul, BitVec.toNat_setWidth]
    show volume.toNat % 2 ^ 16 * 128 % 2 ^ 16 = _
    omega
  rw [BitVec.toInt_eq_toNat_cond, BitVec.toInt_eq_toNat_cond, BitVec.toNat_neg, hlevel]
  refine ⟨?_, ?_⟩
  · split <;> omega
  · split <;> omega

theorem toneLoop_spec {period : U32} {volume : U8} {n : Nat} {i : U32} {l : List (BitVec 16)}
    (h : toneLoop period volume n i = some l) :
    l.length = n ∧ ∀ x ∈ l, x = toneLevel volume ∨ x = -toneLevel volume := by
  induction n generalizing i l with
  | zero =>
    cases h
    exact ⟨rfl, List.forall_mem_nil _⟩
  | succ n ih =>
    rw [toneLoop, Option.bind_eq_bind, Option.bind_eq_some_iff] at h
    obtain ⟨r, _, h⟩ := h
    rw [Option.bind_eq_bind, Option.bind_eq_some_iff] at h
    obtain ⟨rest, hrest, h⟩ := h
    cases h
    obtain ⟨hlen, hall⟩ := ih hrest
    refine ⟨congrArg (· + 1) hlen, List.forall_mem_cons.mpr ⟨?_, hall⟩⟩
    by_cases hlow : r < period / 2
    · exact .inl (if_pos hlow)
    · exact .inr (if_neg hlow)

/-- One call with the samples of the duration, cut to a second, each of them at the volume. -/
def ToneRight (ms : U32) (volume : U8) (calls : Option (List PcmCall)) : Prop :=
  ∃ call, calls = some [call] ∧
    call.len.toNat = 2 * min 44100 (44100 * ms.toNat / 1000) ∧
    call.samples.length = min 44100 (44100 * ms.toNat / 1000) ∧
    ∀ x ∈ call.samples, x.toInt = volume.toNat * 128 ∨ x.toInt = -(volume.toNat * 128)

/-- The product of the rate and the duration fits 32 bits, or what is left of it is a second or
more. -/
def WholeTone (ms : U32) : Prop := 44100 * ms.toNat < 2 ^ 32 ∨ 44100000 ≤ 44100 * ms.toNat % 2 ^ 32

instance (ms : U32) : Decidable (WholeTone ms) := inferInstanceAs (Decidable (_ ∨ _))

theorem audioPlayTone_call {hz : U32} (h : 0 < hz.toNat ∧ hz.toNat ≤ 44100) (ms : U32) (volume : U8) :
    ∃ samples, audioPlayTone true hz ms volume = some [⟨samples, toneSamples ms * 2, 44100, 1⟩] ∧
      samples.length = (toneSamples ms).toNat ∧
      ∀ x ∈ samples, x = toneLevel volume ∨ x = -toneLevel volume := by
  have hzero : hz ≠ 0 := by
    rintro rfl
    exact absurd h.1 (by decide)
  have hperiod : (44100 : U32) / hz ≠ 0 := fun hp => absurd ((period_eq_zero hzero).mp hp) (by omega)
  have hsome : (toneLoop (44100 / hz) volume (toneSamples ms).toNat 0).isSome :=
    toneLoop_isSome.mpr (.inr hperiod)
  obtain ⟨samples, hsamples⟩ := Option.isSome_iff_exists.mp hsome
  have hcall : audioPlayTone true hz ms volume = some [⟨samples, toneSamples ms * 2, 44100, 1⟩] := by
    rw [audioPlayTone_ready, show divide 44100 hz = some (44100 / hz) from if_neg hzero, Option.bind_some,
      hsamples, Option.bind_some]
  exact ⟨samples, hcall, toneLoop_spec hsamples⟩

theorem toneRight_iff {hz : U32} (h : 0 < hz.toNat ∧ hz.toNat ≤ 44100) (ms : U32) (volume : U8) :
    ToneRight ms volume (audioPlayTone true hz ms volume) ↔ WholeTone ms := by
  obtain ⟨samples, hcall, hlen, hall⟩ := audioPlayTone_call h ms volume
  have hnum := toNat_toneSamples ms
  have hwhole : (toneSamples ms).toNat = min 44100 (44100 * ms.toNat / 1000) ↔ WholeTone ms := by
    rw [hnum, WholeTone]
    by_cases hfits : 44100 * ms.toNat < 2 ^ 32
    · rw [Nat.mod_eq_of_lt hfits]
      exact ⟨fun _ => .inl hfits, fun _ => rfl⟩
    · -- the duration is more than a second
      have hlong : 44100 ≤ 44100 * ms.toNat / 1000 := (Nat.le_div_iff_mul_le (by omega)).mpr (by omega)
      rw [Nat.min_eq_left hlong, or_iff_right hfits]
      generalize 44100 * ms.toNat % 2 ^ 32 = left
      omega
  have hbytes : (toneSamples ms * 2).toNat = 2 * (toneSamples ms).toNat := by
    rw [BitVec.toNat_mul]
    show (toneSamples ms).toNat * 2 % 2 ^ 32 = _
    omega
  rw [← hwhole, ToneRight, hcall]
  constructor
  · rintro ⟨call, hsame, _, hcount, _⟩
    cases hsame
    exact hlen.symm.trans hcount
  · intro hright
    refine ⟨_, rfl, by rw [hbytes, hright], hlen.trans hright, fun x hx => ?_⟩
    obtain ⟨hup, hdown⟩ := toInt_toneLevel volume
    rcases hall x hx with rfl | rfl
    · exact .inl hup
    · exact .inr hdown

/-- **The length of a tone.**  For every frequency up to the sample rate, every duration and
every volume: the samples are those of the duration, cut to a second, at the volume, if and only
if the product of the rate and the duration fits 32 bits, or a second is left of it. -/
theorem tone_length_iff (hz ms : U32) (h : 0 < hz.toNat ∧ hz.toNat ≤ 44100) (volume : U8) :
    ToneRight ms volume (audioPlayTone true hz ms volume) ↔ WholeTone ms :=
  toneRight_iff h ms volume

theorem tone_length_sample :
    ToneRight 1000 64 (audioPlayTone true 440 1000 64) ↔ WholeTone 1000 :=
  tone_length_iff 440 1000 (by decide) 64

/-- A minute and a half is cut to a second, a little more is not half a millisecond. -/
theorem tone_shortened : ToneRight 97391 64 (audioPlayTone true 440 97391 64) ∧
    ¬ ToneRight 97392 64 (audioPlayTone true 440 97392 64) := by
  rw [toneRight_iff (by decide), toneRight_iff (by decide)]
  decide

/-! ### The tones of a text -/

/-- A call into the driver comes back. -/
def DriverCall.Returns : DriverCall → Prop
  | .audioPlayTone hz ms volume => (AionOs.audioPlayTone true hz ms volume).isSome
  | _ => True

section Run

variable {σ : Type}

theorem audioFreq_returns_iff (token : Token) (s : HandlerSys σ) :
    (∀ c ∈ (actAudioFreq token s).driverCalls.drop s.driverCalls.length, c.Returns) ↔
      Playable ((paramInt token (ascii "hz") 440).truncate 32) ((paramInt token (ascii "ms") 100).truncate 32) := by
  have hcalls : (actAudioFreq token s).driverCalls.drop s.driverCalls.length =
      [.audioPlayTone ((paramInt token (ascii "hz") 440).truncate 32)
        ((paramInt token (ascii "ms") 100).truncate 32) ((paramInt token (ascii "volume") 64).truncate 8)] :=
    List.drop_left
  rw [hcalls, List.forall_mem_singleton]
  exact audioPlayTone_isSome _ _ _

/-- **Tones.**  For every text and every state of the handlers, with the controller ready: no
call of `audio_play_tone` divides by zero, if and only if in each token of a tone the frequency
is not zero modulo `2 ^ 32` and, if it is above 44100 there, the duration gives no sample. -/
theorem tones_return_iff (output : List U8) (s : HandlerSys σ) :
    (∀ token, (.actAudioFreq, token) ∈ actionParseAndExecute (some output) →
      ∀ c ∈ (actAudioFreq token s).driverCalls.drop s.driverCalls.length, c.Returns) ↔
    ∀ token, (.actAudioFreq, token) ∈ actionParseAndExecute (some output) →
      Playable ((paramInt token (ascii "hz") 440).truncate 32)
        ((paramInt token (ascii "ms") 100).truncate 32) :=
  forall₂_congr fun token _ => audioFreq_returns_iff token s

end Run

theorem tone_fault {mid : List U8} (hgt : charByte '>' ∉ mid) (hlen : mid.length < 2048)
    (hmatch : matchAt (mid ++ [charByte '>']) = some ⟨ascii "ACT:AUDIO_FREQ", .actAudioFreq⟩)
    (hplay : ¬ Playable ((paramInt ⟨mid, hlen⟩ (ascii "hz") 440).truncate 32)
      ((paramInt ⟨mid, hlen⟩ (ascii "ms") 100).truncate 32)) :
    (.actAudioFreq, ⟨mid, hlen⟩) ∈ actionParseAndExecute (some (closed mid [])) ∧
      ¬ ∀ c ∈ (actAudioFreq ⟨mid, hlen⟩ handlerStart).driverCalls.drop handlerStart.driverCalls.length,
        c.Returns := by
  have hcalls := calls_matched Surround.nothing hgt hlen hmatch
  have htext : Surround.nothing.text mid = closed mid [] := rfl
  rw [htext] at hcalls
  rw [hcalls, audioFreq_returns_iff]
  exact ⟨List.mem_singleton_self _, hplay⟩

def silentToken : Token := ⟨ascii "ACT:AUDIO_FREQ hz=0", by decide⟩

def shrillToken : Token := ⟨ascii "ACT:AUDIO_FREQ hz=50000", by decide⟩

/-- Both of the divisions fault. -/
theorem tones_fault :
    ((.actAudioFreq, silentToken) ∈ actionParseAndExecute (some (closed silentToken.bytes [])) ∧
      ¬ ∀ c ∈ (actAudioFreq silentToken handlerStart).driverCalls.drop handlerStart.driverCalls.length,
        c.Returns) ∧
    ((.actAudioFreq, shrillToken) ∈ actionParseAndExecute (some (closed shrillToken.bytes [])) ∧
      ¬ ∀ c ∈ (actAudioFreq shrillToken handlerStart).driverCalls.drop handlerStart.driverCalls.length,
        c.Returns) :=
  ⟨tone_fault (by decide) silentToken.lt (by decide) (by decide),
    tone_fault (by decide) shrillToken.lt (by decide) (by decide)⟩

end AionOs
