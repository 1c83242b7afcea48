import AionOs.Action.Attributes
import AionOs.Action.Handlers

/-!
# Hexadecimal parameters

`act_audio_pcm` decodes pairs of digits; the colour of `act_display` is documented as
`0xRRGGBB`, but read by `parse_param_int`.

* `pcm_decoded`: the bytes of a token are the bytes that are played.
* `display_colour_iff`: which colours arrive.
-/

namespace AionOs

open Bytes CText

/-! ### Digits -/

theorem hexChar_plain : ∀ up : Bool, ∀ n < 16, hexChar up n ≠ 0 ∧ hexChar up n ≠ quote ∧
    hexChar up n ≠ charByte '<' ∧ hexChar up n ≠ charByte '>' := by decide

theorem hexText_plain {upper : Nat → Bool} {bs : List U8} {c : U8}
    (hc : c = quote ∨ c = charByte '>') : c ∉ hexText upper bs := by
  intro h
  obtain ⟨up, n, hn, rfl⟩ := mem_hexText h
  obtain ⟨_, hquote, _, hgt⟩ := hexChar_plain up n hn
  exact hc.elim hquote hgt

/-- Each of the digits, in 8-bit arithmetic. -/
theorem hexDigit_hexChar : ∀ up : Bool, ∀ n < 16, hexDigit (hexChar up n) = BitVec.ofNat 8 n := by decide

theorem join_halves (b : U8) :
    BitVec.ofNat 8 (b.toNat / 16) <<< 4 ||| BitVec.ofNat 8 (b.toNat % 16) = b := by
  revert b
  decide +kernel

/-- **The decoding loop.** -/
theorem pcmBytes_hexText {upper : Nat → Bool} {bs : List U8} {room : Nat} (h : bs.length ≤ room) :
    pcmBytes room (hexText upper bs) = bs := by
  induction bs generalizing upper room with
  | nil =>
    rw [hexText]
    unfold pcmBytes
    cases room <;> rfl
  | cons b bs ih =>
    rw [List.length_cons] at h
    cases room with
    | zero => omega
    | succ room =>
      have hb := b.isLt
      have hhigh : b.toNat / 16 < 16 := by omega
      have hlow : b.toNat % 16 < 16 := Nat.mod_lt _ (by omega)
      have hnonzero : ¬ (hexChar (upper 0) (b.toNat / 16) = 0 ∨ hexChar (upper 1) (b.toNat % 16) = 0) :=
        not_or.mpr ⟨(hexChar_plain _ _ hhigh).1, (hexChar_plain _ _ hlow).1⟩
      rw [hexText, pcmBytes, if_neg hnonzero, hexDigit_hexChar _ _ hhigh, hexDigit_hexChar _ _ hlow,
        join_halves, ih (by omega)]

/-! ### Raw samples -/

def pcmAction : NamedAction :=
  ⟨⟨ascii "ACT:AUDIO_PCM", .actAudioPcm⟩, by decide, by decide, by decide⟩

theorem data_plain : quote ∉ ascii "data" ∧ charByte '>' ∉ ascii "data" := by decide

theorem data_room : (ascii "data").length + 2 < 4096 ∧ (ascii "data").length + 2 ≤ 63 := by decide

def pcmData : StringParam := ⟨ascii "data", 4096, data_plain, data_room⟩

/-- `ACT:AUDIO_PCM data="hex(b)"` -/
def pcmToken (upper : Nat → Bool) (bs : List U8) : List U8 := pcmAction.token pcmData (hexText upper bs)

theorem length_pcmToken (upper : Nat → Bool) (bs : List U8) :
    (pcmToken upper bs).length = 21 + 2 * bs.length := by
  have hname : pcmAction.entry.name.length = 13 := rfl
  have hkey : pcmData.key.length = 4 := rfl
  rw [pcmToken, NamedAction.token, List.length_append, StringParam.length_quoted, length_hexText, hname,
    hkey]
  omega

section Run

variable {σ : Type} (fs : FileSystem σ)

/-- **Raw samples.**  For all bytes, with each digit in any case, and every text around the
token: what is played is these bytes. -/
theorem pcm_decoded (t : Surround) (upper : Nat → Bool) (bs : List U8)
    (hlen : (pcmToken upper bs).length ≤ 2047) (env : Nat → CallEnv) (s : HandlerSys σ) :
    (runCalls fs env 0 (actionParseAndExecute (some (t.text (pcmToken upper bs)))) s).driverCalls =
      s.driverCalls ++ [.audioPlayPcm bs 44100 1] := by
  have hlt : (pcmToken upper bs).length < 2048 := by omega
  have hcount : bs.length ≤ 2048 ∧ (hexText upper bs).length < pcmData.size := by
    have hsize : pcmData.size = 4096 := rfl
    rw [length_pcmToken] at hlen
    rw [length_hexText, hsize]
    omega
  have hread : parseParamStr ⟨pcmToken upper bs, hlt⟩ (ascii "data") 4096 = some (hexText upper bs) :=
    StringParam.read_first (p := pcmData) pcmAction.plain (hexText_plain (.inl rfl)) hcount.2
      (List.append_nil _).symm
  rw [pcmToken, pcmAction.calls pcmData t (hexText_plain (.inr rfl)) hlt]
  show (actAudioPcm ⟨pcmToken upper bs, hlt⟩ s).driverCalls = _
  rw [actAudioPcm, hread]
  show s.driverCalls ++ [.audioPlayPcm (pcmBytes 2048 (hexText upper bs)) 44100 1] = _
  rw [pcmBytes_hexText hcount.1]

end Run

theorem pcm_decoded_sample : (runCalls sampleFs (fun _ => quietEnv) 0
      (actionParseAndExecute (some (Surround.nothing.text (pcmToken (fun i => i % 2 = 0) [0xab, 0x09]))))
      handlerStart).driverCalls =
    handlerStart.driverCalls ++ [.audioPlayPcm [0xab, 0x09] 44100 1] :=
  pcm_decoded sampleFs Surround.nothing (fun i => i % 2 = 0) [0xab, 0x09]
    (by rw [length_pcmToken]; decide) (fun _ => quietEnv) handlerStart

/-! ### Colours -/

/-- `0xRRGGBB` -/
def colourText (upper : Nat → Bool) (c : BitVec 24) : List U8 :=
  ascii "0x" ++ hexText upper [(c >>> 16).truncate 8, (c >>> 8).truncate 8, c.truncate 8]

/-- `ACT:DISPLAY color=0xRRGGBB` -/
def colourHead (upper : Nat → Bool) (c : BitVec 24) : List U8 :=
  ascii "ACT:DISPLAY" ++ charByte ' ' :: (ascii "color" ++ charByte '=' :: colourText upper c)

/-- `ACT:DISPLAY color=0xRRGGBB text="…"` -/
def displayToken (upper : Nat → Bool) (c : BitVec 24) (text : List U8) : List U8 :=
  colourHead upper c ++ displayText.quoted text

theorem colourHead_eq (upper : Nat → Bool) (c : BitVec 24) : colourHead upper c =
    ascii "ACT:DISPLAY color=0x" ++ hexText upper [(c >>> 16).truncate 8, (c >>> 8).truncate 8, c.truncate 8] := by
  have hfront : ascii "ACT:DISPLAY color=0x" =
      ascii "ACT:DISPLAY" ++ charByte ' ' :: (ascii "color" ++ charByte '=' :: ascii "0x") := by
    decide +kernel
  rw [colourHead, colourText, hfront, List.append_assoc, List.cons_append, List.append_assoc,
    List.cons_append]

theorem colourHead_plain {upper : Nat → Bool} {c : BitVec 24} {b : U8}
    (hb : b = quote ∨ b = charByte '>') : b ∉ colourHead upper c := by
  have hhex := @hexText_plain upper [(c >>> 16).truncate 8, (c >>> 8).truncate 8, c.truncate 8] b hb
  have hfront : b ∉ ascii "ACT:DISPLAY color=0x" := by
    rcases hb with rfl | rfl
    · decide +kernel
    · decide +kernel
  rw [colourHead_eq, List.mem_append, not_or]
  exact ⟨hfront, hhex⟩

theorem length_displayToken (upper : Nat → Bool) (c : BitVec 24) (text : List U8) :
    (displayToken upper c text).length = 34 + text.length := by
  have hhead : (colourHead upper c).length = 26 := by
    rw [colourHead_eq, List.length_append, length_hexText]
    rfl
  have hkey : displayText.key.length = 4 := rfl
  rw [displayToken, List.length_append, StringParam.length_quoted, hhead, hkey]
  omega

/-- The digits end at the `x`. -/
theorem paramInt_colour {upper : Nat → Bool} {c : BitVec 24} {text : List U8} {token : Token}
    (ht : token.bytes = displayToken upper c text) : paramInt token (ascii "color") 0xFFFFFFFF = 0 := by
  have hbytes : token.bytes = ascii "ACT:DISPLAY" ++ (charByte ' ' :: (ascii "color" ++
      charByte '=' :: (colourText upper c ++ displayText.quoted text))) := by
    rw [ht, displayToken, colourHead, List.append_assoc, List.cons_append, List.append_assoc,
      List.cons_append]
  have hbehind := (behind_iff (by decide) (by decide) hbytes).mpr ⟨by decide, by decide⟩
  have hzero : colourText upper c ++ displayText.quoted text = ascii "0" ++ (charByte 'x' ::
      (hexText upper [(c >>> 16).truncate 8, (c >>> 8).truncate 8, c.truncate 8] ++
        displayText.quoted text)) := rfl
  have hread : readDigits 0 (colourText upper c ++ displayText.quoted text) = 0 := by
    rw [hzero]
    exact readDigits_numeral ⟨ascii "0", by decide, by decide⟩ (by simp [DigitsEnd]; decide)
  rw [paramInt, parseParamInt_eq, show behind token (intSearch (ascii "color")) = _ from hbehind,
    Option.map_some, Option.getD_some, hread]

section Colour

variable {σ : Type} (fs : FileSystem σ)

theorem displayed_eq (t : Surround) (upper : Nat → Bool) (c : BitVec 24) (text : PlainText 511)
    (env : Nat → CallEnv) (s : HandlerSys σ) :
    (runCalls fs env 0 (actionParseAndExecute (some (t.text (displayToken upper c text.bytes)))) s).driverCalls =
      s.driverCalls ++ [.displayPrintString text.bytes 0] := by
  obtain ⟨hquote, hgt⟩ := text.not_mem
  have hle := text.le
  have hlt : (displayToken upper c text.bytes).length < 2048 := by
    rw [length_displayToken]
    omega
  have hplain : charByte '>' ∉ displayToken upper c text.bytes := by
    rw [displayToken, List.mem_append, not_or]
    exact ⟨colourHead_plain (.inr rfl), displayText.quoted_gt hgt⟩
  have hmatch : matchAt (displayToken upper c text.bytes ++ charByte '>' :: t.after) =
      some displayAction.entry := by
    rw [displayToken, colourHead, List.append_assoc, List.append_assoc, List.cons_append]
    exact matchAt_name displayAction.mem displayAction.first (.inl rfl) _
  have hsize : text.bytes.length < displayText.size := by
    show text.bytes.length < 512
    omega
  have hread : parseParamStr ⟨displayToken upper c text.bytes, hlt⟩ (ascii "text") 512 = some text.bytes :=
    StringParam.read_first (p := displayText) (colourHead_plain (.inl rfl)) hquote hsize
      (List.append_nil _).symm
  have hcolour := @paramInt_colour upper c text.bytes ⟨displayToken upper c text.bytes, hlt⟩ rfl
  rw [calls_matched t hplain hlt hmatch]
  show (actDisplay ⟨displayToken upper c text.bytes, hlt⟩ s).driverCalls = _
  rw [actDisplay, hcolour, paramStr, hread]
  rfl

/-- **Colours.**  For every text around the token, every colour in either case and every text
that fits its buffer: the text is displayed in this colour if and only if the colour is zero. -/
theorem display_colour_iff (t : Surround) (upper : Nat → Bool) (c : BitVec 24) (text : PlainText 511)
    (env : Nat → CallEnv) (s : HandlerSys σ) :
    (runCalls fs env 0 (actionParseAndExecute (some (t.text (displayToken upper c text.bytes)))) s).driverCalls =
      s.driverCalls ++ [.displayPrintString text.bytes (c.zeroExtend 32)] ↔ c = 0 := by
  rw [displayed_eq]
  constructor
  · intro h
    have hsame : (0 : U32) = c.zeroExtend 32 := by simpa using h
    have hnat := congrArg BitVec.toNat hsame
    have hc := c.isLt
    rw [BitVec.zeroExtend, BitVec.toNat_setWidth, Nat.mod_eq_of_lt (by omega)] at hnat
    exact BitVec.eq_of_toNat_eq hnat.symm
  · rintro rfl
    rfl

end Colour

/-- White is black. -/
theorem display_colour_lost : (runCalls sampleFs (fun _ => quietEnv) 0 (actionParseAndExecute
      (some (Surround.nothing.text (displayToken (fun _ => true) 0xFFFFFF (ascii "hi"))))) handlerStart).driverCalls ≠
    handlerStart.driverCalls ++ [.displayPrintString (ascii "hi") 0xFFFFFF] := by
  have hshown := displayed_eq sampleFs Surround.nothing (fun _ => true) 0xFFFFFF
    ⟨ascii "hi", by decide, by decide⟩ (fun _ => quietEnv) handlerStart
  rw [hshown]
  simp

end AionOs
