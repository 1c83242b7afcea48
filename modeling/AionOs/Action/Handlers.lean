import AionOs.Action.Recall

/-!
# The handlers

The fourteen functions behind the table of `consciousness/core/action.c`.  What they call
outside the consciousness is kept as a list; what comes back from outside is part of the call.

* `run_results`: a handler leaves the results alone, or records one of `resultFormats`.
* `not_fedBack`: no result is in a text without capital letters.
* `calls_nil_iff`: the texts in which no action is found.
-/

namespace AionOs

open Bytes CText

/-! ### The code -/

inductive DriverCall where
  | displayPrintString (text : List U8) (color : U32)
  | displaySetPixel (x y color : U32)
  | displayClear
  | audioPlayTone (hz ms : U32) (volume : U8)
  | audioPlayPcm (data : List U8) (sampleRate : U32) (channels : U8)
  | audioStop
  | fsReadFile (path : List U8)
  | fsWriteFileUsb (path data : List U8)
  | networkHttpGet (url : List U8)
  | wrmsr (msr low high : U32)
  deriving DecidableEq

structure HandlerSys (σ : Type) extends ActionSys σ where
  driverCalls : List DriverCall

/-- What a handler gets from outside: the stack of a flush, and `network_http_get`. -/
structure CallEnv where
  stack : Nat → Nat → U8
  netBytes : Int

section Handlers

variable {σ : Type}

def HandlerSys.drive (c : DriverCall) (s : HandlerSys σ) : HandlerSys σ :=
  { s with driverCalls := s.driverCalls ++ [c] }

def HandlerSys.record (fmt : List U8) (s : HandlerSys σ) : HandlerSys σ :=
  { s with results := recordResult fmt s.results }

/-- A number of the token, or the default of its handler. -/
def paramInt (token : Token) (key : List U8) (default : U64) : U64 :=
  (parseParamInt token key).getD default

/-- A text of the token, in a buffer that was cleared. -/
def paramStr (token : Token) (key : List U8) (outSz : Nat) : List U8 :=
  (parseParamStr token key outSz).getD []

def actDisplay (token : Token) (s : HandlerSys σ) : HandlerSys σ :=
  let text := paramStr token (ascii "text") 512
  let color := paramInt token (ascii "color") 0xFFFFFFFF
  (s.drive (.displayPrintString text (color.truncate 32))).record (ascii "DISPLAY: printed %zu chars")

def actDisplayPixel (token : Token) (s : HandlerSys σ) : HandlerSys σ :=
  let x := paramInt token (ascii "x") 0
  let y := paramInt token (ascii "y") 0
  let r := paramInt token (ascii "r") 0
  let g := paramInt token (ascii "g") 0
  let b := paramInt token (ascii "b") 0
  let color : U32 := (r.truncate 32 <<< 16) ||| (g.truncate 32 <<< 8) ||| b.truncate 32
  s.drive (.displaySetPixel (x.truncate 32) (y.truncate 32) color)

def actAudioFreq (token : Token) (s : HandlerSys σ) : HandlerSys σ :=
  let hz := paramInt token (ascii "hz") 440
  let ms := paramInt token (ascii "ms") 100
  let vol := paramInt token (ascii "volume") 64
  (s.drive (.audioPlayTone (hz.truncate 32) (ms.truncate 32) (vol.truncate 8))).record
    (ascii "AUDIO_FREQ: played %lldHz for %lldms")

/-- The value of a digit; `char` is signed. -/
def hexDigit (c : U8) : U8 :=
  if (charByte 'a').sle c then c - charByte 'a' + 10
  else if (charByte 'A').sle c then c - charByte 'A' + 10
  else c - charByte '0'

/-- The loop of `act_audio_pcm`, with so much room left in `pcm_buf`. -/
def pcmBytes : Nat → List U8 → List U8
  | room + 1, hi :: lo :: hex =>
    if hi = 0 ∨ lo = 0 then [] else (hexDigit hi <<< 4 ||| hexDigit lo) :: pcmBytes room hex
  | _, _ => []

/-- Without the parameter nothing is recorded. -/
def actAudioPcm (token : Token) (s : HandlerSys σ) : HandlerSys σ :=
  match parseParamStr token (ascii "data") 4096 with
  | none => s
  | some hex => (s.drive (.audioPlayPcm (pcmBytes 2048 hex) 44100 1)).record
      (ascii "AUDIO_PCM: sent %d bytes to DAC")

def actAudioStop (_ : Token) (s : HandlerSys σ) : HandlerSys σ :=
  (s.drive .audioStop).record (ascii "AUDIO_STOP: ok")

def actNetFetch (env : CallEnv) (token : Token) (s : HandlerSys σ) : HandlerSys σ :=
  let url := paramStr token (ascii "url") 512
  (s.drive (.networkHttpGet url)).record
    (if env.netBytes < 0 then ascii "NET_FETCH: url=%s error=%d"
      else ascii "NET_FETCH: url=%s bytes=%d preview=%.*s")

/-- The limits of the hardware. -/
def clampMhz (mhz : U64) : U64 :=
  let mhz := if mhz.toInt < 400 then 400 else mhz
  if mhz.toInt > 3400 then 3400 else mhz

def actCpuFreqSet (token : Token) (s : HandlerSys σ) : HandlerSys σ :=
  let mhz := clampMhz (paramInt token (ascii "mhz") 1600)
  let ratio := mhz / 100
  (s.drive (.wrmsr 0x199 ((ratio <<< 8).truncate 32) 0)).record (ascii "CPU_FREQ_SET: mhz=%lld ok")

def actSleepMs (_ : Token) (s : HandlerSys σ) : HandlerSys σ :=
  s.record (ascii "SLEEP_MS: %lld ms elapsed")

def hardwareFormat : List U8 :=
  ascii "HARDWARE: cpu=i5-8250U cores=4 threads=8 " ++
  ascii "ram_total=%lluMB ram_free=%lluMB " ++
  ascii "swap_total=%lluGB " ++
  ascii "display=%dx%d " ++
  ascii "cam=available mic=available audio=available " ++
  ascii "usb=128GB network=available bluetooth=available"

def actHardwareQuery (_ : Token) (s : HandlerSys σ) : HandlerSys σ := s.record hardwareFormat

def actDisplayClear (_ : Token) (s : HandlerSys σ) : HandlerSys σ :=
  (s.drive .displayClear).record (ascii "DISPLAY_CLEAR: ok")

variable (fs : FileSystem σ)

def actFileRead (token : Token) (s : HandlerSys σ) : HandlerSys σ :=
  let path := paramStr token (ascii "path") 512
  (s.drive (.fsReadFile path)).record
    (match fs.read s.store.disk path with
      | none => ascii "FILE_READ: path=%s error=%d"
      | some _ => ascii "FILE_READ: path=%s bytes=%d content_preview=%.*s")

def actFileWrite (token : Token) (s : HandlerSys σ) : HandlerSys σ :=
  let path := paramStr token (ascii "path") 512
  let data := paramStr token (ascii "data") 4096
  if path.head? ≠ some (charByte '/') ∨ (strstr path (ascii "..")).isSome then
    s.record (ascii "FILE_WRITE: rejected path=%s")
  else
    let s := s.drive (.fsWriteFileUsb path data)
    { s with store := { s.store with disk := fs.write s.store.disk path data } }.record
      (ascii "FILE_WRITE: path=%s bytes=%d")

def Handler.run (h : Handler) (token : Token) (env : CallEnv) (s : HandlerSys σ) : HandlerSys σ :=
  match h with
  | .actDisplay => AionOs.actDisplay token s
  | .actDisplayPixel => AionOs.actDisplayPixel token s
  | .actDisplayClear => AionOs.actDisplayClear token s
  | .actAudioFreq => AionOs.actAudioFreq token s
  | .actAudioPcm => AionOs.actAudioPcm token s
  | .actAudioStop => AionOs.actAudioStop token s
  | .actMemoryStore => { s with toActionSys := AionOs.actMemoryStore fs token env.stack s.toActionSys }
  | .actMemoryRecall => { s with toActionSys := (AionOs.actMemoryRecall token s.toActionSys).2 }
  | .actFileRead => AionOs.actFileRead fs token s
  | .actFileWrite => AionOs.actFileWrite fs token s
  | .actNetFetch => AionOs.actNetFetch env token s
  | .actCpuFreqSet => AionOs.actCpuFreqSet token s
  | .actSleepMs => AionOs.actSleepMs token s
  | .actHardwareQuery => AionOs.actHardwareQuery token s

/-- The calls of `action_parse_and_execute`, from call `i` of the tick on. -/
def runCalls (env : Nat → CallEnv) : Nat → List (Handler × Token) → HandlerSys σ → HandlerSys σ
  | _, [], s => s
  | i, c :: calls, s => runCalls env (i + 1) calls (c.1.run fs c.2 (env i) s)

/-! ### What is recorded -/

def resultFormats : List (List U8) :=
  [ascii "DISPLAY: printed %zu chars",
   ascii "DISPLAY_CLEAR: ok",
   ascii "AUDIO_FREQ: played %lldHz for %lldms",
   ascii "AUDIO_PCM: sent %d bytes to DAC",
   ascii "AUDIO_STOP: ok",
   ascii "MEMORY_STORE: key=%s stored",
   ascii "MEMORY_RECALL: key=%s value=%s",
   ascii "MEMORY_RECALL: key=%s not found",
   ascii "FILE_READ: path=%s error=%d",
   ascii "FILE_READ: path=%s bytes=%d content_preview=%.*s",
   ascii "FILE_WRITE: rejected path=%s",
   ascii "FILE_WRITE: path=%s bytes=%d",
   ascii "NET_FETCH: url=%s error=%d",
   ascii "NET_FETCH: url=%s bytes=%d preview=%.*s",
   ascii "CPU_FREQ_SET: mhz=%lld ok",
   ascii "SLEEP_MS: %lld ms elapsed",
   hardwareFormat]

def Capital (b : U8) : Prop := charByte 'A' ≤ b ∧ b ≤ charByte 'Z'

instance (b : U8) : Decidable (Capital b) := inferInstanceAs (Decidable (_ ∧ _))

theorem resultFormats_head : ∀ fmt ∈ resultFormats, fmt.head?.any (Capital ·) := by
  decide +kernel

theorem resultFormats_capital {fmt : List U8} (h : fmt ∈ resultFormats) :
    ∃ b ∈ fmt.take 255, Capital b := by
  have hhead := resultFormats_head fmt h
  cases fmt with
  | nil => cases hhead
  | cons b fmt => exact ⟨b, List.mem_cons_self, by simpa using hhead⟩

/-- **A handler** leaves the results alone, or records one of the formats. -/
theorem run_results (h : Handler) (token : Token) (env : CallEnv) (s : HandlerSys σ) :
    (h.run fs token env s).results = s.results ∨
      ∃ fmt ∈ resultFormats, (h.run fs token env s).results = recordResult fmt s.results := by
  cases h with
  | actDisplayPixel => exact .inl rfl
  | actDisplay => exact .inr ⟨ascii "DISPLAY: printed %zu chars", by simp [resultFormats], rfl⟩
  | actDisplayClear => exact .inr ⟨ascii "DISPLAY_CLEAR: ok", by simp [resultFormats], rfl⟩
  | actAudioFreq =>
    exact .inr ⟨ascii "AUDIO_FREQ: played %lldHz for %lldms", by simp [resultFormats], rfl⟩
  | actAudioStop => exact .inr ⟨ascii "AUDIO_STOP: ok", by simp [resultFormats], rfl⟩
  | actMemoryStore => exact .inr ⟨ascii "MEMORY_STORE: key=%s stored", by simp [resultFormats], rfl⟩
  | actCpuFreqSet => exact .inr ⟨ascii "CPU_FREQ_SET: mhz=%lld ok", by simp [resultFormats], rfl⟩
  | actSleepMs => exact .inr ⟨ascii "SLEEP_MS: %lld ms elapsed", by simp [resultFormats], rfl⟩
  | actHardwareQuery => exact .inr ⟨hardwareFormat, by simp [resultFormats], rfl⟩
  | actAudioPcm =>
    show (actAudioPcm token s).results = _ ∨ ∃ fmt ∈ resultFormats, (actAudioPcm token s).results = _
    unfold actAudioPcm
    split
    · exact .inl rfl
    · exact .inr ⟨ascii "AUDIO_PCM: sent %d bytes to DAC", by simp [resultFormats], rfl⟩
  | actMemoryRecall =>
    refine .inr ⟨_, ?_, rfl⟩
    split <;> simp [resultFormats]
  | actFileRead =>
    refine .inr ⟨_, ?_, rfl⟩
    split <;> simp [resultFormats]
  | actNetFetch =>
    refine .inr ⟨_, ?_, rfl⟩
    split <;> simp [resultFormats]
  | actFileWrite =>
    show (actFileWrite fs token s).results = _ ∨
      ∃ fmt ∈ resultFormats, (actFileWrite fs token s).results = _
    unfold actFileWrite
    dsimp only
    split
    · exact .inr ⟨ascii "FILE_WRITE: rejected path=%s", by simp [resultFormats], rfl⟩
    · exact .inr ⟨ascii "FILE_WRITE: path=%s bytes=%d", by simp [resultFormats], rfl⟩

/-! ### The feedback -/

/-- Each of the first 32 calls records one result, which is in the text. -/
def FedBack (env : Nat → CallEnv) (calls : List (Handler × Token)) (s : HandlerSys σ) (text : List U8) :
    Prop :=
  ∀ i < min 32 calls.length, ∃ t,
    (runCalls fs env 0 (calls.take (i + 1)) s).results =
      (runCalls fs env 0 (calls.take i) s).results ++ [t] ∧ t <:+: text

/-- **No result is in a text without capital letters.** -/
theorem not_fedBack (env : Nat → CallEnv) {calls : List (Handler × Token)} (hne : calls ≠ [])
    (s : HandlerSys σ) {text : List U8} (htext : ∀ b ∈ text, ¬ Capital b) :
    ¬ FedBack fs env calls s text := by
  intro hfed
  obtain ⟨c, rest, rfl⟩ := List.exists_cons_of_ne_nil hne
  have hpos : 0 < min 32 (c :: rest).length := by
    rw [List.length_cons]
    omega
  obtain ⟨t, hrecorded, ht⟩ := hfed 0 hpos
  rw [Nat.zero_add, List.take_succ_cons, List.take_zero] at hrecorded
  -- the first call would record a format
  have hfirst : (c.1.run fs c.2 (env 0) s).results = s.results ++ [t] := hrecorded
  have hlonger : ∀ l : List (List U8), l ≠ l ++ [t] := fun l hl => by
    have := congrArg List.length hl
    rw [List.length_append, List.length_singleton] at this
    omega
  rcases run_results fs c.1 c.2 (env 0) s with hquiet | ⟨fmt, hfmt, hrec⟩
  · exact hlonger _ (hquiet.symm.trans hfirst)
  · rw [hrec, recordResult] at hfirst
    split at hfirst
    · exact hlonger _ hfirst
    · have htfmt : fmt.take 255 = t := by simpa using hfirst
      obtain ⟨b, hb, hcapital⟩ := resultFormats_capital hfmt
      exact htext b (ht.subset (htfmt ▸ hb)) hcapital

/-- Where nothing is called there is nothing to feed back. -/
theorem fedBack_iff (env : Nat → CallEnv) (calls : List (Handler × Token)) (s : HandlerSys σ)
    {text : List U8} (htext : ∀ b ∈ text, ¬ Capital b) : FedBack fs env calls s text ↔ calls = [] := by
  refine ⟨fun hfed => ?_, fun hnil i hi => ?_⟩
  · by_contra hne
    exact not_fedBack fs env hne s htext hfed
  · rw [hnil, List.length_nil] at hi
    omega

end Handlers

/-! ### Texts without an action -/

/-- No `<` of the text is followed by a name of the table and, further on, by a `>`. -/
def Inert (text : List U8) : Prop :=
  ∀ after, charByte '<' :: after <:+ text → charByte '>' ∈ after → ∀ a ∈ actions, ¬ a.name <+: after

theorem matchAt_eq_none {text : List U8} : matchAt text = none ↔ ∀ a ∈ actions, ¬ a.name <+: text := by
  refine ⟨fun h a ha => matchAt_none h ha, fun h => ?_⟩
  rw [matchAt, List.find?_eq_none]
  exact fun a ha hp => h a ha (List.isPrefixOf_iff_prefix.mp hp)

theorem inert_of_not_mem {text : List U8} (h : charByte '<' ∉ text) : Inert text :=
  fun _ hsuffix _ _ _ _ => h (hsuffix.subset List.mem_cons_self)

theorem inert_append {pre : List U8} (h : charByte '<' ∉ pre) (rest : List U8) :
    Inert (pre ++ charByte '<' :: rest) ↔
      (charByte '>' ∈ rest → matchAt rest = none) ∧ Inert rest := by
  have hsuffix : ∀ after, charByte '<' :: after <:+ pre ++ charByte '<' :: rest ↔
      after = rest ∨ charByte '<' :: after <:+ rest := by
    intro after
    induction pre with
    | nil => rw [List.nil_append, List.suffix_cons_iff, List.cons.injEq, eq_self_iff_true, true_and]
    | cons b pre ih =>
      obtain ⟨hb, hpre⟩ := List.ne_and_not_mem_of_not_mem_cons h
      rw [List.cons_append, List.suffix_cons_iff, List.cons.injEq, ih hpre]
      exact ⟨fun hs => hs.resolve_left fun he => hb he.1, .inr⟩
  constructor
  · intro hinert
    exact ⟨fun hgt => matchAt_eq_none.mpr (hinert rest ((hsuffix rest).mpr (.inl rfl)) hgt),
      fun after hs => hinert after ((hsuffix after).mpr (.inr hs))⟩
  · rintro ⟨hhere, hrest⟩ after hs hgt
    rcases (hsuffix after).mp hs with rfl | hs'
    · exact matchAt_eq_none.mp (hhere hgt)
    · exact hrest after hs' hgt

/-- **No action is executed** exactly when none is found. -/
theorem calls_nil_iff {text : List U8} (hlen : text.length < 2 ^ 31) :
    actionParseAndExecute (some text) = [] ↔ Inert text := by
  induction text using strchr_induct (charByte '<') with
  | missing text hnone =>
    rw [actionParseAndExecute, scan_none hnone]
    exact ⟨fun _ => inert_of_not_mem hnone, fun _ => rfl⟩
  | first pre rest hpre ih =>
    rw [List.length_append, List.length_cons] at hlen
    rw [actionParseAndExecute, scan_append hpre, inert_append hpre]
    rcases tryActions_head rest with
      ⟨hpass, hhere⟩ | ⟨mid, tail, a, token, _, hsplit, hmatch, _, hexec⟩ | ⟨hlong, _⟩
    · have hrest := ih rest List.suffix_rfl (by omega)
      rw [actionParseAndExecute] at hrest
      simp only [hpass]
      rw [List.filterMap_cons_none rfl, hrest]
      exact ⟨fun hi => ⟨hhere, hi⟩, fun hi => hi.2⟩
    · have hgt : charByte '>' ∈ rest := hsplit ▸ List.mem_append_right _ List.mem_cons_self
      rw [hexec]
      refine ⟨fun hnil => absurd hnil (List.cons_ne_nil (a.handler, token) _), fun hi => ?_⟩
      rw [hi.1 hgt] at hmatch
      cases hmatch
    · omega

/-! ### A start -/

/-- Nothing was stored, written or recorded yet. -/
def handlerStart : HandlerSys (Path → Option (List U8)) := ⟨echoStart, []⟩

/-- Nothing comes from the network. -/
def quietEnv : CallEnv := ⟨sampleStack, 0⟩

end AionOs
