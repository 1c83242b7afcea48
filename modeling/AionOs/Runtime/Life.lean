import AionOs.Action.Handlers
import AionOs.Runtime.Llm

/-!
# The life loop

`consciousness/core/consciousness.c`: every tick feeds what the senses give, lets the model
think, executes the actions in the answer and stores it as an experience.

* `small_senseText`, `length_senseText`: the text of the senses.
* `answer_cases`: what the model says does not depend on the state.
* `consciousnessTick_spec`: no tick leaves the arrays.
* `feedback_iff`: when the results of a tick are in the text of the next one.
-/

namespace AionOs

open Bytes CText

/-! ### The senses -/

structure CameraSnap where
  width : U32
  height : U32
  meanLuma : U8
  motionDelta : U8

structure MicSnap where
  amplitudeRms : U32
  isSilence : Bool

structure NetSnap where
  connected : Bool
  rxTotal : U64

/-- `SenseSnapshot`, as far as it is printed. -/
structure SenseSnapshot where
  cameraAvailable : Bool
  cameraFrame : CameraSnap
  micAvailable : Bool
  micFrame : MicSnap
  networkAvailable : Bool
  network : NetSnap

/-- A `bool` as `%d` prints it. -/
def decimalBool (b : Bool) : List U8 := ascii (if b then "1" else "0")

def cameraText (c : CameraSnap) : List U8 :=
  ascii "cam:" ++ decimal c.width.toNat ++ ascii "," ++ decimal c.height.toNat ++
    ascii ",luma:" ++ decimal c.meanLuma.toNat ++ ascii ",delta:" ++ decimal c.motionDelta.toNat ++
    ascii " "

def micText (m : MicSnap) : List U8 :=
  ascii "mic:rms:" ++ decimal m.amplitudeRms.toNat ++ ascii ",silence:" ++
    decimalBool m.isSilence ++ ascii " "

def netText (n : NetSnap) : List U8 :=
  ascii "net:" ++ decimalBool n.connected ++ ascii ",rx:" ++ decimal n.rxTotal.toNat ++ ascii " "

/-- What is printed to `sense_buf`. -/
def senseText (tick : U64) (senses : SenseSnapshot) (mem : MemoryStatus) : List U8 :=
  ascii "t:" ++ decimal tick.toNat ++ ascii " " ++
    (if senses.cameraAvailable then cameraText senses.cameraFrame else []) ++
    (if senses.micAvailable then micText senses.micFrame else []) ++
    (if senses.networkAvailable then netText senses.network else []) ++
    ascii "mem_free:" ++ decimal (mem.freePhysical / (1024 * 1024)).toNat ++ ascii "\n"

def senseBuf (tick : U64) (senses : SenseSnapshot) (mem : MemoryStatus) : CString :=
  CString.ofBuffer (senseText tick senses mem)

def firstSignal : CString := CString.ofBuffer
  (ascii "boot:0 " ++ ascii "ram:4096MB " ++ ascii "storage:128GB " ++ ascii "display:1366x768 " ++
    ascii "audio:present " ++ ascii "camera:present " ++ ascii "mic:present " ++
    ascii "network:present\n")

/-! ### The loop -/

/-- What a tick gets: from the senses and the memory, from the model, and in each call. -/
structure TickInput where
  senses : SenseSnapshot
  mem : MemoryStatus
  tokenized : Option NewTokens
  recode : Int
  code : Int
  rounds : Nat → Round
  env : Nat → CallEnv
  stack : Nat → Nat → U8

structure Life (σ : Type) where
  tick : U64
  llm : LlmState
  body : HandlerSys σ

section Loop

variable {σ : Type} (fs : FileSystem σ)

/-- `consciousness_init`, if the model could be loaded; else it never returns.  The first
signal is fed if there is no store. -/
def consciousnessInit (cap : Nat) (disk : σ) (heap : Heap) (tokenized : Option NewTokens)
    (recode code : Int) : Option (Life σ) := do
  let body : HandlerSys σ := ⟨⟨StoreSys.start fs cap disk heap, []⟩, []⟩
  let llm := LlmState.start true
  if aionMemoryHasStore fs disk then some ⟨0, llm, body⟩
  else
    let (_, llm) ← llmFeed (some firstSignal) tokenized recode code llm
    some ⟨0, llm, body⟩

def Life.perceived (s : Life σ) (a : TickInput) : CString := senseBuf (s.tick + 1) a.senses a.mem

/-- A round of the loop of `consciousness_run`; `none` when a copy left an array. -/
def consciousnessTick (a : TickInput) (s : Life σ) : Option (Life σ) := do
  let tick := s.tick + 1
  let (_, llm) ← llmFeed (some (s.perceived a)) a.tokenized a.recode a.code s.llm
  let (len, out, llm) ← llmThink 4096 256 a.rounds llm
  if len ≤ 0 then some ⟨tick, llm, s.body⟩
  else
    let output := CString.ofBuffer out
    let body := runCalls fs a.env 0 (actionParseAndExecute (some output.bytes)) s.body
    let acted := storeExperience fs tick output a.stack body.toActionSys
    some ⟨tick, llm, { body with toActionSys := acted }⟩

def consciousnessMachine : Machine (Option (Life σ)) TickInput :=
  ⟨fun s a => s.bind (consciousnessTick fs a), fun _ _ => True⟩

end Loop

/-! ### What is fed -/

/-- A text without capital letters. -/
def Small (text : List U8) : Prop := ∀ b ∈ text, ¬ Capital b

instance (text : List U8) : Decidable (Small text) := inferInstanceAs (Decidable (∀ b ∈ text, _))

@[simp] theorem small_append {l m : List U8} : Small (l ++ m) ↔ Small l ∧ Small m := List.forall_mem_append

@[simp] theorem small_decimal (n : Nat) : Small (decimal n) := by
  intro b hb hcapital
  have hdigit := (decimal_digit hb).2
  have hA : (charByte 'A').toNat = 65 := by decide
  have hge := hcapital.1
  rw [BitVec.le_def, hA] at hge
  omega

@[simp] theorem small_decimalBool (b : Bool) : Small (decimalBool b) := by
  cases b <;> decide

theorem small_if {c : Prop} [Decidable c] {l : List U8} (h : Small l) :
    Small (if c then l else []) := by
  split
  · exact h
  · exact List.forall_mem_nil _

theorem small_cameraText (c : CameraSnap) : Small (cameraText c) := by
  simp only [cameraText, small_append, small_decimal, and_true]
  decide +kernel

theorem small_micText (m : MicSnap) : Small (micText m) := by
  simp only [micText, small_append, small_decimal, small_decimalBool, and_true]
  decide +kernel

theorem small_netText (n : NetSnap) : Small (netText n) := by
  simp only [netText, small_append, small_decimal, small_decimalBool, and_true]
  decide +kernel

theorem small_senseText (tick : U64) (senses : SenseSnapshot) (mem : MemoryStatus) :
    Small (senseText tick senses mem) := by
  have hcamera := small_if (c := senses.cameraAvailable) (small_cameraText senses.cameraFrame)
  have hmic := small_if (c := senses.micAvailable) (small_micText senses.micFrame)
  have hnet := small_if (c := senses.networkAvailable) (small_netText senses.network)
  simp only [senseText, small_append, small_decimal, hcamera, hmic, hnet, and_true]
  decide +kernel

theorem small_senseBuf (tick : U64) (senses : SenseSnapshot) (mem : MemoryStatus) :
    Small (senseBuf tick senses mem).bytes :=
  fun b hb => small_senseText tick senses mem b ((List.takeWhile_sublist (· != 0#8)).subset hb)

theorem length_decimal_u64 (n : U64) : (decimal n.toNat).length ≤ 20 :=
  length_decimal_le (by decide) (n.isLt.trans (by decide))

theorem length_decimal_u32 (n : U32) : (decimal n.toNat).length ≤ 10 :=
  length_decimal_le (by decide) (n.isLt.trans (by decide))

theorem length_decimal_u8 (n : U8) : (decimal n.toNat).length ≤ 3 :=
  length_decimal_le (by decide) (n.isLt.trans (by decide))

theorem length_decimalBool (b : Bool) : (decimalBool b).length = 1 := by
  cases b <;> decide

theorem length_if_le {c : Prop} [Decidable c] {l : List U8} {n : Nat} (h : l.length ≤ n) :
    (if c then l else []).length ≤ n := by
  split
  · exact h
  · exact Nat.zero_le n

theorem length_cameraText (c : CameraSnap) : (cameraText c).length ≤ 45 := by
  have hwidth := length_decimal_u32 c.width
  have hheight := length_decimal_u32 c.height
  have hluma := length_decimal_u8 c.meanLuma
  have hdelta := length_decimal_u8 c.motionDelta
  have hwords : (ascii "cam:").length = 4 ∧ (ascii ",").length = 1 ∧ (ascii ",luma:").length = 6 ∧
      (ascii ",delta:").length = 7 ∧ (ascii " ").length = 1 := by decide
  simp only [cameraText, List.length_append]
  omega

theorem length_micText (m : MicSnap) : (micText m).length ≤ 29 := by
  have hrms := length_decimal_u32 m.amplitudeRms
  have hwords : (ascii "mic:rms:").length = 8 ∧ (ascii ",silence:").length = 9 ∧
      (ascii " ").length = 1 := by decide
  simp only [micText, List.length_append, length_decimalBool]
  omega

theorem length_netText (n : NetSnap) : (netText n).length ≤ 30 := by
  have htotal := length_decimal_u64 n.rxTotal
  have hwords : (ascii "net:").length = 4 ∧ (ascii ",rx:").length = 4 ∧ (ascii " ").length = 1 := by decide
  simp only [netText, List.length_append, length_decimalBool]
  omega

/-- No part of the text is cut: `sense_buf` has 2048 bytes. -/
theorem length_senseText (tick : U64) (senses : SenseSnapshot) (mem : MemoryStatus) :
    (senseText tick senses mem).length < 2048 := by
  have htick := length_decimal_u64 tick
  have hcamera := length_if_le (c := senses.cameraAvailable) (length_cameraText senses.cameraFrame)
  have hmic := length_if_le (c := senses.micAvailable) (length_micText senses.micFrame)
  have hnet := length_if_le (c := senses.networkAvailable) (length_netText senses.network)
  have hfree := length_decimal_u64 (mem.freePhysical / (1024 * 1024))
  have hwords : (ascii "t:").length = 2 ∧ (ascii " ").length = 1 ∧ (ascii "mem_free:").length = 9 ∧
      (ascii "\n").length = 1 := by decide
  simp only [senseText, List.length_append]
  omega

/-! ### What the model says -/

def TickInput.said (a : TickInput) : List U8 := answerText 4096 (roundsOf 256 a.rounds) []

theorem TickInput.said_length (a : TickInput) : a.said.length < 4096 := by
  have := @answerText_length 4096 (roundsOf 256 a.rounds) [] (by decide)
  rw [TickInput.said]
  omega

/-! ### One tick -/

/-- The model is loaded, and the context inside its array. -/
structure LlmState.Awake (s : LlmState) : Prop extends s.Within where
  ready : s.ready = true

/-- The text that the actions are looked for in: there is none where `llm_think` gives nothing. -/
def Life.answer {σ : Type} (s : Life σ) (a : TickInput) : Option CString :=
  match (llmFeed (some (s.perceived a)) a.tokenized a.recode a.code s.llm).bind fun r =>
    llmThink 4096 256 a.rounds r.2 with
  | none => none
  | some (len, out, _) => if len ≤ 0 then none else some (CString.ofBuffer out)

def Life.executed {σ : Type} (s : Life σ) (a : TickInput) : List (Handler × Token) :=
  actionParseAndExecute ((s.answer a).map CString.bytes)

def Life.Thinks {σ : Type} (s : Life σ) (a : TickInput) : Prop :=
  s.llm.context ≠ [] ∨ ∃ new, a.tokenized = some new ∧ new.tokens ≠ []

theorem LlmState.Within.context_eq_nil {s : LlmState} (h : s.Within) :
    s.context = [] ↔ s.contextLen = 0 := by
  have := h.length_context
  rw [← List.length_eq_zero_iff]
  omega

theorem keptTokens_eq_nil {s : LlmState} (h : s.Within) {n : Nat} (hn : n ≤ 512) :
    keptTokens n s = [] ↔ s.context = [] := by
  have hlen := h.length_context
  rw [keptTokens]
  split
  · rw [List.drop_eq_nil_iff, ← List.length_eq_zero_iff]
    omega
  · exact Iff.rfl

/-- **What is fed** leaves no context only where there was none before. -/
theorem llmFeed_awake {s : LlmState} (h : s.Awake) (text : CString) (tokenized : Option NewTokens)
    (recode code : Int) : ∃ r s',
    llmFeed (some text) tokenized recode code s = some (r, s') ∧ s'.Awake ∧
      (s'.contextLen = 0 ↔ ¬ (s.context ≠ [] ∨ ∃ new, tokenized = some new ∧ new.tokens ≠ [])) := by
  cases tokenized with
  | none =>
    have hcond : ¬ (s.ready = false ∨ (some text).isNone) := by
      rw [h.ready]
      simp
    refine ⟨-1, s, ?_, h, ?_⟩
    · unfold llmFeed
      rw [if_neg hcond]
    · rw [← h.toWithin.context_eq_nil]
      simp
  | some new =>
    obtain ⟨s', hs', hwithin, hready, hcontext, _⟩ :=
      llmFeed_spec h.toWithin h.ready (Option.some_ne_none text) new recode code
    refine ⟨code, s', hs', ⟨hwithin, hready.trans h.ready⟩, ?_⟩
    rw [← hwithin.context_eq_nil, hcontext, List.append_eq_nil_iff, keptTokens_eq_nil h.toWithin new.le]
    simp

/-- **What is thought.** -/
theorem llmThink_awake {s : LlmState} (h : s.Awake) (a : TickInput) : ∃ len out s',
    llmThink 4096 256 a.rounds s = some (len, out, s') ∧ s'.Awake ∧
      ((s.contextLen = 0 ∧ len = -1) ∨ (s.contextLen ≠ 0 ∧ len = a.said.length ∧ out = a.said)) := by
  rw [llmThink]
  by_cases hempty : s.contextLen = 0
  · rw [if_pos (.inr hempty)]
    exact ⟨-1, [], s, rfl, h, .inl ⟨hempty, rfl⟩⟩
  · have hcond : ¬ (s.ready = false ∨ s.contextLen = 0) := by
      rw [h.ready]
      simp [hempty]
    obtain ⟨out, s', hs', hwithin, hready, _⟩ :=
      thinkLoop_spec 4096 (roundsOf 256 a.rounds) [] h.toWithin
    have hout : out = a.said := thinkLoop_text hs'
    rw [if_neg hcond, hs']
    exact ⟨out.length, out, s', rfl, ⟨hwithin, hready.trans h.ready⟩, .inr ⟨hempty, by rw [hout], hout⟩⟩

theorem thought {σ : Type} {s : Life σ} (h : s.llm.Awake) (a : TickInput) : ∃ r llm len out llm',
    llmFeed (some (s.perceived a)) a.tokenized a.recode a.code s.llm = some (r, llm) ∧
      llmThink 4096 256 a.rounds llm = some (len, out, llm') ∧ llm'.Awake ∧
      ((len ≤ 0 ∧ ¬ (s.Thinks a ∧ a.said ≠ [])) ∨
        (0 < len ∧ (s.Thinks a ∧ a.said ≠ []) ∧ out = a.said)) := by
  obtain ⟨r, llm, hfeed, hawake, hempty⟩ := llmFeed_awake h (s.perceived a) a.tokenized a.recode a.code
  obtain ⟨len, out, llm', hthink, hawake', hcase⟩ := llmThink_awake hawake a
  refine ⟨r, llm, len, out, llm', hfeed, hthink, hawake', ?_⟩
  rcases hcase with ⟨hzero, hlen⟩ | ⟨hzero, hlen, hout⟩
  · exact .inl ⟨by omega, fun hboth => (hempty.mp hzero) hboth.1⟩
  · have hthinks : s.Thinks a := by
      by_contra hno
      exact hzero (hempty.mpr hno)
    by_cases hsaid : a.said = []
    · rw [hsaid, List.length_nil] at hlen
      exact .inl ⟨by omega, fun hboth => hboth.2 hsaid⟩
    · have := List.length_pos_iff.mpr hsaid
      exact .inr ⟨by omega, ⟨hthinks, hsaid⟩, hout⟩

theorem answer_cases {σ : Type} {s : Life σ} (h : s.llm.Awake) (a : TickInput) :
    (s.answer a = none ∧ ¬ (s.Thinks a ∧ a.said ≠ [])) ∨
      (s.answer a = some (CString.ofBuffer a.said) ∧ s.Thinks a ∧ a.said ≠ []) := by
  obtain ⟨r, llm, len, out, llm', hfeed, hthink, _, hcase⟩ := thought h a
  unfold Life.answer
  rw [hfeed, Option.bind_some, hthink]
  dsimp only
  rcases hcase with ⟨hlen, hno⟩ | ⟨hlen, hyes, hout⟩
  · rw [if_pos hlen]
    exact .inl ⟨rfl, hno⟩
  · rw [if_neg (by omega), hout]
    exact .inr ⟨rfl, hyes⟩

section Loop

variable {σ : Type} (fs : FileSystem σ)

/-- **A tick** leaves no array, and records what its actions record. -/
theorem consciousnessTick_spec {s : Life σ} (h : s.llm.Awake) (a : TickInput) : ∃ s',
    consciousnessTick fs a s = some s' ∧ s'.llm.Awake ∧ s'.tick = s.tick + 1 ∧
      s'.body.results = (runCalls fs a.env 0 (s.executed a) s.body).results := by
  obtain ⟨r, llm, len, out, llm', hfeed, hthink, hawake, _⟩ := thought h a
  unfold Life.executed Life.answer consciousnessTick
  rw [hfeed]
  simp only [Option.bind_eq_bind, Option.bind_some, hthink]
  split
  · exact ⟨_, rfl, hawake, rfl, rfl⟩
  · exact ⟨_, rfl, hawake, rfl, rfl⟩

theorem awake_start : (LlmState.start true).Awake := ⟨within_start true, rfl⟩

theorem consciousnessInit_spec (cap : Nat) (disk : σ) (heap : Heap) (tokenized : Option NewTokens)
    (recode code : Int) :
    ∃ s, consciousnessInit fs cap disk heap tokenized recode code = some s ∧ s.llm.Awake := by
  unfold consciousnessInit
  split
  · exact ⟨_, rfl, awake_start⟩
  · obtain ⟨r, llm, hfeed, hawake, _⟩ := llmFeed_awake awake_start firstSignal tokenized recode code
    dsimp only
    rw [hfeed]
    exact ⟨_, rfl, hawake⟩

theorem life_run : ∀ (ticks : List TickInput) {s : Life σ}, s.llm.Awake →
    ∃ t, (consciousnessMachine fs).run (some s) ticks = some t ∧ t.llm.Awake := by
  intro ticks
  induction ticks with
  | nil => intro s h; exact ⟨s, rfl, h⟩
  | cons a ticks ih =>
    intro s h
    obtain ⟨s', hs', hawake, _⟩ := consciousnessTick_spec fs h a
    obtain ⟨t, ht, htawake⟩ := ih hawake
    refine ⟨t, ?_, htawake⟩
    rw [Machine.run_cons, show (consciousnessMachine fs).step (some s) a = some s' from hs', ht]

/-! ### The results in the next tick -/

theorem executed_nil_iff {s : Life σ} (h : s.llm.Awake) (a : TickInput) :
    s.executed a = [] ↔ (s.Thinks a → Inert (cstr a.said)) := by
  have hlen : (cstr a.said).length < 2 ^ 31 := by
    have hle : (cstr a.said).length ≤ a.said.length := (List.takeWhile_sublist _).length_le
    have := a.said_length
    omega
  have hnil : Inert (cstr []) := inert_of_not_mem List.not_mem_nil
  unfold Life.executed
  rcases answer_cases h a with ⟨hnone, hno⟩ | ⟨hsome, hthinks, _⟩
  · rw [hnone]
    refine ⟨fun _ hthinks => ?_, fun _ => rfl⟩
    by_cases hsaid : a.said = []
    · rw [hsaid]
      exact hnil
    · exact absurd ⟨hthinks, hsaid⟩ hno
  · rw [hsome]
    exact (calls_nil_iff hlen).trans ⟨fun hi _ => hi, fun hi => hi hthinks⟩

/-- **Cause and effect.**  In every run and at every tick, each action of the tick records one
result that the text fed in the next tick contains, if and only if there is no action: the
model has no context, or nothing in its text is an action of the table. -/
theorem feedback_iff (cap : Nat) (disk : σ) (heap : Heap) (tokenized : Option NewTokens)
    (recode code : Int) (ticks : List TickInput) (a b : TickInput) : ∃ s s',
    (consciousnessMachine fs).run (consciousnessInit fs cap disk heap tokenized recode code) ticks =
        some s ∧
      consciousnessTick fs a s = some s' ∧
      s'.body.results = (runCalls fs a.env 0 (s.executed a) s.body).results ∧
      (FedBack fs a.env (s.executed a) s.body (s'.perceived b).bytes ↔
        (s.Thinks a → Inert (cstr a.said))) := by
  obtain ⟨s₀, hs₀, hawake₀⟩ := consciousnessInit_spec fs cap disk heap tokenized recode code
  obtain ⟨s, hs, hawake⟩ := life_run fs ticks hawake₀
  obtain ⟨s', hs', _, _, hresults⟩ := consciousnessTick_spec fs hawake a
  refine ⟨s, s', by rw [hs₀, hs], hs', hresults, ?_⟩
  exact (fedBack_iff fs a.env _ s.body (small_senseBuf _ _ _)).trans (executed_nil_iff hawake a)

end Loop

/-! ### A sound that is stopped -/

/-- A word of the model, and the end of its answer. -/
def stopRounds (n : Nat) : Round :=
  if n = 0 then ⟨1, false, some (ascii "<ACT:AUDIO_STOP>"), 0⟩ else ⟨2, true, none, 0⟩

def wordToken : NewTokens := ⟨[1], by decide⟩

/-- A tick without camera, microphone and network. -/
def stopTick : TickInput where
  senses := ⟨false, ⟨0, 0, 0, 0⟩, false, ⟨0, false⟩, false, ⟨false, 0⟩⟩
  mem := memoryGetStatus Pmm.bss ⟨0, 0⟩
  tokenized := some wordToken
  recode := 0
  code := 0
  rounds := stopRounds
  env := fun _ => ⟨sampleStack, 0⟩
  stack := sampleStack

def stopToken : Token := ⟨ascii "ACT:AUDIO_STOP", by decide⟩

theorem said_stopTick : stopTick.said = ascii "<ACT:AUDIO_STOP>" := by
  have hrounds : roundsOf 256 stopTick.rounds =
      stopRounds 0 :: stopRounds 1 :: (List.range 254).map fun n => stopRounds (n + 2) := by
    rw [roundsOf, show (256 : Int).toNat = 254 + 1 + 1 from rfl, List.range_succ_eq_map,
      List.range_succ_eq_map]
    simp only [List.map_cons, List.map_map]
    rfl
  have hlen : (ascii "<ACT:AUDIO_STOP>").length = 16 := by decide
  rw [TickInput.said, hrounds]
  simp [answerText, stopRounds, hlen]

theorem calls_stopTick :
    actionParseAndExecute (some (cstr stopTick.said)) = [(.actAudioStop, stopToken)] := by
  have hcstr : cstr stopTick.said = Surround.nothing.text stopToken.bytes := by
    rw [said_stopTick]
    decide +kernel
  have hmatch : matchAt (stopToken.bytes ++ charByte '>' :: Surround.nothing.after) =
      some ⟨ascii "ACT:AUDIO_STOP", .actAudioStop⟩ := by decide
  rw [hcstr, calls_matched Surround.nothing (by decide) stopToken.lt hmatch]

/-- In the first tick the sound is stopped, and the second one does not tell. -/
theorem feedback_lost : ∃ s s',
    (consciousnessMachine sampleFs).run
      (consciousnessInit sampleFs sizeofIndexBuf emptyDisk sampleHeap none 0 0) [] = some s ∧
    consciousnessTick sampleFs stopTick s = some s' ∧
    s.executed stopTick = [(.actAudioStop, stopToken)] ∧
    ¬ FedBack sampleFs stopTick.env (s.executed stopTick) s.body (s'.perceived stopTick).bytes := by
  obtain ⟨s, hs, hawake⟩ := consciousnessInit_spec sampleFs sizeofIndexBuf emptyDisk sampleHeap none 0 0
  obtain ⟨s', hs', _⟩ := consciousnessTick_spec sampleFs hawake stopTick
  have hsaid : stopTick.said ≠ [] := by
    rw [said_stopTick]
    decide +kernel
  have hexecuted : s.executed stopTick = [(.actAudioStop, stopToken)] := by
    rcases answer_cases hawake stopTick with ⟨_, hno⟩ | ⟨hsome, _⟩
    · exact absurd ⟨.inr ⟨wordToken, rfl, List.cons_ne_nil _ _⟩, hsaid⟩ hno
    · rw [Life.executed, hsome]
      exact calls_stopTick
  refine ⟨s, s', hs, hs', hexecuted, ?_⟩
  rw [hexecuted]
  exact not_fedBack sampleFs stopTick.env (List.cons_ne_nil _ _) s.body (small_senseBuf _ _ _)

end AionOs
