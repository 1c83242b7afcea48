import AionOs.Lib.Reader
import AionOs.Runtime.Effects
import AionOs.Runtime.Senses

/-!
# What is perceived

The text that `consciousness_run` feeds in a tick, and the captures it is printed from.

* `senseText_read`: the text is read back as what it was printed from.
* `perceived_read`: so is the text of each tick, in every life.
* `captures_exact`: what a row of captures tells, the motion of the camera against the frame before.
-/

namespace AionOs

open Bytes Finset Reading

/-! ### The text -/

/-- What the text of the senses tells; a sense that is missing is not told. -/
structure Sensed where
  tick : U64
  camera : Option CameraSnap
  mic : Option MicSnap
  network : Option NetSnap
  /-- In units of 1024 * 1024 bytes. -/
  freeMb : U64

def sensed (tick : U64) (senses : SenseSnapshot) (mem : MemoryStatus) : Sensed where
  tick := tick
  camera := if senses.cameraAvailable then some senses.cameraFrame else none
  mic := if senses.micAvailable then some senses.micFrame else none
  network := if senses.networkAvailable then some senses.network else none
  freeMb := mem.freePhysical / (1024 * 1024)

def readCamera : Reader CameraSnap := do
  let width ← field (ascii "cam:")
  let height ← field (ascii ",")
  let luma ← field (ascii ",luma:")
  let delta ← field (ascii ",delta:")
  word (ascii " ")
  return ⟨BitVec.ofNat 32 width, BitVec.ofNat 32 height, BitVec.ofNat 8 luma, BitVec.ofNat 8 delta⟩

def readMic : Reader MicSnap := do
  let rms ← field (ascii "mic:rms:")
  let silence ← field (ascii ",silence:")
  word (ascii " ")
  return ⟨BitVec.ofNat 32 rms, decide (silence = 1)⟩

def readNet : Reader NetSnap := do
  let connected ← field (ascii "net:")
  let rx ← field (ascii ",rx:")
  word (ascii " ")
  return ⟨decide (connected = 1), BitVec.ofNat 64 rx⟩

def readSensed : Reader Sensed := do
  let tick ← field (ascii "t:")
  word (ascii " ")
  let camera ← optional (ascii "cam:") readCamera
  let mic ← optional (ascii "mic:") readMic
  let net ← optional (ascii "net:") readNet
  let free ← field (ascii "mem_free:")
  word (ascii "\n")
  return ⟨BitVec.ofNat 64 tick, camera, mic, net, BitVec.ofNat 64 free⟩

theorem digitsEnd_comma (rest : List U8) : DigitsEnd (ascii "," ++ rest) :=
  digitsEnd_append (by decide) rest

theorem digitsEnd_space (rest : List U8) : DigitsEnd (ascii " " ++ rest) :=
  digitsEnd_append (by decide) rest

theorem decimalBool_eq (b : Bool) : decimalBool b = decimal b.toNat := by
  cases b <;> decide

theorem ofNat_toNat_self {w : Nat} (x : BitVec w) : BitVec.ofNat w x.toNat = x := by
  rw [BitVec.ofNat_toNat, BitVec.setWidth_eq]

theorem cameraText_read (c : CameraSnap) (rest : List U8) :
    readCamera.run (cameraText c ++ rest) = some (c, rest) := by
  have hluma : ∀ rest, DigitsEnd (ascii ",luma:" ++ rest) := digitsEnd_append (by decide)
  have hdelta : ∀ rest, DigitsEnd (ascii ",delta:" ++ rest) := digitsEnd_append (by decide)
  simp only [readCamera, cameraText, List.append_assoc, StateT.run_bind, field_append _ _ (digitsEnd_comma _),
    field_append _ _ (hluma _), field_append _ _ (hdelta _), field_append _ _ (digitsEnd_space _), word_append,
    Option.bind_eq_bind, Option.bind_some, ofNat_toNat_self]
  rfl

theorem micText_read (m : MicSnap) (rest : List U8) : readMic.run (micText m ++ rest) = some (m, rest) := by
  have hsilence : ∀ rest, DigitsEnd (ascii ",silence:" ++ rest) := digitsEnd_append (by decide)
  have hbool : decide (m.isSilence.toNat = 1) = m.isSilence := by cases m.isSilence <;> rfl
  simp only [readMic, micText, decimalBool_eq, List.append_assoc, StateT.run_bind, field_append _ _ (hsilence _),
    field_append _ _ (digitsEnd_space _), word_append, Option.bind_eq_bind, Option.bind_some, ofNat_toNat_self,
    hbool]
  rfl

theorem netText_read (n : NetSnap) (rest : List U8) : readNet.run (netText n ++ rest) = some (n, rest) := by
  have hrx : ∀ rest, DigitsEnd (ascii ",rx:" ++ rest) := digitsEnd_append (by decide)
  have hbool : decide (n.connected.toNat = 1) = n.connected := by cases n.connected <;> rfl
  simp only [readNet, netText, decimalBool_eq, List.append_assoc, StateT.run_bind, field_append _ _ (hrx _),
    field_append _ _ (digitsEnd_space _), word_append, Option.bind_eq_bind, Option.bind_some, ofNat_toNat_self,
    hbool]
  rfl

theorem not_prefix_part {w u text rest : List U8} (b : Bool) (htext : u <+: text) (hlen : w.length ≤ u.length)
    (hword : ¬ w <+: u) (hrest : ¬ w <+: rest) : ¬ w <+: (if b then text else []) ++ rest := by
  cases b with
  | false => exact hrest
  | true =>
    obtain ⟨tail, rfl⟩ := htext
    rw [if_pos rfl, List.append_assoc]
    exact not_prefix_append hlen hword _

theorem cameraText_word (c : CameraSnap) : ascii "cam:" <+: cameraText c := by
  simp only [cameraText, List.append_assoc, List.prefix_append]

theorem micText_word (m : MicSnap) : ascii "mic:" <+: micText m := by
  have hword : ascii "mic:" <+: ascii "mic:rms:" := by decide
  refine hword.trans ?_
  simp only [micText, List.append_assoc, List.prefix_append]

theorem netText_word (n : NetSnap) : ascii "net:" <+: netText n := by
  simp only [netText, List.append_assoc, List.prefix_append]

/-- **The text of the senses tells all that it was printed from.** -/
theorem senseText_read (tick : U64) (senses : SenseSnapshot) (mem : MemoryStatus) :
    readSensed.run (senseText tick senses mem) = some (sensed tick senses mem, []) := by
  have hend : ∀ rest, DigitsEnd (ascii "\n" ++ rest) := digitsEnd_append (by decide)
  -- no part starts with the word of another one
  have hnet : ∀ rest, ¬ ascii "net:" <+: ascii "mem_free:" ++ rest := not_prefix_append (by decide) (by decide)
  have hmic : ∀ rest, ¬ ascii "mic:" <+:
      (if senses.networkAvailable then netText senses.network else []) ++ (ascii "mem_free:" ++ rest) :=
    fun rest => not_prefix_part _ (netText_word _) (by decide) (by decide)
      (not_prefix_append (by decide) (by decide) rest)
  have hcam : ∀ rest, ¬ ascii "cam:" <+: (if senses.micAvailable then micText senses.micFrame else []) ++
      ((if senses.networkAvailable then netText senses.network else []) ++ (ascii "mem_free:" ++ rest)) :=
    fun rest => not_prefix_part _ (micText_word _) (by decide) (by decide)
      (not_prefix_part _ (netText_word _) (by decide) (by decide) (not_prefix_append (by decide) (by decide) rest))
  rw [senseText, ← List.append_nil (ascii "\n")]
  simp only [readSensed, List.append_assoc, StateT.run_bind, field_append _ _ (digitsEnd_space _), word_append,
    optional_append _ (cameraText_word _) (cameraText_read _ _) (hcam _),
    optional_append _ (micText_word _) (micText_read _ _) (hmic _),
    optional_append _ (netText_word _) (netText_read _ _) (hnet _),
    field_append _ _ (hend _), Option.bind_eq_bind, Option.bind_some, ofNat_toNat_self]
  rfl

/-! ### Every tick -/

def NoZero (text : List U8) : Prop := ∀ b ∈ text, b ≠ 0

instance (text : List U8) : Decidable (NoZero text) := inferInstanceAs (Decidable (∀ b ∈ text, _))

theorem noZero_append {l m : List U8} : NoZero (l ++ m) ↔ NoZero l ∧ NoZero m := List.forall_mem_append

theorem noZero_decimal (n : Nat) : NoZero (decimal n) := by
  rintro b hb rfl
  exact absurd (decimal_digit hb).1 (by decide)

theorem noZero_decimalBool (b : Bool) : NoZero (decimalBool b) := by
  cases b <;> decide

theorem noZero_if {b : Bool} {l : List U8} (h : NoZero l) : NoZero (if b then l else []) := by
  cases b with
  | false => exact nil_ne_zero
  | true => exact h

theorem noZero_senseText (tick : U64) (senses : SenseSnapshot) (mem : MemoryStatus) :
    NoZero (senseText tick senses mem) := by
  have hcamera : NoZero (cameraText senses.cameraFrame) := by
    simp only [cameraText, noZero_append, noZero_decimal, and_true]
    decide
  have hmic : NoZero (micText senses.micFrame) := by
    simp only [micText, noZero_append, noZero_decimal, noZero_decimalBool, and_true]
    decide
  have hnet : NoZero (netText senses.network) := by
    simp only [netText, noZero_append, noZero_decimal, noZero_decimalBool, and_true]
    decide
  simp only [senseText, noZero_append, noZero_decimal, noZero_if hcamera, noZero_if hmic, noZero_if hnet, and_true]
  decide

theorem perceived_bytes {σ : Type} (s : Life σ) (a : TickInput) :
    (s.perceived a).bytes = senseText (s.tick + 1) a.senses a.mem := by
  show cstr (senseText (s.tick + 1) a.senses a.mem) = _
  exact cstr_eq_self (noZero_senseText _ _ _)

theorem life_tick {σ : Type} (fs : FileSystem σ) (cap : Nat) (disk : σ) (heap : Heap)
    (tokenized : Option NewTokens) (recode code : Int) (ticks : List TickInput) : ∃ s,
    (consciousnessMachine fs).run (consciousnessInit fs cap disk heap tokenized recode code) ticks = some s ∧
      s.tick = BitVec.ofNat 64 ticks.length := by
  refine @life_keeps _ fs (fun ticks s => s.tick = BitVec.ofNat 64 ticks.length) cap disk heap tokenized recode code
    (fun s hs => (init_start hs).1) (fun ticks a s s' htick hawake hs => ?_) ticks
  obtain ⟨t, ht, _, hnext, _⟩ := consciousnessTick_spec fs hawake a
  obtain rfl := Option.some.inj (hs.symm.trans ht)
  rw [hnext, htick, List.length_append, List.length_singleton, BitVec.ofNat_add]
  rfl

/-- **Each tick perceives all of its senses**: in every life the text that is fed is read back as the number
of the tick and what was captured. -/
theorem perceived_read {σ : Type} (fs : FileSystem σ) (cap : Nat) (disk : σ) (heap : Heap)
    (tokenized : Option NewTokens) (recode code : Int) (ticks : List TickInput) (a : TickInput) : ∃ s,
    (consciousnessMachine fs).run (consciousnessInit fs cap disk heap tokenized recode code) ticks = some s ∧
      readSensed.run (s.perceived a).bytes =
        some (sensed (BitVec.ofNat 64 (ticks.length + 1)) a.senses a.mem, []) := by
  obtain ⟨s, hs, htick⟩ := life_tick fs cap disk heap tokenized recode code ticks
  refine ⟨s, hs, ?_⟩
  have hnext : s.tick + 1 = BitVec.ofNat 64 (ticks.length + 1) := by
    rw [htick, BitVec.ofNat_add]
    rfl
  rw [perceived_bytes, hnext]
  exact senseText_read _ _ _

/-! ### Captures in a row -/

structure Capture where
  frame : Option CamFrame
  mframe : Option MicFrame
  net : NetworkStatus

/-- Some calls of `senses_capture`, each with the `prev_luma` that the one before left. -/
def captures : U8 → List Capture → Option (List SenseSnapshot)
  | _, [] => some []
  | prevLuma, c :: cs => do
    let (s, luma) ← sensesCapture prevLuma c.frame c.mframe c.net
    let snaps ← captures luma cs
    some (s :: snaps)

/-- The pixels that count; the product of the sizes is of 32 bits. -/
def CamFrame.counted (f : CamFrame) : Nat := min (f.width * f.height).toNat 10000

def CamFrame.luma (f : CamFrame) : Nat := (∑ i ∈ range f.counted, (f.data i).toNat) / f.counted

def latestLuma (prevLuma : Nat) (cs : List Capture) : Nat :=
  ((cs.filterMap Capture.frame).getLast?.map CamFrame.luma).getD prevLuma

/-- The exact snapshot of a capture, when the latest frame had this mean. -/
def Capture.snapshot (luma : Nat) (c : Capture) : SenseSnapshot where
  cameraAvailable := c.frame.isSome
  cameraFrame := (c.frame.map fun f =>
    ⟨f.width, f.height, BitVec.ofNat 8 f.luma, BitVec.ofNat 8 (f.luma - luma : Int).natAbs⟩).getD ⟨0, 0, 0, 0⟩
  micAvailable := c.mframe.isSome
  micFrame := (c.mframe.map fun m => ⟨BitVec.ofNat 32 m.loudness, decide (m.loudness < 100)⟩).getD ⟨0, false⟩
  networkAvailable := c.net.initialised
  network := ⟨c.net.linkUp, c.net.rxBytes⟩

theorem lumaLoop_eq (data : Nat → U8) : ∀ (n i : Nat), i + n ≤ 10000 →
    lumaLoop data n i (BitVec.ofNat 64 (∑ j ∈ range i, (data j).toNat)) =
      BitVec.ofNat 64 (∑ j ∈ range (i + n), (data j).toNat) := by
  intro n
  induction n with
  | zero => intro i _; rfl
  | succ n ih =>
    intro i hi
    have hnext : BitVec.ofNat 64 (∑ j ∈ range i, (data j).toNat) + (data i).zeroExtend 64 =
        BitVec.ofNat 64 (∑ j ∈ range (i + 1), (data j).toNat) := by
      rw [sum_range_succ, BitVec.ofNat_add, BitVec.zeroExtend, BitVec.ofNat_toNat]
    rw [lumaLoop, hnext, ih (i + 1) (by omega), Nat.add_right_comm, Nat.add_assoc]

theorem sum_luma_le (data : Nat → U8) (n : Nat) : ∑ i ∈ range n, (data i).toNat ≤ n * 255 := by
  have h := sum_le_card_nsmul (range n) (fun i => (data i).toNat) 255 fun i _ => by have := (data i).isLt; omega
  rwa [card_range, smul_eq_mul] at h

theorem luma_le (f : CamFrame) : f.luma ≤ 255 := Nat.div_le_of_le_mul (sum_luma_le f.data f.counted)

theorem counted_pixels (f : CamFrame) :
    (if f.width * f.height < 10000 then f.width * f.height else 10000 : U32).toNat = f.counted := by
  rw [CamFrame.counted]
  split
  next h =>
    rw [BitVec.lt_def] at h
    exact (Nat.min_eq_left (Nat.le_of_lt h)).symm
  next h =>
    rw [BitVec.lt_def, Nat.not_lt] at h
    exact (Nat.min_eq_right h).symm

/-- **A frame** has its exact mean, unless it has no pixel. -/
theorem cameraSnap_eq (prevLuma : U8) (f : CamFrame) : cameraSnap prevLuma f =
    if f.counted = 0 then none
    else some (⟨f.width, f.height, BitVec.ofNat 8 f.luma, BitVec.ofNat 8 (f.luma - prevLuma.toNat : Int).natAbs⟩,
      BitVec.ofNat 8 f.luma) := by
  have hcounted := counted_pixels f
  have hsmall : f.counted ≤ 10000 := Nat.min_le_right _ _
  have hsum := sum_luma_le f.data f.counted
  have hloop : lumaLoop f.data f.counted 0 0 = BitVec.ofNat 64 (∑ j ∈ range (0 + f.counted), (f.data j).toNat) :=
    lumaLoop_eq f.data f.counted 0 (by omega)
  rw [Nat.zero_add] at hloop
  rw [cameraSnap]
  dsimp only
  generalize (if f.width * f.height < 10000 then f.width * f.height else 10000 : U32) = n at hcounted ⊢
  rw [hcounted, hloop]
  by_cases hnone : f.counted = 0
  · have hn : n = 0 := BitVec.eq_of_toNat_eq (hcounted.trans hnone)
    rw [if_pos hn, if_pos hnone]
  · have hn : n ≠ 0 := fun hn => hnone (by rw [← hcounted, hn]; rfl)
    have hquot : (BitVec.ofNat 64 (∑ j ∈ range f.counted, (f.data j).toNat) / n.zeroExtend 64).toNat = f.luma := by
      have hextend : (n.zeroExtend 64).toNat = f.counted := by
        rw [BitVec.toNat_setWidth, hcounted, Nat.mod_eq_of_lt (by omega)]
      rw [BitVec.toNat_udiv, BitVec.toNat_ofNat, Nat.mod_eq_of_lt (by omega), hextend]
      rfl
    have hmean : ((BitVec.ofNat 64 (∑ j ∈ range f.counted, (f.data j).toNat) / n.zeroExtend 64).truncate 8 : U8) =
        BitVec.ofNat 8 f.luma := by
      refine BitVec.eq_of_toNat_eq ?_
      rw [BitVec.truncate_eq_setWidth, BitVec.toNat_setWidth, hquot, BitVec.toNat_ofNat]
    have hluma : (BitVec.ofNat 8 f.luma).toNat = f.luma := by
      have := luma_le f
      rw [BitVec.toNat_ofNat, Nat.mod_eq_of_lt (by omega)]
    rw [if_neg hn, if_neg hnone, hmean, hluma]
    have habs : (if (f.luma : Int) - prevLuma.toNat < 0 then -((f.luma : Int) - prevLuma.toNat)
        else (f.luma : Int) - prevLuma.toNat) = ((f.luma - prevLuma.toNat : Int).natAbs : Int) := by
      split <;> omega
    rw [habs, BitVec.ofInt_natCast]

theorem micSnap_eq (m : MicFrame) : micSnap m = some ⟨BitVec.ofNat 32 m.loudness, decide (m.loudness < 100)⟩ := by
  have hloud := loudness_lt m
  have hlt : BitVec.ofNat 32 m.loudness < 100 ↔ m.loudness < 100 := by
    rw [BitVec.lt_def, BitVec.toNat_ofNat, Nat.mod_eq_of_lt (by omega)]
    rfl
  rw [micSnap, micLoudness_eq]
  show some (MicSnap.mk _ (decide (BitVec.ofNat 32 m.loudness < 100))) = _
  rw [decide_eq_decide.mpr hlt]

theorem latestLuma_cons (prevLuma : Nat) (c : Capture) (cs : List Capture) :
    latestLuma prevLuma (c :: cs) = latestLuma ((c.frame.map CamFrame.luma).getD prevLuma) cs := by
  cases hframe : c.frame with
  | none =>
    have hskip : (c :: cs).filterMap Capture.frame = cs.filterMap Capture.frame := List.filterMap_cons_none hframe
    rw [latestLuma, hskip]
    rfl
  | some f =>
    have hfirst : (c :: cs).filterMap Capture.frame = f :: cs.filterMap Capture.frame := List.filterMap_cons_some hframe
    rw [latestLuma, hfirst, List.getLast?_cons, latestLuma]
    cases (cs.filterMap Capture.frame).getLast? <;> rfl

/-- **One capture**: it tells the exact values, unless a frame has no pixel. -/
theorem sensesCapture_eq (prevLuma : U8) (c : Capture) : sensesCapture prevLuma c.frame c.mframe c.net =
    if ∃ f ∈ c.frame, f.counted = 0 then none
    else some (c.snapshot prevLuma.toNat, BitVec.ofNat 8 ((c.frame.map CamFrame.luma).getD prevLuma.toNat)) := by
  obtain ⟨frame, mframe, net⟩ := c
  have hkept := ofNat_toNat_self prevLuma
  cases frame with
  | none =>
    have hframe : ¬∃ f ∈ (none : Option CamFrame), f.counted = 0 := by
      rintro ⟨f, hf, -⟩
      cases hf
    rw [if_neg hframe]
    cases mframe with
    | none => exact congrArg (fun luma => some (_, luma)) hkept.symm
    | some m =>
      simp only [sensesCapture, micSnap_eq]
      exact congrArg (fun luma => some (_, luma)) hkept.symm
  | some f =>
    have hpixels : (∃ g ∈ some f, g.counted = 0) ↔ f.counted = 0 := by
      refine ⟨?_, fun hzero => ⟨f, rfl, hzero⟩⟩
      rintro ⟨g, hg, hzero⟩
      exact Option.some.inj hg ▸ hzero
    simp only [sensesCapture, cameraSnap_eq, hpixels]
    by_cases hnone : f.counted = 0
    · rw [if_pos hnone, if_pos hnone]
      rfl
    · rw [if_neg hnone, if_neg hnone]
      cases mframe with
      | none => rfl
      | some m =>
        simp only [micSnap_eq]
        rfl

/-- **A row of captures** tells the exact values, and the motion of each frame against the latest one before
it; it comes to an end unless a frame has no pixel. -/
theorem captures_exact (prevLuma : U8) (cs : List Capture) :
    ((captures prevLuma cs).isSome ↔ ∀ c ∈ cs, ∀ f ∈ c.frame, f.counted ≠ 0) ∧
      ∀ snaps, captures prevLuma cs = some snaps →
        ∀ i, snaps[i]? = cs[i]?.map (Capture.snapshot (latestLuma prevLuma.toNat (cs.take i))) := by
  induction cs generalizing prevLuma with
  | nil =>
    refine ⟨iff_of_true rfl fun c hc => absurd hc List.not_mem_nil, fun snaps hsnaps i => ?_⟩
    obtain rfl := Option.some.inj hsnaps
    rfl
  | cons c cs ih =>
    rw [captures, sensesCapture_eq]
    by_cases hnone : ∃ f ∈ c.frame, f.counted = 0
    · rw [if_pos hnone]
      obtain ⟨f, hf, hzero⟩ := hnone
      exact ⟨iff_of_false (fun h => nomatch h) fun h => h c List.mem_cons_self f hf hzero, fun _ h => nomatch h⟩
    rw [if_neg hnone]
    obtain ⟨hsome, hsnaps⟩ := ih (BitVec.ofNat 8 ((c.frame.map CamFrame.luma).getD prevLuma.toNat))
    have hluma : (BitVec.ofNat 8 ((c.frame.map CamFrame.luma).getD prevLuma.toNat)).toNat =
        (c.frame.map CamFrame.luma).getD prevLuma.toNat := by
      have hbyte := prevLuma.isLt
      have hbound : (c.frame.map CamFrame.luma).getD prevLuma.toNat < 256 := by
        cases c.frame with
        | none => exact hbyte
        | some f => exact Nat.lt_succ_of_le (luma_le f)
      rw [BitVec.toNat_ofNat, Nat.mod_eq_of_lt hbound]
    rw [hluma] at hsnaps
    simp only [Option.bind_eq_bind, Option.bind_some]
    cases hrest : captures (BitVec.ofNat 8 ((c.frame.map CamFrame.luma).getD prevLuma.toNat)) cs with
    | none =>
      rw [hrest] at hsome
      refine ⟨iff_of_false (fun h => nomatch h) fun h => ?_, fun _ h => nomatch h⟩
      exact nomatch hsome.mpr fun c' hc' => h c' (List.mem_cons_of_mem c hc')
    | some rest =>
      rw [hrest] at hsome
      refine ⟨iff_of_true rfl fun c' hc' f hf => ?_, fun snaps hcons i => ?_⟩
      · rcases List.mem_cons.mp hc' with rfl | hc'
        · exact fun hzero => hnone ⟨f, hf, hzero⟩
        · exact hsome.mp rfl c' hc' f hf
      · obtain rfl := Option.some.inj hcons
        cases i with
        | zero => rfl
        | succ i =>
          rw [List.getElem?_cons_succ, List.getElem?_cons_succ, List.take_succ_cons, latestLuma_cons]
          exact hsnaps rest hrest i

end AionOs
