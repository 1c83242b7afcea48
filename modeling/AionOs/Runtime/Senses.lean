import Mathlib.Algebra.BigOperators.Intervals
import Mathlib.Algebra.Order.BigOperators.Group.Finset
import AionOs.Lib.Isqrt
import AionOs.Runtime.Life

/-!
# The senses

`senses_capture` of `consciousness/senses/senses.c`.  A sum, a product or a difference that is too
large or too small for its type gives no result at all, and neither does a division by zero.

* `rootShrink_spec`, `rootLoop_spec`: the two loops of the square root.
* `micLoudness_eq`: the loudness of a frame.
* `senses_loudness`: what a capture says of the microphone.
-/

namespace AionOs

open Finset

/-! ### The code -/

/-- `CamFrame`, as far as it is read. -/
structure CamFrame where
  width : U32
  height : U32
  data : Nat → U8

/-- `MicFrame`, as far as it is read. -/
structure MicFrame where
  sampleCount : U32
  data : Nat → U8

/-- `NetworkStatus`, as far as it is read. -/
structure NetworkStatus where
  initialised : Bool
  linkUp : Bool
  rxBytes : U64

/-- `a + b` without a carry. -/
def plus (a b : U64) : Option U64 := if a.toNat + b.toNat < 2 ^ 64 then some (a + b) else none

/-- `a - b` without a borrow. -/
def minus (a b : U64) : Option U64 := if b ≤ a then some (a - b) else none

/-- `sample * sample`, in `int`, as a `uint64_t`. -/
def square (sample : BitVec 16) : Option U64 :=
  let product := sample.toInt * sample.toInt
  if -2 ^ 31 ≤ product ∧ product < 2 ^ 31 then some (BitVec.ofInt 64 product) else none

/-- `((int16_t *)data)[i]` -/
def sampleAt (data : Nat → U8) (i : Nat) : BitVec 16 := data (2 * i + 1) ++ data (2 * i)

def squareLoop (data : Nat → U8) : Nat → Nat → U64 → Option U64
  | 0, _, sumSq => some sumSq
  | n + 1, i, sumSq => do
    let s ← square (sampleAt data i)
    let sumSq ← plus sumSq s
    squareLoop data n (i + 1) sumSq

theorem shift_lt {b : U64} (h : b ≠ 0) : (b >>> 2).toNat < b.toNat := by
  have hpos : b.toNat ≠ 0 := fun h0 => h (BitVec.eq_of_toNat_eq h0)
  rw [BitVec.toNat_ushiftRight, Nat.shiftRight_eq_div_pow]
  omega

/-- `while (bit > x) bit >>= 2` -/
def rootShrink (x b : U64) : U64 :=
  if x < b then rootShrink x (b >>> 2) else b
termination_by b.toNat
decreasing_by
  rename_i hlt
  refine shift_lt fun h0 => ?_
  rw [h0] at hlt
  exact BitVec.not_lt_zero hlt

/-- `while (bit)` -/
def rootLoop (x r b : U64) : Option U64 :=
  if b = 0 then some r
  else do
    let sum ← plus r b
    if sum ≤ x then do
      let x ← minus x sum
      let r ← plus (r >>> 1) b
      rootLoop x r (b >>> 2)
    else rootLoop x (r >>> 1) (b >>> 2)
termination_by b.toNat
decreasing_by all_goals exact shift_lt (by assumption)

/-- `rms` -/
def micLoudness (frame : MicFrame) : Option U32 := do
  let n : U32 := if frame.sampleCount > 4096 then 4096 else frame.sampleCount
  let sumSq ← squareLoop frame.data n.toNat 0 0
  if n > 0 then do
    let meanSq := sumSq / n.zeroExtend 64
    let r ← rootLoop meanSq 0 (rootShrink meanSq ((1 : U64) <<< 30))
    some (r.truncate 32)
  else some 0

/-- `s.mic_frame` -/
def micSnap (frame : MicFrame) : Option MicSnap := do
  let rms ← micLoudness frame
  some ⟨rms, decide (rms < 100)⟩

def lumaLoop (data : Nat → U8) : Nat → Nat → U64 → U64
  | 0, _, lumaSum => lumaSum
  | n + 1, i, lumaSum => lumaLoop data n (i + 1) (lumaSum + (data i).zeroExtend 64)

/-- `s.camera_frame`; the second value is the new `prev_luma`. -/
def cameraSnap (prevLuma : U8) (frame : CamFrame) : Option (CameraSnap × U8) :=
  let pixels : U32 := frame.width * frame.height
  let counted : U32 := if pixels < 10000 then pixels else 10000
  let lumaSum := lumaLoop frame.data counted.toNat 0 0
  if counted = 0 then none
  else
    let meanLuma : U8 := (lumaSum / counted.zeroExtend 64).truncate 8
    let delta : Int := (meanLuma.toNat : Int) - prevLuma.toNat
    let motion : U8 := BitVec.ofInt 8 (if delta < 0 then -delta else delta)
    some (⟨frame.width, frame.height, meanLuma, motion⟩, meanLuma)

/-- `senses_capture`; the second value is the new `prev_luma`. -/
def sensesCapture (prevLuma : U8) (frame : Option CamFrame) (mframe : Option MicFrame)
    (net : NetworkStatus) : Option (SenseSnapshot × U8) := do
  let camera ← match frame with
    | none => some (⟨0, 0, 0, 0⟩, prevLuma)
    | some f => cameraSnap prevLuma f
  let mic ← match mframe with
    | none => some ⟨0, false⟩
    | some f => micSnap f
  some (⟨frame.isSome, camera.1, mframe.isSome, mic, net.initialised, ⟨net.linkUp, net.rxBytes⟩⟩,
    camera.2)

/-! ### The sum of the squares -/

def squareSum (data : Nat → U8) (n : Nat) : Nat := ∑ i ∈ range n, (sampleAt data i).toInt.natAbs ^ 2

theorem natAbs_sample (s : BitVec 16) : s.toInt.natAbs ≤ 2 ^ 15 := by
  have hlow := BitVec.le_toInt s
  have hhigh := BitVec.toInt_lt (x := s)
  omega

theorem sample_square (s : BitVec 16) : s.toInt.natAbs ^ 2 ≤ 2 ^ 30 := by
  have h := Nat.pow_le_pow_left (natAbs_sample s) 2
  rwa [← Nat.pow_mul] at h

theorem square_eq (s : BitVec 16) : square s = some (BitVec.ofNat 64 (s.toInt.natAbs ^ 2)) := by
  have hbound := sample_square s
  have hproduct : s.toInt * s.toInt = ((s.toInt.natAbs ^ 2 : Nat) : Int) := by
    rw [← Int.natAbs_mul_self, Nat.pow_two]
  rw [square, hproduct, if_pos (by omega), BitVec.ofInt_natCast]

theorem squareSum_le (data : Nat → U8) (n : Nat) : squareSum data n ≤ n * 2 ^ 30 := by
  have h := sum_le_card_nsmul (range n) (fun i => (sampleAt data i).toInt.natAbs ^ 2) (2 ^ 30)
    fun i _ => sample_square (sampleAt data i)
  rwa [card_range, smul_eq_mul] at h

theorem squareLoop_eq {data : Nat → U8} {n i : Nat} (h : i + n ≤ 2 ^ 33) :
    squareLoop data n i (BitVec.ofNat 64 (squareSum data i)) =
      some (BitVec.ofNat 64 (squareSum data (i + n))) := by
  induction n generalizing i with
  | zero => rfl
  | succ n ih =>
    have hsum : squareSum data (i + 1) = squareSum data i + (sampleAt data i).toInt.natAbs ^ 2 :=
      sum_range_succ _ _
    have hlast := sample_square (sampleAt data i)
    have hall := squareSum_le data i
    have hfits : (BitVec.ofNat 64 (squareSum data i)).toNat +
        (BitVec.ofNat 64 ((sampleAt data i).toInt.natAbs ^ 2)).toNat < 2 ^ 64 := by
      rw [BitVec.toNat_ofNat, BitVec.toNat_ofNat, Nat.mod_eq_of_lt (by omega),
        Nat.mod_eq_of_lt (by omega)]
      omega
    rw [squareLoop, square_eq, Option.bind_eq_bind, Option.bind_some, plus, if_pos hfits,
      Option.bind_some, ← BitVec.ofNat_add, ← hsum, ih (by omega), Nat.add_right_comm, Nat.add_assoc]

/-! ### The square root -/

/-- The bits of the loop: a power of four, or nothing. -/
def AtBit (b : U64) (k : Nat) : Prop := b.toNat = 4 ^ k / 4

theorem atBit_shift {b : U64} {k : Nat} (h : AtBit b (k + 1)) : AtBit (b >>> 2) k := by
  rw [AtBit, BitVec.toNat_ushiftRight, Nat.shiftRight_eq_div_pow, h, Nat.pow_succ]
  omega

theorem atBit_value {b : U64} {k : Nat} (h : AtBit b (k + 1)) : b.toNat = 4 ^ k := by
  rw [h, Nat.pow_succ]
  omega

theorem atBit_zero_iff {b : U64} {k : Nat} (h : AtBit b k) : b = 0 ↔ k = 0 := by
  cases k with
  | zero => exact iff_of_true (BitVec.eq_of_toNat_eq h) rfl
  | succ k =>
    refine iff_of_false (fun h0 => ?_) (Nat.succ_ne_zero k)
    have hvalue := atBit_value h
    have hpos : 0 < 4 ^ k := Nat.pow_pos (by omega)
    have hnone : (0 : U64).toNat = 0 := rfl
    rw [h0, hnone] at hvalue
    omega

/-- **The first loop** finds a bit that is enough. -/
theorem rootShrink_spec {x b : U64} {k : Nat} (hb : AtBit b k) (hx : x.toNat < 4 ^ k) :
    ∃ j, j ≤ k ∧ AtBit (rootShrink x b) j ∧ x.toNat < 4 ^ j := by
  induction k generalizing b with
  | zero =>
    have h0 := (atBit_zero_iff hb).mpr rfl
    refine ⟨0, le_refl 0, ?_, hx⟩
    rw [rootShrink, if_neg (by rw [h0]; exact BitVec.not_lt_zero)]
    exact hb
  | succ k ih =>
    rw [rootShrink]
    by_cases hlt : x < b
    · rw [if_pos hlt]
      rw [BitVec.lt_def, atBit_value hb] at hlt
      obtain ⟨j, hj, hbit, hroom⟩ := ih (atBit_shift hb) hlt
      exact ⟨j, Nat.le_succ_of_le hj, hbit, hroom⟩
    · rw [if_neg hlt]
      exact ⟨k + 1, le_refl _, hb, hx⟩

/-- **The second loop** finds the bits of the root, and nothing overflows. -/
theorem rootLoop_spec {x r b : U64} {k : Nat} (hk : k ≤ 16) (hb : AtBit b k)
    (hr : r.toNat < 2 ^ 32) :
    ∃ q, rootLoop x r b = some q ∧ q.toNat = Isqrt.digits k x.toNat r.toNat := by
  induction k generalizing x r b with
  | zero =>
    rw [rootLoop, if_pos ((atBit_zero_iff hb).mpr rfl)]
    exact ⟨r, rfl, rfl⟩
  | succ k ih =>
    have hvalue := atBit_value hb
    have hlarge : 4 ^ k ≤ 4 ^ 15 := Nat.pow_le_pow_right (by omega) (by omega)
    have hzero : b ≠ 0 := fun h0 => Nat.succ_ne_zero k ((atBit_zero_iff hb).mp h0)
    have hhalf : (r >>> 1).toNat = r.toNat / 2 := by
      rw [BitVec.toNat_ushiftRight, Nat.shiftRight_eq_div_pow, Nat.pow_one]
    have hsum : (r + b).toNat = r.toNat + 4 ^ k := by
      rw [BitVec.toNat_add, hvalue, Nat.mod_eq_of_lt (by omega)]
    rw [rootLoop, if_neg hzero, plus, hvalue, if_pos (by omega), Option.bind_eq_bind,
      Option.bind_some, Isqrt.digits]
    by_cases hbit : r.toNat + 4 ^ k ≤ x.toNat
    · -- the bit is one: the difference and the new root are exact
      have hle : r + b ≤ x := by
        rw [BitVec.le_def, hsum]
        exact hbit
      have hrest : (x - (r + b)).toNat = x.toNat - (r.toNat + 4 ^ k) := by
        rw [BitVec.toNat_sub_of_le hle, hsum]
      have hnext : (r >>> 1 + b).toNat = r.toNat / 2 + 4 ^ k := by
        rw [BitVec.toNat_add, hhalf, hvalue, Nat.mod_eq_of_lt (by omega)]
      rw [if_pos hle, if_pos hbit, minus, if_pos hle, Option.bind_some, plus, hhalf, hvalue,
        if_pos (by omega), Option.bind_some, ← hrest, ← hnext]
      exact ih (by omega) (atBit_shift hb) (by omega)
    · have hle : ¬ r + b ≤ x := by
        rw [BitVec.le_def, hsum]
        exact hbit
      rw [if_neg hle, if_neg hbit, ← hhalf]
      exact ih (by omega) (atBit_shift hb) (by omega)

/-- **The square root of a word** below `2 ^ 32`. -/
theorem root_eq {x : U64} (h : x.toNat < 4 ^ 16) :
    ∃ q, rootLoop x 0 (rootShrink x ((1 : U64) <<< 30)) = some q ∧ q.toNat = Nat.sqrt x.toNat := by
  obtain ⟨k, hk, hb, hx⟩ := rootShrink_spec (b := (1 : U64) <<< 30) (k := 16) rfl h
  obtain ⟨q, hq, hroot⟩ := rootLoop_spec (x := x) (r := 0) hk hb (by decide)
  refine ⟨q, hq, ?_⟩
  rw [hroot]
  exact Isqrt.digits_eq_sqrt hx

/-! ### The microphone -/

def MicFrame.counted (frame : MicFrame) : Nat := min frame.sampleCount.toNat 4096

def MicFrame.loudness (frame : MicFrame) : Nat :=
  Nat.sqrt (squareSum frame.data frame.counted / frame.counted)

theorem counted_toNat (frame : MicFrame) :
    (if frame.sampleCount > 4096 then 4096 else frame.sampleCount : U32).toNat = frame.counted := by
  rw [MicFrame.counted]
  split
  next h =>
    rw [gt_iff_lt, BitVec.lt_def] at h
    exact (Nat.min_eq_right (Nat.le_of_lt h)).symm
  next h =>
    rw [gt_iff_lt, BitVec.lt_def, Nat.not_lt] at h
    exact (Nat.min_eq_left h).symm

theorem loudness_lt (frame : MicFrame) : frame.loudness < 2 ^ 16 := by
  rw [MicFrame.loudness]
  refine Isqrt.sqrt_lt ?_
  have hmean := Nat.div_le_of_le_mul (squareSum_le frame.data frame.counted)
  omega

/-- **The loudness of a frame** is computed exactly. -/
theorem micLoudness_eq (frame : MicFrame) :
    micLoudness frame = some (BitVec.ofNat 32 frame.loudness) := by
  have hn := counted_toNat frame
  have hsmall : frame.counted ≤ 4096 := Nat.min_le_right _ _
  have hsum := squareSum_le frame.data frame.counted
  have hloop : squareLoop frame.data frame.counted 0 0 =
      some (BitVec.ofNat 64 (squareSum frame.data (0 + frame.counted))) :=
    squareLoop_eq (by omega)
  rw [Nat.zero_add] at hloop
  rw [micLoudness]
  dsimp only
  generalize (if frame.sampleCount > 4096 then 4096 else frame.sampleCount : U32) = n at hn ⊢
  rw [hn]
  rw [hloop, Option.bind_eq_bind, Option.bind_some]
  by_cases hpos : n > 0
  · have hmean : (BitVec.ofNat 64 (squareSum frame.data frame.counted) / n.zeroExtend 64).toNat =
        squareSum frame.data frame.counted / frame.counted := by
      rw [BitVec.toNat_udiv, BitVec.toNat_ofNat, Nat.mod_eq_of_lt (by omega),
        BitVec.toNat_setWidth, hn, Nat.mod_eq_of_lt (by omega)]
    have hroom : squareSum frame.data frame.counted / frame.counted < 4 ^ 16 := by
      have := Nat.div_le_of_le_mul hsum
      omega
    obtain ⟨q, hq, hroot⟩ := root_eq (hmean ▸ hroom)
    rw [if_pos hpos, hq, Option.bind_some]
    refine congrArg some (BitVec.eq_of_toNat_eq ?_)
    rw [BitVec.truncate_eq_setWidth, BitVec.toNat_setWidth, hroot, hmean, BitVec.toNat_ofNat]
    rfl
  · have hnone : frame.counted = 0 := by
      rw [gt_iff_lt, BitVec.lt_def, hn] at hpos
      exact Nat.eq_zero_of_not_pos hpos
    rw [if_neg hpos, MicFrame.loudness, hnone, Nat.div_zero]
    rfl

end AionOs
