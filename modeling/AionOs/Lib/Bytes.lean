import Mathlib.Algebra.Order.Ring.Nat
import Mathlib.Data.List.Basic

/-!
# Byte strings

* `leBytes w n` and `ofLE`: little-endian numbers of `w` bytes (`ofLE_leBytes`).
* `pack`: a packed record of such numbers; `readField_pack` reads a field back.
* `cstr`: the C string at the front of a buffer, up to the first zero byte.
* `ascii`, `decimal`: the bytes of a text and of a number printed in base ten;
  `decimal_injective` says that a number can be read back.
* `append_sep_inj`: what follows the last separator can be read back.
* `overwrite`: a buffer after the bytes of a read were copied over its front.
-/

namespace Bytes

abbrev Byte := BitVec 8

/-! ### Little-endian numbers -/

/-- The `w` low bytes of a number, least significant first. -/
def leBytes : Nat → Nat → List Byte
  | 0, _ => []
  | w + 1, n => BitVec.ofNat 8 n :: leBytes w (n / 256)

def ofLE : List Byte → Nat
  | [] => 0
  | b :: bs => b.toNat + 256 * ofLE bs

@[simp] theorem length_leBytes : ∀ (w n : Nat), (leBytes w n).length = w := by
  intro w
  induction w with
  | zero => intro n; rfl
  | succ w ih => intro n; rw [leBytes, List.length_cons, ih]

theorem ofLE_leBytes : ∀ (w n : Nat), n < 256 ^ w → ofLE (leBytes w n) = n := by
  intro w
  induction w with
  | zero => intro n h; rw [Nat.pow_zero] at h; simp [leBytes, ofLE]; omega
  | succ w ih =>
    intro n h
    have hdiv : n / 256 < 256 ^ w := by
      rw [Nat.div_lt_iff_lt_mul (by omega)]
      rwa [Nat.pow_succ] at h
    rw [leBytes, ofLE, ih (n / 256) hdiv, BitVec.toNat_ofNat]
    omega

/-! ### Packed records -/

/-- The number in the `w` bytes at an offset. -/
def readField (l : List Byte) (off w : Nat) : Nat := ofLE ((l.drop off).take w)

/-- A packed record: the fields, each with its width, one after the other. -/
def pack : List (Nat × Nat) → List Byte
  | [] => []
  | (w, n) :: fields => leBytes w n ++ pack fields

def offset : List (Nat × Nat) → Nat
  | [] => 0
  | f :: fields => f.1 + offset fields

@[simp] theorem offset_nil : offset [] = 0 := rfl

@[simp] theorem offset_cons (f : Nat × Nat) (fields : List (Nat × Nat)) :
    offset (f :: fields) = f.1 + offset fields := rfl

theorem length_pack : ∀ fields : List (Nat × Nat), (pack fields).length = offset fields := by
  intro fields
  induction fields with
  | nil => rfl
  | cons f fields ih => rw [pack, List.length_append, length_leBytes, ih, offset_cons]

/-- **A field is read back from its offset.** -/
theorem readField_pack (before after : List (Nat × Nat)) (w n : Nat) (h : n < 256 ^ w)
    (rest : List Byte) :
    readField (pack (before ++ (w, n) :: after) ++ rest) (offset before) w = n := by
  induction before with
  | nil =>
    rw [readField, offset_nil, List.drop_zero, List.nil_append, pack,
      List.append_assoc, List.take_left' (length_leBytes w n), ofLE_leBytes w n h]
  | cons f before ih =>
    have hoff : offset (f :: before) = (leBytes f.1 f.2).length + offset before := by
      rw [length_leBytes, offset_cons]
    rw [readField, List.cons_append, pack, List.append_assoc, hoff, List.drop_length_add_append]
    exact ih

/-! ### Separators -/

theorem takeWhile_append_sep {sep : Byte} {s : List Byte} (h : ∀ b ∈ s, b ≠ sep)
    (rest : List Byte) : (s ++ sep :: rest).takeWhile (· != sep) = s := by
  induction s with
  | nil => rw [List.nil_append, List.takeWhile_cons, if_neg (by simp)]
  | cons b s ih =>
    have hb : (b != sep) = true := bne_iff_ne.mpr (h b (by simp))
    rw [List.cons_append, List.takeWhile_cons, if_pos hb]
    exact congrArg (b :: ·) (ih fun c hc => h c (List.mem_cons_of_mem b hc))

/-- What follows the last separator, and what stands before it, can be read back. -/
theorem append_sep_inj {sep : Byte} {a a' s s' : List Byte} (h : ∀ b ∈ s, b ≠ sep)
    (h' : ∀ b ∈ s', b ≠ sep) (he : a ++ sep :: s = a' ++ sep :: s') : a = a' ∧ s = s' := by
  have hrev : ∀ (x t : List Byte), (∀ b ∈ t, b ≠ sep) →
      (x ++ sep :: t).reverse.takeWhile (· != sep) = t.reverse := by
    intro x t ht
    rw [List.reverse_append, List.reverse_cons, List.append_assoc, List.singleton_append]
    exact takeWhile_append_sep (fun b hb => ht b (List.mem_reverse.mp hb)) _
  have hs : s = s' := by
    rw [← List.reverse_inj, ← hrev a s h, he, hrev a' s' h']
  rw [hs] at he
  exact ⟨List.append_cancel_right he, hs⟩

def cstr (l : List Byte) : List Byte := l.takeWhile (· != 0#8)

theorem cstr_append_zero {s : List Byte} (h : ∀ b ∈ s, b ≠ 0#8) (rest : List Byte) :
    cstr (s ++ 0#8 :: rest) = s := takeWhile_append_sep h rest

/-! ### Texts and numerals -/

def charByte (c : Char) : Byte := BitVec.ofNat 8 c.toNat

def ascii (s : String) : List Byte := s.toList.map charByte

/-- A number as `%llu` prints it. -/
def decimal (n : Nat) : List Byte := (Nat.toDigits 10 n).map charByte

theorem digit_bounds {n : Nat} {c : Char} (h : c ∈ Nat.toDigits 10 n) :
    48 ≤ c.toNat ∧ c.toNat ≤ 57 := by
  have hd := Nat.isDigit_of_mem_toDigits (by omega) (by omega) h
  rw [Char.isDigit] at hd
  simp only [Bool.and_eq_true, decide_eq_true_eq] at hd
  exact ⟨UInt32.le_iff_toNat_le.mp hd.1, UInt32.le_iff_toNat_le.mp hd.2⟩

theorem decimal_digit {n : Nat} {b : Byte} (h : b ∈ decimal n) :
    48 ≤ b.toNat ∧ b.toNat ≤ 57 := by
  obtain ⟨c, hc, rfl⟩ := List.mem_map.mp h
  have hb := digit_bounds hc
  rw [charByte, BitVec.toNat_ofNat]
  omega

theorem decimal_injective {m n : Nat} (h : decimal m = decimal n) : m = n := by
  have hdigits : ∀ k, (decimal k).map (fun b => Char.ofNat b.toNat) = Nat.toDigits 10 k := by
    intro k
    rw [decimal, List.map_map]
    conv_rhs => rw [← List.map_id (Nat.toDigits 10 k)]
    refine List.map_congr_left fun c hc => ?_
    have hb := digit_bounds hc
    rw [Function.comp_apply, charByte, BitVec.toNat_ofNat, Nat.mod_eq_of_lt (by omega), id]
    exact Char.ofNat_toNat c
  have hsame := congrArg (fun l => Nat.ofDigitChars 10 l 0)
    ((hdigits m).symm.trans ((congrArg _ h).trans (hdigits n)))
  simpa only [Nat.ofDigitChars_ten_toDigits] using hsame

theorem length_decimal_le {n w : Nat} (hw : 0 < w) (h : n < 10 ^ w) : (decimal n).length ≤ w := by
  rw [decimal, List.length_map]
  exact (Nat.length_toDigits_le_iff (by omega) hw).mpr h

/-! ### First bytes -/

theorem take_drop_take {l : List Byte} {i k n : Nat} (h : i + k ≤ n) :
    ((l.take n).drop i).take k = (l.drop i).take k := by
  rw [List.drop_take, List.take_take, Nat.min_eq_left (by omega)]

theorem readField_take {l : List Byte} {off w n : Nat} (h : off + w ≤ n) :
    readField (l.take n) off w = readField l off w := by
  rw [readField, readField, take_drop_take h]

/-! ### Buffers -/

/-- A buffer after `new` was copied over its front. -/
def overwrite (new old : List Byte) : List Byte := new ++ old.drop new.length

theorem length_overwrite {new old : List Byte} (h : new.length ≤ old.length) :
    (overwrite new old).length = old.length := by
  rw [overwrite, List.length_append, List.length_drop]
  omega

theorem readField_overwrite {new old : List Byte} {off w : Nat} (h : off + w ≤ new.length) :
    readField (overwrite new old) off w = readField new off w := by
  rw [readField, readField, overwrite, List.drop_append_of_le_length (by omega),
    List.take_append_of_le_length]
  rw [List.length_drop]
  omega

theorem take_drop_overwrite {new old : List Byte} {i k : Nat} (h : i + k ≤ new.length) :
    ((overwrite new old).drop i).take k = (new.drop i).take k := by
  rw [overwrite, List.drop_append_of_le_length (by omega), List.take_append_of_le_length]
  rw [List.length_drop]
  omega

end Bytes
