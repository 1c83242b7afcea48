import AionOs.Lib.Bytes

/-!
# Numerals

* `Numeral`: a decimal numeral of any number of digits, and its value.
* `ofNat_digit`: one more digit, in arithmetic of a fixed width.
* `numeral`: the numeral of a number in any base up to 16, `signed` that of an integer.
* `numeralValue_numeral`, `signedValue_signed`: both are read back.
* `Canonical`: no zero in front.
* `hexText`: bytes as pairs of hexadecimal digits, each of them in one of two cases.
-/

namespace Bytes

/-! ### Decimal -/

def IsDigit (b : Byte) : Prop := charByte '0' ≤ b ∧ b ≤ charByte '9'

instance (b : Byte) : Decidable (IsDigit b) := inferInstanceAs (Decidable (_ ∧ _))

theorem IsDigit.bounds {b : Byte} (h : IsDigit b) : 48 ≤ b.toNat ∧ b.toNat ≤ 57 :=
  ⟨BitVec.le_def.mp h.1, BitVec.le_def.mp h.2⟩

/-- The value after some more digits. -/
def appendDigits (n : Nat) (ds : List Byte) : Nat := ds.foldl (fun m b => m * 10 + (b.toNat - 48)) n

@[simp] theorem appendDigits_nil (n : Nat) : appendDigits n [] = n := rfl

@[simp] theorem appendDigits_cons (n : Nat) (b : Byte) (ds : List Byte) :
    appendDigits n (b :: ds) = appendDigits (n * 10 + (b.toNat - 48)) ds := List.foldl_cons ..

structure Numeral where
  digits : List Byte
  ne_nil : digits ≠ []
  all : ∀ b ∈ digits, IsDigit b
  deriving DecidableEq

def Numeral.val (n : Numeral) : Nat := appendDigits 0 n.digits

/-- A text does not go on with a digit. -/
def DigitsEnd (rest : List Byte) : Prop := ∀ b ∈ rest.head?, ¬ IsDigit b

theorem ofNat_digit {w : Nat} (n : Nat) {b : Byte} (h : IsDigit b) :
    BitVec.ofNat w n * 10 + (b - charByte '0').zeroExtend w = BitVec.ofNat w (n * 10 + (b.toNat - 48)) := by
  have hb := h.bounds
  have hsub : (b - charByte '0').toNat = b.toNat - 48 := by
    have hzero : (charByte '0').toNat = 48 := rfl
    rw [BitVec.toNat_sub, hzero]
    omega
  have hten : (10 : BitVec w) = BitVec.ofNat w 10 := rfl
  apply BitVec.eq_of_toNat_eq
  rw [BitVec.zeroExtend, BitVec.toNat_add, BitVec.toNat_mul, BitVec.toNat_setWidth, hsub, hten,
    BitVec.toNat_ofNat, BitVec.toNat_ofNat, BitVec.toNat_ofNat, ← Nat.mul_mod, ← Nat.add_mod]

/-! ### Any base -/

def numeral (base n : Nat) : List Byte := (Nat.toDigits base n).map charByte

theorem decimal_eq (n : Nat) : decimal n = numeral 10 n := rfl

def digitByte (d : Nat) : Byte := charByte (Nat.digitChar d)

theorem numeral_of_lt {base n : Nat} (h : n < base) : numeral base n = [digitByte n] := by
  rw [numeral, Nat.toDigits_of_lt_base h]
  rfl

theorem numeral_of_le {base n : Nat} (hbase : 1 < base) (h : base ≤ n) :
    numeral base n = numeral base (n / base) ++ [digitByte (n % base)] := by
  rw [numeral, Nat.toDigits_of_base_le hbase h, List.map_append]
  rfl

theorem numeral_ne_nil (base n : Nat) : numeral base n ≠ [] := by
  rw [numeral, Ne, List.map_eq_nil_iff]
  exact Nat.toDigits_ne_nil

theorem numeral_snoc {base m d : Nat} (hbase : 1 < base) (hm : 0 < m) (hd : d < base) :
    numeral base (base * m + d) = numeral base m ++ [digitByte d] := by
  rw [numeral, ← Nat.toDigits_append_toDigits hbase hm hd, Nat.toDigits_of_lt_base hd, List.map_append]
  rfl

theorem length_numeral_le_iff {base n k : Nat} (hbase : 1 < base) (hk : 0 < k) :
    (numeral base n).length ≤ k ↔ n < base ^ k := by
  rw [numeral, List.length_map, Nat.length_toDigits_le_iff hbase hk]

theorem mem_numeral {base n : Nat} {c : Byte} (hbase : 1 < base) (h : c ∈ numeral base n) :
    ∃ d < base, c = digitByte d := by
  induction n using Nat.base_induction base hbase with
  | single d hd =>
    rw [numeral_of_lt hd, List.mem_singleton] at h
    exact ⟨d, hd, h⟩
  | digit m d hd hm ih =>
    rw [numeral_snoc hbase hm hd, List.mem_append, List.mem_singleton] at h
    rcases h with h | h
    · exact ih h
    · exact ⟨d, hd, h⟩

def digitValue (c : Byte) : Nat := if c ≤ charByte '9' then c.toNat - 48 else c.toNat - 87

theorem digitValue_digitByte : ∀ d < 16, digitValue (digitByte d) = d := by decide

/-- The number that a text stands for in a base. -/
def numeralValue (base : Nat) (text : List Byte) : Nat :=
  text.foldl (fun n c => base * n + digitValue c) 0

theorem numeralValue_snoc (base : Nat) (text : List Byte) (c : Byte) :
    numeralValue base (text ++ [c]) = base * numeralValue base text + digitValue c :=
  List.foldl_append ..

/-- **A numeral is read back as its number.** -/
theorem numeralValue_numeral {base : Nat} (hbase : 1 < base) (hsmall : base ≤ 16) (n : Nat) :
    numeralValue base (numeral base n) = n := by
  induction n using Nat.base_induction base hbase with
  | single d hd =>
    rw [numeral_of_lt hd, ← List.nil_append [digitByte d], numeralValue_snoc,
      digitValue_digitByte d (by omega)]
    exact Nat.zero_add d
  | digit m d hd hm ih =>
    rw [numeral_snoc hbase hm hd, numeralValue_snoc, ih, digitValue_digitByte d (by omega)]

/-- **A numeral tells its number.** -/
theorem numeral_injective {base m n : Nat} (hbase : 1 < base) (hsmall : base ≤ 16)
    (h : numeral base m = numeral base n) : m = n := by
  rw [← numeralValue_numeral hbase hsmall m, h, numeralValue_numeral hbase hsmall n]

/-- The texts that are the one numeral of some number: digits of the base, and no zero in front. -/
structure Canonical (base : Nat) (text : List Byte) : Prop where
  ne_nil : text ≠ []
  digits : ∀ c ∈ text, ∃ d < base, c = digitByte d
  head : text.head? = some (digitByte 0) → text = [digitByte 0]

theorem head_numeral_ne_zero {base n : Nat} (hbase : 1 < base) (hsmall : base ≤ 16) (hn : n ≠ 0) :
    (numeral base n).head? ≠ some (digitByte 0) := by
  induction n using Nat.base_induction base hbase with
  | single d hd =>
    rw [numeral_of_lt hd, List.head?_cons, Ne, Option.some.injEq]
    intro hzero
    have hvalue := congrArg digitValue hzero
    rw [digitValue_digitByte d (by omega), digitValue_digitByte 0 (by omega)] at hvalue
    exact hn hvalue
  | digit m d hd hm ih =>
    rw [numeral_snoc hbase hm hd, List.head?_append_of_ne_nil _ (numeral_ne_nil base m)]
    exact ih (by omega)

theorem canonical_numeral {base : Nat} (hbase : 1 < base) (hsmall : base ≤ 16) (n : Nat) :
    Canonical base (numeral base n) := by
  refine ⟨numeral_ne_nil base n, fun c hc => mem_numeral hbase hc, fun hhead => ?_⟩
  by_cases hn : n = 0
  · rw [hn]
    exact numeral_of_lt (by omega)
  · exact absurd hhead (head_numeral_ne_zero hbase hsmall hn)

def signed (i : Int) : List Byte := if i < 0 then charByte '-' :: decimal i.natAbs else decimal i.natAbs

/-- The integer that a text stands for, with the minus in front. -/
def signedValue (text : List Byte) : Int :=
  if text.head? = some (charByte '-') then -(numeralValue 10 text.tail : Int) else numeralValue 10 text

/-- **The numeral of an integer is read back as the integer.** -/
theorem signedValue_signed (i : Int) : signedValue (signed i) = i := by
  have hread : numeralValue 10 (decimal i.natAbs) = i.natAbs := by
    rw [decimal_eq]
    exact numeralValue_numeral (by decide) (by decide) i.natAbs
  rw [signed]
  by_cases hneg : i < 0
  · rw [if_pos hneg, signedValue, List.head?_cons, if_pos rfl, List.tail_cons, hread]
    omega
  · have hminus : (decimal i.natAbs).head? ≠ some (charByte '-') := by
      intro hhead
      exact absurd (decimal_digit (List.mem_of_head? hhead)) (by decide)
    rw [if_neg hneg, signedValue, if_neg hminus, hread]
    omega

theorem signed_injective {i j : Int} (h : signed i = signed j) : i = j := by
  rw [← signedValue_signed i, h, signedValue_signed j]

/-! ### Hexadecimal -/

def hexChar (upper : Bool) (n : Nat) : Byte :=
  BitVec.ofNat 8 (if n < 10 then 48 + n else if upper then 65 + (n - 10) else 97 + (n - 10))

/-- Two digits for each byte; `upper` chooses the case of each digit. -/
def hexText (upper : Nat → Bool) : List Byte → List Byte
  | [] => []
  | b :: bs => hexChar (upper 0) (b.toNat / 16) :: hexChar (upper 1) (b.toNat % 16) ::
      hexText (fun i => upper (i + 2)) bs

theorem length_hexText (upper : Nat → Bool) (bs : List Byte) :
    (hexText upper bs).length = 2 * bs.length := by
  induction bs generalizing upper with
  | nil => rfl
  | cons b bs ih =>
    rw [hexText, List.length_cons, List.length_cons, ih, List.length_cons]
    omega

theorem mem_hexText {upper : Nat → Bool} {bs : List Byte} {c : Byte} (h : c ∈ hexText upper bs) :
    ∃ up, ∃ n < 16, c = hexChar up n := by
  induction bs generalizing upper with
  | nil => cases h
  | cons b bs ih =>
    have hb := b.isLt
    rw [hexText, List.mem_cons, List.mem_cons] at h
    rcases h with rfl | rfl | h
    · exact ⟨_, _, by omega, rfl⟩
    · exact ⟨_, _, by omega, rfl⟩
    · exact ih h

end Bytes
