import AionOs.Lib.Numeral

/-!
# Reading a text back

A `Reader` takes a value off the front of a text, or fails.  Each rule says what a reader makes of
a text with anything behind it.

* `word_append`: a word that is known.
* `number_append`: a decimal numeral, up to what is no digit.
* `field_append`: a number between two words.
* `optional_append`: a part that may be missing, told by the word it starts with.
-/

namespace Reading

open Bytes

abbrev Reader (α : Type) := StateT (List Byte) Option α

variable {α : Type}

/-! ### Words -/

def word (w : List Byte) : Reader Unit := fun s => if w.isPrefixOf s then some ((), s.drop w.length) else none

@[simp] theorem word_append (w rest : List Byte) : (word w).run (w ++ rest) = some ((), rest) := by
  have hprefix : w.isPrefixOf (w ++ rest) = true := List.isPrefixOf_iff_prefix.mpr (List.prefix_append w rest)
  show (if w.isPrefixOf (w ++ rest) then some ((), (w ++ rest).drop w.length) else none) = _
  rw [if_pos hprefix, List.drop_left]

/-! ### Numbers -/

def number : Reader Nat := fun s =>
  let digits := s.takeWhile (IsDigit ·)
  if digits = [] then none else some (numeralValue 10 digits, s.drop digits.length)

theorem isDigit_decimal {n : Nat} {b : Byte} (h : b ∈ decimal n) : IsDigit b := by
  obtain ⟨hlow, hhigh⟩ := decimal_digit h
  exact ⟨BitVec.le_def.mpr hlow, BitVec.le_def.mpr hhigh⟩

theorem takeWhile_digits {digits rest : List Byte} (hdigits : ∀ b ∈ digits, IsDigit b) (hrest : DigitsEnd rest) :
    (digits ++ rest).takeWhile (IsDigit ·) = digits := by
  have hstop : rest.takeWhile (IsDigit ·) = [] := by
    cases rest with
    | nil => rfl
    | cons b rest => exact List.takeWhile_cons_of_neg (by simpa using hrest b rfl)
  rw [List.takeWhile_append_of_pos fun b hb => decide_eq_true (hdigits b hb), hstop, List.append_nil]

theorem number_append (n : Nat) {rest : List Byte} (h : DigitsEnd rest) :
    number.run (decimal n ++ rest) = some (n, rest) := by
  have hdigits := takeWhile_digits (fun b hb => isDigit_decimal (n := n) hb) h
  have hvalue : numeralValue 10 (decimal n) = n := numeralValue_numeral (by decide) (by decide) n
  have hne : decimal n ≠ [] := numeral_ne_nil 10 n
  show (if (decimal n ++ rest).takeWhile (IsDigit ·) = [] then none
    else some (numeralValue 10 ((decimal n ++ rest).takeWhile (IsDigit ·)),
      (decimal n ++ rest).drop ((decimal n ++ rest).takeWhile (IsDigit ·)).length)) = _
  rw [hdigits, if_neg hne, hvalue, List.drop_left]

/-! ### Fields -/

def field (w : List Byte) : Reader Nat := do
  word w
  number

theorem field_append (w : List Byte) (n : Nat) {rest : List Byte} (h : DigitsEnd rest) :
    (field w).run (w ++ (decimal n ++ rest)) = some (n, rest) := by
  rw [field, StateT.run_bind, word_append]
  exact number_append n h

theorem digitsEnd_append {w : List Byte} (h : w.head?.any (¬ IsDigit ·) = true) (rest : List Byte) :
    DigitsEnd (w ++ rest) := by
  cases w with
  | nil => cases h
  | cons c w =>
    intro b hb
    obtain rfl : c = b := Option.some.inj hb
    exact of_decide_eq_true h

/-! ### Optional parts -/

/-- A part that starts with the word `w`, if it is there. -/
def optional (w : List Byte) (r : Reader α) : Reader (Option α) := fun s =>
  if w.isPrefixOf s then (r.run s).map (Prod.map some id) else some (none, s)

/-- A word of the same length or a longer one is told from `w` whatever follows. -/
theorem not_prefix_append {w u : List Byte} (hlen : w.length ≤ u.length) (h : ¬ w <+: u) (rest : List Byte) :
    ¬ w <+: u ++ rest := fun hw => h (List.prefix_of_prefix_length_le hw (List.prefix_append u rest) hlen)

theorem optional_append {w text rest : List Byte} {r : Reader α} {a : α} (b : Bool) (hword : w <+: text)
    (hread : r.run (text ++ rest) = some (a, rest)) (hrest : ¬ w <+: rest) :
    (optional w r).run ((if b then text else []) ++ rest) = some (if b then some a else none, rest) := by
  cases b with
  | false =>
    show (if w.isPrefixOf rest then (r.run rest).map (Prod.map some id) else some (none, rest)) = _
    rw [if_neg fun hw => hrest (List.isPrefixOf_iff_prefix.mp hw)]
    rfl
  | true =>
    have hprefix : w.isPrefixOf (text ++ rest) = true :=
      List.isPrefixOf_iff_prefix.mpr (hword.trans (List.prefix_append text rest))
    show (if w.isPrefixOf (text ++ rest) then (r.run (text ++ rest)).map (Prod.map some id)
      else some (none, text ++ rest)) = _
    rw [if_pos hprefix, hread]
    rfl

end Reading
