import AionOs.Drivers.Serial

/-!
# Formats and their arguments

Formats as pieces: literal characters, `%%`, and directives with a flag and a width.

* `printfLoop_dir`: what one directive sends, and whether it takes an argument.
* `printfLoop_items`: what a whole format sends, and how many arguments it takes.
* `printf_in_step_iff`: when the arguments are printed in step with the format.
* `numbers_read_back`: what is sent for a number is read back as the number.
-/

namespace AionOs

open Bytes

/-! ### Pieces -/

inductive Flag where
  | minus
  | zero

inductive Conversion where
  | s | d | u | x | c | llu | lld | llx
  deriving DecidableEq

inductive FormatItem where
  | lit (c : U8) (plain : c ≠ 0 ∧ c ≠ charByte '%')
  | percent
  | dir (flag : Option Flag) (width : Nat) (conv : Conversion)

def Flag.text : Flag → List U8
  | .minus => ascii "-"
  | .zero => ascii "0"

def Conversion.text : Conversion → List U8
  | .s => ascii "s"
  | .d => ascii "d"
  | .u => ascii "u"
  | .x => ascii "x"
  | .c => ascii "c"
  | .llu => ascii "llu"
  | .lld => ascii "lld"
  | .llx => ascii "llx"

/-- The flag and the width, which is left out if it is zero. -/
def fieldText (flag : Option Flag) (width : Nat) : List U8 :=
  (flag.map Flag.text).getD [] ++ if width = 0 then [] else decimal width

def FormatItem.text : FormatItem → List U8
  | .lit c _ => [c]
  | .percent => ascii "%%"
  | .dir flag width conv => charByte '%' :: (fieldText flag width ++ conv.text)

/-- The value of an argument, from the eight bytes it is passed in: an `int` and an `unsigned` are
the low four of them. -/
def Conversion.read : Conversion → U64 → U64
  | .d, a => (a.truncate 32).signExtend 64
  | .u, a => (a.truncate 32).zeroExtend 64
  | .x, a => (a.truncate 32).zeroExtend 64
  | _, a => a

def Conversion.show (strAt : U64 → CString) : Conversion → U64 → List U8
  | .s, v => serialPuts (strAt v)
  | .d, v => signed v.toInt
  | .lld, v => signed v.toInt
  | .u, v => decimal v.toNat
  | .llu, v => decimal v.toNat
  | .x, v => numeral 16 v.toNat
  | .llx, v => numeral 16 v.toNat
  | .c, v => serialPutc (v.truncate 8)

def inField (flag : Option Flag) (width : Nat) (text : List U8) : List U8 :=
  let fill := width - text.length
  match flag with
  | none => List.replicate fill (charByte ' ') ++ text
  | some .minus => text ++ List.replicate fill (charByte ' ')
  | some .zero =>
    if text.head? = some (charByte '-') then
      charByte '-' :: (List.replicate fill (charByte '0') ++ text.tail)
    else List.replicate fill (charByte '0') ++ text

/-- The number of arguments that a format asks for. -/
def directives : List FormatItem → Nat
  | [] => 0
  | .dir _ _ _ :: items => directives items + 1
  | _ :: items => directives items

/-- What a format asks for, piece by piece, from argument `k` on. -/
def wanted (strAt : U64 → CString) (args : Nat → U64) : List FormatItem → Nat → List (List U8)
  | [], _ => []
  | .lit c _ :: items, k => serialPutc c :: wanted strAt args items k
  | .percent :: items, k => ascii "%" :: wanted strAt args items k
  | .dir flag width conv :: items, k =>
    inField flag width (conv.show strAt (conv.read (args k))) :: wanted strAt args items (k + 1)

/-- The directives that take their argument. -/
def Taken (flag : Option Flag) (width : Nat) (conv : Conversion) : Prop :=
  flag.isNone ∧ width = 0 ∧ conv ≠ .llx

instance (flag : Option Flag) (width : Nat) (conv : Conversion) : Decidable (Taken flag width conv) :=
  inferInstanceAs (Decidable (_ ∧ _ ∧ _))

/-- No directive has a flag or a width or is `%llx`, and the arguments of `%d`, `%u` and `%x` are
passed as eight bytes of the same value. -/
def Served (args : Nat → U64) : List FormatItem → Nat → Prop
  | [], _ => True
  | .dir flag width conv :: items, k =>
    Taken flag width conv ∧ conv.read (args k) = args k ∧ Served args items (k + 1)
  | .lit _ _ :: items, k => Served args items k
  | .percent :: items, k => Served args items k

/-! ### What a format sends -/

/-- The number of arguments that are taken. -/
def taken : List FormatItem → Nat
  | [] => 0
  | .dir flag width conv :: items => taken items + if Taken flag width conv then 1 else 0
  | _ :: items => taken items

/-- What is sent for a directive: if it has a flag or a width, the rest of its own text. -/
def sentFor (strAt : U64 → CString) (flag : Option Flag) (width : Nat) (conv : Conversion)
    (arg : U64) : List (List U8) :=
  if fieldText flag width = [] then [if conv = .llx then [] else conv.show strAt arg]
  else [] :: ((fieldText flag width).tail ++ conv.text).map serialPutc

def sent (strAt : U64 → CString) (args : Nat → U64) : List FormatItem → Nat → List (List U8)
  | [], _ => []
  | .lit c _ :: items, k => serialPutc c :: sent strAt args items k
  | .percent :: items, k => ascii "%" :: sent strAt args items k
  | .dir flag width conv :: items, k =>
    sentFor strAt flag width conv (args k) ++
      sent strAt args items (k + if Taken flag width conv then 1 else 0)

theorem ascii_ne_zero_of {l : List U8} (h : l.all (· ≠ 0) = true) : ∀ b ∈ l, b ≠ 0 := by
  intro b hb
  exact of_decide_eq_true (List.all_eq_true.mp h b hb)

theorem fieldText_plain (flag : Option Flag) (width : Nat) :
    ∀ b ∈ fieldText flag width, b = charByte '-' ∨ (48 ≤ b.toNat ∧ b.toNat ≤ 57) := by
  intro b hb
  rw [fieldText, List.mem_append] at hb
  rcases hb with hb | hb
  · cases flag with
    | none => cases hb
    | some flag =>
      cases flag with
      | minus => exact .inl (List.mem_singleton.mp hb)
      | zero =>
        rw [List.mem_singleton.mp hb]
        decide
  · split at hb
    next => cases hb
    next => exact .inr (decimal_digit hb)

theorem conversion_plain (conv : Conversion) : ∀ b ∈ conv.text, b ≠ 0 ∧ b ≠ charByte '%' := by
  cases conv <;> decide

theorem field_plain {b : U8} (h : b = charByte '-' ∨ (48 ≤ b.toNat ∧ b.toNat ≤ 57)) :
    b ≠ 0 ∧ b ≠ charByte '%' := by
  rcases h with rfl | h
  · decide
  · refine ⟨fun h0 => ?_, fun h0 => ?_⟩ <;>
    · rw [h0] at h
      revert h
      decide

theorem fieldText_eq_nil_iff {flag : Option Flag} {width : Nat} :
    fieldText flag width = [] ↔ flag.isNone ∧ width = 0 := by
  rw [fieldText, List.append_eq_nil_iff]
  have hflag : (flag.map Flag.text).getD [] = [] ↔ flag.isNone = true := by
    cases flag with
    | none => decide
    | some flag => cases flag <;> decide
  have hwidth : (if width = 0 then [] else decimal width) = [] ↔ width = 0 := by
    by_cases h : width = 0
    · exact iff_of_true (if_pos h) h
    · rw [if_neg h]
      exact iff_of_false (numeral_ne_nil 10 width) h
  rw [hflag, hwidth]

theorem items_ne_zero (items : List FormatItem) : ∀ b ∈ items.flatMap FormatItem.text, b ≠ 0 := by
  intro b hb
  obtain ⟨item, _, hb⟩ := List.mem_flatMap.mp hb
  cases item with
  | lit c plain =>
    rw [List.mem_singleton.mp hb]
    exact plain.1
  | percent => exact ascii_ne_zero_of (by decide) b hb
  | dir flag width conv =>
    rcases List.mem_cons.mp hb with rfl | hb
    · decide
    rcases List.mem_append.mp hb with hb | hb
    · exact (field_plain (fieldText_plain flag width b hb)).1
    · exact (conversion_plain conv b hb).1

def formatOf (items : List FormatItem) : CString :=
  ⟨items.flatMap FormatItem.text, items_ne_zero items⟩

def afterRounds (outs : List (List U8)) (r : Option (List (List U8) × Nat)) :
    Option (List (List U8) × Nat) := r.map fun p => (outs ++ p.1, p.2)

@[simp] theorem afterRounds_nil (r : Option (List (List U8) × Nat)) : afterRounds [] r = r := by
  cases r <;> rfl

theorem afterRounds_append (outs outs' : List (List U8)) (r : Option (List (List U8) × Nat)) :
    afterRounds outs (afterRounds outs' r) = afterRounds (outs ++ outs') r := by
  cases r with
  | none => rfl
  | some p => exact congrArg some (Prod.ext (List.append_assoc _ _ _).symm rfl)

theorem printfNext_some (out : List U8) (n : Nat) (next : Nat → Option (List (List U8) × Nat))
    (k : Nat) : printfNext (some (out, n)) next k = afterRounds [out] (next (k + n)) := by
  rw [printfNext, Option.bind_eq_bind, Option.bind_some]
  dsimp only
  cases next (k + n) <;> rfl

section Printf

variable {strAt : U64 → CString} {args : Nat → U64}

theorem printfLoop_lits {lits : List U8} (h : ∀ b ∈ lits, b ≠ 0 ∧ b ≠ charByte '%')
    (fmt : List U8) (k : Nat) : printfLoop strAt args (lits ++ fmt) k =
      afterRounds (lits.map serialPutc) (printfLoop strAt args fmt k) := by
  induction lits with
  | nil => exact (afterRounds_nil _).symm
  | cons c lits ih =>
    obtain ⟨h0, hc⟩ := h c List.mem_cons_self
    rw [List.cons_append, printfLoop_lit h0 hc, printfNext_some, Nat.add_zero,
      ih (fun b hb => h b (List.mem_cons_of_mem c hb)), afterRounds_append]
    rfl

/-- A directive with a flag or a width is given up at its first character. -/
theorem directive_field {f : U8} (hf : f = charByte '-' ∨ (48 ≤ f.toNat ∧ f.toNat ≤ 57)) (arg : U64) :
    f ≠ charByte 'l' ∧ directive strAt f arg = some ([], 0) := by
  have hother : ∀ c : U8, (c = charByte 'l' ∨ c = charByte 's' ∨ c = charByte 'd' ∨
      c = charByte 'u' ∨ c = charByte 'x' ∨ c = charByte 'X' ∨ c = charByte 'c' ∨
      c = charByte '%') → f ≠ c := by
    intro c hc hfc
    rw [hfc] at hf
    rcases hc with rfl | rfl | rfl | rfl | rfl | rfl | rfl | rfl <;> revert hf <;> decide
  refine ⟨hother _ (by simp), ?_⟩
  rw [directive, if_neg (hother _ (by simp)), if_neg (hother _ (by simp)), if_neg (hother _ (by simp)),
    if_neg (not_or_intro (hother _ (by simp)) (hother _ (by simp))), if_neg (hother _ (by simp)),
    if_neg (hother _ (by simp))]

theorem printfLoop_conversion (conv : Conversion) (fmt : List U8) (k : Nat) :
    printfLoop strAt args (charByte '%' :: (conv.text ++ fmt)) k =
      afterRounds [if conv = .llx then [] else conv.show strAt (args k)]
        (printfLoop strAt args fmt (k + if conv = .llx then 0 else 1)) := by
  cases conv with
  | s =>
    exact (printfLoop_short (d := charByte 's') (by decide) fmt k).trans (printfNext_some _ _ _ _)
  | d =>
    have hd : directive strAt (charByte 'd') (args k) = some (signed (args k).toInt, 1) := by
      rw [directive, if_neg (by decide), if_pos rfl, printInt_eq]
      rfl
    exact (printfLoop_short (d := charByte 'd') (by decide) fmt k).trans
      (hd ▸ printfNext_some _ _ _ _)
  | u =>
    have hu : directive strAt (charByte 'u') (args k) = some (decimal (args k).toNat, 1) := by
      rw [directive, if_neg (by decide), if_neg (by decide), if_pos rfl, printUint_ten]
      rfl
    exact (printfLoop_short (d := charByte 'u') (by decide) fmt k).trans
      (hu ▸ printfNext_some _ _ _ _)
  | x =>
    have hx : directive strAt (charByte 'x') (args k) = some (numeral 16 (args k).toNat, 1) := by
      rw [directive, if_neg (by decide), if_neg (by decide), if_neg (by decide), if_pos (.inl rfl),
        printUint_sixteen]
      rfl
    exact (printfLoop_short (d := charByte 'x') (by decide) fmt k).trans
      (hx ▸ printfNext_some _ _ _ _)
  | c =>
    exact (printfLoop_short (d := charByte 'c') (by decide) fmt k).trans (printfNext_some _ _ _ _)
  | llu =>
    have hu : longDirective (charByte 'u') (args k) = some (decimal (args k).toNat, 1) := by
      rw [longDirective, if_pos rfl, printUint_ten]
      rfl
    exact (printfLoop_longLong (charByte 'u') fmt k).trans (hu ▸ printfNext_some _ _ _ _)
  | lld =>
    have hd : longDirective (charByte 'd') (args k) = some (signed (args k).toInt, 1) := by
      rw [longDirective, if_neg (by decide), if_pos rfl, printInt_eq]
      rfl
    exact (printfLoop_longLong (charByte 'd') fmt k).trans (hd ▸ printfNext_some _ _ _ _)
  | llx => exact (printfLoop_longLong (charByte 'x') fmt k).trans (printfNext_some _ _ _ _)

/-- **One directive**: what it sends, and whether it takes an argument. -/
theorem printfLoop_dir (flag : Option Flag) (width : Nat) (conv : Conversion) (fmt : List U8) (k : Nat) :
    printfLoop strAt args ((FormatItem.dir flag width conv).text ++ fmt) k =
      afterRounds (sentFor strAt flag width conv (args k))
        (printfLoop strAt args fmt (k + if Taken flag width conv then 1 else 0)) := by
  rw [FormatItem.text, List.cons_append, List.append_assoc]
  by_cases hfield : fieldText flag width = []
  · have htaken : (if Taken flag width conv then 1 else 0) = if conv = .llx then 0 else 1 := by
      obtain ⟨hflag, hwidth⟩ := fieldText_eq_nil_iff.mp hfield
      by_cases hllx : conv = .llx
      · rw [if_pos hllx, if_neg fun h => h.2.2 hllx]
      · rw [if_neg hllx, if_pos ⟨hflag, hwidth, hllx⟩]
    rw [hfield, List.nil_append, htaken, sentFor, if_pos hfield]
    exact printfLoop_conversion conv fmt k
  · have hnot : ¬ Taken flag width conv := fun h => hfield (fieldText_eq_nil_iff.mpr ⟨h.1, h.2.1⟩)
    have hplain := fieldText_plain flag width
    obtain ⟨f, field, hsplit⟩ := List.exists_cons_of_ne_nil hfield
    rw [sentFor, if_neg hfield, if_neg hnot, Nat.add_zero, hsplit]
    rw [hsplit] at hplain
    have hgiven : f ≠ charByte 'l' ∧ directive strAt f (args k) = some ([], 0) :=
      directive_field (hplain f List.mem_cons_self) (args k)
    obtain ⟨hl, hnothing⟩ := hgiven
    have hlits : ∀ b ∈ field ++ conv.text, b ≠ 0 ∧ b ≠ charByte '%' := by
      intro b hb
      rcases List.mem_append.mp hb with hb | hb
      · exact field_plain (hplain b (List.mem_cons_of_mem f hb))
      · exact conversion_plain conv b hb
    rw [List.cons_append, printfLoop_short hl, hnothing, printfNext_some, Nat.add_zero,
      ← List.append_assoc, printfLoop_lits hlits, afterRounds_append]
    rfl

/-- **A format of pieces**: what is sent, and how many arguments are taken. -/
theorem printfLoop_items (items : List FormatItem) (k : Nat) :
    printfLoop strAt args (items.flatMap FormatItem.text ++ [0]) k =
      some (sent strAt args items k, k + taken items) := by
  induction items generalizing k with
  | nil => rfl
  | cons item items ih =>
    rw [List.flatMap_cons, List.append_assoc]
    cases item with
    | lit c plain =>
      rw [FormatItem.text, List.singleton_append, printfLoop_lit plain.1 plain.2, printfNext_some, ih]
      rfl
    | percent =>
      have hpercent : directive strAt (charByte '%') (args k) = some (ascii "%", 0) := rfl
      refine (printfLoop_short (d := charByte '%') (by decide)
        (items.flatMap FormatItem.text ++ [0]) k).trans ?_
      rw [hpercent, printfNext_some, ih]
      rfl
    | dir flag width conv =>
      rw [printfLoop_dir, ih, Nat.add_assoc, Nat.add_comm _ (taken items)]
      rfl

end Printf

/-! ### Arguments in step with the format -/

/-- Every directive takes one argument and sends its text, in order. -/
def PrintedInStep (strAt : U64 → CString) (args : Nat → U64) (items : List FormatItem) : Prop :=
  serialPrintf strAt args (formatOf items) = some (wanted strAt args items 0, directives items)

theorem taken_le (items : List FormatItem) : taken items ≤ directives items := by
  induction items with
  | nil => exact le_refl 0
  | cons item items ih =>
    cases item with
    | lit c plain => exact ih
    | percent => exact ih
    | dir flag width conv =>
      rw [taken, directives]
      split <;> omega

/-- The text of an argument tells its value, for the values that are narrower than a slot. -/
theorem show_read_iff (strAt : U64 → CString) (conv : Conversion) (arg : U64) :
    conv.show strAt arg = conv.show strAt (conv.read arg) ↔ conv.read arg = arg := by
  constructor
  · intro h
    cases conv with
    | d => exact (BitVec.eq_of_toInt_eq (signed_injective h)).symm
    | u => exact (BitVec.eq_of_toNat_eq (decimal_injective h)).symm
    | x => exact (BitVec.eq_of_toNat_eq (numeral_injective (by decide) (by decide) h)).symm
    | s => rfl
    | c => rfl
    | llu => rfl
    | lld => rfl
    | llx => rfl
  · intro h
    rw [h]

theorem inField_none (text : List U8) : inField none 0 text = text := by
  rw [inField, Nat.zero_sub]
  rfl

/-- The run lemma: the counts and the texts agree exactly when every directive is served. -/
theorem sent_wanted_iff (strAt : U64 → CString) (args : Nat → U64) (items : List FormatItem)
    (k : Nat) : (taken items = directives items ∧ sent strAt args items k = wanted strAt args items k) ↔
      Served args items k := by
  induction items generalizing k with
  | nil => exact iff_of_true ⟨rfl, rfl⟩ trivial
  | cons item items ih =>
    cases item with
    | lit c plain =>
      rw [Served, ← ih, sent, wanted, List.cons.injEq, and_iff_right rfl]
      rfl
    | percent =>
      rw [Served, ← ih, sent, wanted, List.cons.injEq, and_iff_right rfl]
      rfl
    | dir flag width conv =>
      rw [Served, taken, directives, sent, wanted]
      by_cases htaken : Taken flag width conv
      · obtain ⟨hflag, hwidth, hllx⟩ := htaken
        have hfield : fieldText flag width = [] := fieldText_eq_nil_iff.mpr ⟨hflag, hwidth⟩
        rw [Option.isNone_iff_eq_none] at hflag
        rw [if_pos ⟨Option.isNone_iff_eq_none.mpr hflag, hwidth, hllx⟩, sentFor, if_pos hfield,
          if_neg hllx, List.singleton_append, List.cons.injEq, Nat.add_right_cancel_iff, ← ih,
          ← show_read_iff strAt conv (args k), hflag, hwidth, inField_none]
        have hyes : Taken none 0 conv := ⟨rfl, rfl, hllx⟩
        exact ⟨fun ⟨hcount, hhead, htail⟩ => ⟨hyes, hhead, hcount, htail⟩,
          fun ⟨_, hhead, hcount, htail⟩ => ⟨hcount, hhead, htail⟩⟩
      · refine iff_of_false ?_ (fun h => htaken h.1)
        rintro ⟨hcount, _⟩
        have hle := taken_le items
        rw [if_neg htaken] at hcount
        omega

/-- **When `serial_printf` is in step with its format**: if and only if no directive has a flag or a
width, none is `%llx`, and every argument of `%d`, `%u` and `%x` fills its eight bytes. -/
theorem printf_in_step_iff (strAt : U64 → CString) (args : Nat → U64) (items : List FormatItem) :
    PrintedInStep strAt args items ↔ Served args items 0 := by
  rw [← sent_wanted_iff strAt, PrintedInStep, serialPrintf]
  have hrun : printfLoop strAt args (items.flatMap FormatItem.text ++ [0]) 0 =
      some (sent strAt args items 0, 0 + taken items) := printfLoop_items items 0
  rw [show (formatOf items).bytes = items.flatMap FormatItem.text from rfl, hrun, Option.some.injEq,
    Prod.mk.injEq, Nat.zero_add, and_comm]

theorem colon_plain : charByte ':' ≠ 0 ∧ charByte ':' ≠ charByte '%' := by decide

theorem dot_plain : charByte '.' ≠ 0 ∧ charByte '.' ≠ charByte '%' := by decide

/-- `%02x:%02x.%x`, as `probe_device` has it. -/
def probeItems : List FormatItem :=
  [.dir (some .zero) 2 .x, .lit (charByte ':') colon_plain, .dir (some .zero) 2 .x,
    .lit (charByte '.') dot_plain, .dir none 0 .x]

def probeArgs (k : Nat) : U64 := BitVec.ofNat 64 ([0, 31, 2].getD k 0)

/-- The function is not printed: `2x:2x.0` is sent for `00:1f.2`, with one argument taken. -/
theorem probe_out_of_step :
    ¬ PrintedInStep (fun _ => CString.empty) probeArgs probeItems ∧
      serialPrintf (fun _ => CString.empty) probeArgs (formatOf probeItems) =
        some ([[], ascii "2", ascii "x", ascii ":", [], ascii "2", ascii "x", ascii ".", ascii "0"], 1) ∧
      (wanted (fun _ => CString.empty) probeArgs probeItems 0).flatten = ascii "00:1f.2" := by
  rw [PrintedInStep]
  decide +kernel

/-! ### Numbers read back -/

/-- What `print_uint` sends: the one numeral of the number, within the 64 characters of `buf`. -/
theorem printUint_canonical {base : U64} (hbase : 1 < base.toNat) (hsmall : base.toNat ≤ 16) (v : U64) :
    ∃ text, printUint v base = some text ∧ Canonical base.toNat text ∧ text.length ≤ 64 ∧
      numeralValue base.toNat text = v.toNat := by
  have hroom : v.toNat < base.toNat ^ 64 := lt_of_lt_of_le v.isLt (Nat.pow_le_pow_left hbase 64)
  refine ⟨numeral base.toNat v.toNat, ?_, ?_, ?_, ?_⟩
  · exact printUint_eq hbase hsmall v
  · exact canonical_numeral hbase hsmall v.toNat
  · exact (length_numeral_le_iff hbase (by decide)).mpr hroom
  · exact numeralValue_numeral hbase hsmall v.toNat

/-- **Numbers are printed exactly**: `print_uint` sends the numeral, in either base, and at any place
of any format `%d` and `%lld` send a text that is read back as their argument. -/
theorem numbers_read_back {base : U64} (hbase : base = 10 ∨ base = 16) (v : U64)
    (strAt : U64 → CString) :
    (∃ text, printUint v base = some text ∧ Canonical base.toNat text ∧ text.length ≤ 64 ∧
      numeralValue base.toNat text = v.toNat) ∧
    ∀ conv ∈ [Conversion.d, .lld], ∀ (args : Nat → U64) (k : Nat) (fmt : List U8), args k = v →
      ∃ text, signedValue text = v.toInt ∧
        printfLoop strAt args (charByte '%' :: (conv.text ++ fmt)) k =
          afterRounds [text] (printfLoop strAt args fmt (k + 1)) := by
  constructor
  · rcases hbase with rfl | rfl
    · exact printUint_canonical (by decide) (by decide) v
    · exact printUint_canonical (by decide) (by decide) v
  · intro conv hconv args k fmt hv
    refine ⟨signed v.toInt, signedValue_signed v.toInt, ?_⟩
    rw [printfLoop_conversion, hv]
    rcases List.mem_pair.mp hconv with rfl | rfl
    · rfl
    · rfl

/-- The least signed number, and the format `%lld` alone. -/
theorem numbers_read_back_least : ∃ text, signedValue text = -2 ^ 63 ∧
    printfLoop (fun _ => CString.empty) (fun _ => BitVec.intMin 64) (ascii "%lld" ++ [0]) 0 =
      some ([text], 1) := by
  obtain ⟨_, hsigned⟩ :=
    @numbers_read_back 16 (.inr rfl) (BitVec.intMin 64) (fun _ => CString.empty)
  obtain ⟨text, hread, hsent⟩ := hsigned .lld (by decide) (fun _ => BitVec.intMin 64) 0 [0] rfl
  exact ⟨text, hread, hsent⟩

end AionOs
