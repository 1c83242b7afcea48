import AionOs.Lib.Numeral
import AionOs.Store.AionMemory

/-!
# The serial port

`serial_putc`, `print_uint` and `serial_printf` of `kernel/drivers/serial.c`, on a port that takes
every byte in the end.  A character past the room of a buffer, or past the zero of a text, gives no
result at all.

* `printUint_eq`, `printInt_eq`: a number is sent as its numeral.
* `format_induct`: induction over a format, as it is read.
* `serialPrintf_isSome_iff`: the formats that are read within their text.
-/

namespace AionOs

open Bytes

/-! ### The code -/

/-- `serial_putc`: the bytes sent. -/
def serialPutc (c : U8) : List U8 := if c = charByte '\n' then [c, charByte '\r'] else [c]

def serialPuts (s : CString) : List U8 := s.bytes.flatMap serialPutc

/-- `while(v)`: the rest of `buf`, of which `room` characters are left. -/
def digitLoop (base : U64) : Nat → U64 → Option (List U8)
  | 0, v => if v = 0 then some [] else none
  | room + 1, v =>
    if v = 0 then some []
    else do
      let buf ← digitLoop base room (v / base)
      some ((ascii "0123456789abcdef").getD (v % base).toNat 0 :: buf)

def printUint (v base : U64) : Option (List U8) :=
  if v = 0 then some (serialPutc (charByte '0'))
  else do
    let buf ← digitLoop base 64 v
    some (buf.reverse.flatMap serialPutc)

def printInt (v : U64) : Option (List U8) :=
  if v.slt 0 then do
    let digits ← printUint (-v) 10
    some (serialPutc (charByte '-') ++ digits)
  else printUint v 10

section Printf

variable (strAt : U64 → CString) (args : Nat → U64)

/-- `switch(*fmt)` without the `l`, with the next argument: what is sent, and how many arguments
are taken. -/
def directive (d : U8) (arg : U64) : Option (List U8 × Nat) :=
  if d = charByte 's' then some (serialPuts (strAt arg), 1)
  else if d = charByte 'd' then (printInt arg).map (·, 1)
  else if d = charByte 'u' then (printUint arg 10).map (·, 1)
  else if d = charByte 'x' ∨ d = charByte 'X' then (printUint arg 16).map (·, 1)
  else if d = charByte 'c' then some (serialPutc (arg.truncate 8), 1)
  else if d = charByte '%' then some (serialPutc (charByte '%'), 0)
  else some ([], 0)

/-- `case 'l'`, from the character behind the last `l` on. -/
def longDirective (d : U8) (arg : U64) : Option (List U8 × Nat) :=
  if d = charByte 'u' then (printUint arg 10).map (·, 1)
  else if d = charByte 'd' then (printInt arg).map (·, 1)
  else some ([], 0)

/-- The end of a round: what it sent, the arguments it took, and the rounds to come. -/
def printfNext (sent : Option (List U8 × Nat)) (next : Nat → Option (List (List U8) × Nat))
    (k : Nat) : Option (List (List U8) × Nat) := do
  let (out, n) ← sent
  let (outs, k) ← next (k + n)
  some (out :: outs, k)

/-- The loop of `serial_printf`, from a place in the format on and with the next argument: what
each round sends, and how many arguments are taken in the end. -/
def printfLoop : List U8 → Nat → Option (List (List U8) × Nat)
  | [], _ => none
  | c :: fmt, k =>
    if c = 0 then some ([], k)
    else if c ≠ charByte '%' then printfNext (some (serialPutc c, 0)) (printfLoop fmt) k
    else
      match fmt with
      | [] => none
      | d :: fmt =>
        if d = charByte 'l' then
          match fmt with
          | [] => none
          | e :: fmt =>
            if e = charByte 'l' then
              match fmt with
              | [] => none
              | f :: fmt => printfNext (longDirective f (args k)) (printfLoop fmt) k
            else printfNext (longDirective e (args k)) (printfLoop fmt) k
        else printfNext (directive strAt d (args k)) (printfLoop fmt) k

/-- `serial_printf`, with the texts that arguments may point to. -/
def serialPrintf (fmt : CString) : Option (List (List U8) × Nat) :=
  printfLoop strAt args (fmt.bytes ++ [0]) 0

end Printf

/-! ### Numbers -/

theorem digitAt_eq : ∀ d < 16, (ascii "0123456789abcdef").getD d 0 = digitByte d := by decide

theorem putc_digit : ∀ d < 16, serialPutc (digitByte d) = [digitByte d] := by decide

theorem flatMap_putc_numeral {base n : Nat} (hbase : 1 < base) (hsmall : base ≤ 16) :
    (numeral base n).flatMap serialPutc = numeral base n := by
  have hputc : ∀ c ∈ numeral base n, serialPutc c = [c] := by
    intro c hc
    obtain ⟨d, hd, rfl⟩ := mem_numeral hbase hc
    exact putc_digit d (by omega)
  rw [List.flatMap_congr hputc, List.flatMap_singleton']

/-- **The digits of a number** fill the buffer from the last one on. -/
theorem digitLoop_eq {base : U64} (hbase : 1 < base.toNat) (hsmall : base.toNat ≤ 16) {room : Nat}
    {v : U64} (hv : v ≠ 0) (hroom : v.toNat < base.toNat ^ room) :
    ∃ buf, digitLoop base room v = some buf ∧ buf.reverse = numeral base.toNat v.toNat := by
  induction room generalizing v with
  | zero =>
    refine absurd (BitVec.eq_of_toNat_eq ?_) hv
    rw [Nat.pow_zero] at hroom
    exact Nat.lt_one_iff.mp hroom
  | succ room ih =>
    have hdiv : (v / base).toNat = v.toNat / base.toNat := BitVec.toNat_udiv
    have hmod : (v % base).toNat = v.toNat % base.toNat := BitVec.toNat_umod
    have hdigit := digitAt_eq (v.toNat % base.toNat) (lt_of_lt_of_le (Nat.mod_lt _ (by omega)) hsmall)
    rw [digitLoop, if_neg hv, hmod, hdigit]
    by_cases hlt : v.toNat < base.toNat
    · have hlast : v / base = 0 := by
        refine BitVec.eq_of_toNat_eq ?_
        rw [hdiv, Nat.div_eq_of_lt hlt]
        rfl
      have hnone : digitLoop base room 0 = some [] := by
        cases room <;> rfl
      rw [hlast, hnone, Nat.mod_eq_of_lt hlt, numeral_of_lt hlt]
      exact ⟨_, rfl, rfl⟩
    · have hle := Nat.not_lt.mp hlt
      have hmore : v / base ≠ 0 := by
        intro h0
        have hpos := Nat.div_pos hle (by omega)
        rw [← hdiv, h0] at hpos
        exact absurd hpos (by decide)
      have hrest : (v / base).toNat < base.toNat ^ room := by
        rw [hdiv]
        exact Nat.div_lt_of_lt_mul (by rw [Nat.mul_comm, ← Nat.pow_succ]; exact hroom)
      obtain ⟨buf, hbuf, hrev⟩ := ih hmore hrest
      rw [hbuf, numeral_of_le hbase hle, ← hdiv, ← hrev]
      exact ⟨_, rfl, List.reverse_cons⟩

/-- **A number is sent as its numeral.** -/
theorem printUint_eq {base : U64} (hbase : 1 < base.toNat) (hsmall : base.toNat ≤ 16) (v : U64) :
    printUint v base = some (numeral base.toNat v.toNat) := by
  rw [printUint]
  by_cases hv : v = 0
  · have hzero : (0 : U64).toNat < base.toNat := Nat.lt_trans Nat.zero_lt_one hbase
    rw [if_pos hv, hv, numeral_of_lt hzero]
    rfl
  · have hroom : v.toNat < base.toNat ^ 64 :=
      lt_of_lt_of_le v.isLt (Nat.pow_le_pow_left hbase 64)
    obtain ⟨buf, hbuf, hrev⟩ := digitLoop_eq hbase hsmall hv hroom
    rw [if_neg hv, hbuf, Option.bind_eq_bind, Option.bind_some, hrev, flatMap_putc_numeral hbase hsmall]

theorem printUint_ten (v : U64) : printUint v 10 = some (decimal v.toNat) :=
  printUint_eq (by decide) (by decide) v

theorem printUint_sixteen (v : U64) : printUint v 16 = some (numeral 16 v.toNat) :=
  printUint_eq (by decide) (by decide) v

theorem printInt_eq (v : U64) : printInt v = some (signed v.toInt) := by
  rw [printInt, signed, printUint_ten, printUint_ten]
  have hslt : v.slt 0 = true ↔ v.toInt < 0 := by
    rw [BitVec.slt_iff_toInt_lt]
    rfl
  by_cases hneg : v.toInt < 0
  · have habs : (-v).toNat = v.toInt.natAbs := by
      rw [BitVec.toNat_neg]
      rw [BitVec.toInt_eq_toNat_cond] at hneg ⊢
      split at hneg <;> split <;> omega
    rw [if_pos (hslt.mpr hneg), if_pos hneg, habs]
    rfl
  · have habs : v.toNat = v.toInt.natAbs := by
      rw [BitVec.toInt_eq_toNat_cond] at hneg ⊢
      split at hneg <;> split <;> omega
    rw [if_neg (fun h => hneg (hslt.mp h)), if_neg hneg, ← habs]

/-! ### Whole directives -/

/-- The formats in which every directive is whole: a character that is not `%`, a `%` with the
character behind it, and a `%l` or `%ll` with the character behind it. -/
inductive Whole : List U8 → Prop
  | nil : Whole []
  | lit {c : U8} {fmt : List U8} : c ≠ charByte '%' → Whole fmt → Whole (c :: fmt)
  | short {d : U8} {fmt : List U8} : d ≠ charByte 'l' → Whole fmt → Whole (charByte '%' :: d :: fmt)
  | long {e : U8} {fmt : List U8} : e ≠ charByte 'l' → Whole fmt →
      Whole (charByte '%' :: charByte 'l' :: e :: fmt)
  | longLong {f : U8} {fmt : List U8} : Whole fmt →
      Whole (charByte '%' :: charByte 'l' :: charByte 'l' :: f :: fmt)

theorem whole_lit_iff {c : U8} {fmt : List U8} (hc : c ≠ charByte '%') :
    Whole (c :: fmt) ↔ Whole fmt := by
  constructor
  · intro h
    cases h with
    | lit _ hfmt => exact hfmt
    | short _ _ => exact absurd rfl hc
    | long _ _ => exact absurd rfl hc
    | longLong _ => exact absurd rfl hc
  · exact Whole.lit hc

theorem whole_short_iff {d : U8} {fmt : List U8} (hd : d ≠ charByte 'l') :
    Whole (charByte '%' :: d :: fmt) ↔ Whole fmt := by
  constructor
  · intro h
    cases h with
    | lit hc _ => exact absurd rfl hc
    | short _ hfmt => exact hfmt
    | long _ _ => exact absurd rfl hd
    | longLong _ => exact absurd rfl hd
  · exact Whole.short hd

theorem whole_long_iff {e : U8} {fmt : List U8} (he : e ≠ charByte 'l') :
    Whole (charByte '%' :: charByte 'l' :: e :: fmt) ↔ Whole fmt := by
  constructor
  · intro h
    cases h with
    | lit hc _ => exact absurd rfl hc
    | short hd _ => exact absurd rfl hd
    | long _ hfmt => exact hfmt
    | longLong _ => exact absurd rfl he
  · exact Whole.long he

theorem whole_longLong_iff {f : U8} {fmt : List U8} :
    Whole (charByte '%' :: charByte 'l' :: charByte 'l' :: f :: fmt) ↔ Whole fmt := by
  constructor
  · intro h
    cases h with
    | lit hc _ => exact absurd rfl hc
    | short hd _ => exact absurd rfl hd
    | long he _ => exact absurd rfl he
    | longLong hfmt => exact hfmt
  · exact Whole.longLong

theorem not_whole_percent : ¬ Whole [charByte '%'] := by
  intro h
  cases h with
  | lit hc _ => exact hc rfl

theorem not_whole_long : ¬ Whole [charByte '%', charByte 'l'] := by
  intro h
  cases h with
  | lit hc _ => exact hc rfl
  | short hd _ => exact hd rfl

theorem not_whole_longLong : ¬ Whole [charByte '%', charByte 'l', charByte 'l'] := by
  intro h
  cases h with
  | lit hc _ => exact hc rfl
  | short hd _ => exact hd rfl
  | long he _ => exact he rfl

/-- Induction over a format, as it is read. -/
@[elab_as_elim]
theorem format_induct {motive : List U8 → Prop} (fmt : List U8) (nil : motive [])
    (lit : ∀ c fmt, c ≠ charByte '%' → motive fmt → motive (c :: fmt))
    (percent : motive [charByte '%'])
    (short : ∀ d fmt, d ≠ charByte 'l' → motive fmt → motive (charByte '%' :: d :: fmt))
    (percentL : motive [charByte '%', charByte 'l'])
    (long : ∀ e fmt, e ≠ charByte 'l' → motive fmt →
      motive (charByte '%' :: charByte 'l' :: e :: fmt))
    (percentLL : motive [charByte '%', charByte 'l', charByte 'l'])
    (longLong : ∀ f fmt, motive fmt →
      motive (charByte '%' :: charByte 'l' :: charByte 'l' :: f :: fmt)) : motive fmt := by
  induction hn : fmt.length using Nat.strongRecOn generalizing fmt with
  | ind n ih =>
    have hless : ∀ {fmt' : List U8}, fmt'.length < fmt.length → motive fmt' :=
      fun h => ih _ (hn ▸ h) _ rfl
    rcases fmt with _ | ⟨c, fmt⟩
    · exact nil
    by_cases hc : c = charByte '%'
    case neg => exact lit c fmt hc (hless (by simp only [List.length_cons]; omega))
    subst hc
    rcases fmt with _ | ⟨d, fmt⟩
    · exact percent
    by_cases hd : d = charByte 'l'
    case neg => exact short d fmt hd (hless (by simp only [List.length_cons]; omega))
    subst hd
    rcases fmt with _ | ⟨e, fmt⟩
    · exact percentL
    by_cases he : e = charByte 'l'
    case neg => exact long e fmt he (hless (by simp only [List.length_cons]; omega))
    subst he
    rcases fmt with _ | ⟨f, fmt⟩
    · exact percentLL
    · exact longLong f fmt (hless (by simp only [List.length_cons]; omega))

theorem ne_zero_of_suffix {s t : List U8} (h : ∀ b ∈ s, b ≠ 0) (hsuffix : t <:+ s) :
    ∀ b ∈ t, b ≠ 0 := fun b hb => h b (hsuffix.subset hb)

section Printf

variable (strAt : U64 → CString) (args : Nat → U64)

theorem directive_isSome (d : U8) (arg : U64) : (directive strAt d arg).isSome := by
  rw [directive, printInt_eq, printUint_ten, printUint_sixteen]
  split_ifs <;> rfl

theorem longDirective_isSome (d : U8) (arg : U64) : (longDirective d arg).isSome := by
  rw [longDirective, printInt_eq, printUint_ten]
  split_ifs <;> rfl

variable {strAt args}

theorem printfNext_isSome {sent : Option (List U8 × Nat)} (hsent : sent.isSome)
    {next : Nat → Option (List (List U8) × Nat)} {p : Prop} (hnext : ∀ k, (next k).isSome ↔ p)
    (k : Nat) : (printfNext sent next k).isSome ↔ p := by
  obtain ⟨⟨out, n⟩, rfl⟩ := Option.isSome_iff_exists.mp hsent
  rw [← hnext (k + n), printfNext, Option.bind_eq_bind, Option.bind_some]
  dsimp only
  cases next (k + n) <;> rfl

theorem printfLoop_lit {c : U8} (h0 : c ≠ 0) (hc : c ≠ charByte '%') (fmt : List U8) (k : Nat) :
    printfLoop strAt args (c :: fmt) k =
      printfNext (some (serialPutc c, 0)) (printfLoop strAt args fmt) k := by
  unfold printfLoop
  rw [if_neg h0, if_pos hc]

theorem printfLoop_short {d : U8} (hd : d ≠ charByte 'l') (fmt : List U8) (k : Nat) :
    printfLoop strAt args (charByte '%' :: d :: fmt) k =
      printfNext (directive strAt d (args k)) (printfLoop strAt args fmt) k := by
  unfold printfLoop
  rw [if_neg (by decide), if_neg (not_not_intro rfl)]
  exact if_neg hd

theorem printfLoop_long {e : U8} (he : e ≠ charByte 'l') (fmt : List U8) (k : Nat) :
    printfLoop strAt args (charByte '%' :: charByte 'l' :: e :: fmt) k =
      printfNext (longDirective e (args k)) (printfLoop strAt args fmt) k := by
  unfold printfLoop
  rw [if_neg (by decide), if_neg (not_not_intro rfl)]
  exact if_neg he

theorem printfLoop_longLong (f : U8) (fmt : List U8) (k : Nat) :
    printfLoop strAt args (charByte '%' :: charByte 'l' :: charByte 'l' :: f :: fmt) k =
      printfNext (longDirective f (args k)) (printfLoop strAt args fmt) k := by
  unfold printfLoop
  rw [if_neg (by decide), if_neg (not_not_intro rfl)]
  rfl

/-- **A format is read within its text** when its directives are whole; the zero ends the loop
then, and the places behind it are read otherwise. -/
theorem printfLoop_isSome_iff {fmt : List U8} (h0 : ∀ b ∈ fmt, b ≠ 0) (k : Nat) :
    (printfLoop strAt args (fmt ++ [0]) k).isSome ↔ Whole fmt := by
  induction fmt using format_induct generalizing k with
  | nil => exact iff_of_true rfl Whole.nil
  | lit c fmt hc ih =>
    rw [whole_lit_iff hc, List.cons_append, printfLoop_lit (h0 c List.mem_cons_self) hc]
    exact printfNext_isSome rfl (ih (ne_zero_of_suffix h0 (List.suffix_cons _ _))) k
  | percent => exact iff_of_false Bool.false_ne_true not_whole_percent
  | short d fmt hd ih =>
    rw [whole_short_iff hd, List.cons_append, List.cons_append, printfLoop_short hd]
    exact printfNext_isSome (directive_isSome strAt d (args k))
      (ih (ne_zero_of_suffix h0 ⟨[_, _], rfl⟩)) k
  | percentL => exact iff_of_false Bool.false_ne_true not_whole_long
  | long e fmt he ih =>
    rw [whole_long_iff he, List.cons_append, List.cons_append, List.cons_append, printfLoop_long he]
    exact printfNext_isSome (longDirective_isSome e (args k))
      (ih (ne_zero_of_suffix h0 ⟨[_, _, _], rfl⟩)) k
  | percentLL => exact iff_of_false Bool.false_ne_true not_whole_longLong
  | longLong f fmt ih =>
    rw [whole_longLong_iff, List.cons_append, List.cons_append, List.cons_append, List.cons_append,
      printfLoop_longLong]
    exact printfNext_isSome (longDirective_isSome f (args k))
      (ih (ne_zero_of_suffix h0 ⟨[_, _, _, _], rfl⟩)) k

end Printf

/-- **When a format is read within its text**: if and only if every directive is whole. -/
theorem serialPrintf_isSome_iff (strAt : U64 → CString) (args : Nat → U64) (fmt : CString) :
    (serialPrintf strAt args fmt).isSome ↔ Whole fmt.bytes :=
  printfLoop_isSome_iff fmt.ne_zero 0

theorem percent_ne_zero : ∀ b ∈ [charByte '%'], b ≠ 0 := by decide

def percentText : CString := ⟨[charByte '%'], percent_ne_zero⟩

/-- The place behind a lone `%` and its zero is read. -/
theorem percent_unbounded :
    ¬ (serialPrintf (fun _ => CString.empty) (fun _ => 0) percentText).isSome := by
  decide

end AionOs
