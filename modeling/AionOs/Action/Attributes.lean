import AionOs.Lib.Numeral
import AionOs.Action.Params

/-!
# Attributes

A token is a name and some attributes, `NAME a=1 b="text"`; `parse_param_str` and
`parse_param_int` look for `key="` and `key=` in all of it.

* `parseParamStr_eq_none`, `parseParamInt_eq_none`: when nothing is found, in any token.
* `readDigits_append`: a numeral is read modulo `2 ^ 64`.
* `AttrToken.own_value`, `AttrToken.own_eq_none`: the attribute with a name.
* `attributes_iff`: when a key gives the value of its own attribute, and no other text.
-/

namespace AionOs

open Bytes CText

/-! ### The readers -/

def strSearch (key : List U8) : List U8 := (key ++ ascii "=" ++ [quote]).take 63

def intSearch (key : List U8) : List U8 := (key ++ ascii "=").take 63

/-- Where a value is read: the text behind the first occurrence of what is searched for. -/
def behind (token : Token) (search : List U8) : Option (List U8) :=
  (strstr token.bytes search).map fun p => p.drop search.length

theorem cut_eq (room len : Nat) : (if len ≥ room + 1 then room + 1 - 1 else len) = min room len := by
  split <;> omega

theorem parseParamStr_eq (token : Token) (key : List U8) (room : Nat) :
    parseParamStr token key (room + 1) = (behind token (strSearch key)).bind fun p =>
      (strchr p quote).map fun stop => p.take (min room (p.length - stop.length)) := by
  rw [parseParamStr, behind, strSearch]
  cases strstr token.bytes ((key ++ ascii "=" ++ [quote]).take 63) with
  | none => rfl
  | some p =>
    rw [Option.map_some, Option.bind_some]
    dsimp only
    cases strchr (p.drop ((key ++ ascii "=" ++ [quote]).take 63).length) quote with
    | none => rfl
    | some stop =>
      dsimp only
      rw [Option.map_some, cut_eq]

theorem parseParamInt_eq (token : Token) (key : List U8) :
    parseParamInt token key = (behind token (intSearch key)).map (readDigits 0) := by
  rw [behind, Option.map_map]
  rfl

/-- A text is found if what is searched for occurs with a quote behind it. -/
theorem parseParamStr_eq_none {token : Token} {key : List U8} {room : Nat} :
    parseParamStr token key (room + 1) = none ↔
      ¬ ∃ p, strSearch key ++ p <:+ token.bytes ∧ quote ∈ p := by
  rw [parseParamStr_eq, behind]
  cases hfind : strstr token.bytes (strSearch key) with
  | none =>
    refine ⟨fun _ ⟨p, hp, _⟩ => ?_, fun _ => rfl⟩
    exact strstr_none.mp hfind ((List.prefix_append _ p).isInfix.trans hp.isInfix)
  | some t =>
    obtain ⟨p, rfl⟩ := strstr_starts hfind
    rw [Option.map_some, Option.bind_some, List.drop_left]
    rcases strchr_cases p quote with ⟨hno, hnone⟩ | ⟨pre, rest, _, hp, hsome⟩
    · rw [hnone]
      refine ⟨fun _ ⟨p', hp', hq⟩ => hno ?_, fun _ => rfl⟩
      -- the quote would stand behind the first occurrence, too
      have hlast := strstr_least hfind hp' (List.prefix_append _ p')
      have hlen := hlast.length_le
      rw [List.length_append, List.length_append] at hlen
      have hsuffix : p' <:+ p := List.suffix_of_suffix_length_le
        ((List.suffix_append _ p').trans hlast) (List.suffix_append _ p) (by omega)
      exact hsuffix.subset hq
    · rw [hsome]
      refine ⟨fun h => absurd h (Option.some_ne_none _), fun h => absurd ⟨p, strstr_suffix hfind, ?_⟩ h⟩
      rw [hp]
      simp

theorem parseParamInt_eq_none {token : Token} {key : List U8} :
    parseParamInt token key = none ↔ ¬ intSearch key <:+: token.bytes := by
  rw [parseParamInt_eq, Option.map_eq_none_iff, behind, Option.map_eq_none_iff, strstr_none]

/-- The digits up to the first other character, modulo `2 ^ 64`. -/
theorem readDigits_append {ds rest : List U8} (hds : ∀ b ∈ ds, IsDigit b) (hrest : DigitsEnd rest)
    (n : Nat) : readDigits (BitVec.ofNat 64 n) (ds ++ rest) = BitVec.ofNat 64 (appendDigits n ds) := by
  induction ds generalizing n with
  | nil =>
    rw [List.nil_append, appendDigits_nil]
    cases rest with
    | nil => rfl
    | cons b rest =>
      have hb : ¬ (charByte '0' ≤ b ∧ b ≤ charByte '9') := hrest b rfl
      rw [readDigits, if_neg hb]
  | cons b ds ih =>
    have hb : charByte '0' ≤ b ∧ b ≤ charByte '9' := hds b List.mem_cons_self
    rw [List.cons_append, readDigits, if_pos hb, ofNat_digit n hb,
      ih fun c hc => hds c (List.mem_cons_of_mem b hc), appendDigits_cons]

theorem readDigits_numeral (n : Numeral) {rest : List U8} (hrest : DigitsEnd rest) :
    readDigits 0 (n.digits ++ rest) = BitVec.ofNat 64 n.val :=
  readDigits_append n.all hrest 0

/-! ### Tokens with attributes -/

inductive AttrValue where
  | numeral (n : Numeral)
  | quoted (s : List U8) (plain : quote ∉ s)

def AttrValue.text : AttrValue → List U8
  | .numeral n => n.digits
  | .quoted s _ => quote :: (s ++ [quote])

structure Attr where
  name : List U8
  plain : charByte ' ' ∉ name ∧ charByte '=' ∉ name ∧ quote ∉ name
  value : AttrValue

/-- ` name=value` -/
def Attr.text (a : Attr) : List U8 := charByte ' ' :: (a.name ++ charByte '=' :: a.value.text)

/-- `NAME a1=v1 … ak=vk` -/
structure AttrToken where
  name : List U8
  plain : charByte ' ' ∉ name ∧ charByte '=' ∉ name ∧ quote ∉ name
  attrs : List Attr
  distinct : (attrs.map Attr.name).Nodup
  lt : (name ++ attrs.flatMap Attr.text).length < 2048

def AttrToken.token (t : AttrToken) : Token := ⟨t.name ++ t.attrs.flatMap Attr.text, t.lt⟩

structure Place where
  before : List U8
  value : AttrValue
  after : List U8

def findAttr (key : List U8) : List U8 → List Attr → Option Place
  | _, [] => none
  | before, a :: as =>
    if a.name = key then some ⟨before, a.value, as.flatMap Attr.text⟩
    else findAttr key (before ++ a.text) as

def AttrToken.own (t : AttrToken) (key : List U8) : Option Place := findAttr key t.name t.attrs

theorem findAttr_some {key before : List U8} {as : List Attr} {p : Place}
    (h : findAttr key before as = some p) : ∃ pre a post, as = pre ++ a :: post ∧ a.name = key ∧
      p = ⟨before ++ pre.flatMap Attr.text, a.value, post.flatMap Attr.text⟩ := by
  induction as generalizing before with
  | nil => cases h
  | cons a as ih =>
    rw [findAttr] at h
    split at h
    · next hname =>
      cases h
      exact ⟨[], a, as, rfl, hname, by rw [List.flatMap_nil, List.append_nil]⟩
    · obtain ⟨pre, b, post, rfl, hname, rfl⟩ := ih h
      exact ⟨a :: pre, b, post, rfl, hname, by rw [List.flatMap_cons, List.append_assoc]⟩

theorem findAttr_mem {before : List U8} {as : List Attr} {a : Attr} (hd : (as.map Attr.name).Nodup)
    (ha : a ∈ as) : ∃ p, findAttr a.name before as = some p ∧ p.value = a.value := by
  induction as generalizing before with
  | nil => cases ha
  | cons b as ih =>
    rw [List.map_cons, List.nodup_cons] at hd
    rw [findAttr]
    rcases List.mem_cons.mp ha with rfl | ha
    · exact ⟨_, if_pos rfl, rfl⟩
    · have hname : b.name ≠ a.name := fun h => hd.1 (h ▸ List.mem_map_of_mem ha)
      rw [if_neg hname]
      exact ih hd.2 ha

theorem AttrToken.own_value {t : AttrToken} {a : Attr} (ha : a ∈ t.attrs) :
    ∃ p, t.own a.name = some p ∧ p.value = a.value :=
  findAttr_mem t.distinct ha

theorem AttrToken.own_eq_none {t : AttrToken} {key : List U8} :
    t.own key = none ↔ ∀ a ∈ t.attrs, a.name ≠ key := by
  constructor
  · rintro h a ha rfl
    obtain ⟨p, hp, _⟩ := AttrToken.own_value ha
    rw [h] at hp
    cases hp
  · intro h
    cases hown : t.own key with
    | none => rfl
    | some p =>
      obtain ⟨pre, a, post, hattrs, hname, _⟩ := findAttr_some hown
      exact absurd hname (h a (hattrs ▸ List.mem_append_right _ List.mem_cons_self))

theorem AttrToken.own_bytes {t : AttrToken} {key : List U8} {p : Place} (h : t.own key = some p) :
    t.token.bytes = p.before ++ (charByte ' ' :: (key ++ charByte '=' :: (p.value.text ++ p.after))) ∧
      charByte ' ' ∉ key ∧ charByte '=' ∉ key ∧ quote ∉ key ∧ DigitsEnd p.after := by
  obtain ⟨pre, a, post, hattrs, rfl, rfl⟩ := findAttr_some h
  refine ⟨?_, a.plain.1, a.plain.2.1, a.plain.2.2, ?_⟩
  · show t.name ++ t.attrs.flatMap Attr.text = _
    rw [hattrs, List.flatMap_append, List.flatMap_cons, Attr.text]
    simp
  · cases post with
    | nil => simp [DigitsEnd]
    | cons b post =>
      have hspace : ¬ IsDigit (charByte ' ') := by decide
      simpa [DigitsEnd, Attr.text] using hspace

/-! ### A key and its attribute -/

/-- `parse_param_str` gives the text of the attribute named `key`, cut to the buffer and read
there, and fails if there is none. -/
def StrRight (t : AttrToken) (key : List U8) (room : Nat) : Prop :=
  match t.own key with
  | some ⟨_, .quoted s _, after⟩ =>
    behind t.token (strSearch key) = some (s ++ quote :: after) ∧
      parseParamStr t.token key (room + 1) = some (s.take room)
  | _ => parseParamStr t.token key (room + 1) = none

/-- `parse_param_int` gives the number of the attribute named `key`, read there, and fails if
there is none. -/
def IntRight (t : AttrToken) (key : List U8) : Prop :=
  match t.own key with
  | some ⟨_, .numeral n, after⟩ =>
    behind t.token (intSearch key) = some (n.digits ++ after) ∧
      ∃ v, parseParamInt t.token key = some v ∧ v.toInt = n.val
  | _ => parseParamInt t.token key = none

/-- `key="` does not stand before its own attribute; without one, nowhere with a quote behind it. -/
def StrClear (t : AttrToken) (key : List U8) : Prop :=
  match t.own key with
  | some ⟨before, .quoted _ _, _⟩ => key.length ≤ 61 ∧ ¬ key ++ ascii "=" ++ [quote] <:+: before
  | _ => ¬ ∃ p, strSearch key ++ p <:+ t.token.bytes ∧ quote ∈ p

/-- `key=` does not stand before its own attribute; without one, nowhere. -/
def IntClear (t : AttrToken) (key : List U8) : Prop :=
  match t.own key with
  | some ⟨before, .numeral n, _⟩ => key.length ≤ 62 ∧ ¬ key ++ ascii "=" <:+: before ∧ n.val < 2 ^ 63
  | _ => ¬ intSearch key <:+: t.token.bytes

theorem parseParamStr_own {token : Token} {key s after : List U8} (hs : quote ∉ s) (room : Nat)
    (h : behind token (strSearch key) = some (s ++ quote :: after)) :
    parseParamStr token key (room + 1) = some (s.take room) := by
  have hlen : (s ++ quote :: after).length - (quote :: after).length = s.length := by
    rw [List.length_append, Nat.add_sub_cancel]
  rw [parseParamStr_eq, h, Option.bind_some, strchr_append hs, Option.map_some, hlen]
  congr 1
  rw [List.take_append_of_le_length (by omega), ← List.take_take, List.take_length]

/-- **Where an attribute is read**: `word` and `q` are searched for together. -/
theorem behind_iff {token : Token} {q : U8} {word before rest : List U8} (hq : q ∉ word)
    (hspace : q ≠ charByte ' ') (hbytes : token.bytes = before ++ (charByte ' ' :: (word ++ q :: rest))) :
    behind token ((word ++ [q]).take 63) = some rest ↔ word.length ≤ 62 ∧ ¬ word ++ [q] <:+: before := by
  rw [behind, Option.map_eq_some_iff]
  by_cases hlen : word.length ≤ 62
  · have hwhole : (word ++ [q]).take 63 = word ++ [q] := by
      apply List.take_of_length_le
      rw [List.length_append, List.length_singleton]
      omega
    have hfront : q ∉ charByte ' ' :: word := List.not_mem_cons_of_ne_of_not_mem hspace hq
    have hown := @strstr_own _ _ q word before _ hfront (List.suffix_cons _ _) rest
    rw [List.cons_append, ← hbytes] at hown
    rw [hwhole, and_iff_right hlen, ← hown]
    have hjoin : word ++ q :: rest = word ++ [q] ++ rest := by
      rw [List.append_assoc, List.singleton_append]
    constructor
    · rintro ⟨p, hp, hrest⟩
      obtain ⟨p', rfl⟩ := strstr_starts hp
      rw [List.drop_left] at hrest
      rw [hp, hrest, hjoin]
    · intro hp
      refine ⟨_, hp, ?_⟩
      rw [hjoin, List.drop_left]
  · -- the `q` is cut off, but there is one right before `rest`
    have hcut : (word ++ [q]).take 63 = word.take 63 := List.take_append_of_le_length (by omega)
    refine ⟨fun ⟨p, hp, hrest⟩ => ?_, fun h => absurd h.1 hlen⟩
    have hne : (word ++ [q]).take 63 ≠ [] := by
      rw [hcut, ← List.length_pos_iff, List.length_take]
      omega
    have hno : q ∉ (word ++ [q]).take 63 := fun hmem => hq (List.mem_of_mem_take (hcut ▸ hmem))
    have hsplit : token.bytes = (before ++ charByte ' ' :: word) ++ q :: rest := by
      rw [hbytes, List.append_assoc, List.cons_append]
    rw [hsplit] at hp
    exact absurd hrest (strstr_drop_ne hp hne hno)

theorem toInt_ofNat_iff (n : Nat) : (BitVec.ofNat 64 n).toInt = n ↔ n < 2 ^ 63 := by
  rw [BitVec.toInt_eq_toNat_cond, BitVec.toNat_ofNat]
  split <;> omega

theorem strRight_iff (t : AttrToken) (key : List U8) (room : Nat) : StrRight t key room ↔ StrClear t key := by
  rw [StrRight, StrClear]
  cases hown : t.own key with
  | none => exact parseParamStr_eq_none
  | some p =>
    obtain ⟨before, value, after⟩ := p
    cases value with
    | numeral n => exact parseParamStr_eq_none
    | quoted s hs =>
      obtain ⟨hbytes, _, _, hkey, _⟩ := AttrToken.own_bytes hown
      have hword : quote ∉ key ++ ascii "=" := by
        rw [List.mem_append, not_or]
        exact ⟨hkey, by decide⟩
      have hsplit : t.token.bytes = before ++ (charByte ' ' :: (key ++ ascii "=" ++ quote ::
          (s ++ quote :: after))) := by
        rw [hbytes]
        simp [AttrValue.text, ascii]
      have hread := behind_iff hword (by decide) hsplit
      have hlen : (key ++ ascii "=").length ≤ 62 ↔ key.length ≤ 61 := by
        rw [List.length_append, show (ascii "=").length = 1 from rfl]
        omega
      rw [hlen] at hread
      exact ⟨fun h => hread.mp h.1, fun h => ⟨hread.mpr h, parseParamStr_own hs room (hread.mpr h)⟩⟩

theorem intRight_iff (t : AttrToken) (key : List U8) : IntRight t key ↔ IntClear t key := by
  rw [IntRight, IntClear]
  cases hown : t.own key with
  | none => exact parseParamInt_eq_none
  | some p =>
    obtain ⟨before, value, after⟩ := p
    cases value with
    | quoted s hs => exact parseParamInt_eq_none
    | numeral n =>
      obtain ⟨hbytes, _, hkey, _, hend⟩ := AttrToken.own_bytes hown
      have hread := behind_iff hkey (by decide) hbytes
      have hvalue : behind t.token (intSearch key) = some (n.digits ++ after) →
          parseParamInt t.token key = some (BitVec.ofNat 64 n.val) := fun h => by
        rw [parseParamInt_eq, h, Option.map_some, readDigits_numeral n hend]
      constructor
      · rintro ⟨hat, v, hv, hval⟩
        rw [hvalue hat, Option.some.injEq] at hv
        rw [← hv, toInt_ofNat_iff] at hval
        obtain ⟨hlen, hclear⟩ := hread.mp hat
        exact ⟨hlen, hclear, hval⟩
      · rintro ⟨hlen, hclear, hval⟩
        have hat := hread.mpr ⟨hlen, hclear⟩
        exact ⟨hat, _, hvalue hat, (toInt_ofNat_iff n.val).mpr hval⟩

/-- **Attribute boundaries.**  For every token with distinct attributes, every key and every
buffer: the text of the attribute with this name is found, or that there is none, if and only
if the key is short and does not stand further ahead in the token, be it in a quoted text or at
the end of a longer name; the same of a number, if it is below `2 ^ 63`. -/
theorem attributes_iff (t : AttrToken) (key : List U8) (room : Nat) :
    (StrRight t key room ↔ StrClear t key) ∧ (IntRight t key ↔ IntClear t key) :=
  ⟨strRight_iff t key room, intRight_iff t key⟩

/-- `color=9`, with a text that looks like it. -/
def coloredText : AttrToken where
  name := ascii "ACT:DISPLAY"
  plain := by decide
  attrs := [⟨ascii "text", by decide, .quoted (ascii "color=5") (by decide)⟩,
    ⟨ascii "color", by decide, .numeral ⟨ascii "9", by decide, by decide⟩⟩]
  distinct := by decide
  lt := by decide

/-- `x=4`, behind a longer name. -/
def longerName : AttrToken where
  name := ascii "ACT:DISPLAY_PIXEL"
  plain := by decide
  attrs := [⟨ascii "max", by decide, .numeral ⟨ascii "7", by decide, by decide⟩⟩,
    ⟨ascii "x", by decide, .numeral ⟨ascii "4", by decide, by decide⟩⟩]
  distinct := by decide
  lt := by decide

/-- The number in the text and the number of the longer name are taken. -/
theorem attributes_confused :
    (¬ IntRight coloredText (ascii "color") ∧ parseParamInt coloredText.token (ascii "color") = some 5) ∧
      (¬ IntRight longerName (ascii "x") ∧ parseParamInt longerName.token (ascii "x") = some 7) := by
  refine ⟨⟨fun h => ?_, by decide⟩, fun h => ?_, by decide⟩
  · have hclear := (intRight_iff coloredText (ascii "color")).mp h
    exact absurd (show ascii "color" ++ ascii "=" <:+: ascii "ACT:DISPLAY text=\"color=5\"" by decide)
      hclear.2.1
  · have hclear := (intRight_iff longerName (ascii "x")).mp h
    exact absurd (show ascii "x" ++ ascii "=" <:+: ascii "ACT:DISPLAY_PIXEL max=7" by decide) hclear.2.1

end AionOs
