import AionOs.Action.Attributes
import AionOs.Action.Handlers

/-!
# File writes

A token is cut to 2047 characters, a path to 511 of them; `act_file_write` looks at neither of
the two results of `parse_param_str`.

* `StringParam.read_first_cut`, `StringParam.read_none`: a first parameter in a token that was cut.
* `StringParam.read_second_cut`: a second one.
* `file_write_iff`: when a write has the path and the data of its token.
-/

namespace AionOs

open Bytes CText

/-! ### Tokens that were cut -/

theorem StringParam.read_eq (p : StringParam) (token : Token) :
    p.read token = parseParamStr token p.key (p.size - 1 + 1) := by
  have hsize : p.size - 1 + 1 = p.size := by
    have := p.room.1
    omega
  rw [StringParam.read, hsize]

theorem StringParam.take_quoted (p : StringParam) {v : List U8} {n : Nat} (h : n < (p.quoted v).length) :
    (p.quoted v).take n <+: (charByte ' ' :: p.word) ++ quote :: v := by
  have hsplit : p.quoted v = ((charByte ' ' :: p.word) ++ quote :: v) ++ [quote] := by
    simp [StringParam.quoted]
  rw [hsplit, List.length_append, List.length_singleton] at h
  rw [hsplit, List.take_append_of_le_length (by omega)]
  exact List.take_prefix _ _

theorem StringParam.read_first_cut {p : StringParam} {name v rest : List U8} {token : Token}
    (hname : quote ∉ name) (hv : quote ∉ v) (ht : token.bytes = name ++ p.quoted v ++ rest) :
    p.read token = some (v.take (p.size - 1)) := by
  have hpre := p.quote_front hname
  have hsuffix : p.word <:+ name ++ charByte ' ' :: p.word :=
    (List.suffix_cons _ _).trans (List.suffix_append _ _)
  have hstr : strstr token.bytes (strSearch p.key) = some (p.word ++ quote :: (v ++ quote :: rest)) := by
    rw [strSearch, p.search_eq, ht, p.quoted_append, strstr_until p.quote_word hpre, if_pos hsuffix]
  have hbehind : behind token (strSearch p.key) = some (v ++ quote :: rest) := by
    rw [behind, hstr, Option.map_some, strSearch, p.search_eq, ← List.singleton_append
      (l := v ++ quote :: rest), ← List.append_assoc, List.drop_left]
  rw [StringParam.read_eq, parseParamStr_own hv _ hbehind]

/-- A value needs a quote behind the one that is searched for. -/
theorem StringParam.read_none {p : StringParam} {token : Token} (h : token.bytes.count quote ≤ 1) :
    p.read token = none := by
  rw [StringParam.read_eq, parseParamStr_eq_none]
  rintro ⟨t, ht, hq⟩
  have hcount := ht.sublist.count_le quote
  have hpos := List.count_pos_iff.mpr hq
  rw [strSearch, p.search_eq, List.count_append, List.count_append, List.count_singleton_self] at hcount
  omega

theorem StringParam.read_first_none {p : StringParam} {name v rest : List U8} {token : Token} {n : Nat}
    (hname : quote ∉ name) (hv : quote ∉ v) (hn : n < (name ++ p.quoted v).length)
    (ht : token.bytes = (name ++ p.quoted v ++ rest).take n) : p.read token = none := by
  have hpre := p.quote_front hname
  have hsplit : name ++ p.quoted v = (name ++ charByte ' ' :: p.word) ++ quote :: v ++ [quote] := by
    simp [StringParam.quoted]
  have hcut : token.bytes <+: (name ++ charByte ' ' :: p.word) ++ quote :: v := by
    rw [hsplit, List.length_append, List.length_singleton] at hn
    rw [ht, hsplit, List.append_assoc, List.take_append_of_le_length (by omega)]
    exact List.take_prefix _ _
  have hle := hcut.sublist.count_le quote
  rw [List.count_append, List.count_eq_zero_of_not_mem hpre, List.count_cons_self,
    List.count_eq_zero_of_not_mem hv] at hle
  exact StringParam.read_none hle

theorem StringParam.read_congr {p : StringParam} {t t' : Token}
    (h : strstr t.bytes (p.word ++ [quote]) = strstr t'.bytes (p.word ++ [quote])) :
    p.read t = p.read t' := by
  rw [StringParam.read, StringParam.read, parseParamStr, parseParamStr, p.search_eq, h]

/-- A second parameter whose end was cut off: the value is empty, or it is the start of the
parameter itself. -/
theorem StringParam.read_second_cut {p q : StringParam} {name v u cut : List U8} {token : Token}
    (hname : quote ∉ name) (hapart : ¬ q.word <:+ name ++ charByte ' ' :: p.word) (hv : quote ∉ v)
    (hu : quote ∉ u) (hcut : cut <+: (charByte ' ' :: q.word) ++ quote :: u)
    (ht : token.bytes = name ++ p.quoted v ++ cut) :
    q.read token = none ∨ (q.word <:+ v ∧ q.read token = some (charByte ' ' :: q.word)) := by
  have hpre := p.quote_front hname
  have hmid : quote ∉ charByte ' ' :: q.word :=
    List.not_mem_cons_of_ne_of_not_mem (by decide) q.quote_word
  obtain ⟨lost, hlost⟩ := hcut
  have hstr : strstr token.bytes (q.word ++ [quote]) =
      if q.word <:+ v then some (q.word ++ quote :: cut) else strstr cut (q.word ++ [quote]) := by
    rw [ht, p.quoted_append, strstr_until q.quote_word hpre, if_neg hapart,
      strstr_until q.quote_word hv]
  by_cases hs : q.word <:+ v
  · rw [if_pos hs] at hstr
    rcases strchr_cases cut quote with ⟨_, hnone⟩ | ⟨pre, rest, hno, rfl, _⟩
    · refine .inl ?_
      rw [StringParam.read_some hstr, hnone, Option.map_none]
    · -- the first quote of the rest is the one that opens the second value
      rw [List.append_assoc, List.cons_append] at hlost
      have hfirst := (first_inj hno hmid hlost).1
      refine .inr ⟨hs, ?_⟩
      rw [← hfirst] at hmid ⊢
      refine StringParam.read_value hmid ?_ hstr
      rw [hfirst, List.length_cons, q.length_word]
      exact q.room.1
  · rw [if_neg hs] at hstr
    have hlen : cut.length < 2048 := by
      have := token.lt
      rw [ht, List.length_append] at this
      omega
    have hcount : cut.count quote ≤ 1 := by
      have hle := (List.prefix_append cut lost).sublist.count_le quote
      rw [hlost, List.count_append, List.count_eq_zero_of_not_mem hmid,
        List.count_cons_self, List.count_eq_zero_of_not_mem hu] at hle
      exact hle
    rw [@StringParam.read_congr q token ⟨cut, hlen⟩ hstr]
    exact .inl (StringParam.read_none hcount)

/-! ### The tokens of `FILE_WRITE` -/

structure FileToken where
  path : List U8
  data : List U8
  plain : ∀ b ∈ path ++ data, b ≠ quote ∧ b ≠ charByte '<' ∧ b ≠ charByte '>'

/-- `ACT:FILE_WRITE path="…" data="…"` -/
def FileToken.text (w : FileToken) : List U8 := fileWriteAction.token w.path w.data

theorem FileToken.length_head (w : FileToken) :
    (fileWriteAction.entry.name ++ fileWriteAction.key.quoted w.path).length = 22 + w.path.length := by
  have hname : fileWriteAction.entry.name.length = 14 := rfl
  have hkey : fileWriteAction.key.key.length = 4 := rfl
  rw [List.length_append, StringParam.length_quoted, hname, hkey]
  omega

theorem FileToken.length_text (w : FileToken) : w.text.length = 30 + w.path.length + w.data.length := by
  have hvalue : fileWriteAction.value.key.length = 4 := rfl
  rw [FileToken.text, TwoParams.token, List.length_append, w.length_head, StringParam.length_quoted, hvalue]
  omega

theorem FileToken.not_mem (w : FileToken) {c : U8} (hc : c = quote ∨ c = charByte '>') :
    c ∉ w.path ∧ c ∉ w.data := by
  rw [← not_or, ← List.mem_append]
  intro h
  obtain ⟨hq, _, hgt⟩ := w.plain c h
  exact hc.elim hq hgt

theorem tokenLen_toNat {n : Nat} (h : FitsInt n) : (tokenLen (n + 1)).toNat = min 2047 (n % 2 ^ 32) := by
  rw [FitsInt] at h
  rw [tokenLen, Nat.add_sub_cancel, BitVec.toInt_eq_toNat_cond, BitVec.toNat_ofNat]
  split <;> split <;> omega

theorem TwoParams.executed {a : TwoParams} {v u rest : List U8} (hv : charByte '>' ∉ v)
    (hu : charByte '>' ∉ u) {h : Handler} {token : Token} {dist : Nat}
    (hcall : tryActions (closed (a.token v u) rest) actions = .executed h token dist) :
    h = a.entry.handler ∧ token.bytes = (a.token v u).take (min 2047 ((a.token v u).length % 2 ^ 32)) := by
  have hmatch : matchAt (a.token v u ++ charByte '>' :: rest) = some a.entry := by
    rw [TwoParams.token, List.append_assoc]
    exact a.matchAt_quoted a.key v _
  rw [closed, tryActions_matchAt, hmatch, Option.elim_some, ← closed] at hcall
  rcases callHandler_closed (a.token_gt hv hu) rest a.entry.handler with ⟨hfits, t, ht, hexec⟩ | ⟨_, hover⟩
  · rw [hexec] at hcall
    cases hcall
    exact ⟨rfl, by rw [ht, tokenLen_toNat hfits]⟩
  · rw [hover] at hcall
    cases hcall

/-! ### What is written -/

def Allowed (path : List U8) : Prop := path.head? = some (charByte '/') ∧ ¬ ascii ".." <:+: path

instance (path : List U8) : Decidable (Allowed path) := inferInstanceAs (Decidable (_ ∧ _))

section Write

variable {σ : Type} (fs : FileSystem σ)

/-- Between two states nothing was written, or the path and the data of the token. -/
def WriteRight (w : FileToken) (s s' : HandlerSys σ) : Prop :=
  (s'.driverCalls = s.driverCalls ∧ s'.store.disk = s.store.disk) ∨
  ∃ data, (data = w.data ∨ data = w.data.take 4095) ∧
    s'.driverCalls = s.driverCalls ++ [.fsWriteFileUsb w.path data] ∧
    s'.store.disk = fs.write s.store.disk w.path data

theorem actFileWrite_cases (token : Token) (s : HandlerSys σ) {path data : List U8}
    (hpath : paramStr token (ascii "path") 512 = path) (hdata : paramStr token (ascii "data") 4096 = data) :
    (¬ Allowed path ∧ (actFileWrite fs token s).driverCalls = s.driverCalls ∧
      (actFileWrite fs token s).store.disk = s.store.disk) ∨
    (Allowed path ∧
      (actFileWrite fs token s).driverCalls = s.driverCalls ++ [.fsWriteFileUsb path data] ∧
      (actFileWrite fs token s).store.disk = fs.write s.store.disk path data) := by
  have hallowed : Allowed path ↔
      ¬ (path.head? ≠ some (charByte '/') ∨ (strstr path (ascii "..")).isSome) := by
    rw [Allowed, strstr_isSome, not_or, not_not]
  by_cases h : path.head? ≠ some (charByte '/') ∨ (strstr path (ascii "..")).isSome
  · have hrejected : actFileWrite fs token s = s.record (ascii "FILE_WRITE: rejected path=%s") := by
      rw [actFileWrite, hpath]
      exact if_pos h
    rw [hrejected]
    exact .inl ⟨fun ha => hallowed.mp ha h, rfl, rfl⟩
  · have hwritten : actFileWrite fs token s = HandlerSys.record (ascii "FILE_WRITE: path=%s bytes=%d")
        { s.drive (.fsWriteFileUsb path data) with
          store := { s.store with disk := fs.write s.store.disk path data } } := by
      rw [actFileWrite, hpath, hdata]
      exact if_neg h
    rw [hwritten]
    exact .inr ⟨hallowed.mpr h, rfl, rfl⟩

theorem writeRight_iff (w : FileToken) (token : Token) (s : HandlerSys σ) {path data : List U8}
    (hpath : paramStr token (ascii "path") 512 = path) (hdata : paramStr token (ascii "data") 4096 = data) :
    WriteRight fs w s (actFileWrite fs token s) ↔
      (Allowed path → path = w.path ∧ (data = w.data ∨ data = w.data.take 4095)) := by
  rcases actFileWrite_cases fs token s hpath hdata with ⟨hno, hcalls, hdisk⟩ | ⟨ha, hcalls, hdisk⟩
  · exact ⟨fun _ h => absurd h hno, fun _ => .inl ⟨hcalls, hdisk⟩⟩
  · rw [WriteRight, hcalls, hdisk]
    constructor
    · rintro (⟨hnone, _⟩ | ⟨d, hd, hcall, _⟩) _
      · have := congrArg List.length hnone
        rw [List.length_append, List.length_singleton] at this
        omega
      · have hsame : path = w.path ∧ data = d := by simpa using hcall
        exact ⟨hsame.1, hsame.2 ▸ hd⟩
    · intro h
      obtain ⟨rfl, hd⟩ := h ha
      exact .inr ⟨data, hd, rfl, rfl⟩

/-- The path arrives with its quote and is allowed only if the whole token does, and the path
does not hide the data. -/
def FileToken.Safe (w : FileToken) : Prop :=
  ¬ (22 + w.path.length ≤ min 2047 (w.text.length % 2 ^ 32) ∧ Allowed (w.path.take 511)) ∨
  (w.path.length ≤ 511 ∧ w.text.length ≤ 2047 ∧ (ascii "data=" <:+ w.path → w.data = ascii " data="))

/-- What the handler reads from a token that was cut. -/
theorem FileToken.read_cut (w : FileToken) {token : Token} {n : Nat} (ht : token.bytes = w.text.take n) :
    (n < 22 + w.path.length ∧ paramStr token (ascii "path") 512 = []) ∨
    (22 + w.path.length ≤ n ∧ paramStr token (ascii "path") 512 = w.path.take 511 ∧
      (n < w.text.length → paramStr token (ascii "data") 4096 = [] ∨
        (ascii "data=" <:+ w.path ∧ paramStr token (ascii "data") 4096 = ascii " data="))) := by
  obtain ⟨hqpath, hqdata⟩ := w.not_mem (.inl rfl)
  have hhead := w.length_head
  by_cases hn : n < 22 + w.path.length
  · refine .inl ⟨hn, ?_⟩
    have hread := @StringParam.read_first_none fileWriteAction.key _ _ _ token n fileWriteAction.plain
      hqpath (by omega) ht
    rw [paramStr, show parseParamStr token (ascii "path") 512 = none from hread, Option.getD_none]
  · have hbytes : token.bytes = fileWriteAction.entry.name ++ fileWriteAction.key.quoted w.path ++
        (fileWriteAction.value.quoted w.data).take (n - (22 + w.path.length)) := by
      rw [ht, FileToken.text, TwoParams.token, List.take_append, hhead, List.take_of_length_le]
      rw [hhead]
      omega
    refine .inr ⟨by omega, ?_, fun hlong => ?_⟩
    · have hread := StringParam.read_first_cut fileWriteAction.plain hqpath hbytes
      rw [paramStr, show parseParamStr token (ascii "path") 512 = some (w.path.take 511) from hread,
        Option.getD_some]
    · have hlost : n - (22 + w.path.length) < (fileWriteAction.value.quoted w.data).length := by
        have hvalue : fileWriteAction.value.key.length = 4 := rfl
        rw [w.length_text] at hlong
        rw [StringParam.length_quoted, hvalue]
        omega
      have hcut := fileWriteAction.value.take_quoted hlost
      rcases StringParam.read_second_cut fileWriteAction.plain fileWriteAction.apart hqpath hqdata hcut hbytes
        with hnone | ⟨hs, hsome⟩
      · refine .inl ?_
        rw [paramStr, show parseParamStr token (ascii "data") 4096 = none from hnone, Option.getD_none]
      · refine .inr ⟨hs, ?_⟩
        rw [paramStr, show parseParamStr token (ascii "data") 4096 = some (ascii " data=") from hsome,
          Option.getD_some]

theorem FileToken.read_whole (w : FileToken) {token : Token} (ht : token.bytes = w.text) :
    paramStr token (ascii "data") 4096 = if ascii "data=" <:+ w.path then ascii " data=" else w.data := by
  obtain ⟨hqpath, hqdata⟩ := w.not_mem (.inl rfl)
  have hlen : w.data.length < 4096 := by
    have := token.lt
    rw [ht, w.length_text] at this
    omega
  have hread := StringParam.read_second fileWriteAction.plain fileWriteAction.apart hqpath hqdata hlen ht
  have hparse : parseParamStr token (ascii "data") 4096 =
      some (if ascii "data=" <:+ w.path then ascii " data=" else w.data) := hread
  rw [paramStr, hparse, Option.getD_some]

theorem FileToken.right_iff (w : FileToken) {token : Token}
    (ht : token.bytes = w.text.take (min 2047 (w.text.length % 2 ^ 32))) (s : HandlerSys σ) :
    WriteRight fs w s (actFileWrite fs token s) ↔ w.Safe := by
  rw [writeRight_iff fs w token s rfl rfl, FileToken.Safe]
  rcases w.read_cut ht with ⟨hn, hpath⟩ | ⟨hn, hpath, hlost⟩
  · rw [hpath]
    exact ⟨fun _ => .inl fun h => absurd h.1 (by omega), fun _ ha => absurd ha (by decide)⟩
  · rw [hpath]
    by_cases ha : Allowed (w.path.take 511)
    · have hsame : w.path.take 511 = w.path ↔ w.path.length ≤ 511 := List.take_eq_self_iff _
      rw [or_iff_right (not_not.mpr ⟨hn, ha⟩), forall_prop_of_true ha, hsame]
      refine and_congr_right fun hshort => ?_
      by_cases hlen : w.text.length ≤ 2047
      · have hwhole : token.bytes = w.text := by
          rw [ht]
          apply List.take_of_length_le
          omega
        have hcut : w.data.take 4095 = w.data := by
          apply List.take_of_length_le
          rw [w.length_text] at hlen
          omega
        rw [w.read_whole hwhole, hcut, or_self, and_iff_right hlen]
        split
        · next hs => exact ⟨fun h _ => h.symm, fun h => (h hs).symm⟩
        · next hs => exact ⟨fun _ h => absurd h hs, fun _ => rfl⟩
      · -- the token was cut in the data
        refine ⟨fun hdata => absurd ?_ hlen, fun h => absurd h.1 hlen⟩
        have hfew : (paramStr token (ascii "data") 4096).length ≤ 6 := by
          rcases hlost (by omega) with h | ⟨_, h⟩
          · rw [h]
            exact Nat.zero_le _
          · rw [h]
            decide
        have hdata' : w.data.length ≤ 6 := by
          rcases hdata with h | h
          · rw [← h]
            exact hfew
          · rw [h, List.length_take] at hfew
            omega
        rw [w.length_text]
        omega
    · exact ⟨fun _ => .inl fun h => ha h.2, fun _ h => absurd h ha⟩

/-- **`FILE_WRITE`.**  For every output and every token with a path and data in it that is
executed: either nothing is written, or the data under the path, if and only if the path is
rejected or does not arrive, or the path fits its buffer, the token fits its own, and the path
does not end like the start of the data. -/
theorem file_write_iff (output : List U8) : ∀ stop ∈ scan output, ∀ (w : FileToken) (rest : List U8),
    stop.text = closed w.text rest → ∀ (h : Handler) (token : Token) (dist : Nat),
    stop.outcome = .executed h token dist → h = .actFileWrite ∧ ∀ (env : CallEnv) (s : HandlerSys σ),
      (WriteRight fs w s (h.run fs token env s) ↔ w.Safe) := by
  intro stop hstop w rest htext h token dist hcall
  obtain ⟨_, hgt⟩ := mem_scan hstop
  rw [hgt, htext] at hcall
  obtain ⟨hgtp, hgtd⟩ := w.not_mem (.inr rfl)
  obtain ⟨rfl, hbytes⟩ := TwoParams.executed hgtp hgtd hcall
  exact ⟨rfl, fun _ s => w.right_iff fs hbytes s⟩

end Write

/-! ### Two tokens -/

def shortWrite : FileToken := ⟨ascii "/a", ascii "b", by decide⟩

def longWrite : FileToken where
  path := ascii "/a"
  data := List.replicate 2100 (charByte 'x')
  plain := by
    intro b hb
    rw [List.mem_append, List.mem_replicate] at hb
    rcases hb with hb | ⟨_, rfl⟩
    · revert b
      decide
    · decide

def FileToken.stop (w : FileToken) : Stop := ⟨closed w.text [], tryActions (closed w.text []) actions⟩

theorem FileToken.stop_mem (w : FileToken) : w.stop ∈ scan (closed w.text []) := by
  have hscan := scan_head (w.text ++ charByte '>' :: [])
  rw [closed, hscan]
  exact List.mem_cons_self

theorem FileToken.stop_executed (w : FileToken) (hfits : FitsInt w.text.length) :
    ∃ token dist, w.stop.outcome = .executed .actFileWrite token dist ∧
      token.bytes = w.text.take (min 2047 (w.text.length % 2 ^ 32)) := by
  obtain ⟨hgtp, hgtd⟩ := w.not_mem (.inr rfl)
  have hmatch : matchAt (w.text ++ charByte '>' :: []) = some fileWriteAction.entry := by
    rw [FileToken.text, TwoParams.token, List.append_assoc]
    exact fileWriteAction.matchAt_quoted fileWriteAction.key w.path _
  have hout : w.stop.outcome = callHandler (closed w.text []) .actFileWrite := by
    show tryActions (closed w.text []) actions = _
    rw [closed, tryActions_matchAt, hmatch]
    rfl
  rcases callHandler_closed (fileWriteAction.token_gt hgtp hgtd) [] .actFileWrite with
    ⟨_, token, htoken, hcall⟩ | ⟨hno, _⟩
  · exact ⟨token, _, hout.trans hcall, by rw [htoken, ← FileToken.text, tokenLen_toNat hfits]⟩
  · exact absurd hfits hno

theorem file_write_sample : ∃ token dist, shortWrite.stop.outcome = .executed .actFileWrite token dist ∧
    (WriteRight sampleFs shortWrite handlerStart
      (Handler.actFileWrite.run sampleFs token quietEnv handlerStart) ↔ shortWrite.Safe) := by
  have hfits : FitsInt shortWrite.text.length := by
    rw [FitsInt, shortWrite.length_text]
    decide
  obtain ⟨token, dist, hcall, _⟩ := shortWrite.stop_executed hfits
  have hwrite := file_write_iff sampleFs (closed shortWrite.text []) shortWrite.stop shortWrite.stop_mem
    shortWrite [] rfl .actFileWrite token dist hcall
  exact ⟨token, dist, hcall, hwrite.2 quietEnv handlerStart⟩

/-- The file is replaced by an empty one. -/
theorem file_write_emptied : longWrite.stop ∈ scan (closed longWrite.text []) ∧
    ∃ token dist, longWrite.stop.outcome = .executed .actFileWrite token dist ∧
      ¬ WriteRight sampleFs longWrite handlerStart
        (Handler.actFileWrite.run sampleFs token quietEnv handlerStart) ∧
      (Handler.actFileWrite.run sampleFs token quietEnv handlerStart).driverCalls =
        [.fsWriteFileUsb (ascii "/a") []] := by
  have hlen : longWrite.text.length = 2132 := by
    have hdata : longWrite.data.length = 2100 := List.length_replicate
    have hpath : longWrite.path.length = 2 := rfl
    rw [longWrite.length_text, hpath, hdata]
  have hfits : FitsInt longWrite.text.length := by
    rw [FitsInt, hlen]
    decide
  obtain ⟨token, dist, hcall, hbytes⟩ := longWrite.stop_executed hfits
  refine ⟨longWrite.stop_mem, token, dist, hcall, fun hright => ?_, ?_⟩
  · rcases (longWrite.right_iff sampleFs hbytes handlerStart).mp hright with hno | ⟨_, hlong, _⟩
    · rw [hlen] at hno
      exact hno ⟨by decide, by decide⟩
    · rw [hlen] at hlong
      omega
  · rcases longWrite.read_cut hbytes with ⟨hshort, _⟩ | ⟨_, hpath, hlost⟩
    · rw [hlen] at hshort
      exact absurd hshort (by decide)
    · rcases hlost (by rw [hlen]; decide) with hdata | ⟨hs, _⟩
      · rcases actFileWrite_cases sampleFs token handlerStart hpath hdata with ⟨hno, _⟩ | ⟨_, hcalls, _⟩
        · exact absurd (by decide) hno
        · exact hcalls
      · exact absurd hs (by decide)

end AionOs
