import Mathlib.Data.List.Infix

/-!
# Searching in texts

The search functions of `<string.h>`.  A text is the list of its characters before the
zero, a pointer into it the list from there on.

* `strchr_cases`, `strchr_induct`: the first occurrence of a character, and what stands around it.
* `strstr_isSome`: a word is found exactly when it occurs.
* `strstr_until`: a word that ends in a character `q` and has no other, in a text cut at
  its first `q`.
* `strstr_own`: when such a word is found where it was put.
-/

namespace CText

variable {α : Type*} [DecidableEq α]

/-! ### Characters -/

/-- The text from the first `c` on. -/
def strchr (s : List α) (c : α) : Option (List α) :=
  match s with
  | [] => none
  | b :: s' => if b = c then some (b :: s') else strchr s' c

theorem strchr_none {s : List α} {c : α} (h : c ∉ s) : strchr s c = none := by
  induction s with
  | nil => rfl
  | cons b s ih =>
    obtain ⟨hb, hs⟩ := List.ne_and_not_mem_of_not_mem_cons h
    rw [strchr, if_neg (Ne.symm hb), ih hs]

theorem strchr_append {pre : List α} {c : α} (h : c ∉ pre) (rest : List α) :
    strchr (pre ++ c :: rest) c = some (c :: rest) := by
  induction pre with
  | nil => exact if_pos rfl
  | cons b pre ih =>
    obtain ⟨hb, hpre⟩ := List.ne_and_not_mem_of_not_mem_cons h
    rw [List.cons_append, strchr, if_neg (Ne.symm hb), ih hpre]

theorem exists_first {s : List α} {c : α} (h : c ∈ s) : ∃ pre rest, c ∉ pre ∧ s = pre ++ c :: rest := by
  induction s with
  | nil => cases h
  | cons b s ih =>
    by_cases hb : b = c
    · exact ⟨[], s, List.not_mem_nil, by rw [hb, List.nil_append]⟩
    · obtain ⟨pre, rest, hpre, hs⟩ := ih ((List.mem_cons.mp h).resolve_left (Ne.symm hb))
      exact ⟨b :: pre, rest, List.not_mem_cons_of_ne_of_not_mem (Ne.symm hb) hpre, by rw [hs, List.cons_append]⟩

theorem strchr_cases (s : List α) (c : α) : (c ∉ s ∧ strchr s c = none) ∨
    ∃ pre rest, c ∉ pre ∧ s = pre ++ c :: rest ∧ strchr s c = some (c :: rest) := by
  by_cases h : c ∈ s
  · obtain ⟨pre, rest, hpre, hs⟩ := exists_first h
    exact .inr ⟨pre, rest, hpre, hs, by rw [hs, strchr_append hpre]⟩
  · exact .inl ⟨h, strchr_none h⟩

/-- Induction over the places of a character: a text without `c`, and the first `c` of a text
with the statement for all that stands behind it. -/
@[elab_as_elim]
theorem strchr_induct (c : α) {motive : List α → Prop} (s : List α)
    (missing : ∀ s, c ∉ s → motive s)
    (first : ∀ pre rest, c ∉ pre → (∀ t, t <:+ rest → motive t) → motive (pre ++ c :: rest)) :
    motive s := by
  induction hn : s.length using Nat.strongRecOn generalizing s with
  | ind n ih =>
    rcases strchr_cases s c with ⟨hnone, _⟩ | ⟨pre, rest, hpre, rfl, _⟩
    · exact missing s hnone
    · refine first pre rest hpre fun t ht => ih t.length ?_ t rfl
      have hlen := ht.length_le
      rw [List.length_append, List.length_cons] at hn
      omega

theorem strchr_length {s t : List α} {c : α} (h : strchr s c = some t) :
    0 < t.length ∧ t.length ≤ s.length := by
  rcases strchr_cases s c with ⟨_, hnone⟩ | ⟨pre, rest, _, hs, hsome⟩
  · rw [hnone] at h
    cases h
  · rw [hsome] at h
    cases h
    rw [hs, List.length_append, List.length_cons]
    omega

theorem first_inj {pre pre' rest rest' : List α} {c : α} (h : c ∉ pre) (h' : c ∉ pre')
    (he : pre ++ c :: rest = pre' ++ c :: rest') : pre = pre' ∧ rest = rest' := by
  have hs := congrArg (strchr · c) he
  simp only [strchr_append h, strchr_append h', Option.some.injEq, List.cons.injEq, true_and] at hs
  rw [hs] at he
  exact ⟨List.append_cancel_right he, hs⟩

omit [DecidableEq α] in
theorem prefix_until {word pre : List α} {c : α} (h : c ∉ word) (rest : List α) :
    word <+: pre ++ c :: rest ↔ word <+: pre := by
  refine ⟨fun hw => ?_, fun hw => hw.trans (List.prefix_append _ _)⟩
  rcases List.prefix_or_prefix_of_prefix hw (List.prefix_append pre (c :: rest)) with hpre | hlong
  · exact hpre
  · obtain ⟨t, rfl⟩ := hlong
    rw [List.prefix_append_right_inj] at hw
    cases t with
    | nil => rw [List.append_nil]
    | cons b t =>
      rw [(List.cons_prefix_cons.mp hw).1] at h
      exact absurd (List.mem_append_right pre List.mem_cons_self) h

/-! ### Words -/

/-- The text from the first occurrence of `word` on. -/
def strstr (s word : List α) : Option (List α) :=
  match s with
  | [] => if word = [] then some [] else none
  | b :: s' => if word.isPrefixOf (b :: s') then some (b :: s') else strstr s' word

theorem strstr_here {s word : List α} (h : word <+: s) : strstr s word = some s := by
  cases s with
  | nil => exact if_pos (List.prefix_nil.mp h)
  | cons b s => exact if_pos (List.isPrefixOf_iff_prefix.mpr h)

theorem strstr_cons {b : α} {s word : List α} (h : ¬ word <+: b :: s) :
    strstr (b :: s) word = strstr s word :=
  if_neg (fun hp => h (List.isPrefixOf_iff_prefix.mp hp))

theorem strstr_isSome {s word : List α} : (strstr s word).isSome ↔ word <:+: s := by
  induction s with
  | nil =>
    rw [strstr, List.infix_nil]
    split
    · next h => exact ⟨fun _ => h, fun _ => rfl⟩
    · next h => exact ⟨fun hs => absurd hs (by simp), fun hw => absurd hw h⟩
  | cons b s ih =>
    rw [List.infix_cons_iff]
    by_cases h : word <+: b :: s
    · rw [strstr_here h]
      exact ⟨fun _ => .inl h, fun _ => rfl⟩
    · rw [strstr_cons h, ih]
      exact ⟨.inr, fun hw => hw.resolve_left h⟩

/-- What is found starts with the word, and it is an end of the text. -/
theorem strstr_found {s word t : List α} (h : strstr s word = some t) : word <+: t ∧ t <:+ s := by
  induction s with
  | nil =>
    rw [strstr] at h
    split at h
    · next hw =>
      cases h
      exact ⟨hw ▸ List.nil_prefix, List.suffix_rfl⟩
    · cases h
  | cons b s ih =>
    by_cases hp : word <+: b :: s
    · rw [strstr_here hp] at h
      cases h
      exact ⟨hp, List.suffix_rfl⟩
    · rw [strstr_cons hp] at h
      exact ⟨(ih h).1, (ih h).2.trans (List.suffix_cons b s)⟩

theorem strstr_starts {s word t : List α} (h : strstr s word = some t) : word <+: t :=
  (strstr_found h).1

theorem strstr_suffix {s word t : List α} (h : strstr s word = some t) : t <:+ s :=
  (strstr_found h).2

/-- The word ends at the first `q` of the text, or it starts behind it. -/
theorem strstr_until {q : α} {word pre : List α} (hword : q ∉ word) (hpre : q ∉ pre) (rest : List α) :
    strstr (pre ++ q :: rest) (word ++ [q]) =
      if word <:+ pre then some (word ++ q :: rest) else strstr rest (word ++ [q]) := by
  induction pre with
  | nil =>
    rw [List.nil_append]
    by_cases hw : word = []
    · rw [hw, if_pos List.nil_suffix]
      exact strstr_here (List.cons_prefix_cons.mpr ⟨rfl, List.nil_prefix⟩)
    · rw [if_neg (fun hs => hw (List.suffix_nil.mp hs)), strstr_cons]
      intro hp
      obtain ⟨b, word', rfl⟩ := List.exists_cons_of_ne_nil hw
      exact hword (List.mem_cons.mpr (.inl (List.cons_prefix_cons.mp hp).1.symm))
  | cons b pre ih =>
    have hat : word ++ [q] <+: b :: pre ++ q :: rest ↔ word = b :: pre := by
      constructor
      · rintro ⟨t, ht⟩
        rw [List.append_assoc, List.singleton_append] at ht
        exact (first_inj hword hpre ht).1
      · rintro rfl
        exact ⟨rest, by rw [List.append_assoc, List.singleton_append]⟩
    by_cases hw : word = b :: pre
    · rw [strstr_here (hat.mpr hw), if_pos (hw ▸ List.suffix_rfl), hw]
    · have hnot : ¬ word ++ [q] <+: b :: (pre ++ q :: rest) := fun hp => hw (hat.mp hp)
      rw [List.cons_append, strstr_cons hnot,
        ih (List.ne_and_not_mem_of_not_mem_cons hpre).2]
      refine if_congr ?_ rfl rfl
      rw [List.suffix_cons_iff]
      exact ⟨.inr, fun h => h.resolve_left hw⟩

/-! ### The first occurrence -/

theorem strstr_none {s word : List α} : strstr s word = none ↔ ¬ word <:+: s := by
  rw [← strstr_isSome, Option.not_isSome_iff_eq_none]

theorem strstr_append {s word t : List α} (h : strstr s word = some t) (rest : List α) :
    strstr (s ++ rest) word = some (t ++ rest) := by
  induction s with
  | nil =>
    rw [strstr] at h
    split at h
    · next hw =>
      cases h
      rw [hw]
      exact strstr_here List.nil_prefix
    · cases h
  | cons b s ih =>
    by_cases hp : word <+: b :: s
    · rw [strstr_here hp, Option.some.injEq] at h
      rw [← h]
      exact strstr_here (hp.trans (List.prefix_append _ _))
    · rw [strstr_cons hp] at h
      have hlen : word.length ≤ (b :: s).length :=
        ((strstr_starts h).length_le.trans (strstr_suffix h).length_le).trans (Nat.le_succ _)
      have hnot : ¬ word <+: b :: (s ++ rest) := fun hw =>
        hp (List.prefix_of_prefix_length_le hw (List.prefix_append (b :: s) rest) hlen)
      rw [List.cons_append, strstr_cons hnot, ih h]

theorem strstr_first {word : List α} (hne : word ≠ []) : ∀ {pre : List α} (rest : List α),
    ¬ word <:+: (pre ++ word).dropLast → strstr (pre ++ (word ++ rest)) word = some (word ++ rest) := by
  intro pre
  induction pre with
  | nil => intro rest _; exact strstr_here (List.prefix_append _ _)
  | cons b pre ih =>
    intro rest h
    have hcons : (b :: pre ++ word).dropLast = b :: (pre ++ word).dropLast :=
      List.dropLast_cons_of_ne_nil (List.append_ne_nil_of_right_ne_nil pre hne)
    rw [hcons, List.infix_cons_iff, not_or] at h
    have hnot : ¬ word <+: b :: (pre ++ (word ++ rest)) := by
      intro hw
      have hfront : b :: (pre ++ word).dropLast <+: b :: (pre ++ (word ++ rest)) := by
        rw [← List.append_assoc]
        exact List.cons_prefix_cons.mpr ⟨rfl, (List.dropLast_prefix _).trans (List.prefix_append _ _)⟩
      refine h.1 (List.prefix_of_prefix_length_le hw hfront ?_)
      rw [List.length_cons, List.length_dropLast, List.length_append]
      omega
    rw [List.cons_append, strstr_cons hnot]
    exact ih rest h.2

theorem strstr_least {s word t u : List α} (h : strstr s word = some t) (hu : u <:+ s)
    (hword : word <+: u) : u <:+ t := by
  induction s with
  | nil =>
    rw [List.suffix_nil.mp hu]
    exact List.nil_suffix
  | cons b s ih =>
    by_cases hp : word <+: b :: s
    · rw [strstr_here hp, Option.some.injEq] at h
      exact h ▸ hu
    · rw [strstr_cons hp] at h
      rcases List.suffix_cons_iff.mp hu with rfl | hs
      · exact absurd hword hp
      · exact ih h hs

/-- What stands behind an occurrence of a word without `q` does not stand behind a `q`. -/
theorem strstr_drop_ne {q : α} {word pre rest t : List α} (h : strstr (pre ++ q :: rest) word = some t)
    (hne : word ≠ []) (hq : q ∉ word) : t.drop word.length ≠ rest := by
  rintro hrest
  obtain ⟨p, hp⟩ := strstr_starts h
  rw [← hp, List.drop_left] at hrest
  obtain ⟨a, ha⟩ := strstr_suffix h
  rw [← hp, hrest, ← List.append_assoc, ← List.singleton_append, ← List.append_assoc] at ha
  have hends := List.append_cancel_right ha
  obtain ⟨word', x, rfl⟩ := List.eq_nil_or_concat word |>.resolve_left hne
  rw [List.concat_eq_append, ← List.append_assoc] at hends
  have hx : x = q := by simpa using (List.append_inj' hends rfl).2
  rw [hx] at hq
  simp at hq

omit [DecidableEq α] in
theorem infix_append_of_not_mem {q : α} {word pre front : List α} (h : q ∉ front) :
    word ++ [q] <:+: pre ++ front ↔ word ++ [q] <:+: pre := by
  refine ⟨fun hw => ?_, fun hw => hw.trans (List.prefix_append _ _).isInfix⟩
  obtain ⟨a, b, hab⟩ := hw
  rcases List.append_eq_append_iff.mp hab with ⟨c, hpre, _⟩ | ⟨c, hword, hfront⟩
  · exact ⟨a, c, hpre.symm⟩
  · rcases List.eq_nil_or_concat c with rfl | ⟨c, x, rfl⟩
    · rw [List.append_nil] at hword
      exact ⟨a, [], by rw [List.append_nil, hword]⟩
    · rw [List.concat_eq_append, ← List.append_assoc, ← List.append_assoc] at hword
      have hx : q = x := by simpa using (List.append_inj' hword rfl).2
      rw [hfront, hx] at h
      simp at h

/-- **An occurrence is found** behind a text exactly if there is none in the text; what stands
between the two has no end of the word. -/
theorem strstr_own {q : α} {word pre front : List α} (hfront : q ∉ front) (hsuffix : word <:+ front)
    (rest : List α) : strstr (pre ++ (front ++ q :: rest)) (word ++ [q]) = some (word ++ q :: rest) ↔
      ¬ word ++ [q] <:+: pre := by
  obtain ⟨gap, rfl⟩ := hsuffix
  constructor
  · intro hfind hw
    obtain ⟨t, ht⟩ := Option.isSome_iff_exists.mp (strstr_isSome.mpr hw)
    have hlen := (strstr_starts ht).length_le
    rw [strstr_append ht, Option.some.injEq] at hfind
    have := congrArg List.length hfind
    simp only [List.length_append, List.length_cons, List.length_nil] at this hlen
    omega
  · intro hclear
    have hne : word ++ [q] ≠ [] := List.append_ne_nil_of_right_ne_nil _ (List.cons_ne_nil _ _)
    have hsplit : pre ++ (gap ++ word ++ q :: rest) = pre ++ gap ++ (word ++ [q] ++ rest) := by simp
    rw [hsplit, strstr_first hne, List.append_assoc, List.singleton_append]
    have hdrop : (pre ++ gap ++ (word ++ [q])).dropLast = pre ++ (gap ++ word) := by
      rw [← List.append_assoc, List.dropLast_concat, List.append_assoc]
    rw [hdrop, infix_append_of_not_mem hfront]
    exact hclear

end CText
