import AionOs.Lib.Machine
import Mathlib.Logic.Function.Basic

/-!
# A translation cache beside a program that changes the translations

The hardware fills its cache from the memory and drops entries whenever it likes, between any
two stores of the program.  A program is `Covered` if it flushes, after each of its stores, the
keys whose translations the store has changed.

* `coherent_step`: while programs are covered, a cached translation is the one in memory, or it is
  about to be flushed.
-/

namespace Tlb

universe u v w

variable {τ : Type u} {κ : Type v} {ε : Type w}

/-- A store that leaves the memory `t`, or a flush of a key. -/
inductive Micro (τ : Type u) (κ : Type v) where
  | store (t : τ)
  | flush (k : κ)

structure State (τ : Type u) (κ : Type v) (ε : Type w) where
  mem : τ
  cached : κ → Option ε
  todo : List (Micro τ κ)

inductive Event (τ : Type u) (κ : Type v) where
  | fill (k : κ)
  | drop (k : κ)
  | cpu
  | start (program : List (Micro τ κ))

variable (look : τ → κ → Option ε)

/-- Only translations that are there are cached. -/
def State.step [DecidableEq κ] (s : State τ κ ε) : Event τ κ → State τ κ ε
  | .fill k => if (look s.mem k).isSome then { s with cached := Function.update s.cached k (look s.mem k) } else s
  | .drop k => { s with cached := Function.update s.cached k none }
  | .cpu =>
    match s.todo with
    | [] => s
    | .store t :: todo => { s with mem := t, todo := todo }
    | .flush k :: todo => { s with cached := Function.update s.cached k none, todo := todo }
  | .start program => { s with todo := program }

/-- Every key whose translation a store changes is flushed later. -/
def Covered : τ → List (Micro τ κ) → Prop
  | _, [] => True
  | t, .store t' :: program => (∀ k, look t' k = look t k ∨ .flush k ∈ program) ∧ Covered t' program
  | t, .flush _ :: program => Covered t program

def final : τ → List (Micro τ κ) → τ
  | t, [] => t
  | _, .store t :: program => final t program
  | t, .flush _ :: program => final t program

theorem covered_append {look : τ → κ → Option ε} {t : τ} {p q : List (Micro τ κ)}
    (hp : ∀ m ∈ p, ∃ t', m = .store t' ∧ ∀ k, look t' k = look t k) (hq : ∀ t', (∀ k, look t' k = look t k) →
      Covered look t' q) : Covered look t (p ++ q) := by
  induction p generalizing t with
  | nil => exact hq t fun _ => rfl
  | cons m p ih =>
    obtain ⟨t', rfl, hsame⟩ := hp m List.mem_cons_self
    refine ⟨fun k => .inl (hsame k), ih (fun m hm => ?_) fun t'' h => hq t'' fun k => (h k).trans (hsame k)⟩
    obtain ⟨t'', heq, h⟩ := hp m (List.mem_cons_of_mem _ hm)
    exact ⟨t'', heq, fun k => (h k).trans (hsame k).symm⟩

theorem final_append (t : τ) (p q : List (Micro τ κ)) : final t (p ++ q) = final (final t p) q := by
  induction p generalizing t with
  | nil => rfl
  | cons m p ih =>
    cases m with
    | store t' => exact ih t'
    | flush k => exact ih t

/-- **A cached translation** is the one in memory, or it is about to be flushed. -/
structure Coherent (s : State τ κ ε) : Prop where
  cached : ∀ k e, s.cached k = some e → look s.mem k = some e ∨ .flush k ∈ s.todo
  covered : Covered look s.mem s.todo

def machine [DecidableEq κ] : Machine (State τ κ ε) (Event τ κ) where
  step := State.step look
  legal s
    | .start program => s.todo = [] ∧ Covered look s.mem program
    | _ => True

variable {look} [DecidableEq κ]

theorem step_fill (s : State τ κ ε) (k : κ) :
    (s.step look (.fill k)).mem = s.mem ∧ (s.step look (.fill k)).todo = s.todo := by
  unfold State.step
  dsimp only
  split <;> exact ⟨rfl, rfl⟩

/-- **Every step keeps the cache coherent.** -/
theorem coherent_step {s : State τ κ ε} (h : Coherent look s) (e : Event τ κ) (hl : (machine look).legal s e) :
    Coherent look ((machine look).step s e) := by
  obtain ⟨hcached, hcovered⟩ := h
  cases e with
  | fill k =>
    show Coherent look (if _ then _ else _)
    split
    · refine ⟨fun j e he => ?_, hcovered⟩
      by_cases hj : j = k
      · subst hj
        exact .inl (by simpa only [Function.update_self] using he)
      · refine hcached j e ?_
        simpa only [Function.update_of_ne hj] using he
    · exact ⟨hcached, hcovered⟩
  | drop k =>
    refine ⟨fun j e he => ?_, hcovered⟩
    by_cases hj : j = k
    · subst hj
      simp [machine, State.step] at he
    · refine hcached j e ?_
      simpa only [machine, State.step, Function.update_of_ne hj] using he
  | cpu =>
    show Coherent look (match s.todo with | [] => s | .store t :: todo => _ | .flush k :: todo => _)
    cases htodo : s.todo with
    | nil => exact ⟨hcached, hcovered⟩
    | cons m todo =>
      rw [htodo] at hcached hcovered
      cases m with
      | store t =>
        refine ⟨fun j e he => ?_, hcovered.2⟩
        rcases hcached j e he with hlook | hflush
        · rcases hcovered.1 j with hsame | hlater
          · exact .inl (hsame.trans hlook)
          · exact .inr hlater
        · exact .inr ((List.mem_cons.mp hflush).resolve_left (by simp))
      | flush k =>
        refine ⟨fun j e he => ?_, hcovered⟩
        by_cases hj : j = k
        · subst hj
          simp at he
        · simp only [Function.update_of_ne hj] at he
          rcases hcached j e he with hlook | hflush
          · exact .inl hlook
          · refine .inr ((List.mem_cons.mp hflush).resolve_left fun heq => hj ?_)
            injection heq
  | start program =>
    obtain ⟨hnone, hprogram⟩ := hl
    refine ⟨fun j e he => ?_, hprogram⟩
    rcases hcached j e he with hlook | hflush
    · exact .inl hlook
    · rw [hnone] at hflush
      cases hflush

omit [DecidableEq κ] in
theorem coherent_start (t : τ) : Coherent look ⟨t, fun _ => none, []⟩ where
  cached _ _ h := by cases h
  covered := trivial

end Tlb
