import Mathlib.Data.List.Nodup

/-!
# Named files

A `FileStore` reads back the last contents written under a name.  `applyAll` is a list of
writes in order; a power cut leaves the disk after some first part of it.

* `read_applyAll_of_notMem`, `read_applyAll_of_mem`: what a list of writes leaves.
* `Commit`: a list of writes whose last one switches from one value to the next;
  `Commit.cut` says what a cut leaves.
-/

universe u v w

/-- Files under names: a write changes the one name. -/
structure FileStore (σ : Type u) (κ : Type v) (β : Type w) [DecidableEq κ] where
  read : σ → κ → Option β
  write : σ → κ → β → σ
  read_write : ∀ s k b k', read (write s k b) k' = if k' = k then some b else read s k'

namespace FileStore

variable {σ : Type u} {κ : Type v} {β : Type w} [DecidableEq κ]

def ofFun (κ : Type v) (β : Type w) [DecidableEq κ] : FileStore (κ → Option β) κ β where
  read s k := s k
  write s k b := fun k' => if k' = k then some b else s k'
  read_write _ _ _ _ := rfl

@[simp] theorem ofFun_read (s : κ → Option β) (k : κ) : (ofFun κ β).read s k = s k := rfl

variable (fs : FileStore σ κ β)

def applyAll (s : σ) (ws : List (κ × β)) : σ := ws.foldl (fun s w => fs.write s w.1 w.2) s

@[simp] theorem applyAll_cons (s : σ) (w : κ × β) (ws : List (κ × β)) :
    fs.applyAll s (w :: ws) = fs.applyAll (fs.write s w.1 w.2) ws := rfl

theorem read_applyAll_of_notMem {k : κ} : ∀ (ws : List (κ × β)) (s : σ), k ∉ ws.map Prod.fst →
    fs.read (fs.applyAll s ws) k = fs.read s k := by
  intro ws
  induction ws with
  | nil => intro s _; rfl
  | cons w ws ih =>
    intro s h
    rw [List.map_cons, List.mem_cons, not_or] at h
    rw [applyAll_cons, ih _ h.2, fs.read_write, if_neg h.1]

theorem read_applyAll_of_mem {k : κ} {b : β} : ∀ (ws : List (κ × β)) (s : σ),
    (ws.map Prod.fst).Nodup → (k, b) ∈ ws → fs.read (fs.applyAll s ws) k = some b := by
  intro ws
  induction ws with
  | nil => intro s _ h; cases h
  | cons w ws ih =>
    intro s hn h
    rw [List.map_cons, List.nodup_cons] at hn
    rw [applyAll_cons]
    rcases List.mem_cons.mp h with rfl | h
    · rw [fs.read_applyAll_of_notMem ws _ hn.1, fs.read_write, if_pos rfl]
    · exact ih _ hn.2 h

theorem read_applyAll_cases (k : κ) : ∀ (ws : List (κ × β)) (s : σ),
    fs.read (fs.applyAll s ws) k = fs.read s k ∨
      ∃ b, (k, b) ∈ ws ∧ fs.read (fs.applyAll s ws) k = some b := by
  intro ws
  induction ws with
  | nil => intro s; exact .inl rfl
  | cons w ws ih =>
    intro s
    rw [applyAll_cons]
    rcases ih (fs.write s w.1 w.2) with h | ⟨b, hb, h⟩
    · rw [h, fs.read_write]
      by_cases hk : k = w.1
      · rw [if_pos hk]
        exact .inr ⟨w.2, hk ▸ List.mem_cons_self, rfl⟩
      · exact .inl (if_neg hk)
    · exact .inr ⟨b, List.mem_cons_of_mem w hb, h⟩

/-! ### Commits -/

variable {α : Type*} (holds : σ → α → Prop)

/-- Writes that take the disk from `a` to `b` at the last of them: the writes before it
are not seen through `holds`. -/
structure Commit (s : σ) (a b : α) (body : List (κ × β)) (last : κ × β) : Prop where
  hidden : ∀ ws, ws <+: body → holds (fs.applyAll s ws) a
  done : holds (fs.applyAll s (body ++ [last])) b

variable {fs holds}

/-- **A power cut leaves the old value or the new one**: the new one exactly when the last
write was made. -/
theorem Commit.cut {s : σ} {a b : α} {body : List (κ × β)} {last : κ × β}
    (h : fs.Commit holds s a b body last) (k : Nat) :
    holds (fs.applyAll s ((body ++ [last]).take k)) (if body.length < k then b else a) := by
  by_cases hk : body.length < k
  · rw [if_pos hk, List.take_of_length_le (by rw [List.length_append, List.length_singleton]; omega)]
    exact h.done
  · rw [if_neg hk, List.take_append_of_le_length (by omega)]
    exact h.hidden _ (List.take_prefix k body)

end FileStore
