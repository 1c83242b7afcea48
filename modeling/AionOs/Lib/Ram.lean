import Mathlib.Data.List.Basic

/-!
# Bytes at addresses

A memory gives each address its cell.  A run of cells is copied to an address and read from one.

* `read_copy`: what was copied is read.
* `read_copy_apart`, `read_poke`: cells elsewhere are kept.
* `Holds`: blocks cut off one after another, some of them filled once for all and the others free to
  be written; `Holds.fill`, `Holds.give` and `Holds.poke` are the three things that can be done.
-/

namespace Ram

universe u

variable {β : Type u}

def read (ram : Nat → β) (p n : Nat) : List β := (List.range n).map fun i => ram (p + i)

def copy (ram : Nat → β) (p : Nat) (cells : List β) : Nat → β := fun a =>
  if p ≤ a then (cells[a - p]?).getD (ram a) else ram a

def poke (ram : Nat → β) (a : Nat) (b : β) : Nat → β := fun c => if c = a then b else ram c

@[simp] theorem length_read (ram : Nat → β) (p n : Nat) : (read ram p n).length = n := by simp [read]

theorem read_congr {ram ram' : Nat → β} {p n : Nat} (h : ∀ a, p ≤ a → a < p + n → ram a = ram' a) :
    read ram p n = read ram' p n := by
  refine List.map_congr_left fun i hi => ?_
  have hlt := List.mem_range.mp hi
  exact h (p + i) (by omega) (by omega)

theorem take_read (ram : Nat → β) (p : Nat) {n m : Nat} (h : n ≤ m) :
    (read ram p m).take n = read ram p n := by
  rw [read, ← List.map_take, List.take_range, Nat.min_eq_left h]
  rfl

/-- **What was copied is read.** -/
theorem read_copy (ram : Nat → β) (p : Nat) (cells : List β) :
    read (copy ram p cells) p cells.length = cells := by
  refine List.ext_getElem (length_read _ _ _) fun i _ hi => ?_
  simp [read, copy, hi]

theorem copy_apart (ram : Nat → β) {p a : Nat} {cells : List β} (h : a < p ∨ p + cells.length ≤ a) :
    copy ram p cells a = ram a := by
  rw [copy]
  rcases h with hlow | hhigh
  · exact if_neg (by omega)
  · rw [if_pos (by omega), List.getElem?_eq_none (by omega)]
    rfl

theorem read_copy_apart (ram : Nat → β) {p q n : Nat} {cells : List β} (h : q + n ≤ p) :
    read (copy ram p cells) q n = read ram q n :=
  read_congr fun _ _ hlt => copy_apart ram (.inl (by omega))

theorem read_poke (ram : Nat → β) {a q n : Nat} {b : β} (h : a < q ∨ q + n ≤ a) :
    read (poke ram a b) q n = read ram q n :=
  read_congr fun _ _ hlt => if_neg (by omega)

/-! ### Blocks -/

/-- Between `lo` and `ptr` lie the filled blocks, which hold their cells, and apart from them the
other ones, each as start and size. -/
structure Holds (lo ptr : Nat) (filled : List (Nat × List β)) (others : List (Nat × Nat)) (ram : Nat → β) :
    Prop where
  start : lo ≤ ptr
  inside : ∀ o ∈ filled, lo ≤ o.1 ∧ o.1 + o.2.length ≤ ptr
  below : ∀ b ∈ others, b.1 + b.2 ≤ ptr
  apart : ∀ o ∈ filled, ∀ b ∈ others, o.1 + o.2.length ≤ b.1 ∨ b.1 + b.2 ≤ o.1
  cells : ∀ o ∈ filled, read ram o.1 o.2.length = o.2

variable {lo ptr : Nat} {filled : List (Nat × List β)} {others : List (Nat × Nat)} {ram : Nat → β}

theorem holds_start (ptr : Nat) (ram : Nat → β) : Holds ptr ptr [] [] ram where
  start := Nat.le_refl ptr
  inside _ h := nomatch h
  below _ h := nomatch h
  apart _ h := nomatch h
  cells _ h := nomatch h

theorem Holds.fill (h : Holds lo ptr filled others ram) {cells : List β} {n : Nat} (hn : cells.length ≤ n) :
    Holds lo (ptr + n) ((ptr, cells) :: filled) others (copy ram ptr cells) where
  start := Nat.le_trans h.start (Nat.le_add_right _ _)
  inside o ho := by
    rcases List.mem_cons.mp ho with rfl | ho
    · exact ⟨h.start, Nat.add_le_add_left hn ptr⟩
    · exact ⟨(h.inside o ho).1, Nat.le_trans (h.inside o ho).2 (Nat.le_add_right _ _)⟩
  below b hb := Nat.le_trans (h.below b hb) (Nat.le_add_right _ _)
  apart o ho b hb := by
    rcases List.mem_cons.mp ho with rfl | ho
    · exact .inr (h.below b hb)
    · exact h.apart o ho b hb
  cells o ho := by
    rcases List.mem_cons.mp ho with rfl | ho
    · exact read_copy ram ptr cells
    · exact (read_copy_apart ram (h.inside o ho).2).trans (h.cells o ho)

theorem Holds.give (h : Holds lo ptr filled others ram) {k n : Nat} (hn : k ≤ n) :
    Holds lo (ptr + n) filled ((ptr, k) :: others) ram where
  start := Nat.le_trans h.start (Nat.le_add_right _ _)
  inside o ho := ⟨(h.inside o ho).1, Nat.le_trans (h.inside o ho).2 (Nat.le_add_right _ _)⟩
  below b hb := by
    rcases List.mem_cons.mp hb with rfl | hb
    · exact Nat.add_le_add_left hn ptr
    · exact Nat.le_trans (h.below b hb) (Nat.le_add_right _ _)
  apart o ho b hb := by
    rcases List.mem_cons.mp hb with rfl | hb
    · exact .inl (h.inside o ho).2
    · exact h.apart o ho b hb
  cells := h.cells

/-- **A cell is written** in a block that was given away, or outside all that was cut off. -/
theorem Holds.poke (h : Holds lo ptr filled others ram) {a : Nat}
    (ha : (∃ b ∈ others, b.1 ≤ a ∧ a < b.1 + b.2) ∨ a < lo ∨ ptr ≤ a) (b : β) :
    Holds lo ptr filled others (poke ram a b) where
  start := h.start
  inside := h.inside
  below := h.below
  apart := h.apart
  cells o ho := by
    refine (read_poke ram ?_).trans (h.cells o ho)
    obtain ⟨hlow, hhigh⟩ := h.inside o ho
    rcases ha with ⟨c, hc, hle, hlt⟩ | ha
    · rcases h.apart o ho c hc with hleft | hright
      · exact .inr (by omega)
      · exact .inl (by omega)
    · rcases ha with ha | ha
      · exact .inl (by omega)
      · exact .inr (by omega)

theorem Holds.cell (h : Holds lo ptr filled others ram) {p n : Nat} {b : β} (hp : (p, List.replicate n b) ∈ filled)
    {i : Nat} (hi : i < n) : ram (p + i) = b := by
  have hcells := congrArg (fun cells => cells[i]?) (h.cells _ hp)
  simpa [read, hi] using hcells

end Ram
