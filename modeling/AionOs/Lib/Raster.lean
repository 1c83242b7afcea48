import Mathlib.Order.Basic

/-!
# Rasters

Cells of `size` bytes in rows that are `pitch` bytes apart, and stores one after another.

* `cell_inside`, `cell_unique`: no cell leaves the raster, and two cells share no byte.
* `read_stores`: what is read is what was stored last.
-/

universe u v w

namespace Raster

/-! ### Cells -/

section Cells

variable {size pitch width height : Nat}

theorem cell_in_row {x : Nat} (hwide : size * width ≤ pitch) (hx : x < width) :
    size * x + size ≤ pitch :=
  calc size * x + size = size * (x + 1) := (Nat.mul_succ size x).symm
    _ ≤ size * width := Nat.mul_le_mul_left size hx
    _ ≤ pitch := hwide

theorem cell_inside {x y : Nat} (hwide : size * width ≤ pitch) (hx : x < width) (hy : y < height) :
    y * pitch + (size * x + size) ≤ height * pitch :=
  calc y * pitch + (size * x + size) ≤ y * pitch + pitch :=
        Nat.add_le_add_left (cell_in_row hwide hx) (y * pitch)
    _ = (y + 1) * pitch := (Nat.succ_mul y pitch).symm
    _ ≤ height * pitch := Nat.mul_le_mul_right pitch hy

theorem row_of_offset {n row o : Nat} (ho : o < n) : (row * n + o) / n = row := by
  rw [Nat.add_comm, Nat.add_mul_div_right o row (Nat.zero_lt_of_lt ho), Nat.div_eq_of_lt ho, Nat.zero_add]

theorem row_offset_unique {n row row' o o' : Nat} (ho : o < n) (ho' : o' < n)
    (h : row * n + o = row' * n + o') : row = row' ∧ o = o' := by
  have hrow : row = row' :=
    calc row = (row * n + o) / n := (row_of_offset ho).symm
      _ = (row' * n + o') / n := congrArg (· / n) h
      _ = row' := row_of_offset ho'
  subst hrow
  exact ⟨rfl, Nat.add_left_cancel h⟩

/-- **A byte belongs to one cell.** -/
theorem cell_unique {x y x' y' i i' : Nat} (hwide : size * width ≤ pitch) (hx : x < width)
    (hx' : x' < width) (hi : i < size) (hi' : i' < size)
    (h : y * pitch + (size * x + i) = y' * pitch + (size * x' + i')) : x = x' ∧ y = y' := by
  have hend := cell_in_row hwide hx
  have hend' := cell_in_row hwide hx'
  obtain ⟨hrow, hoffset⟩ := row_offset_unique (by omega) (by omega) h
  rw [Nat.mul_comm size x, Nat.mul_comm size x'] at hoffset
  exact ⟨(row_offset_unique hi hi' hoffset).1, hrow⟩

end Cells

/-! ### Stores -/

section Stores

variable {σ : Type u} {κ : Type v} {ν : Type w} [DecidableEq κ]

def lastAt (k : κ) : List (κ × ν) → Option ν
  | [] => none
  | s :: stores => (lastAt k stores).or (if s.1 = k then some s.2 else none)

/-- **What is read is what was stored last**, or what was there before. -/
theorem read_stores (read : σ → ν) {store : σ → κ × ν → σ} {k : κ}
    (hstore : ∀ m s, read (store m s) = if s.1 = k then s.2 else read m) :
    ∀ (stores : List (κ × ν)) (m : σ),
      read (stores.foldl store m) = (lastAt k stores).getD (read m) := by
  intro stores
  induction stores with
  | nil => intro m; rfl
  | cons s stores ih =>
    intro m
    rw [List.foldl_cons, ih, hstore, lastAt]
    cases lastAt k stores with
    | some v => rfl
    | none => split <;> rfl

end Stores

end Raster
