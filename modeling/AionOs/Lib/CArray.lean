import Mathlib.Data.List.Infix

/-!
# C arrays

An array of a fixed number of elements.  Indices and counts are integers, as C computes
them, and a copy that is not inside the array fails.

* `take_put`, `store_front`: an array that is filled from the front.
* `load_front`: a copy of the last elements of what is in front.
-/

universe u

structure CArray (α : Type u) (n : Nat) where
  cells : List α
  length_eq : cells.length = n

namespace CArray

variable {α : Type u} {n : Nat}

def fill (n : Nat) (x : α) : CArray α n := ⟨List.replicate n x, List.length_replicate⟩

def front (a : CArray α n) (len : Int) : List α := a.cells.take len.toNat

def load (a : CArray α n) (i count : Int) : Option (List α) :=
  if 0 ≤ i ∧ 0 ≤ count ∧ i + count ≤ n then some ((a.cells.drop i.toNat).take count.toNat) else none

def put (a : CArray α n) (i : Nat) (src : List α) (h : i + src.length ≤ n) : CArray α n where
  cells := a.cells.take i ++ (src ++ a.cells.drop (i + src.length))
  length_eq := by
    have := a.length_eq
    rw [List.length_append, List.length_append, List.length_take, List.length_drop]
    omega

def store (a : CArray α n) (i : Int) (src : List α) : Option (CArray α n) :=
  if h : 0 ≤ i ∧ i + src.length ≤ n then some (a.put i.toNat src (by omega)) else none

theorem length_front (a : CArray α n) {len : Int} (h : len ≤ n) : (a.front len).length = len.toNat := by
  have := a.length_eq
  rw [front, List.length_take]
  omega

theorem store_nat (a : CArray α n) {i : Nat} {src : List α} (h : i + src.length ≤ n) :
    a.store i src = some (a.put i src h) := dif_pos ⟨Int.natCast_nonneg i, by omega⟩

theorem store_eq_none (a : CArray α n) {i : Nat} {src : List α} (h : n < i + src.length) :
    a.store i src = none := dif_neg fun hin => by omega

theorem take_put (a : CArray α n) {i : Nat} {src : List α} (h : i + src.length ≤ n) :
    (a.put i src h).cells.take (i + src.length) = a.cells.take i ++ src := by
  have hlen : (a.cells.take i ++ src).length = i + src.length := by
    rw [List.length_append, List.length_take, a.length_eq]
    omega
  show (a.cells.take i ++ (src ++ a.cells.drop (i + src.length))).take _ = _
  rw [← List.append_assoc, ← hlen, List.take_left]

theorem mem_put (a : CArray α n) {i : Nat} {src : List α} (h : i + src.length ≤ n) {x : α} (hx : x ∈ src) :
    x ∈ (a.put i src h).cells :=
  List.mem_append_right _ (List.mem_append_left _ hx)

/-- **A copy to the end of what is in front.** -/
theorem store_front (a : CArray α n) {len : Int} {src : List α} (h0 : 0 ≤ len) (h : len + src.length ≤ n) :
    ∃ b, a.store len src = some b ∧ b.front (len + src.length) = a.front len ++ src := by
  refine ⟨a.put len.toNat src (by omega), dif_pos ⟨h0, h⟩, ?_⟩
  rw [front, front, show (len + src.length).toNat = len.toNat + src.length by omega, a.take_put (by omega)]

/-- **A copy to the start.** -/
theorem store_zero (a : CArray α n) {src : List α} (h : src.length ≤ n) :
    ∃ b, a.store 0 src = some b ∧ b.front src.length = src := by
  obtain ⟨b, hb, hfront⟩ := @store_front _ _ a 0 src (Int.le_refl 0) (by omega)
  have hnil : a.front 0 = [] := List.take_zero
  refine ⟨b, hb, ?_⟩
  rwa [Int.zero_add, hnil, List.nil_append] at hfront

/-- **A copy of the last `count` elements in front.** -/
theorem load_front (a : CArray α n) {len count : Int} (hc : 0 ≤ count) (h : count ≤ len) (hlen : len ≤ n) :
    a.load (len - count) count = some ((a.front len).drop (len - count).toNat) := by
  have hcount : len.toNat - (len - count).toNat = count.toNat := by omega
  rw [load, if_pos ⟨by omega, hc, by omega⟩, front, List.drop_take, hcount]

end CArray
