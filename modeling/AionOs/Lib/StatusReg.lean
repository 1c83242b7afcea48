import Mathlib.Data.Nat.Basic

/-!
# Registers with bits that a one clears

A register of a device has bits that keep what is written, bits that a written one clears, and bits
that do not change.

* `getLsbD_write`: what a write does to each bit.
* `getLsbD_writeBack`: what is left when a register is read and written back with more bits set.
-/

namespace StatusReg

variable {w : Nat}

/-- The bits that keep what is written, and those that a one clears. -/
structure Kinds (w : Nat) where
  plain : BitVec w
  once : BitVec w
  apart : plain &&& once = 0

def Kinds.write (k : Kinds w) (old v : BitVec w) : BitVec w :=
  (old &&& ~~~(k.plain ||| k.once)) ||| (v &&& k.plain) ||| (old &&& ~~~v &&& k.once)

theorem Kinds.not_both (k : Kinds w) (i : Nat) : (k.plain.getLsbD i && k.once.getLsbD i) = false := by
  rw [← BitVec.getLsbD_and, k.apart]
  exact BitVec.getLsbD_zero

/-- **What a write does to each bit.** -/
theorem getLsbD_write (k : Kinds w) (old v : BitVec w) {i : Nat} (hi : i < w) :
    (k.write old v).getLsbD i =
      if k.plain.getLsbD i then v.getLsbD i
      else if k.once.getLsbD i then old.getLsbD i && !v.getLsbD i
      else old.getLsbD i := by
  have hboth := k.not_both i
  rw [Kinds.write]
  simp only [BitVec.getLsbD_or, BitVec.getLsbD_and, BitVec.getLsbD_not, hi, decide_true, Bool.true_and]
  cases hplain : k.plain.getLsbD i with
  | true =>
    rw [hplain, Bool.true_and] at hboth
    simp [hboth]
  | false => cases k.once.getLsbD i <;> simp

/-- **A register that is written back** with some more bits set: they are set where they are plain, and
every bit that a one clears is clear. -/
theorem getLsbD_writeBack (k : Kinds w) (old more : BitVec w) {i : Nat} (hi : i < w) :
    (k.write old (old ||| more)).getLsbD i =
      if k.once.getLsbD i then false
      else old.getLsbD i || (k.plain.getLsbD i && more.getLsbD i) := by
  have hboth := k.not_both i
  rw [getLsbD_write k old _ hi, BitVec.getLsbD_or]
  cases hplain : k.plain.getLsbD i with
  | true =>
    rw [hplain, Bool.true_and] at hboth
    simp [hboth]
  | false => cases k.once.getLsbD i <;> cases old.getLsbD i <;> simp

end StatusReg
