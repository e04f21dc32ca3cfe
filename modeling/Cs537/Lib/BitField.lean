/-
# `Cs537.Lib.BitField` — fields of a bit vector

A byte buffer of `n` bytes is a bit vector of `8 * n` bits, byte `i` being
bits `8 * i` to `8 * i + 7`.  On a little-endian machine every view of the
buffer is then a field: a byte, a 16-bit or 32-bit word at an aligned offset,
one bit of a bitmap, the whole record at an offset.

`field x s w` reads the `w` bits from bit `s`, `setField x s v` replaces
them.  The three rules are the usual ones of a store: a read of what was
written, a read past what was written, and the bit-level meaning of a write,
from which the two follow.
-/
import Mathlib.Algebra.Order.Ring.Nat
import Mathlib.Data.BitVec

namespace Cs537.Lib.BitField

variable {n : Nat}

/-- The `w` bits of `x` from bit `s`. -/
def field (x : BitVec n) (s w : Nat) : BitVec w := x.extractLsb' s w

/-- `x` with the `w` bits from bit `s` replaced by `v`. -/
def setField {w : Nat} (x : BitVec n) (s : Nat) (v : BitVec w) : BitVec n :=
  (x &&& ~~~ ((BitVec.allOnes w).setWidth n <<< s)) ||| (v.setWidth n <<< s)

@[simp] theorem getLsbD_field (x : BitVec n) (s w i : Nat) :
    (field x s w).getLsbD i = (decide (i < w) && x.getLsbD (s + i)) := by
  simp [field, BitVec.getLsbD_extractLsb']

theorem getLsbD_setField {w : Nat} (x : BitVec n) (s : Nat) (v : BitVec w)
    (h : s + w ≤ n) (i : Nat) :
    (setField x s v).getLsbD i =
      if s ≤ i ∧ i < s + w then v.getLsbD (i - s) else x.getLsbD i := by
  simp only [setField, BitVec.getLsbD_or, BitVec.getLsbD_and, BitVec.getLsbD_not,
    BitVec.getLsbD_shiftLeft, BitVec.getLsbD_setWidth, BitVec.getLsbD_allOnes]
  by_cases hin : i < n
  · by_cases hlo : s ≤ i
    · by_cases hhi : i < s + w
      · have h1 : i - s < w := by omega
        have h2 : i - s < n := by omega
        simp [hin, hlo, hhi, h1, h2, Nat.not_lt.mpr hlo]
      · have h1 : ¬ i - s < w := by omega
        have h2 : v.getLsbD (i - s) = false := BitVec.getLsbD_of_ge _ _ (by omega)
        simp [hin, hhi, h1, h2]
    · simp [hin, hlo, Nat.lt_of_not_le hlo]
  · have h1 : x.getLsbD i = false := BitVec.getLsbD_of_ge _ _ (by omega)
    have h2 : ¬ (s ≤ i ∧ i < s + w) := by omega
    simp [hin, h1, h2]

/-! ## The store rules -/

theorem field_setField_same {w : Nat} (x : BitVec n) (s : Nat) (v : BitVec w)
    (h : s + w ≤ n) : field (setField x s v) s w = v := by
  apply BitVec.eq_of_getLsbD_eq
  intro i hi
  rw [getLsbD_field, getLsbD_setField x s v h]
  have h1 : s ≤ s + i ∧ s + i < s + w := by omega
  simp [hi, h1.2]

theorem field_setField_apart {w : Nat} (x : BitVec n) (s t u : Nat) (v : BitVec w)
    (h : s + w ≤ n) (hapart : t + u ≤ s ∨ s + w ≤ t) :
    field (setField x s v) t u = field x t u := by
  apply BitVec.eq_of_getLsbD_eq
  intro i hi
  rw [getLsbD_field, getLsbD_field, getLsbD_setField x s v h]
  have h1 : ¬ (s ≤ t + i ∧ t + i < s + w) := by omega
  simp only [h1, if_false]

@[simp] theorem field_zero (s w : Nat) : field (0#n) s w = 0#w := by
  apply BitVec.eq_of_getLsbD_eq
  intro i hi
  simp

end Cs537.Lib.BitField
