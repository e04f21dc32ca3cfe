/-
# `Cs537.Lib.Xor` — sums by exclusive or

`xorSum l` is the exclusive or of the bit vectors in a list, as a checksum loop
computes it (`foldl_xor`).  It is additive (`xorSum_append`, `xorSum_map_xor`),
zeros do not count (`xorSum_map_filter`), and one element that changes changes
it (`xorSum_map_ne`).
-/
import Mathlib.Algebra.Order.Ring.Nat
import Mathlib.Data.BitVec
import Mathlib.Data.List.Nodup

namespace Cs537.Lib

variable {w : Nat} {α : Type*} {l : List α} {f g : α → BitVec w}

def xorSum (l : List (BitVec w)) : BitVec w := l.foldl (· ^^^ ·) 0

theorem foldl_xor_start (l : List (BitVec w)) (a : BitVec w) :
    l.foldl (· ^^^ ·) a = a ^^^ xorSum l := by
  induction l generalizing a with
  | nil => exact BitVec.xor_zero.symm
  | cons b l ih =>
      have hzero : xorSum (b :: l) = (0 ^^^ b) ^^^ xorSum l := ih (0 ^^^ b)
      rw [List.foldl_cons, ih, hzero, show (0 ^^^ b : BitVec w) = b from BitVec.zero_xor,
        BitVec.xor_assoc]

/-- The loop `sum ^= f(i)`. -/
theorem foldl_xor (l : List α) (f : α → BitVec w) (a : BitVec w) :
    l.foldl (fun sum i => sum ^^^ f i) a = a ^^^ xorSum (l.map f) := by
  rw [← foldl_xor_start, List.foldl_map]

theorem xorSum_cons (a : BitVec w) (l : List (BitVec w)) : xorSum (a :: l) = a ^^^ xorSum l := by
  rw [xorSum, List.foldl_cons, foldl_xor_start, show (0 ^^^ a : BitVec w) = a from BitVec.zero_xor]

theorem xorSum_append (l l' : List (BitVec w)) : xorSum (l ++ l') = xorSum l ^^^ xorSum l' := by
  rw [xorSum, List.foldl_append, foldl_xor_start]
  rfl

theorem xorSum_flatMap (l : List α) (f : α → List (BitVec w)) :
    xorSum (l.flatMap f) = xorSum (l.map fun a => xorSum (f a)) := by
  induction l with
  | nil => rfl
  | cons a l ih => rw [List.flatMap_cons, xorSum_append, ih, List.map_cons, xorSum_cons]

theorem xorSum_map_filter {p : α → Bool} (h : ∀ a ∈ l, p a = false → f a = 0) :
    xorSum ((l.filter p).map f) = xorSum (l.map f) := by
  induction l with
  | nil => rfl
  | cons a l ih =>
      have hl := ih fun b hb => h b (List.mem_cons_of_mem a hb)
      rw [List.map_cons, xorSum_cons]
      cases hp : p a with
      | true => rw [List.filter_cons_of_pos hp, List.map_cons, xorSum_cons, hl]
      | false =>
          rw [List.filter_cons_of_neg (by simp [hp]), hl, h a (List.mem_cons_self ..) hp]
          exact BitVec.zero_xor.symm

theorem xorSum_map_setWidth (v : Nat) :
    (xorSum (l.map f)).setWidth v = xorSum (l.map fun a => (f a).setWidth v) := by
  induction l with
  | nil => exact BitVec.setWidth_zero ..
  | cons a l ih => rw [List.map_cons, xorSum_cons, BitVec.setWidth_xor, ih, List.map_cons, xorSum_cons]

/-- One element of the list changes. -/
theorem xorSum_map_ne (hl : l.Nodup) {a : α} (ha : a ∈ l) (hne : f a ≠ g a)
    (hsame : ∀ b ∈ l, b ≠ a → f b = g b) : xorSum (l.map f) ≠ xorSum (l.map g) := by
  induction l with
  | nil => cases ha
  | cons b l ih =>
      obtain ⟨hb, hl⟩ := List.nodup_cons.mp hl
      rw [List.map_cons, List.map_cons, xorSum_cons, xorSum_cons]
      rcases List.mem_cons.mp ha with rfl | ha
      · -- the rest is the same
        have hrest : l.map f = l.map g := List.map_congr_left fun c hc =>
          hsame c (List.mem_cons_of_mem a hc) fun he => hb (he ▸ hc)
        rw [hrest]
        exact fun he => hne ((BitVec.xor_left_inj _).mp he)
      · have hba : b ≠ a := fun he => hb (he ▸ ha)
        rw [hsame b (List.mem_cons_self ..) hba]
        exact fun he => ih hl ha (fun c hc => hsame c (List.mem_cons_of_mem b hc))
          ((BitVec.xor_right_inj _).mp he)

end Cs537.Lib
