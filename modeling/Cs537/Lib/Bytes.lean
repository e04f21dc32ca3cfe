/-
# `Cs537.Lib.Bytes` — numbers in little-endian bytes

`le k n` is `n` in `k` bytes, and `ofLe` reads it back, up to `n % 256 ^ k`; a
list of 32-bit words in bytes is `words` read back.
-/
import Mathlib.Algebra.Order.Ring.Nat
import Mathlib.Data.Nat.Basic
import Mathlib.Tactic.Ring

namespace Cs537.Lib

/-- The last `k` bytes of `n`, the lowest first. -/
def le : (k n : Nat) → List UInt8
  | 0, _ => []
  | k + 1, n => UInt8.ofNat (n % 256) :: le k (n / 256)

def ofLe : List UInt8 → Nat
  | [] => 0
  | b :: bs => b.toNat + 256 * ofLe bs

@[simp] theorem length_le (k n : Nat) : (le k n).length = k := by
  induction k generalizing n with
  | zero => rfl
  | succ k ih => simp [le, ih]

theorem ofLe_le (k n : Nat) : ofLe (le k n) = n % 256 ^ k := by
  induction k generalizing n with
  | zero => simp [le, ofLe, Nat.mod_one]
  | succ k ih =>
      rw [le, ofLe, ih, UInt8.toNat_ofNat', Nat.mod_mod, Nat.pow_succ', Nat.mod_mul]

theorem ofLe_le_of_lt {k n : Nat} (h : n < 256 ^ k) : ofLe (le k n) = n := by
  rw [ofLe_le, Nat.mod_eq_of_lt h]

theorem ofLe_lt (bs : List UInt8) : ofLe bs < 256 ^ bs.length := by
  induction bs with
  | nil => simp [ofLe]
  | cons b bs ih =>
      have hb := b.toNat_lt
      rw [ofLe, List.length_cons, Nat.pow_succ']
      omega

/-! ## 32-bit words -/

def le32 (w : UInt32) : List UInt8 := le 4 w.toNat

def ofLe32 (bs : List UInt8) : UInt32 := UInt32.ofNat (ofLe bs)

@[simp] theorem length_le32 (w : UInt32) : (le32 w).length = 4 := length_le 4 _

@[simp] theorem ofLe32_le32 (w : UInt32) : ofLe32 (le32 w) = w := by
  rw [ofLe32, le32, ofLe_le_of_lt w.toNat_lt, UInt32.ofNat_toNat]

/-- The words in a list of bytes. -/
def words : List UInt8 → List UInt32
  | a :: b :: c :: d :: bs => ofLe32 [a, b, c, d] :: words bs
  | _ => []

@[simp] theorem length_flatMap_le32 (ws : List UInt32) : (ws.flatMap le32).length = 4 * ws.length := by
  induction ws with
  | nil => rfl
  | cons w ws ih =>
      rw [List.flatMap_cons, List.length_append, ih, length_le32, List.length_cons]
      omega

theorem words_cons {bs bs' : List UInt8} (h : bs.length = 4) :
    words (bs ++ bs') = ofLe32 bs :: words bs' := by
  match bs, h with
  | [_, _, _, _], _ => rfl

@[simp] theorem words_flatMap_le32 (ws : List UInt32) : words (ws.flatMap le32) = ws := by
  induction ws with
  | nil => rfl
  | cons w ws ih => rw [List.flatMap_cons, words_cons (length_le32 w), ofLe32_le32, ih]

end Cs537.Lib
