/-
# `Cs537.Lib.Memory` — bytes at addresses

A memory gives a byte at every address.  `get k m a` reads the `k` bytes at `a`
as a number, the lowest first; `put k m a v` writes one; `copy m o n src` writes
the first `n` bytes of `src` at `o`; `ptr m o` is the memory seen from `o`.

A read sees a write at the same place (`get_put_self`, `get_copy_inside`) and no
write elsewhere (`get_put_apart`, `get_copy_apart`).
-/
import Cs537.Lib.Bytes

namespace Cs537.Lib

abbrev Mem := Nat → UInt8

namespace Mem

variable {m m' src : Mem} {a b i j k n o v : Nat}

/-- The memory from the address `o`. -/
def ptr (m : Mem) (o : Nat) : Mem := fun i => m (o + i)

/-- The first `n` bytes of `src` are written at `o`. -/
def copy (m : Mem) (o n : Nat) (src : Mem) : Mem := fun a =>
  if o ≤ a ∧ a < o + n then src (a - o) else m a

/-- The number in the `k` bytes at `a`. -/
def get (k : Nat) (m : Mem) (a : Nat) : Nat :=
  ofLe ((List.range k).map fun i => m (a + i))

/-- The memory that starts with the bytes of `v`. -/
def ofNat (v : Nat) : Mem := fun i => UInt8.ofNat (v / 256 ^ i)

/-- `v` is written in the `k` bytes at `a`. -/
def put (k : Nat) (m : Mem) (a v : Nat) : Mem := m.copy a k (ofNat v)

/-! ## Bytes -/

theorem copy_inside (hi : i < n) : m.copy o n src (o + i) = src i := by
  rw [copy, if_pos (by omega), Nat.add_sub_cancel_left]

theorem copy_apart (ha : a < o ∨ o + n ≤ a) : m.copy o n src a = m a :=
  if_neg (by omega)

/-! ## Numbers -/

theorem get_congr (h : ∀ i < k, m (a + i) = m' (b + i)) : m.get k a = m'.get k b := by
  rw [get, get]
  congr 1
  exact List.map_congr_left fun i hi => h i (List.mem_range.mp hi)

theorem get_lt : m.get k a < 256 ^ k := by
  have := ofLe_lt ((List.range k).map fun i => m (a + i))
  rwa [List.length_map, List.length_range] at this

theorem get_ptr : (m.ptr o).get k a = m.get k (o + a) :=
  get_congr fun i _ => by rw [ptr, Nat.add_assoc]

theorem ofLe_zeros : ofLe (List.replicate k 0) = 0 := by
  induction k with
  | zero => rfl
  | succ k ih => rw [List.replicate_succ, ofLe, ih]; rfl

theorem get_zero (h : ∀ i < k, m (a + i) = 0) : m.get k a = 0 := by
  have hmap : (List.range k).map (fun i => m (a + i)) = List.replicate k 0 := by
    refine List.eq_replicate_iff.mpr ⟨by simp, fun b hb => ?_⟩
    obtain ⟨i, hi, rfl⟩ := List.mem_map.mp hb
    exact h i (List.mem_range.mp hi)
  rw [get, hmap, ofLe_zeros]

theorem get_copy_inside (h : j + k ≤ n) : (m.copy o n src).get k (o + j) = src.get k j :=
  get_congr fun i hi => by rw [Nat.add_assoc, copy_inside (by omega)]

theorem get_copy_apart (h : a + k ≤ o ∨ o + n ≤ a) : (m.copy o n src).get k a = m.get k a :=
  get_congr fun i hi => copy_apart (by omega)

theorem range_map_ofNat (k v : Nat) : (List.range k).map (ofNat v) = le k v := by
  induction k generalizing v with
  | zero => rfl
  | succ k ih =>
      rw [List.range_succ_eq_map, List.map_cons, List.map_map, le, ← ih]
      congr 1
      · rw [ofNat, Nat.pow_zero, Nat.div_one, ← UInt8.toNat_inj, UInt8.toNat_ofNat',
          UInt8.toNat_ofNat', Nat.mod_mod]
      · refine List.map_congr_left fun i _ => ?_
        show ofNat v (i + 1) = ofNat (v / 256) i
        rw [ofNat, ofNat, Nat.pow_succ', Nat.div_div_eq_div_mul]

theorem get_put_self (h : v < 256 ^ k) : (m.put k a v).get k a = v := by
  have hmap : (List.range k).map (fun i => m.put k a v (a + i)) = le k v := by
    rw [← range_map_ofNat]
    exact List.map_congr_left fun i hi => copy_inside (List.mem_range.mp hi)
  rw [get, hmap, ofLe_le_of_lt h]

theorem get_put_apart (h : a + k ≤ b ∨ b + n ≤ a) : (m.put n b v).get k a = m.get k a :=
  get_copy_apart h

/-! ## Bits -/

theorem testBit_ofLe (bs : List UInt8) (i : Nat) (hi : i / 8 < bs.length) :
    (ofLe bs).testBit i = (bs[i / 8]).toNat.testBit (i % 8) := by
  induction bs generalizing i with
  | nil => cases hi
  | cons c bs ih =>
      have hc : c.toNat < 2 ^ 8 := c.toNat_lt
      have hsplit : ofLe (c :: bs) = 2 ^ 8 * ofLe bs + c.toNat := by
        rw [ofLe]
        omega
      rw [hsplit, Nat.testBit_two_pow_mul_add _ hc]
      by_cases h8 : i < 8
      · have h0 : i / 8 = 0 := by omega
        have hm : i % 8 = i := by omega
        rw [if_pos h8]
        simp only [h0, hm, List.getElem_cons_zero]
      · have hs : i / 8 = (i - 8) / 8 + 1 := by omega
        have hm : i % 8 = (i - 8) % 8 := by omega
        rw [if_neg h8, ih (i - 8) (by rw [List.length_cons] at hi; omega)]
        simp only [hs, hm, List.getElem_cons_succ]

/-- Bit `i` of a number is bit `i % 8` of its byte `i / 8`. -/
theorem testBit_get (hi : i / 8 < k) : (m.get k a).testBit i = (m (a + i / 8)).toNat.testBit (i % 8) := by
  rw [get, testBit_ofLe _ _ (by rwa [List.length_map, List.length_range])]
  simp

end Mem

end Cs537.Lib
