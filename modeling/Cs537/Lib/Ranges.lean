/-
# `Cs537.Lib.Ranges` — lists over ranges

A range is cut at a number (`filter_range`), walked in blocks of `b`
(`range_blocks`), used to read a list past its end (`range_getD`), and summed
over where a function is not zero (`sum_support`).
-/
import Mathlib.Algebra.Order.Ring.Nat
import Mathlib.Data.List.GetD

namespace Cs537.Lib

variable {n : Nat}

/-- The part of a range below `m`. -/
theorem filter_range {m : Nat} (h : m ≤ n) : (List.range n).filter (· < m) = List.range m := by
  induction n with
  | zero => rw [Nat.le_zero.mp h]; rfl
  | succ n ih =>
      rw [List.range_succ, List.filter_append]
      by_cases hm : m ≤ n
      · rw [ih hm, List.filter_cons_of_neg (by simpa using hm), List.filter_nil, List.append_nil]
      · obtain rfl : m = n + 1 := by omega
        rw [List.range_succ]
        congr 1
        · refine List.filter_eq_self.mpr fun a ha => decide_eq_true ?_
          exact Nat.lt_succ_of_lt (List.mem_range.mp ha)
        · exact List.filter_cons_of_pos (by simp)

/-- The places in blocks of `b`, block after block. -/
theorem range_blocks {α : Type*} {b : Nat} (hb : 0 < b) (g : Nat → Nat → α) (m : Nat) :
    ((List.range m).flatMap fun j => (List.range b).map (g j)) =
      (List.range (b * m)).map fun e => g (e / b) (e % b) := by
  induction m with
  | zero => rfl
  | succ m ih =>
      have hsplit : List.range (m + 1) = List.range m ++ [m] := List.range_succ
      rw [hsplit, List.flatMap_append, ih, List.flatMap_singleton, Nat.mul_succ,
        List.range_add, List.map_append, List.map_map]
      congr 1
      refine List.map_congr_left fun n hn => ?_
      have hlt := List.mem_range.mp hn
      have hdiv : (b * m + n) / b = m := by rw [Nat.mul_add_div hb, Nat.div_eq_of_lt hlt, Nat.add_zero]
      have hmod : (b * m + n) % b = n := by rw [Nat.mul_add_mod, Nat.mod_eq_of_lt hlt]
      show g m n = g ((b * m + n) / b) ((b * m + n) % b)
      rw [hdiv, hmod]

/-- Reading past the end of a list. -/
theorem range_getD {α : Type*} (l : List α) (x : α) (h : l.length ≤ n) :
    (List.range n).map (l.getD · x) = l ++ List.replicate (n - l.length) x := by
  refine List.ext_getElem (by simp; omega) fun k hk hk' => ?_
  rw [List.getElem_map, List.getElem_range]
  by_cases hlt : k < l.length
  · rw [List.getElem_append_left hlt, List.getD_eq_getElem _ _ hlt]
  · rw [List.getElem_append_right (by omega), List.getElem_replicate,
      List.getD_eq_default _ _ (by omega)]

theorem sum_map_zero {c : Nat → Nat} {l : List Nat} (h : ∀ i ∈ l, c i = 0) : (l.map c).sum = 0 :=
  List.sum_eq_zero_iff_forall_eq_nat.mpr fun x hx => by
    obtain ⟨i, hi, rfl⟩ := List.mem_map.mp hx
    exact h i hi

/-- A sum over a range that is zero outside of another. -/
theorem sum_support {c : Nat → Nat} {a n N : Nat} (hN : a + n ≤ N)
    (h : ∀ i < N, i < a ∨ a + n ≤ i → c i = 0) :
    ((List.range N).map c).sum = ((List.range' a n).map c).sum := by
  have hsplit : List.range N =
      List.range' 0 a ++ (List.range' a n ++ List.range' (a + n) (N - (a + n))) := by
    have hstart := List.range'_append_1 (s := 0) (m := a) (n := n + (N - (a + n)))
    rw [Nat.zero_add] at hstart
    rw [List.range'_append_1, hstart, List.range_eq_range']
    congr 1
    omega
  have hbefore : ((List.range' 0 a).map c).sum = 0 := sum_map_zero fun i hi => by
    have := List.mem_range'_1.mp hi
    exact h i (by omega) (.inl (by omega))
  have hafter : ((List.range' (a + n) (N - (a + n))).map c).sum = 0 := sum_map_zero fun i hi => by
    have := List.mem_range'_1.mp hi
    exact h i (by omega) (.inr (by omega))
  rw [hsplit, List.map_append, List.sum_append, List.map_append, List.sum_append, hbefore, hafter]
  omega

end Cs537.Lib
