/-
# `Cs537.Lib.Ring` — a queue in a ring of slots

`n` slots, indexed by integers modulo `n`.  The queue is the `count` slots from
`used` on; a put writes slot `(used + count) % n`, a take moves `used` on.
-/
import Mathlib.Logic.Function.Basic
import Mathlib.Data.List.Range

namespace Cs537.Lib

variable {α : Type*} {n used : Int} {buf : Int → α} {count : Nat}

/-- The items, the oldest first. -/
def ring (n : Int) (buf : Int → α) (used : Int) (count : Nat) : List α :=
  (List.range count).map fun i : Nat => buf ((used + i) % n)

/-- Only the slots are looked at. -/
theorem ring_congr {buf' : Int → α} (hn : 0 < n) (h : ∀ i, 0 ≤ i → i < n → buf i = buf' i) :
    ring n buf used count = ring n buf' used count :=
  List.map_congr_left fun _ _ => h _ (Int.emod_nonneg _ (Int.ne_of_gt hn)) (Int.emod_lt_of_pos _ hn)

@[simp] theorem ring_zero : ring n buf used 0 = [] := rfl

@[simp] theorem length_ring : (ring n buf used count).length = count := by
  rw [ring, List.length_map, List.length_range]

/-- Where the queue begins is known modulo `n`. -/
theorem ring_mod {used' : Int} (h : used % n = used' % n) :
    ring n buf used count = ring n buf used' count := by
  refine List.map_congr_left fun i _ => ?_
  rw [← Int.emod_add_emod, h, Int.emod_add_emod]

/-- Less than `n` apart, different slots. -/
theorem slot_ne {i j : Int} (hij : i < j) (hj : j < i + n) :
    (used + i) % n ≠ (used + j) % n := by
  intro h
  have hdiff : (used + j - (used + i)) % n = 0 :=
    Int.emod_eq_emod_iff_emod_sub_eq_zero.mp h.symm
  rw [show used + j - (used + i) = j - i by omega, Int.emod_eq_of_lt (by omega) (by omega)] at hdiff
  omega

/-- A put into a ring that is not full. -/
theorem ring_put (x : α) (h : (count : Int) < n) :
    ring n (Function.update buf ((used + count) % n) x) used (count + 1) =
      ring n buf used count ++ [x] := by
  rw [ring, List.range_succ, List.map_append]
  congr 1
  · refine List.map_congr_left fun i hi => ?_
    have hlt := List.mem_range.mp hi
    exact Function.update_of_ne (slot_ne (by omega) (by omega)) ..
  · simp

/-- A take from a ring that is not empty. -/
theorem ring_take : ring n buf used (count + 1) =
    buf (used % n) :: ring n buf ((used + 1) % n) count := by
  rw [ring, List.range_succ_eq_map, List.map_cons, List.map_map]
  congr 1
  · simp
  · refine List.map_congr_left fun i _ => ?_
    have hslot : (used + (i.succ : Nat)) % n = ((used + 1) % n + i) % n := by
      rw [Int.emod_add_emod]
      congr 1
      omega
    exact congrArg buf hslot

end Cs537.Lib
