/-
# `Cs537.Lib.Holdings` — who holds which resource

A family of holders, each with a list of resources.  `uses hold a` counts the
places that hold `a`, over all holders and with repetition; "no resource has
two holders" is `uses hold a ≤ 1` for every `a`.  Moving resources between
holders is then arithmetic on counts: replacing the list of one holder shifts
`uses` by the difference of the two counts (`uses_update`), and from
`uses ≤ 1` one reads off that the holder of a resource is unique.
-/
import Mathlib.Algebra.BigOperators.Group.Finset.Basic
import Mathlib.Algebra.Order.BigOperators.Group.Finset
import Mathlib.Data.Fintype.BigOperators

namespace Cs537.Lib

open Finset

variable {ι α : Type*} [Fintype ι] [DecidableEq ι] [DecidableEq α]

/-- How many places hold `a`. -/
def uses (hold : ι → List α) (a : α) : Nat := ∑ i, (hold i).count a

omit [DecidableEq ι] in
theorem count_le_uses (hold : ι → List α) (i : ι) (a : α) :
    (hold i).count a ≤ uses hold a :=
  single_le_sum (f := fun i => (hold i).count a) (fun _ _ => Nat.zero_le _) (mem_univ i)

theorem uses_update (hold : ι → List α) (i : ι) (l : List α) (a : α) :
    uses (Function.update hold i l) a + (hold i).count a = uses hold a + l.count a := by
  have h1 : uses hold a = (hold i).count a + ∑ j ∈ univ.erase i, (hold j).count a :=
    (add_sum_erase univ (fun j => (hold j).count a) (mem_univ i)).symm
  have h2 : uses (Function.update hold i l) a
      = l.count a + ∑ j ∈ univ.erase i, (hold j).count a := by
    rw [uses, ← add_sum_erase univ _ (mem_univ i), Function.update_self]
    congr 1
    refine sum_congr rfl fun j hj => ?_
    rw [Function.update_of_ne (ne_of_mem_erase hj)]
  omega

/-- Two holders of one resource are two places that hold it. -/
theorem count_add_count_le_uses (hold : ι → List α) {i j : ι} (hij : i ≠ j) (a : α) :
    (hold i).count a + (hold j).count a ≤ uses hold a := by
  have h1 : uses hold a = (hold i).count a + ∑ j ∈ univ.erase i, (hold j).count a :=
    (add_sum_erase univ (fun j => (hold j).count a) (mem_univ i)).symm
  have h2 : (hold j).count a ≤ ∑ j ∈ univ.erase i, (hold j).count a :=
    single_le_sum (f := fun j => (hold j).count a) (fun _ _ => Nat.zero_le _)
      (mem_erase.mpr ⟨hij.symm, mem_univ j⟩)
  omega

/-- If no holder gains `a` and `i` gives up `c` places, so does the whole. -/
theorem uses_add_le {hold hold' : ι → List α} {a : α} {c : Nat} (i : ι)
    (hle : ∀ j, (hold' j).count a ≤ (hold j).count a)
    (hi : (hold' i).count a + c ≤ (hold i).count a) : uses hold' a + c ≤ uses hold a := by
  have h1 : uses hold a = (hold i).count a + ∑ j ∈ univ.erase i, (hold j).count a :=
    (add_sum_erase univ (fun j => (hold j).count a) (mem_univ i)).symm
  have h2 : uses hold' a = (hold' i).count a + ∑ j ∈ univ.erase i, (hold' j).count a :=
    (add_sum_erase univ (fun j => (hold' j).count a) (mem_univ i)).symm
  have h3 : ∑ j ∈ univ.erase i, (hold' j).count a ≤ ∑ j ∈ univ.erase i, (hold j).count a :=
    sum_le_sum fun j _ => hle j
  omega

omit [DecidableEq ι] in
theorem uses_mono {hold hold' : ι → List α} {a : α}
    (hle : ∀ j, (hold' j).count a ≤ (hold j).count a) : uses hold' a ≤ uses hold a :=
  sum_le_sum fun j _ => hle j

omit [Fintype ι] [DecidableEq ι] in
theorem one_le_count {l : List α} {a : α} (h : a ∈ l) : 1 ≤ l.count a :=
  List.count_pos_iff.mpr h

omit [DecidableEq ι] in
theorem exists_of_uses_pos {hold : ι → List α} {a : α} (h : 0 < uses hold a) :
    ∃ i, a ∈ hold i := by
  obtain ⟨i, -, hi⟩ := exists_ne_zero_of_sum_ne_zero h.ne'
  exact ⟨i, List.count_pos_iff.mp (Nat.pos_of_ne_zero hi)⟩

omit [DecidableEq ι] in
/-- Only `i` has it. -/
theorem uses_eq_count {hold : ι → List α} {a : α} (i : ι) (h : ∀ j, j ≠ i → a ∉ hold j) :
    uses hold a = (hold i).count a :=
  sum_eq_single i (fun j _ hj => List.count_eq_zero_of_not_mem (h j hj))
    fun hi => absurd (mem_univ i) hi

omit [DecidableEq ι] in
theorem uses_eq_zero {hold : ι → List α} {a : α} (h : ∀ j, a ∉ hold j) : uses hold a = 0 :=
  sum_eq_zero fun j _ => List.count_eq_zero_of_not_mem (h j)

/-- The holder of a resource that is held once is unique. -/
theorem holder_unique {hold : ι → List α} {a : α} (h : uses hold a ≤ 1) {i j : ι}
    (hi : a ∈ hold i) (hj : a ∈ hold j) : i = j := by
  by_contra hij
  have h1 := count_add_count_le_uses hold hij a
  have h2 := one_le_count hi
  have h3 := one_le_count hj
  omega

omit [DecidableEq ι] in
theorem nodup_of_uses_le_one {hold : ι → List α} (h : ∀ a, uses hold a ≤ 1) (i : ι) :
    (hold i).Nodup := by
  rw [List.nodup_iff_count_le_one]
  exact fun a => (count_le_uses hold i a).trans (h a)

omit [Fintype ι] in
/-- A set that `i` joins, if `P`. -/
theorem card_join {s t : Finset ι} {i : ι} {P : Prop} [Decidable P] (hi : i ∉ s)
    (h : ∀ j, j ∈ t ↔ j ∈ s ∨ (j = i ∧ P)) : (t.card : Int) = s.card + if P then 1 else 0 := by
  split
  · rename_i hP
    have hins : t = insert i s := by
      ext j
      rw [h, mem_insert, or_comm, and_iff_left hP]
    rw [hins, card_insert_of_notMem hi]
    rfl
  · rename_i hP
    have hsame : t = s := by
      ext j
      rw [h, or_iff_left fun hj => hP hj.2]
    rw [hsame, Int.add_zero]

end Cs537.Lib
