/-
# `Cs537.Lib.Lines` — lines, and lines read in pieces

A stream of elements is cut into lines after each `nl`; the last line may have
none.  A reader with room for `k` elements gets a line in pieces of that
length, the last one with what is left of it.

    lines nl s          the lines of `s`
    takeLine nl k s     the first piece of `s`, and the rest

`takeLine_line` and `takeLine_long` say what the first piece of a line is;
`lines_cons` and `lines_part` what the lines are once it is read.
-/
import Mathlib.Data.List.TakeWhile

namespace Cs537.Lib

variable {α : Type*} {nl : α} {k : Nat} {s body l rest : List α}

theorem notMem_cons {c : α} : nl ∉ c :: s ↔ nl ≠ c ∧ nl ∉ s := by
  rw [List.mem_cons, not_or]

/-- A line with its end. -/
def IsLine (nl : α) (l : List α) : Prop := ∃ body, nl ∉ body ∧ l = body ++ [nl]

theorem IsLine.ne_nil (h : IsLine nl l) : l ≠ [] := by
  obtain ⟨body, -, rfl⟩ := h
  exact List.append_ne_nil_of_right_ne_nil _ (List.cons_ne_nil nl [])

/-- A line cut in two: what is left of it is one. -/
theorem IsLine.drop (h : IsLine nl l) (hk : k < l.length) :
    nl ∉ l.take k ∧ IsLine nl (l.drop k) := by
  obtain ⟨body, hbody, rfl⟩ := h
  rw [List.length_append, List.length_singleton] at hk
  have hle : k ≤ body.length := by omega
  rw [List.take_append_of_le_length hle, List.drop_append_of_le_length hle]
  exact ⟨fun hm => hbody (List.mem_of_mem_take hm),
    body.drop k, fun hm => hbody (List.mem_of_mem_drop hm), rfl⟩

variable [DecidableEq α]

def lines (nl : α) : List α → List (List α)
  | [] => []
  | c :: s =>
      if c = nl then [c] :: lines nl s
      else
        match lines nl s with
        | [] => [[c]]
        | l :: ls => (c :: l) :: ls

/-- Elements up to the first `nl`, `k` at most, and what follows them. -/
def takeLine (nl : α) : Nat → List α → List α × List α
  | 0, s => ([], s)
  | _ + 1, [] => ([], [])
  | k + 1, c :: s =>
      if c = nl then ([c], s)
      else (c :: (takeLine nl k s).1, (takeLine nl k s).2)

/-! ## Lines -/

theorem lines_flatten (nl : α) (s : List α) : (lines nl s).flatten = s := by
  induction s with
  | nil => rfl
  | cons c s ih =>
      rw [lines]
      split
      · rw [List.flatten_cons, ih, List.singleton_append]
      · split
        · rename_i h
          rw [h] at ih
          rw [← ih]
          rfl
        · rename_i h
          rw [h] at ih
          rw [← ih]
          rfl

/-- The first line of a stream. -/
theorem lines_cons (h : IsLine nl l) : lines nl (l ++ s) = l :: lines nl s := by
  obtain ⟨body, hbody, rfl⟩ := h
  induction body with
  | nil => rw [List.nil_append, List.singleton_append, lines, if_pos rfl]
  | cons c body ih =>
      obtain ⟨hc, hbody⟩ := notMem_cons.mp hbody
      rw [List.cons_append, List.cons_append, lines, if_neg (Ne.symm hc), ih hbody]

/-- Streams put together behind a line. -/
theorem lines_append (s t : List α) :
    lines nl (s ++ [nl] ++ t) = lines nl (s ++ [nl]) ++ lines nl t := by
  induction s with
  | nil =>
      show lines nl (nl :: t) = lines nl [nl] ++ lines nl t
      rw [lines, lines, if_pos rfl, if_pos rfl]
      rfl
  | cons c s ih =>
      show lines nl (c :: (s ++ [nl] ++ t)) = lines nl (c :: (s ++ [nl])) ++ lines nl t
      rw [lines, lines, ih]
      by_cases hc : c = nl
      · rw [if_pos hc, if_pos hc]
        rfl
      · rw [if_neg hc, if_neg hc]
        cases hs : lines nl (s ++ [nl]) with
        | cons l ls => rfl
        | nil =>
            have hflat := lines_flatten nl (s ++ [nl])
            rw [hs] at hflat
            exact absurd hflat.symm (List.append_ne_nil_of_right_ne_nil s (List.cons_ne_nil nl []))

/-- A stream without an end of line. -/
theorem lines_part (h : nl ∉ s) (hs : s ≠ []) : lines nl s = [s] := by
  induction s with
  | nil => exact absurd rfl hs
  | cons c s ih =>
      obtain ⟨hc, hmem⟩ := notMem_cons.mp h
      rw [lines, if_neg (Ne.symm hc)]
      cases s with
      | nil => rfl
      | cons d s => rw [ih hmem (List.cons_ne_nil d s)]

/-- All lines but the last have their end. -/
theorem lines_cases (nl : α) (s : List α) : s = [] ∨ (nl ∉ s ∧ s ≠ []) ∨
    ∃ l rest, IsLine nl l ∧ s = l ++ rest := by
  induction s with
  | nil => exact .inl rfl
  | cons c s ih =>
      right
      by_cases hc : c = nl
      · exact .inr ⟨[c], s, ⟨[], List.not_mem_nil, by rw [hc]; rfl⟩, rfl⟩
      · rcases ih with rfl | ⟨hno, -⟩ | ⟨l, rest, ⟨body, hbody, rfl⟩, rfl⟩
        · exact .inl ⟨by simpa using Ne.symm hc, List.cons_ne_nil c _⟩
        · exact .inl ⟨notMem_cons.mpr ⟨Ne.symm hc, hno⟩, List.cons_ne_nil c s⟩
        · exact .inr ⟨c :: (body ++ [nl]), rest,
            ⟨c :: body, notMem_cons.mpr ⟨Ne.symm hc, hbody⟩, rfl⟩, rfl⟩

/-- In the list of lines, one with another behind it has its end. -/
theorem isLine_of_lines {ls : List (List α)} (h : lines nl s = l :: ls) (hls : ls ≠ []) :
    IsLine nl l ∧ ∃ rest, s = l ++ rest ∧ lines nl rest = ls := by
  rcases lines_cases nl s with rfl | ⟨hno, hs⟩ | ⟨l', rest, hl', rfl⟩
  · cases h
  · rw [lines_part hno hs] at h
    cases h
    exact absurd rfl hls
  · rw [lines_cons hl'] at h
    cases h
    exact ⟨hl', rest, rfl, rfl⟩

/-! ## Pieces -/

theorem takeLine_append (nl : α) (k : Nat) (s : List α) : (takeLine nl k s).1 ++ (takeLine nl k s).2 = s := by
  induction k generalizing s with
  | zero => rfl
  | succ k ih =>
      cases s with
      | nil => rfl
      | cons c s =>
          rw [takeLine]
          split
          · rfl
          · rw [List.cons_append, ih]

theorem takeLine_length (k : Nat) (s : List α) : (takeLine nl k s).1.length ≤ k := by
  induction k generalizing s with
  | zero => exact Nat.le_refl 0
  | succ k ih =>
      cases s with
      | nil => exact Nat.zero_le _
      | cons c s =>
          rw [takeLine]
          split
          · exact Nat.succ_le_succ (Nat.zero_le k)
          · exact Nat.succ_le_succ (ih s)

/-- Nothing to stop at. -/
theorem takeLine_body (h : nl ∉ body) (hk : body.length ≤ k) :
    takeLine nl k (body ++ s) = (body ++ (takeLine nl (k - body.length) s).1,
      (takeLine nl (k - body.length) s).2) := by
  induction body generalizing k with
  | nil => rfl
  | cons c body ih =>
      obtain ⟨hc, hbody⟩ := notMem_cons.mp h
      obtain ⟨k, rfl⟩ := Nat.exists_eq_add_one_of_ne_zero (n := k) (by
        rw [List.length_cons] at hk
        omega)
      have hk' : body.length ≤ k := by simpa using hk
      rw [List.cons_append, takeLine, if_neg (Ne.symm hc), ih hbody hk', List.length_cons,
        Nat.add_sub_add_right]
      rfl

/-- A line that fits. -/
theorem takeLine_fits (h : IsLine nl l) (hk : l.length ≤ k) : takeLine nl k (l ++ s) = (l, s) := by
  obtain ⟨body, hbody, rfl⟩ := h
  rw [List.length_append, List.length_singleton] at hk
  obtain ⟨j, hj⟩ := Nat.exists_eq_add_one_of_ne_zero (n := k - body.length) (by omega)
  rw [List.append_assoc, takeLine_body hbody (by omega), hj, List.singleton_append, takeLine,
    if_pos rfl]

/-- The first piece of what has no end of line so soon. -/
theorem takeLine_long (h : nl ∉ s.take k) (hk : k ≤ s.length) :
    takeLine nl k s = (s.take k, s.drop k) := by
  have hlen : (s.take k).length = k := by
    rw [List.length_take]
    omega
  have hpiece := takeLine_body (s := s.drop k) h (Nat.le_of_eq hlen)
  rw [List.take_append_drop, hlen, Nat.sub_self, takeLine, List.append_nil] at hpiece
  exact hpiece

/-- The first piece of a line. -/
theorem takeLine_line (h : IsLine nl l) :
    takeLine nl k (l ++ s) = (l.take k, l.drop k ++ s) := by
  by_cases hk : l.length ≤ k
  · rw [takeLine_fits h hk, List.take_of_length_le hk, List.drop_of_length_le hk, List.nil_append]
  · have hlt : k < l.length := Nat.lt_of_not_le hk
    have htake : (l ++ s).take k = l.take k := List.take_append_of_le_length (Nat.le_of_lt hlt)
    rw [takeLine_long, htake, List.drop_append_of_le_length (Nat.le_of_lt hlt)]
    · rw [htake]
      exact (h.drop hlt).1
    · rw [List.length_append]
      omega

/-- A stream that ends in a line. -/
theorem takeLine_part (h : nl ∉ s) (hk : s.length ≤ k) : takeLine nl k s = (s, []) := by
  have hpiece := takeLine_body (s := []) h hk
  rw [List.append_nil] at hpiece
  rw [hpiece]
  cases k - s.length <;> simp [takeLine]

end Cs537.Lib
