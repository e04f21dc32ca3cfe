/-
# `Cs537.Lib.File` — a file as a list of bytes

What a file is for: a list of bytes that grows at its end.  A call names an
offset into the list.  It is refused when the offset is past the end, or when
its range reaches the address `bound`; a write stops at the size `cap`, a read
at the end of the file.

A byte of the file is the byte last written there: `getElem?_fileRun`.
-/
import Mathlib.Data.List.Basic
import Mathlib.Data.Option.Basic

namespace Cs537.Lib

variable {α : Type*}

/-! ## Writing into a list -/

/-- `l` with `data` written over it from `off` on. -/
def splice (l : List α) (off : Nat) (data : List α) : List α :=
  l.take off ++ data ++ l.drop (off + data.length)

theorem length_splice {l : List α} {off : Nat} (h : off ≤ l.length) (data : List α) :
    (splice l off data).length = max l.length (off + data.length) := by
  simp only [splice, List.length_append, List.length_take, List.length_drop]
  omega

theorem getElem?_splice {l : List α} {off : Nat} (h : off ≤ l.length) (data : List α) (p : Nat) :
    (splice l off data)[p]? =
      if off ≤ p ∧ p < off + data.length then data[p - off]? else l[p]? := by
  have hlen : (l.take off).length = off := List.length_take_of_le h
  rw [splice, List.append_assoc]
  by_cases h1 : p < off
  · rw [List.getElem?_append_left (by omega), List.getElem?_take_of_lt h1, if_neg (by omega)]
  · rw [List.getElem?_append_right (by omega), hlen]
    by_cases h2 : p < off + data.length
    · rw [List.getElem?_append_left (by omega), if_pos (by omega)]
    · rw [List.getElem?_append_right (by omega), List.getElem?_drop, if_neg (by omega)]
      congr 1
      omega

/-! ## Calls -/

inductive FileCall (α : Type*) where
  | write (off : Nat) (data : List α)
  | read (off n : Nat)

/-- The range of a call. -/
def FileCall.off : FileCall α → Nat
  | .write off _ => off
  | .read off _ => off

def FileCall.len : FileCall α → Nat
  | .write _ data => data.length
  | .read _ n => n

/-- The calls that are not refused on `l`. -/
def Accepts (bound : Nat) (l : List α) (c : FileCall α) : Prop :=
  c.off ≤ l.length ∧ c.off + c.len < bound

instance (bound : Nat) (l : List α) (c : FileCall α) : Decidable (Accepts bound l c) :=
  inferInstanceAs (Decidable (_ ∧ _))

/-- An accepted call: its return value, the bytes it delivers, the new file. -/
def serve (cap : Nat) (l : List α) : FileCall α → (Int × List α) × List α
  | .write off data =>
      let data := data.take (cap - off)
      ((data.length, []), splice l off data)
  | .read off n =>
      let out := (l.drop off).take n
      ((out.length, out), l)

/-- A call; a refused one returns `-1`. -/
def fileStep (cap bound : Nat) (l : List α) (c : FileCall α) : (Int × List α) × List α :=
  if Accepts bound l c then serve cap l c else ((-1, []), l)

def fileRun (cap bound : Nat) : List α → List (FileCall α) → List (Int × List α) × List α
  | l, [] => ([], l)
  | l, c :: cs =>
      let (r, l) := fileStep cap bound l c
      let (rs, l) := fileRun cap bound l cs
      (r :: rs, l)

/-- What an accepted call writes at `p`, if anything. -/
def served (cap : Nat) : FileCall α → Nat → Option α
  | .write off data, p => if off ≤ p then (data.take (cap - off))[p - off]? else none
  | .read _ _, _ => none

def written (cap bound : Nat) (l : List α) (c : FileCall α) (p : Nat) : Option α :=
  if Accepts bound l c then served cap c p else none

/-- What the calls `cs` wrote last at `p`, if anything. -/
def lastWritten (cap bound : Nat) : List α → List (FileCall α) → Nat → Option α
  | _, [], _ => none
  | l, c :: cs, p =>
      (lastWritten cap bound (fileStep cap bound l c).2 cs p).or (written cap bound l c p)

section

variable {cap bound : Nat}

theorem getElem?_fileStep (l : List α) (c : FileCall α) (p : Nat) :
    (fileStep cap bound l c).2[p]? = (written cap bound l c p).or l[p]? := by
  rw [fileStep, written]
  by_cases hacc : Accepts bound l c
  · rw [if_pos hacc, if_pos hacc]
    cases c with
    | write off data =>
        have hoff : off ≤ l.length := hacc.1
        simp only [serve, served, getElem?_splice hoff]
        by_cases hp : off ≤ p
        · by_cases hlt : p < off + (data.take (cap - off)).length
          · rw [if_pos ⟨hp, hlt⟩, if_pos hp, List.getElem?_eq_getElem (by omega), Option.some_or]
          · have hnone : (data.take (cap - off))[p - off]? = none :=
              List.getElem?_eq_none (by omega)
            rw [if_neg (by omega), if_pos hp, hnone, Option.none_or]
        · rw [if_neg (by omega), if_neg hp, Option.none_or]
    | read off n => rw [serve, served, Option.none_or]
  · rw [if_neg hacc, if_neg hacc, Option.none_or]

/-- A byte of the file is the byte last written there. -/
theorem getElem?_fileRun : ∀ (l : List α) (cs : List (FileCall α)) (p : Nat),
    (fileRun cap bound l cs).2[p]? = (lastWritten cap bound l cs p).or l[p]?
  | l, [], p => by simp [fileRun, lastWritten]
  | l, c :: cs, p => by
      rw [fileRun, lastWritten, Option.or_assoc, ← getElem?_fileStep]
      exact getElem?_fileRun _ cs p

/-- The file only grows. -/
theorem length_le_fileStep (l : List α) (c : FileCall α) :
    l.length ≤ (fileStep cap bound l c).2.length := by
  rw [fileStep]
  by_cases hacc : Accepts bound l c
  · rw [if_pos hacc]
    cases c with
    | write off data =>
        have hoff : off ≤ l.length := hacc.1
        show l.length ≤ (splice l off (data.take (cap - off))).length
        rw [length_splice hoff]
        exact Nat.le_max_left ..
    | read off n => exact Nat.le_refl _
  · exact Nat.le_of_eq (by rw [if_neg hacc])

theorem length_le_fileRun : ∀ (l : List α) (cs : List (FileCall α)),
    l.length ≤ (fileRun cap bound l cs).2.length
  | _, [] => Nat.le_refl _
  | l, c :: cs => Nat.le_trans (length_le_fileStep l c) (length_le_fileRun _ cs)

/-- The results of a run are those of its steps. -/
theorem getElem?_results : ∀ (l : List α) (cs : List (FileCall α)) (i : Nat),
    (fileRun cap bound l cs).1[i]? =
      cs[i]?.map fun c => (fileStep cap bound (fileRun cap bound l (cs.take i)).2 c).1
  | l, [], i => by simp [fileRun]
  | l, c :: cs, 0 => by simp [fileRun]
  | l, c :: cs, i + 1 => by
      simp only [fileRun, List.getElem?_cons_succ, List.take_succ_cons]
      exact getElem?_results _ cs i

/-- A read delivers what was last written to its range. -/
theorem read_lastWritten (cap bound : Nat) (l : List α) {cs : List (FileCall α)} {i off n : Nat}
    (hi : cs[i]? = some (.read off n)) :
    ∃ r, (fileRun cap bound l cs).1[i]? = some r ∧ ∀ j, j < r.2.length →
      r.2[j]? = (lastWritten cap bound l (cs.take i) (off + j)).or l[off + j]? := by
  refine ⟨_, by rw [getElem?_results, hi, Option.map_some], fun j hj => ?_⟩
  rw [← getElem?_fileRun]
  rw [fileStep] at hj ⊢
  by_cases hacc : Accepts bound (fileRun cap bound l (cs.take i)).2 (.read off n)
  · rw [if_pos hacc, serve] at hj ⊢
    simp only [List.length_take] at hj
    rw [List.getElem?_take_of_lt (by omega), List.getElem?_drop]
  · rw [if_neg hacc] at hj
    exact absurd hj (Nat.not_lt_zero j)

end

end Cs537.Lib
