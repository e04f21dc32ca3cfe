/-
# `Cs537.Lib.Path` — paths, resolved by their names alone

A directory is the list of the names from the root down to it.  A path is a
list of moves from there: a name goes down, `..` up (the root is its own
parent), `.` and an empty name stay.

    walk dir ms            where the moves lead
    climb ms               how far up they go in the end, and the names then below
    moves sep dot path     the moves of a path
    resolve sep dot d p    where it leads from `d`

`climb` does not know the directory: `walk_eq` says what the moves do in any, and
`below_iff` when they end at or below their start.
-/
import Cs537.Lib.Lines

namespace Cs537.Lib

inductive Move (α : Type*) where
  | stay
  | up
  | down (name : α)

/-! ## Moves -/

section Moves

variable {α : Type*} {dir : List α} {ms : List (Move α)}

def Move.step (dir : List α) : Move α → List α
  | .stay => dir
  | .up => dir.dropLast
  | .down name => dir ++ [name]

def walk (dir : List α) (ms : List (Move α)) : List α :=
  ms.foldl Move.step dir

/-- A place as seen from a directory: `ups` above it, and then down by `names`. -/
structure Place (α : Type*) where
  ups : Nat
  names : List α

def Place.step (p : Place α) : Move α → Place α
  | .stay => p
  | .up => if p.names = [] then ⟨p.ups + 1, []⟩ else ⟨p.ups, p.names.dropLast⟩
  | .down name => ⟨p.ups, p.names ++ [name]⟩

def climb (ms : List (Move α)) : Place α :=
  ms.foldl Place.step ⟨0, []⟩

/-- Moves that do not go up. -/
theorem climb_ups_of_no_up (h : .up ∉ ms) : (climb ms).ups = 0 := by
  suffices hfold : ∀ p : Place α, (ms.foldl Place.step p).ups = p.ups from hfold ⟨0, []⟩
  induction ms with
  | nil => exact fun p => rfl
  | cons m ms ih =>
      intro p
      obtain ⟨hm, hms⟩ := notMem_cons.mp h
      rw [List.foldl_cons, ih hms]
      cases m with
      | stay => rfl
      | up => exact absurd rfl hm
      | down name => rfl

/-- Where the place is. -/
def Place.from (p : Place α) (dir : List α) : List α :=
  dir.take (dir.length - p.ups) ++ p.names

theorem step_from (p : Place α) (m : Move α) : m.step (p.from dir) = (p.step m).from dir := by
  cases m with
  | stay => rfl
  | down name => exact List.append_assoc ..
  | up =>
      obtain ⟨ups, names⟩ := p
      show (dir.take (dir.length - ups) ++ names).dropLast = _
      rw [Place.step]
      split
      · next hnil =>
          obtain rfl : names = [] := hnil
          show _ = dir.take (dir.length - (ups + 1)) ++ []
          rw [List.append_nil, List.append_nil, List.dropLast_eq_take, List.length_take,
            List.take_take]
          congr 1
          omega
      · next hne => exact List.dropLast_append_of_ne_nil hne

/-- From any directory. -/
theorem walk_eq (dir : List α) (ms : List (Move α)) : walk dir ms = (climb ms).from dir := by
  suffices h : ∀ p : Place α, ms.foldl Move.step (p.from dir) = (ms.foldl Place.step p).from dir by
    have hstart : (⟨0, []⟩ : Place α).from dir = dir := by
      show dir.take (dir.length - 0) ++ [] = dir
      rw [Nat.sub_zero, List.take_length, List.append_nil]
    have := h ⟨0, []⟩
    rwa [hstart] at this
  induction ms with
  | nil => exact fun p => rfl
  | cons m ms ih =>
      intro p
      rw [List.foldl_cons, List.foldl_cons, step_from]
      exact ih (p.step m)

/-- The place is at the directory or below it if and only if the directories
above it that the moves left are entered again. -/
theorem below_iff {p : Place α} : dir <+: p.from dir ↔ dir.drop (dir.length - p.ups) <+: p.names := by
  have hsplit := List.take_append_drop (dir.length - p.ups) dir
  constructor
  · intro h
    have hboth : dir.take (dir.length - p.ups) ++ dir.drop (dir.length - p.ups) <+:
        dir.take (dir.length - p.ups) ++ p.names := by
      rwa [hsplit]
    exact (List.prefix_append_right_inj _).mp hboth
  · intro h
    have := (List.prefix_append_right_inj (dir.take (dir.length - p.ups))).mpr h
    rwa [hsplit] at this

end Moves

/-! ## Paths -/

section Paths

variable {α : Type*} [DecidableEq α] {sep dot : α} {dir : List (List α)} {path name : List α}

def move (dot : α) (name : List α) : Move (List α) :=
  if name = [] ∨ name = [dot] then .stay
  else if name = [dot, dot] then .up
  else .down name

/-- The part of a path up to a separator. -/
def component (sep : α) (part : List α) : List α :=
  part.takeWhile fun c => c ≠ sep

def moves (sep dot : α) (path : List α) : List (Move (List α)) :=
  (lines sep path).map fun part => move dot (component sep part)

/-- A path with a separator at its start is one from the root. -/
def resolve (sep dot : α) (dir : List (List α)) (path : List α) : List (List α) :=
  walk (if path.head? = some sep then [] else dir) (moves sep dot path)

theorem component_of_notMem (h : sep ∉ name) : component sep name = name := by
  refine List.takeWhile_eq_self_iff.mpr fun c hc => ?_
  simpa using fun he : c = sep => h (he ▸ hc)

/-- A name after a separator is one more move. -/
theorem moves_name (path : List α) (h : sep ∉ name) (hne : name ≠ []) :
    moves sep dot (path ++ [sep] ++ name) = moves sep dot (path ++ [sep]) ++ [move dot name] := by
  rw [moves, lines_append, List.map_append, lines_part h hne, List.map_singleton,
    component_of_notMem h]
  rfl

end Paths

end Cs537.Lib
