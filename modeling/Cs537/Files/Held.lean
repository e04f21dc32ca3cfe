/-
# `Cs537.Files.Held` — who has which file and which end of a pipe

Three kinds of things are given out and must come back:

    ref f       a reference to the file `f`
    side p w    an end of the pipe `p`, the one for writing if `w`
    page p      the page of a pipe with both ends closed, until `kfree`

They are held by descriptors, by processes in the middle of a call, and the ends of
a pipe by the file they belong to.  The tables say how often each thing is held
(`Sys.owed`): `ref` of a file, `readopen` and `writeopen` of a pipe.  `Sys.gap` is the
difference, and here is what each part of a step does to it.
-/
import Cs537.Files.System
import Cs537.Lib.Holdings
import Mathlib.Algebra.BigOperators.Group.Finset.Basic
import Mathlib.Data.Fintype.Sum

namespace Cs537.Files

open Cs537.Lib

inductive Res where
  | ref (f : FileIx)
  | side (p : Page) (writable : Bool)
  | page (p : Page)
  deriving DecidableEq

instance lawfulBEqRes : LawfulBEq Res := inferInstance

/-- A descriptor of a process, a process, or a file. -/
abbrev Holder := (Slot × Fd) ⊕ Slot ⊕ FileIx

/-- What a process has in its hands. -/
def Pc.held : Pc → List Res
  | .pipe1 f0 => [.ref f0]
  | .pipe2 f0 f1 => [.ref f0, .ref f1]
  | .closing f fs _ => .ref f :: fs.map .ref
  | .pipeclose p w fs _ => .side p w :: fs.map .ref
  | .kfree p fs _ => .page p :: fs.map .ref
  | _ => []

def File.held (x : File) : List Res := if x.type = .pipe then [.side x.pipe x.writable] else []

def Sys.holds (s : Sys) : Holder → List Res
  | .inl d => ((s.procs d.1).ofile d.2).toList.map .ref
  | .inr (.inl i) => (s.procs i).pc.held
  | .inr (.inr f) => (s.ftable f).held

/-- What there is of a pipe. -/
def parts (p : Page) : Option Pipe → List Res
  | none => []
  | some x =>
      (if x.readopen then [.side p false] else []) ++
        (if x.writeopen then [.side p true] else []) ++
        if x.readopen = false ∧ x.writeopen = false then [.page p] else []

/-- How often a thing is held, by the tables. -/
def Sys.owed (s : Sys) : Res → Nat
  | .ref f => (s.ftable f).ref
  | .side p w => (parts p (s.pipes p)).count (.side p w)
  | .page p => (parts p (s.pipes p)).count (.page p)

def Sys.gap (s : Sys) (r : Res) : Int := uses s.holds r - s.owed r

variable {s : Sys} {i j : Slot} {fd : Fd} {f : FileIx} {p : Page} {r : Res}

/-! ## The parts of a step -/

@[simp] theorem setFile_procs (f : FileIx) (x : File) : (s.setFile f x).procs = s.procs := rfl

@[simp] theorem setFile_pipes (f : FileIx) (x : File) : (s.setFile f x).pipes = s.pipes := rfl

@[simp] theorem setFile_fault (f : FileIx) (x : File) : (s.setFile f x).fault = s.fault := rfl

@[simp] theorem setFile_ftable (f : FileIx) (x : File) :
    (s.setFile f x).ftable = Function.update s.ftable f x := rfl

@[simp] theorem setPipe_procs (p : Page) (x : Option Pipe) : (s.setPipe p x).procs = s.procs := rfl

@[simp] theorem setPipe_ftable (p : Page) (x : Option Pipe) :
    (s.setPipe p x).ftable = s.ftable := rfl

@[simp] theorem setPipe_fault (p : Page) (x : Option Pipe) : (s.setPipe p x).fault = s.fault := rfl

@[simp] theorem setPipe_pipes (p : Page) (x : Option Pipe) :
    (s.setPipe p x).pipes = Function.update s.pipes p x := rfl

@[simp] theorem setProc_ftable (i : Slot) (x : Proc) : (s.setProc i x).ftable = s.ftable := rfl

@[simp] theorem setProc_pipes (i : Slot) (x : Proc) : (s.setProc i x).pipes = s.pipes := rfl

@[simp] theorem setProc_fault (i : Slot) (x : Proc) : (s.setProc i x).fault = s.fault := rfl

@[simp] theorem setProc_procs (i : Slot) (x : Proc) :
    (s.setProc i x).procs = Function.update s.procs i x := rfl

@[simp] theorem wakeup_ftable (wake : Pc → Pc) : (s.wakeup wake).ftable = s.ftable := rfl

@[simp] theorem wakeup_pipes (wake : Pc → Pc) : (s.wakeup wake).pipes = s.pipes := rfl

@[simp] theorem wakeup_fault (wake : Pc → Pc) : (s.wakeup wake).fault = s.fault := rfl

@[simp] theorem wakeup_ofile (wake : Pc → Pc) (i : Slot) :
    ((s.wakeup wake).procs i).ofile = (s.procs i).ofile := rfl

@[simp] theorem wakeup_pc (wake : Pc → Pc) (i : Slot) :
    ((s.wakeup wake).procs i).pc = wake (s.procs i).pc := rfl

@[simp] theorem setOfile_ftable (i : Slot) (fd : Fd) (x : Option FileIx) :
    (s.setOfile i fd x).ftable = s.ftable := rfl

@[simp] theorem setOfile_pc (i j : Slot) (fd : Fd) (x : Option FileIx) :
    ((s.setOfile i fd x).procs j).pc = (s.procs j).pc := by
  by_cases hij : j = i
  · subst hij
    simp [Sys.setOfile]
  · simp [Sys.setOfile, hij]

theorem setOfile_ofile (i j : Slot) (fd fd' : Fd) (x : Option FileIx) :
    ((s.setOfile i fd x).procs j).ofile fd'
      = if j = i ∧ fd' = fd then x else (s.procs j).ofile fd' := by
  by_cases hij : j = i
  · subst hij
    by_cases hfd : fd' = fd
    · subst hfd
      simp [Sys.setOfile]
    · simp [Sys.setOfile, hfd]
  · simp [Sys.setOfile, hij]

theorem setOfile_ret_procs (i : Slot) (fd : Fd) (x : Option FileIx) (v : Int) (pc : Pc) :
    ((s.setOfile i fd x).ret i v pc).procs = Function.update s.procs i
      ⟨Function.update (s.procs i).ofile fd x, pc, v, (s.procs i).buf⟩ := by
  simp [Sys.setOfile, Sys.ret]

/-! ## What they do to the holdings -/

theorem holds_setProc {x : Proc} (hx : x.ofile = (s.procs i).ofile) :
    (s.setProc i x).holds = Function.update s.holds (.inr (.inl i)) x.pc.held := by
  funext h
  rcases h with ⟨j, fd⟩ | j | f
  · by_cases hij : j = i
    · subst hij
      simp [Sys.holds, hx]
    · simp [Sys.holds, hij]
  · by_cases hij : j = i
    · subst hij
      simp [Sys.holds]
    · simp [Sys.holds, hij]
  · simp [Sys.holds]

theorem holds_setOfile {x : Option FileIx} : (s.setOfile i fd x).holds
    = Function.update s.holds (.inl (i, fd)) (x.toList.map .ref) := by
  funext h
  rcases h with ⟨j, fd'⟩ | j | f
  · by_cases hij : j = i
    · subst hij
      by_cases hfd : fd' = fd
      · subst hfd
        simp [Sys.holds, Sys.setOfile]
      · simp [Sys.holds, Sys.setOfile, hfd]
    · simp [Sys.holds, Sys.setOfile, hij]
  · by_cases hij : j = i
    · subst hij
      simp [Sys.holds, Sys.setOfile]
    · simp [Sys.holds, Sys.setOfile, hij]
  · simp [Sys.holds, Sys.setOfile]

theorem holds_setFile {x : File} :
    (s.setFile f x).holds = Function.update s.holds (.inr (.inr f)) x.held := by
  funext h
  rcases h with ⟨j, fd⟩ | j | g
  · simp [Sys.holds]
  · simp [Sys.holds]
  · by_cases hg : g = f
    · subst hg
      simp [Sys.holds]
    · simp [Sys.holds, hg]

theorem held_wakeRead (p : Page) (pc : Pc) : (pc.wakeRead p).held = pc.held := by
  cases pc with
  | readSleep q n =>
      rw [Pc.wakeRead]
      split <;> rfl
  | _ => rfl

theorem held_wakeWrite (p : Page) (pc : Pc) : (pc.wakeWrite p).held = pc.held := by
  cases pc with
  | writeSleep q n rest =>
      rw [Pc.wakeWrite]
      split <;> rfl
  | _ => rfl

theorem held_next (fs : List FileIx) (exiting : Bool) :
    (Pc.next fs exiting).held = fs.map .ref := by
  cases fs with
  | nil => cases exiting <;> rfl
  | cons f fs => rfl

/-! ## What they do to the gap -/

theorem gap_setProc {x : Proc} (hx : x.ofile = (s.procs i).ofile) :
    (s.setProc i x).gap r = s.gap r + x.pc.held.count r - (s.procs i).pc.held.count r := by
  have huses := uses_update s.holds (.inr (.inl i)) x.pc.held r
  have howed : (s.setProc i x).owed r = s.owed r := by cases r <;> rfl
  have hold : s.holds (.inr (.inl i)) = (s.procs i).pc.held := rfl
  rw [hold] at huses
  rw [Sys.gap, Sys.gap, holds_setProc hx, howed]
  omega

theorem gap_setPc (pc : Pc) :
    (s.setPc i pc).gap r = s.gap r + pc.held.count r - (s.procs i).pc.held.count r :=
  gap_setProc rfl

theorem gap_ret (v : Int) (pc : Pc) :
    (s.ret i v pc).gap r = s.gap r + pc.held.count r - (s.procs i).pc.held.count r :=
  gap_setProc rfl

theorem gap_setOfile (x : Option FileIx) : (s.setOfile i fd x).gap r = s.gap r
    + (x.toList.map Res.ref).count r - (((s.procs i).ofile fd).toList.map Res.ref).count r := by
  have huses := uses_update s.holds (.inl (i, fd)) (x.toList.map .ref) r
  have howed : (s.setOfile i fd x).owed r = s.owed r := by cases r <;> rfl
  have hold : s.holds (.inl (i, fd)) = ((s.procs i).ofile fd).toList.map .ref := rfl
  rw [hold] at huses
  rw [Sys.gap, Sys.gap, holds_setOfile, howed]
  omega

theorem owed_setFile (x : File) : ((s.setFile f x).owed r : Int)
    = s.owed r + [Res.ref f].count r * ((x.ref : Int) - (s.ftable f).ref) := by
  cases r with
  | ref g =>
      by_cases hg : g = f
      · subst hg
        simp [Sys.owed]
      · have hcount : [Res.ref f].count (.ref g) = 0 := by
          simp [Ne.symm hg]
        simp [Sys.owed, hg, hcount]
  | side p w =>
      have hcount : [Res.ref f].count (.side p w) = 0 := by simp
      simp [Sys.owed, hcount]
  | page p =>
      have hcount : [Res.ref f].count (.page p) = 0 := by simp
      simp [Sys.owed, hcount]

theorem gap_setFile (x : File) : (s.setFile f x).gap r = s.gap r + x.held.count r
    - (s.ftable f).held.count r - [Res.ref f].count r * ((x.ref : Int) - (s.ftable f).ref) := by
  have huses := uses_update s.holds (.inr (.inr f)) x.held r
  have howed := owed_setFile (s := s) (f := f) (r := r) x
  have hold : s.holds (.inr (.inr f)) = (s.ftable f).held := rfl
  rw [hold] at huses
  rw [Sys.gap, Sys.gap, holds_setFile, howed]
  omega

/-- The parts of a pipe are its own. -/
theorem count_parts_of_ne {q : Page} (h : q ≠ p) (x : Option Pipe) (w : Bool) :
    (parts p x).count (.side q w) = 0 ∧ (parts p x).count (.page q) = 0 := by
  cases x with
  | none => exact ⟨rfl, rfl⟩
  | some x =>
      refine ⟨List.count_eq_zero.mpr ?_, List.count_eq_zero.mpr ?_⟩
      · simp [parts, h]
      · simp [parts, h]

theorem count_parts_ref (x : Option Pipe) : (parts p x).count (.ref f) = 0 := by
  cases x with
  | none => rfl
  | some x => exact List.count_eq_zero.mpr (by simp [parts])

theorem gap_setPipe (x : Option Pipe) : (s.setPipe p x).gap r = s.gap r
    - (parts p x).count r + (parts p (s.pipes p)).count r := by
  have hholds : (s.setPipe p x).holds = s.holds := by
    funext h
    rcases h with d | j | g
    · rfl
    · rfl
    · rfl
  rw [Sys.gap, Sys.gap, hholds]
  cases r with
  | ref f =>
      simp only [Sys.owed, setPipe_ftable, count_parts_ref]
      omega
  | side q w =>
      by_cases hq : q = p
      · subst hq
        simp only [Sys.owed, setPipe_pipes, Function.update_self]
        omega
      · have hnone := fun x => (count_parts_of_ne hq x w).1
        simp only [Sys.owed, setPipe_pipes, Function.update_of_ne hq, hnone]
        omega
  | page q =>
      by_cases hq : q = p
      · subst hq
        simp only [Sys.owed, setPipe_pipes, Function.update_self]
        omega
      · have hnone := fun x => (count_parts_of_ne hq x true).2
        simp only [Sys.owed, setPipe_pipes, Function.update_of_ne hq, hnone]
        omega

theorem gap_wakeup {wake : Pc → Pc} (h : ∀ pc, (wake pc).held = pc.held) :
    (s.wakeup wake).gap r = s.gap r := by
  have hholds : (s.wakeup wake).holds = s.holds := by
    funext x
    rcases x with d | j | g
    · rfl
    · exact h (s.procs j).pc
    · rfl
  have howed : (s.wakeup wake).owed r = s.owed r := by cases r <;> rfl
  rw [Sys.gap, Sys.gap, hholds, howed]

end Cs537.Files
