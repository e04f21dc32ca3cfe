/-
# `Cs537.Files.Inv` — what every step keeps

With `gap` always 0, a descriptor or a process that has a file
counts in its `ref`, so `filedup` and `fileclose` never panic; and a process in the
middle of a read or a write has a descriptor for its end of the pipe (`Good.side`), so
the page is still there.

A file in the hands of `pipealloc` has no type yet and one reference: it is in nobody
else's hands, and setting its type disturbs nobody.  A child gets its descriptors
while it is an embryo and before it can make a call; `Forks` says that nobody else
touches it.
-/
import Cs537.Files.Held

namespace Cs537.Files

open Cs537.Lib

variable {s t : Sys} {i j np : Slot} {fd : Fd} {f f0 f1 : FileIx} {fs : List FileIx} {p : Page}
  {w ex : Bool} {r : Res} {pc : Pc} {v : Int} {todo : List Fd}

/-! ## The invariant -/

/-- The files without a type in the hands of `pipealloc`. -/
def Pc.fresh : Pc → List FileIx
  | .pipe1 f0 => [f0]
  | .pipe2 f0 f1 => [f0, f1]
  | _ => []

/-- The end of a pipe that a read or a write is about. -/
def Pc.side : Pc → Option (Page × Bool)
  | .read p _ | .readSleep p _ => some (p, false)
  | .write p _ _ | .writeSleep p _ _ => some (p, true)
  | _ => none

structure File.Sound (x : File) : Prop where
  free : x.ref = 0 → x.type = .none
  pipe : x.type = .pipe → x.readable = !x.writable

/-- `f` is the end `(p, w)` of a pipe. -/
structure File.IsSide (x : File) (p : Page) (w : Bool) : Prop where
  type : x.type = .pipe
  pipe : x.pipe = p
  writable : x.writable = w

/-- What holds of process `i`. -/
structure Sys.Good (s : Sys) (i : Slot) : Prop where
  named : ∀ fd f, (s.procs i).ofile fd = some f → (s.ftable f).type ≠ .none
  fresh : ∀ f ∈ (s.procs i).pc.fresh, (s.ftable f).type = .none ∧ (s.ftable f).ref = 1
  side : ∀ p w, (s.procs i).pc.side = some (p, w) →
    ∃ fd f, (s.procs i).ofile fd = some f ∧ (s.ftable f).IsSide p w
  gone : (s.procs i).pc = .gone → ∀ fd, (s.procs i).ofile fd = none

/-- The children that are being made. -/
structure Forks (procs : Slot → Proc) : Prop where
  child : ∀ i np todo, (procs i).pc = .fork np todo →
    (procs np).pc = .embryo ∧ todo.Nodup ∧ ∀ fd ∈ todo, (procs np).ofile fd = none
  apart : ∀ i j np todo todo', (procs i).pc = .fork np todo → (procs j).pc = .fork np todo' → i = j

structure Inv (s : Sys) : Prop where
  gap : ∀ r, s.gap r = 0
  files : ∀ f, (s.ftable f).Sound
  good : ∀ i, s.Good i
  forks : Forks s.procs
  fault : s.fault = none

/-! ## What it says of the holders -/

theorem held_of_fresh (h : f ∈ pc.fresh) : Res.ref f ∈ pc.held := by
  cases pc with
  | pipe1 f0 => exact List.mem_map_of_mem h
  | pipe2 f0 f1 => exact List.mem_map_of_mem h
  | _ => cases h

theorem descriptor_held (h : (s.procs i).ofile fd = some f) :
    Res.ref f ∈ s.holds (.inl (i, fd)) := by
  rw [Sys.holds, h]
  exact List.mem_singleton_self _

theorem Inv.uses_eq (h : Inv s) (r : Res) : uses s.holds r = s.owed r := by
  have hgap := h.gap r
  rw [Sys.gap] at hgap
  omega

theorem Inv.ref_pos (h : Inv s) {x : Holder} (hx : Res.ref f ∈ s.holds x) :
    1 ≤ (s.ftable f).ref := by
  have huses := h.uses_eq (.ref f)
  have hle := count_le_uses s.holds x (.ref f)
  have hone := one_le_count hx
  exact hone.trans (hle.trans huses.le)

theorem Inv.not_fresh (h : Inv s) {x : Holder} (hx : Res.ref f ∈ s.holds x)
    (hne : x ≠ .inr (.inl j)) : f ∉ (s.procs j).pc.fresh := by
  intro hf
  have href := ((h.good j).fresh f hf).2
  have huses := h.uses_eq (.ref f)
  have hone : uses s.holds (.ref f) ≤ 1 := (huses.trans href).le
  have hj : Res.ref f ∈ s.holds (.inr (.inl j)) := held_of_fresh hf
  exact hne (holder_unique hone hx hj)

/-- A file with a single reference that a process has in its hands has no descriptor. -/
theorem Inv.no_descriptor (h : Inv s) (hpc : Res.ref f ∈ (s.procs i).pc.held)
    (href : (s.ftable f).ref ≤ 1) : (s.procs j).ofile fd ≠ some f := by
  intro hfd
  have hone : uses s.holds (.ref f) ≤ 1 := (h.uses_eq (.ref f)).trans_le href
  have hi : Res.ref f ∈ s.holds (.inr (.inl i)) := hpc
  have hne := holder_unique hone (descriptor_held hfd) hi
  cases hne

theorem Inv.side_open (h : Inv s) {x : Holder} (hx : Res.side p w ∈ s.holds x) :
    ∃ x, s.pipes p = some x ∧ (if w then x.writeopen else x.readopen) = true := by
  have huses := h.uses_eq (.side p w)
  have hle := count_le_uses s.holds x (.side p w)
  have hone := one_le_count hx
  have hmem : Res.side p w ∈ parts p (s.pipes p) :=
    List.count_pos_iff.mp (hone.trans (hle.trans huses.le))
  cases hp : s.pipes p with
  | none =>
      rw [hp] at hmem
      cases hmem
  | some x =>
      rw [hp] at hmem
      refine ⟨x, rfl, ?_⟩
      cases w <;> simpa [parts] using hmem

/-- A read or a write is about a pipe that is open at its end. -/
theorem Inv.pipe_open (h : Inv s) (hpc : (s.procs i).pc.side = some (p, w)) :
    ∃ x, s.pipes p = some x ∧ (if w then x.writeopen else x.readopen) = true := by
  obtain ⟨fd, f, -, hf⟩ := (h.good i).side p w hpc
  refine h.side_open (x := .inr (.inr f)) ?_
  rw [Sys.holds, File.held, if_pos hf.type, hf.pipe, hf.writable]
  exact List.mem_singleton_self _

/-! ## What a step leaves alone -/

/-- The files that process `j` relies on stay as they are, up to `ref`. -/
structure Frame (s t : Sys) (j : Slot) : Prop where
  named : ∀ fd f, (s.procs j).ofile fd = some f → ∃ r, t.ftable f = { s.ftable f with ref := r }
  fresh : ∀ f ∈ (s.procs j).pc.fresh, t.ftable f = s.ftable f

theorem Sys.Good.frame (h : s.Good j) (hproc : t.procs j = s.procs j) (hf : Frame s t j) :
    t.Good j := by
  refine ⟨?_, ?_, ?_, ?_⟩
  · intro fd f hfd
    rw [hproc] at hfd
    obtain ⟨r, hr⟩ := hf.named fd f hfd
    rw [hr]
    exact h.named fd f hfd
  · intro f hmem
    rw [hproc] at hmem
    rw [hf.fresh f hmem]
    exact h.fresh f hmem
  · intro p w hside
    rw [hproc] at hside ⊢
    obtain ⟨fd, f, hfd, hs⟩ := h.side p w hside
    obtain ⟨r, hr⟩ := hf.named fd f hfd
    refine ⟨fd, f, hfd, ?_⟩
    rw [hr]
    exact ⟨hs.type, hs.pipe, hs.writable⟩
  · intro hgone
    rw [hproc] at hgone ⊢
    exact h.gone hgone

theorem Frame.of_eq (h : t.ftable = s.ftable) : Frame s t j :=
  ⟨fun _ f _ => ⟨(s.ftable f).ref, by rw [h]⟩, fun f _ => by rw [h]⟩

/-- One file changes. -/
theorem Frame.of_update {x : File} (hftable : t.ftable = Function.update s.ftable f x)
    (hnamed : ∀ fd, (s.procs j).ofile fd = some f → ∃ r, x = { s.ftable f with ref := r })
    (hfresh : f ∉ (s.procs j).pc.fresh) : Frame s t j := by
  constructor
  · intro fd g hfd
    by_cases hg : g = f
    · subst hg
      obtain ⟨r, hr⟩ := hnamed fd hfd
      exact ⟨r, by rw [hftable, Function.update_self, hr]⟩
    · exact ⟨(s.ftable g).ref, by rw [hftable, Function.update_of_ne hg]⟩
  · intro g hg
    have hne : g ≠ f := by
      rintro rfl
      exact hfresh hg
    rw [hftable, Function.update_of_ne hne]

theorem Forks.update {procs : Slot → Proc} {x : Proc} (h : Forks procs)
    (hi : (procs i).pc ≠ .embryo) (hx : ∀ np todo, x.pc ≠ .fork np todo) :
    Forks (Function.update procs i x) := by
  -- the process that makes the step is neither a parent after it nor a child before it
  have hold : ∀ {j np todo}, (Function.update procs i x j).pc = .fork np todo →
      (procs j).pc = .fork np todo := by
    intro j np todo hj
    by_cases hij : j = i
    · subst hij
      rw [Function.update_self] at hj
      exact absurd hj (hx np todo)
    · rwa [Function.update_of_ne hij] at hj
  constructor
  · intro j np todo hj
    obtain ⟨hembryo, hrest⟩ := h.child j np todo (hold hj)
    have hne : np ≠ i := by
      rintro rfl
      exact hi hembryo
    rw [Function.update_of_ne hne]
    exact ⟨hembryo, hrest⟩
  · intro j k np todo todo' hj hk
    exact h.apart j k np todo todo' (hold hj) (hold hk)

/-- The rule for a step of process `i` alone. -/
theorem Inv.step_of {x : Proc} (h : Inv s) (hprocs : t.procs = Function.update s.procs i x)
    (hi : (s.procs i).pc ≠ .embryo) (hx : ∀ np todo, x.pc ≠ .fork np todo)
    (hgap : ∀ r, t.gap r = 0) (hfiles : ∀ f, (t.ftable f).Sound)
    (hframe : ∀ j, j ≠ i → Frame s t j) (hgood : t.Good i) (hfault : t.fault = s.fault) :
    Inv t := by
  refine ⟨hgap, hfiles, ?_, ?_, hfault.trans h.fault⟩
  · intro j
    by_cases hij : j = i
    · subst hij
      exact hgood
    · have hproc : t.procs j = s.procs j := by rw [hprocs, Function.update_of_ne hij]
      exact (h.good j).frame hproc (hframe j hij)
  · rw [hprocs]
    exact h.forks.update hi hx

/-! ## Steps without the table -/

/-- Nothing is claimed of a process there but what it holds. -/
def Pc.Plain : Pc → Prop
  | .user | .closing .. | .pipeclose .. | .kfree .. | .exit => True
  | _ => False

theorem Pc.Plain.not_fork (h : pc.Plain) : ∀ np todo, pc ≠ .fork np todo := by
  rintro np todo rfl
  exact h

theorem plain_next (fs : List FileIx) (ex : Bool) : (Pc.next fs ex).Plain := by
  cases fs with
  | nil => cases ex <;> trivial
  | cons f fs => trivial

theorem good_quiet (hfresh : (t.procs i).pc.fresh = []) (hside : (t.procs i).pc.side = none)
    (hgone : (t.procs i).pc = .gone → ∀ fd, (t.procs i).ofile fd = none)
    (hnamed : ∀ fd f, (t.procs i).ofile fd = some f → (t.ftable f).type ≠ .none) : t.Good i := by
  refine ⟨hnamed, ?_, ?_, hgone⟩
  · intro f hf
    rw [hfresh] at hf
    cases hf
  · intro p w hs
    cases hside.symm.trans hs

theorem good_plain (hpc : (t.procs i).pc.Plain)
    (hnamed : ∀ fd f, (t.procs i).ofile fd = some f → (t.ftable f).type ≠ .none) : t.Good i := by
  refine good_quiet ?_ ?_ ?_ hnamed
  all_goals cases hp : (t.procs i).pc <;> rw [hp] at hpc
  all_goals first | exact hpc.elim | rfl | simp

theorem Inv.named_frame (h : Inv s) (hofile : (t.procs i).ofile = (s.procs i).ofile)
    (hframe : Frame s t i) (fd : Fd) (f : FileIx) (hfd : (t.procs i).ofile fd = some f) :
    (t.ftable f).type ≠ .none := by
  rw [hofile] at hfd
  obtain ⟨r, hr⟩ := hframe.named fd f hfd
  rw [hr]
  exact (h.good i).named fd f hfd

theorem Inv.good_goes (h : Inv s) (hpc : (t.procs i).pc.Plain)
    (hofile : (t.procs i).ofile = (s.procs i).ofile) (hframe : Frame s t i) : t.Good i :=
  good_plain hpc (h.named_frame hofile hframe)

/-- Process `i` goes on, with the same in its hands. -/
theorem Inv.goes {x : Proc} (h : Inv s) (hi : (s.procs i).pc ≠ .embryo)
    (hofile : x.ofile = (s.procs i).ofile) (hheld : x.pc.held = (s.procs i).pc.held)
    (hpc : x.pc.Plain) : Inv (s.setProc i x) := by
  refine h.step_of rfl hi hpc.not_fork ?_ h.files (fun j _ => .of_eq rfl) ?_ rfl
  · intro r
    rw [gap_setProc hofile, hheld, h.gap r]
    omega
  · exact h.good_goes (by simpa using hpc) (by simpa using hofile) (.of_eq rfl)

/-- Process `i` goes on in a read or a write. -/
theorem Inv.goes_side (h : Inv s) (hi : (s.procs i).pc ≠ .embryo)
    (hheld : (s.procs i).pc.held = []) (hpc : pc.side = some (p, w))
    (hside : ∃ fd f, (s.procs i).ofile fd = some f ∧ (s.ftable f).IsSide p w) :
    Inv (s.setPc i pc) := by
  have hnew : pc.held = [] ∧ pc.fresh = [] ∧ pc ≠ .gone ∧ ∀ np todo, pc ≠ .fork np todo := by
    cases pc <;> simp [Pc.side, Pc.held, Pc.fresh] at hpc ⊢
  obtain ⟨hnone, hfresh, hgone, hfork⟩ := hnew
  have hproc : (s.setPc i pc).procs i = { s.procs i with pc := pc } := Function.update_self ..
  refine h.step_of rfl hi hfork ?_ h.files (fun j _ => .of_eq rfl) ?_ rfl
  · intro r
    rw [gap_setPc, hheld, hnone, h.gap r]
    rfl
  · refine ⟨?_, ?_, ?_, ?_⟩
    · intro fd f hfd
      rw [hproc] at hfd
      exact (h.good i).named fd f hfd
    · intro f hf
      rw [hproc] at hf
      rw [hfresh] at hf
      cases hf
    · intro q v hq
      rw [hproc] at hq ⊢
      obtain ⟨rfl, rfl⟩ := Prod.mk.inj (Option.some.inj (hpc.symm.trans hq))
      exact hside
    · intro hg
      rw [hproc] at hg
      exact absurd hg hgone

theorem Inv.setPipe {x : Option Pipe} (h : Inv s) (hx : parts p x = parts p (s.pipes p)) :
    Inv (s.setPipe p x) := by
  refine ⟨?_, h.files, fun j => (h.good j).frame rfl (.of_eq rfl), h.forks, h.fault⟩
  intro r
  rw [gap_setPipe, hx, h.gap r]
  omega

/-- What a wake-up leaves of a process. -/
structure Wakes (wake : Pc → Pc) : Prop where
  held : ∀ pc, (wake pc).held = pc.held
  fresh : ∀ pc, (wake pc).fresh = pc.fresh
  side : ∀ pc, (wake pc).side = pc.side
  gone : ∀ pc, wake pc = .gone → pc = .gone
  embryo : wake .embryo = .embryo
  fork : ∀ pc np todo, wake pc = .fork np todo → pc = .fork np todo

theorem wakes_read (p : Page) : Wakes (.wakeRead p) := by
  refine ⟨held_wakeRead p, ?_, ?_, ?_, rfl, ?_⟩
  all_goals
    intro pc
    cases pc with
    | readSleep q n =>
        rw [Pc.wakeRead]
        split <;> simp [Pc.fresh, Pc.side]
    | _ => simp [Pc.wakeRead]

theorem wakes_write (p : Page) : Wakes (.wakeWrite p) := by
  refine ⟨held_wakeWrite p, ?_, ?_, ?_, rfl, ?_⟩
  all_goals
    intro pc
    cases pc with
    | writeSleep q n rest =>
        rw [Pc.wakeWrite]
        split <;> simp [Pc.fresh, Pc.side]
    | _ => simp [Pc.wakeWrite]

theorem Inv.wakeup {wake : Pc → Pc} (h : Inv s) (hw : Wakes wake) : Inv (s.wakeup wake) := by
  refine ⟨?_, h.files, ?_, ⟨?_, ?_⟩, h.fault⟩
  · intro r
    rw [gap_wakeup hw.held, h.gap r]
  · intro i
    refine ⟨(h.good i).named, ?_, ?_, ?_⟩
    · intro f hf
      rw [wakeup_pc, hw.fresh] at hf
      exact (h.good i).fresh f hf
    · intro p w hside
      rw [wakeup_pc, hw.side] at hside
      exact (h.good i).side p w hside
    · intro hgone
      exact (h.good i).gone (hw.gone _ hgone)
  · intro i np todo hi
    obtain ⟨hembryo, hrest⟩ := h.forks.child i np todo (hw.fork _ _ _ hi)
    refine ⟨?_, hrest⟩
    rw [wakeup_pc, hembryo]
    exact hw.embryo
  · intro i j np todo todo' hi hj
    exact h.forks.apart i j np todo todo' (hw.fork _ _ _ hi) (hw.fork _ _ _ hj)

end Cs537.Files
