/-
# `Cs537.Names.Inv` — links, references and the tree (p5/xv6)

`Inv s`: the counts of the inodes are right, and the directories are a tree.  An entry counts
as a link of its inode if its directory is alive; so does `..`, but not `.`.  A link that
`sys_link` has counted and not yet made is with the process.

`Inv.of_step` says what a step of one process has to keep, in terms of what the step adds to
the counts; `Inv.of_proc` is the case that no inode changes.
-/
import Cs537.Names.Shape

namespace Cs537.Names

open Cs537.Lib

variable {s t : Sys} {i j : Slot} {n m c d dp : Inum} {x y : Inode} {k : Nat} {name : Name}
  {f g : Inum → Inode} {p : Proc}

/-! ## Who refers to an inode -/

/-- The link that has been counted and not yet made. -/
def Goal.held : Goal → List Inum
  | .linkTo old => [old]
  | _ => []

def Pc.pending : Pc → List Inum
  | .walk _ _ goal => goal.held
  | .found _ _ goal => goal.held
  | .bad ip => [ip]
  | _ => []

/-- The references that the process has in the middle of a call. -/
def Pc.held : Pc → List Inum
  | .user => []
  | .walk ip _ goal => ip :: goal.held
  | .found ip _ goal => ip :: goal.held
  | .present ip _ _ => [ip]
  | .bad ip => [ip]

/-- What the call is for, as long as it looks for the inode. -/
def Pc.goal : Pc → Option Goal
  | .walk _ _ goal => some goal
  | .found _ _ goal => some goal
  | _ => none

/-- `create` is called for some type. -/
def Pc.Kind (pc : Pc) : Prop := ∀ type full, pc.goal = some (.create type full) → type ≠ .free

def Proc.held (p : Proc) : List Inum := p.cwd :: p.files ++ p.drops ++ p.pc.held

def Sys.held (s : Sys) (i : Slot) : List Inum := (s.procs i).held

/-- The links that the directories make. -/
def made (f : Inum → Inode) (d : Inum) : List Inum := (f d).links

/-- The links that `sys_link` has counted and not yet made. -/
def Sys.pending (s : Sys) (i : Slot) : List Inum := (s.procs i).pc.pending

def Sys.links (s : Sys) (n : Inum) : Nat := uses (made s.inodes) n + uses s.pending n

/-- What holds of a process: a directory that `nameiparent` has returned is one. -/
structure Proc.Good (f : Inum → Inode) (p : Proc) : Prop where
  cwd : (f p.cwd).type = .dir
  parent : ∀ ip name goal, p.pc = .found ip name goal → goal.parent = true →
    (f ip).type = .dir
  pending : ∀ n ∈ p.pc.pending, (f n).type ≠ .dir
  kind : p.pc.Kind

structure Inv (s : Sys) : Prop where
  refs : ∀ n, s.ref n = uses s.held n
  links : ∀ n, (s.inodes n).nlink = s.links n
  used : ∀ n, (s.inodes n).type ≠ .free → 0 < (s.inodes n).nlink + s.ref n
  shape : Shape s.inodes
  good : ∀ i, (s.procs i).Good s.inodes

/-! ## Reading the invariant -/

theorem Inv.pos_of_pending (h : Inv s) (hn : n ∈ (s.procs i).pc.pending) :
    0 < (s.inodes n).nlink := by
  have hcount : 1 ≤ (s.pending i).count n := one_le_count hn
  have hle := count_le_uses s.pending i n
  rw [h.links n, Sys.links]
  omega

theorem Inv.pos_of_kid (h : Inv s) (hd : (s.inodes d).type = .dir) (hn : n ∈ (s.inodes d).kids) :
    0 < (s.inodes n).nlink := by
  have halive := h.shape.alive_of_kid hd hn
  obtain ⟨p, hp⟩ := h.shape.dots d hd
  have hcount : 1 ≤ (made s.inodes d).count n := one_le_count (mem_kids_links hp halive hn)
  have hle := count_le_uses (made s.inodes) d n
  rw [h.links n, Sys.links]
  omega

theorem Inv.ne_free (h : Inv s) (hpos : 0 < (s.inodes n).nlink) : (s.inodes n).type ≠ .free := by
  intro hfree
  rw [h.shape.free n hfree] at hpos
  exact Nat.lt_irrefl 0 hpos

theorem Pc.kind_of_none {pc : Pc} (h : pc.goal = none) : pc.Kind := by
  intro type full he
  rw [h] at he
  cases he

/-! ## Steps -/

theorem Proc.Good.congr (h : p.Good f)
    (hdir : ∀ n ∈ p.held, (f n).type = .dir → (g n).type = .dir)
    (hpend : ∀ n ∈ p.pc.pending, (f n).type ≠ .dir → (g n).type ≠ .dir) : p.Good g := by
  refine ⟨hdir _ List.mem_cons_self h.cwd, ?_, fun n hn => hpend n hn (h.pending n hn), h.kind⟩
  intro ip name goal hpc hparent
  refine hdir ip ?_ (h.parent ip name goal hpc hparent)
  refine List.mem_append_right _ ?_
  rw [hpc]
  exact List.mem_cons_self

/-- A step of process `i` that leaves it as `p`. -/
theorem Inv.of_step (h : Inv s) (hp : t.procs = Function.update s.procs i p)
    (hrefs : ∀ n, t.ref n + (s.held i).count n = s.ref n + p.held.count n)
    (hlinks : ∀ n, (t.inodes n).nlink + uses (made s.inodes) n + (s.pending i).count n =
      (s.inodes n).nlink + uses (made t.inodes) n + p.pc.pending.count n)
    (hused : ∀ n, (t.inodes n).type ≠ .free → 0 < (t.inodes n).nlink + t.ref n)
    (hshape : Shape t.inodes) (hgood : p.Good t.inodes)
    (hothers : ∀ j, j ≠ i → (s.procs j).Good t.inodes) : Inv t := by
  have hheld : t.held = Function.update s.held i p.held := by
    funext j
    rw [Sys.held, hp]
    by_cases hj : j = i
    · rw [hj, Function.update_self, Function.update_self]
    · rw [Function.update_of_ne hj, Function.update_of_ne hj]
      rfl
  have hpending : t.pending = Function.update s.pending i p.pc.pending := by
    funext j
    rw [Sys.pending, hp]
    by_cases hj : j = i
    · rw [hj, Function.update_self, Function.update_self]
    · rw [Function.update_of_ne hj, Function.update_of_ne hj]
      rfl
  refine ⟨?_, ?_, hused, hshape, ?_⟩
  · intro n
    have hsum := uses_update s.held i p.held n
    have hold := h.refs n
    have hstep := hrefs n
    rw [hheld]
    omega
  · intro n
    have hsum := uses_update s.pending i p.pc.pending n
    have hold := h.links n
    have hstep := hlinks n
    rw [Sys.links] at hold
    rw [Sys.links, hpending]
    omega
  · intro j
    rw [hp]
    by_cases hj : j = i
    · rw [hj, Function.update_self]
      exact hgood
    · rw [Function.update_of_ne hj]
      exact hothers j hj

/-- A step that changes no inode. -/
theorem Inv.of_proc (h : Inv s) (hi : t.inodes = s.inodes)
    (hp : t.procs = Function.update s.procs i p)
    (hrefs : ∀ n, t.ref n + (s.held i).count n = s.ref n + p.held.count n)
    (hpend : p.pc.pending = (s.procs i).pc.pending)
    (hkept : ∀ n, (s.inodes n).type ≠ .free → (s.inodes n).nlink = 0 → 0 < s.ref n → 0 < t.ref n)
    (hgood : p.Good s.inodes) : Inv t := by
  refine h.of_step hp hrefs ?_ ?_ (hi ▸ h.shape) (hi ▸ hgood) fun j _ => hi ▸ h.good j
  · intro n
    rw [hi, hpend]
    rfl
  · intro n hn
    rw [hi] at hn ⊢
    have hused := h.used n hn
    have hkeep := hkept n hn
    omega

end Cs537.Names
