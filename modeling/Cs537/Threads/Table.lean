/-
# `Cs537.Threads.Table` — processes and threads (p4/xv6)

The process table of `proc.c` as `fork`, `clone`, `exec`, `exit`, `wait` and
`join` change it.  A system call is one step, except that `wait` and `join` may
put their caller to sleep in the middle; `RUNNABLE` and `RUNNING` are one state
here.  A pointer to a process is its slot.

A page directory is its address.  `kalloc` may return any page that is not in
use, also one that was a page directory before; what the calls of `setupkvm`
and `copyuvm` return is part of the event.  What a page directory maps is left
out: only whether it has been freed matters.

`log` is not in the kernel: it lists what `fork`, `clone` and `join` have
returned to each process.
-/
import Mathlib.Algebra.Order.Ring.Nat
import Mathlib.Logic.Function.Basic
import Mathlib.Data.Fintype.Basic
import Mathlib.Data.List.FinRange

namespace Cs537.Threads

def nproc : Nat := 64

instance : NeZero nproc := ⟨by decide⟩

abbrev Slot := Fin nproc

/-- The address of a page directory. -/
abbrev Dir := Nat

inductive PState where
  | unused
  /-- `RUNNABLE` or `RUNNING` -/
  | runnable
  | sleeping
  | zombie
  deriving DecidableEq

/-- The loop in which a process sleeps. -/
inductive Call where
  | wait
  | join
  deriving DecidableEq

/-- `struct proc`; a null `pgdir` or `parent` is `none`. -/
structure Proc where
  state : PState
  pid : Int
  parent : Option Slot
  pgdir : Option Dir
  killed : Bool
  num_child : Int
  parent_pid : Int
  stack : Nat
  /-- in the loop of `wait` or `join` -/
  call : Option Call

abbrev Table := Slot → Proc

/-- Process `pid`, by its `fork`, `clone` or `join`, has got the child or the
thread. -/
inductive Entry where
  | forked (pid child : Int)
  | cloned (pid thread : Int)
  | joined (pid thread : Int)
  deriving DecidableEq

structure Sys where
  ptable : Table
  nextpid : Int
  /-- the page directories in use -/
  dirs : Dir → Bool
  log : List Entry

/-- The first process. -/
def initproc : Slot := ⟨0, by decide⟩

/-! ## Processes -/

def Sys.setProc (s : Sys) (p : Slot) (x : Proc) : Sys :=
  { s with ptable := Function.update s.ptable p x }

/-- A process that is `RUNNABLE`, `RUNNING` or `SLEEPING`. -/
def Proc.Live (p : Proc) : Prop := p.state = .runnable ∨ p.state = .sleeping

instance (p : Proc) : Decidable p.Live := inferInstanceAs (Decidable (_ ∨ _))

/-- `p` is running user code, and can make a system call. -/
def Proc.Ready (p : Proc) : Prop := p.state = .runnable ∧ p.call = none

instance (p : Proc) : Decidable p.Ready := inferInstanceAs (Decidable (_ ∧ _))

/-- `wakeup1` on the address of a process. -/
def wakeup1 (p : Slot) (T : Table) : Table :=
  if (T p).state = .sleeping then Function.update T p { T p with state := .runnable } else T

/-- The fields that `allocproc` sets. -/
def Proc.fresh (p : Proc) (pid : Int) : Proc := { p with pid := pid, parent_pid := -1, num_child := 0 }

/-- `allocproc`, with a kernel stack or without. -/
def Sys.allocproc (s : Sys) (ok : Bool) : Option Slot × Sys :=
  match (List.finRange nproc).find? fun p => (s.ptable p).state = .unused with
  | none => (none, s)
  | some np =>
      (if ok then some np else none,
        { s.setProc np ((s.ptable np).fresh s.nextpid) with nextpid := s.nextpid + 1 })

/-! ## Page directories -/

/-- A page directory from `setupkvm` or `copyuvm`, at address `a`. -/
def Sys.newdir (s : Sys) (a : Dir) : Option Sys :=
  if s.dirs a then none else some { s with dirs := Function.update s.dirs a true }

/-- `freevm`; `none` is the panic. -/
def Sys.freevm (s : Sys) (d : Option Dir) : Option Sys :=
  d.map fun a => { s with dirs := Function.update s.dirs a false }

/-! ## `fork`, `clone` and `exec` -/

/-- `fork`; `a` is the result of `copyuvm`. -/
def Sys.fork (s : Sys) (x : Slot) (ok : Bool) (a : Option Dir) : Option Sys :=
  match s.allocproc ok, a with
  | (none, s), _ => some s
  | (some _, s), none => some s
  | (some np, s), some a =>
      (s.newdir a).map fun s =>
        let s := s.setProc np { s.ptable np with
          state := .runnable, pgdir := some a, parent := some x, call := none }
        { s with log := .forked (s.ptable x).pid (s.ptable np).pid :: s.log }

/-- `clone`. -/
def Sys.clone (s : Sys) (x : Slot) (ok : Bool) (stack : Nat) : Sys :=
  match s.allocproc ok with
  | (none, s) => s
  | (some np, s) =>
      let s := s.setProc x { s.ptable x with num_child := (s.ptable x).num_child + 1 }
      let s := s.setProc np { s.ptable np with
        state := .runnable, pgdir := (s.ptable x).pgdir, parent := some x,
        parent_pid := (s.ptable x).pid, stack := stack, call := none }
      { s with log := .cloned (s.ptable x).pid (s.ptable np).pid :: s.log }

/-- `exec`; `a` is the new page directory, if it does not fail. -/
def Sys.exec (s : Sys) (x : Slot) (a : Option Dir) : Option Sys :=
  match a with
  | none => some s
  | some a =>
      (s.newdir a).bind fun s =>
        let oldpgdir := (s.ptable x).pgdir
        Sys.freevm (s.setProc x { s.ptable x with pgdir := some a }) oldpgdir

/-! ## `exit` -/

/-- The part of the loop over the children that copies: `d` is `proc->pgdir`,
`copies` has the results of the calls of `copyuvm` still to come.  A copy of a
null page directory is not defined. -/
def copies (T : Table) (x : Slot) :
    List Slot → Option Dir → List (Option Dir) → (Dir → Bool) → Option (Option Dir × (Dir → Bool))
  | [], d, _, dirs => some (d, dirs)
  | p :: l, d, cs, dirs =>
      if (T p).parent = some x ∧ (T p).pgdir = d then
        match d, cs with
        | some _, some a :: cs =>
            if dirs a then none else copies T x l (some a) cs (Function.update dirs a true)
        | some _, none :: cs => copies T x l none cs dirs
        | _, _ => none
      else copies T x l d cs dirs

/-- The rest of the loop: the children go to `initproc`, which is woken for the
zombies among them. -/
def orphan (x : Slot) (T : Table) : Table := fun p =>
  if (T p).parent = some x then { T p with parent := some initproc } else T p

def abandon (x : Slot) (T : Table) : Table :=
  if (List.finRange nproc).any fun p => (T p).parent = some x ∧ (T p).state = .zombie then
    wakeup1 initproc (orphan x T)
  else orphan x T

/-- `wakeup1(proc->parent)`. -/
def wakeParent (x : Slot) (T : Table) : Table :=
  match (T x).parent with
  | some p => wakeup1 p T
  | none => T

def Sys.exit (s : Sys) (x : Slot) (cs : List (Option Dir)) : Option Sys :=
  if x = initproc then none
  else
    (copies s.ptable x (List.finRange nproc) (s.ptable x).pgdir cs s.dirs).map fun (d, dirs) =>
      let T := abandon x (wakeParent x s.ptable)
      Sys.setProc { s with ptable := T, dirs := dirs } x { T x with pgdir := d, state := .zombie }

/-! ## `wait` and `join` -/

/-- The test of `wait` for a child that does not share the address space, and
that of `join` for one that does. -/
def Call.test (c : Call) (T : Table) (x p : Slot) : Prop :=
  (T p).parent = some x ∧ match c with
    | .wait => (T p).pgdir ≠ (T x).pgdir
    | .join => (T p).pgdir = (T x).pgdir

instance (c : Call) (T : Table) (x p : Slot) : Decidable (c.test T x p) :=
  match c with
  | .wait => inferInstanceAs (Decidable (_ ∧ _))
  | .join => inferInstanceAs (Decidable (_ ∧ _))

/-- What one turn through the table comes to. -/
inductive Ret where
  | found (p : Slot)
  | fail
  | sleep
  deriving DecidableEq

def Call.look (c : Call) (T : Table) (x : Slot) : Ret :=
  match (List.finRange nproc).find? fun p => c.test T x p ∧ (T p).state = .zombie with
  | some p => .found p
  | none =>
      if ¬ ((List.finRange nproc).any fun p => c.test T x p) ∨ (T x).killed then .fail else .sleep

/-- `np->num_child--` for the processes with pid `k`. -/
def dropChild (k : Int) (T : Table) : Table := fun p =>
  if (T p).pid = k then { T p with num_child := (T p).num_child - 1 } else T p

/-- Some slot has pid `k`. -/
def hasPid (k : Int) (T : Table) : Bool := (List.finRange nproc).any fun p => (T p).pid = k

def Proc.clear (p : Proc) : Proc := { p with state := .unused, pid := 0, parent := none, killed := false }

/-- The page directory that a turn of the loop frees. -/
def Call.frees (c : Call) (T : Table) (x : Slot) : Option (Option Dir) :=
  match c, c.look T x with
  | .wait, .found p => if hasPid (T p).parent_pid T then none else some (T p).pgdir
  | _, _ => none

/-- The zombie `p` is taken out of the table. -/
def Sys.reap (s : Sys) (c : Call) (x p : Slot) : Sys :=
  let T := dropChild (s.ptable p).parent_pid s.ptable
  let s := Sys.setProc { s with ptable := T } p (T p).clear
  let s := s.setProc x { s.ptable x with call := none }
  match c with
  | .wait => s
  | .join => { s with log := .joined (T x).pid (T p).pid :: s.log }

/-- The loop of `wait` or `join`, up to its end or to `sleep`. -/
def Sys.loop (s : Sys) (c : Call) (x : Slot) : Option Sys :=
  match c.look s.ptable x with
  | .found p => match c.frees s.ptable x with
      | some d => (s.freevm d).map fun s => s.reap c x p
      | none => some (s.reap c x p)
  | .fail => some (s.setProc x { s.ptable x with call := none })
  | .sleep => some (s.setProc x { s.ptable x with state := .sleeping, call := some c })

/-- A call of `join` returns at once if the caller has no thread. -/
def Sys.call (s : Sys) (c : Call) (x : Slot) : Option Sys :=
  if c = .join ∧ (s.ptable x).num_child = 0 then some s else s.loop c x

/-- `kill`: the first process with the pid. -/
def Sys.kill (s : Sys) (pid : Int) : Sys :=
  match (List.finRange nproc).find? fun p => (s.ptable p).pid = pid with
  | none => s
  | some p =>
      let x := { s.ptable p with killed := true }
      s.setProc p (if x.state = .sleeping then { x with state := .runnable } else x)

/-! ## What the calls do -/

section

variable {s t : Sys} {x p q : Slot} {y : Proc}

@[simp] theorem setProc_self : (s.setProc p y).ptable p = y := Function.update_self ..

theorem setProc_of_ne (h : q ≠ p) : (s.setProc p y).ptable q = s.ptable q := Function.update_of_ne h ..

/-- A slot that got a pid and is free again. -/
def Sys.spent (s : Sys) (np : Slot) : Sys :=
  { s.setProc np ((s.ptable np).fresh s.nextpid) with nextpid := s.nextpid + 1 }

/-- A new process in a free slot. -/
def Sys.child (s : Sys) (np x : Slot) (d : Option Dir) (parent_pid : Int) (stack : Nat) : Sys :=
  { s.setProc np { (s.ptable np).fresh s.nextpid with
      state := .runnable, pgdir := d, parent := some x, parent_pid := parent_pid, stack := stack,
      call := none } with nextpid := s.nextpid + 1 }

theorem allocproc_cases {ok : Bool} {r : Option Slot} (h : s.allocproc ok = (r, t)) :
    (r = none ∧ t = s) ∨
      ∃ np, (s.ptable np).state = .unused ∧ t = s.spent np ∧ (r = none ∨ r = some np) := by
  rw [Sys.allocproc] at h
  split at h
  · cases h
    exact .inl ⟨rfl, rfl⟩
  · rename_i np hfind
    have hfree := List.find?_some hfind
    simp only [decide_eq_true_eq] at hfree
    cases h
    refine .inr ⟨np, hfree, rfl, ?_⟩
    cases ok with
    | false => exact .inl rfl
    | true => exact .inr rfl

theorem newdir_some {a : Dir} (h : s.newdir a = some t) :
    s.dirs a = false ∧ t = { s with dirs := Function.update s.dirs a true } := by
  rw [Sys.newdir] at h
  split at h
  · cases h
  · rename_i ha
    exact ⟨by simpa using ha, (Option.some.inj h).symm⟩

theorem fork_cases {ok : Bool} {a : Option Dir} (h : s.fork x ok a = some t)
    (hx : (s.ptable x).state ≠ .unused) :
    t = s ∨ ∃ np, (s.ptable np).state = .unused ∧ (t = s.spent np ∨ ∃ a, s.dirs a = false ∧
      t = { s.child np x (some a) (-1) (s.ptable np).stack with
        dirs := Function.update s.dirs a true
        log := .forked (s.ptable x).pid s.nextpid :: s.log }) := by
  rcases halloc : s.allocproc ok with ⟨r, u⟩
  simp only [Sys.fork, halloc] at h
  rcases allocproc_cases halloc with ⟨rfl, rfl⟩ | ⟨np, hfree, rfl, hr⟩
  · exact .inl (Option.some.inj h).symm
  · right
    refine ⟨np, hfree, ?_⟩
    rcases hr with rfl | rfl
    · exact .inl (Option.some.inj h).symm
    · cases a with
      | none => exact .inl (Option.some.inj h).symm
      | some a =>
          obtain ⟨u, hu, rfl⟩ := Option.map_eq_some_iff.mp h
          obtain ⟨ha, rfl⟩ := newdir_some hu
          refine .inr ⟨a, ha, ?_⟩
          have hne : x ≠ np := fun he => hx (he ▸ hfree)
          simp [Sys.spent, Sys.child, Sys.setProc, Proc.fresh, Function.update_of_ne hne]

theorem clone_cases (ok : Bool) (stack : Nat) (hx : (s.ptable x).state ≠ .unused) :
    s.clone x ok stack = s ∨ ∃ np, (s.ptable np).state = .unused ∧
      (s.clone x ok stack = s.spent np ∨
        s.clone x ok stack = { (s.child np x (s.ptable x).pgdir (s.ptable x).pid stack).setProc x
            { s.ptable x with num_child := (s.ptable x).num_child + 1 } with
          log := .cloned (s.ptable x).pid s.nextpid :: s.log }) := by
  rw [Sys.clone]
  rcases halloc : s.allocproc ok with ⟨r, u⟩
  rcases allocproc_cases halloc with ⟨rfl, rfl⟩ | ⟨np, hfree, rfl, hr⟩
  · exact .inl rfl
  · right
    refine ⟨np, hfree, ?_⟩
    have hne : x ≠ np := fun he => hx (he ▸ hfree)
    rcases hr with rfl | rfl
    · exact .inl rfl
    · right
      simp only [Sys.spent, Sys.child, Sys.setProc, Function.update_self, Function.update_of_ne hne,
        Function.update_of_ne hne.symm, Proc.fresh]
      rw [Function.update_comm hne]
      simp

end

/-! ## Steps -/

inductive Event where
  | fork (x : Slot) (ok : Bool) (a : Option Dir)
  | clone (x : Slot) (ok : Bool) (stack : Nat)
  | exec (x : Slot) (a : Option Dir)
  | exit (x : Slot) (cs : List (Option Dir))
  | call (c : Call) (x : Slot)
  /-- `x` has been woken in `wait` or `join` -/
  | resume (x : Slot)
  | kill (x : Slot) (pid : Int)

/-- `none` is a panic, or an event that cannot happen. -/
def Sys.step (s : Sys) : Event → Option Sys
  | .fork x ok a => if (s.ptable x).Ready then s.fork x ok a else none
  | .clone x ok stack => if (s.ptable x).Ready then some (s.clone x ok stack) else none
  | .exec x a => if (s.ptable x).Ready then s.exec x a else none
  | .exit x cs => if (s.ptable x).Ready then s.exit x cs else none
  | .call c x => if (s.ptable x).Ready then s.call c x else none
  | .resume x =>
      if (s.ptable x).state = .runnable then (s.ptable x).call.bind fun c => s.loop c x else none
  | .kill x pid => if (s.ptable x).Ready then some (s.kill pid) else none

/-- `init` in slot 0, with the page directory `a`. -/
def boot (a : Dir) : Sys where
  ptable p :=
    if p = initproc then ⟨.runnable, 1, none, some a, false, 0, -1, 0, none⟩
    else ⟨.unused, 0, none, none, false, 0, 0, 0, none⟩
  nextpid := 2
  dirs b := b = a
  log := []

end Cs537.Threads
