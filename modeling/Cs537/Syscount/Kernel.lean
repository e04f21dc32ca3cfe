/-
# `Cs537.Syscount.Kernel` — processes and their system calls (p1/p1b/xv6)

The table of processes of `proc.c`, the plain scheduler, and `syscall`, which
counts the calls of a process in `proc->counter`.  Any number of CPUs run
`scheduler` or a process; a step of a CPU is at most one critical section of
`ptable.lock`, and a statement of `fork` after `allocproc` that other CPUs can
see is a step of its own:

    np->state = RUNNABLE;      publish
    np->counter = 0;           reset

A timer interrupt, and with it `yield`, may come wherever the lock is not held.
`scheduler` clears `proc` when a process comes back, so that an idle CPU has none.
What is on a kernel stack is recorded in the process it belongs to (`pc`).
-/
import Cs537.Lib.Run
import Mathlib.Algebra.Order.Ring.Nat
import Mathlib.Logic.Function.Basic
import Mathlib.Data.List.FinRange

namespace Cs537.Syscount

def nproc : Nat := 64

abbrev Slot := Fin nproc

instance lawfulBEqSlot : LawfulBEq Slot := inferInstance

/-- `enum procstate`. -/
inductive PState where
  | unused
  | embryo
  | sleeping
  | runnable
  | running
  | zombie
  deriving DecidableEq

/-- What a process sleeps on: a process (in `wait`), or another address. -/
inductive Chan where
  | proc (p : Slot)
  | other (a : Nat)
  deriving DecidableEq

def SYS_fork : Int := 1

def SYS_exit : Int := 2

def SYS_wait : Int := 3

def SYS_kill : Int := 8

def SYS_getnumsyscallp : Int := 22

/-- `NELEM(syscalls)`; the entries from 1 on are not `NULL`. -/
def nelem : Int := 23

/-- Where a process is: in user code; in `syscalls[num]()`; in `fork`, with the
child and whether it has been made `RUNNABLE`; in front of the code that runs
after a switch. -/
inductive Pc where
  | user
  | call (num : Int)
  | fork (np : Slot) (published : Bool)
  | forkret
  | yielded (pc : Pc)
  | slept (num : Int)
  | waited
  deriving DecidableEq

/-- `struct proc`; `eax` is the register in its trap frame. -/
structure Proc where
  state : PState
  pid : Int
  parent : Option Slot
  chan : Option Chan
  killed : Bool
  counter : BitVec 32
  eax : Int
  pc : Pc

abbrev Table := Slot → Proc

/-- `wakeup1`. -/
def wakeup1 (chan : Chan) (T : Table) : Table := fun p =>
  if (T p).state = .sleeping ∧ (T p).chan = some chan then { T p with state := .runnable } else T p

/-- `wakeup1(proc->parent)`. -/
def wakeParent (p : Slot) (T : Table) : Table :=
  match (T p).parent with
  | some q => wakeup1 (.proc q) T
  | none => T

def initproc : Slot := ⟨0, by decide⟩

/-- The loop of `exit`: the children of `p` go to `initproc`, which is woken for
the zombies among them. -/
def abandon (p : Slot) (T : Table) : Table :=
  let T' : Table := fun q =>
    if (T q).parent = some p then { T q with parent := some initproc } else T q
  if (List.finRange nproc).any fun q => (T q).parent = some p ∧ (T q).state = .zombie then
    wakeup1 (.proc initproc) T'
  else T'

/-- `kill`, with what it returns. -/
def kill (pid : Int) (T : Table) : Int × Table :=
  match (List.finRange nproc).find? fun p => (T p).pid = pid with
  | none => (-1, T)
  | some p =>
      let q := { T p with killed := true }
      (0, Function.update T p (if q.state = .sleeping then { q with state := .runnable } else q))

/-! ## The machine -/

/-- `cpu c` is the process that CPU `c` runs, `none` if it is in `scheduler`. -/
structure Sys (n : Nat) where
  ptable : Table
  nextpid : Int
  lock : Option (Fin n)
  cpu : Fin n → Option Slot

/-- The event of a step, with its CPU. -/
inductive Event (n : Nat) where
  /-- `scheduler` takes the lock -/
  | pass (c : Fin n)
  /-- the code after a switch to a process -/
  | resume (c : Fin n)
  /-- a timer interrupt -/
  | yield (c : Fin n)
  /-- the default case of `trap`, in user code -/
  | fault (c : Fin n)
  /-- a trap with the number `num` in `eax`, up to the call of the handler -/
  | syscall (c : Fin n) (num : Int)
  /-- the handler returns, `v` if it is not modelled here -/
  | ret (c : Fin n) (v : Int)
  /-- the handler goes to sleep -/
  | sleep (c : Fin n) (a : Nat)
  | wakeup (c : Fin n) (a : Nat)
  | kill (c : Fin n) (pid : Int)
  | exit (c : Fin n)
  | wait (c : Fin n)
  /-- `fork`, up to the end of `allocproc` -/
  | fork (c : Fin n)
  /-- `fork`, up to `np->state = RUNNABLE`, or to a failure -/
  | publish (c : Fin n) (ok : Bool)
  /-- `fork`, the rest -/
  | reset (c : Fin n)

section

variable {n : Nat}

def Sys.setProc (s : Sys n) (p : Slot) (x : Proc) : Sys n :=
  { s with ptable := Function.update s.ptable p x }

def Sys.setPc (s : Sys n) (p : Slot) (pc : Pc) : Sys n := s.setProc p { s.ptable p with pc := pc }

/-- `proc->tf->eax = v`, and back to user code. -/
def Sys.return (s : Sys n) (p : Slot) (v : Int) : Sys n :=
  s.setProc p { s.ptable p with eax := v, pc := .user }

/-- The loop of `scheduler` over the slots `l`: it switches to a process, or ends
and releases the lock. -/
def Sys.loop (s : Sys n) (c : Fin n) (l : List Slot) : Sys n :=
  match l.find? fun p => (s.ptable p).state = .runnable with
  | some p =>
      { s.setProc p { s.ptable p with state := .running } with
        lock := some c, cpu := Function.update s.cpu c (some p) }
  | none => { s with lock := none, cpu := Function.update s.cpu c none }

/-- `sched` on the stack of `p`: back in the loop behind `p`. -/
def Sys.sched (s : Sys n) (c : Fin n) (p : Slot) : Sys n :=
  s.loop c ((List.finRange nproc).drop (p.val + 1))

/-- `exit`, after `acquire`. -/
def Sys.exit (s : Sys n) (c : Fin n) (p : Slot) : Option (Sys n) :=
  if p = initproc then none
  else
    let T := abandon p (wakeParent p s.ptable)
    some (Sys.sched { s with ptable := Function.update T p { T p with state := .zombie } } c p)

/-- The loop of `wait`, with the lock: reap a child, return, or sleep. -/
def Sys.waitLoop (s : Sys n) (c : Fin n) (p : Slot) : Sys n :=
  match (List.finRange nproc).find? fun q =>
      (s.ptable q).parent = some p ∧ (s.ptable q).state = .zombie with
  | some q =>
      let x := { s.ptable q with state := .unused, pid := 0, parent := none, killed := false }
      { (s.setProc q x).return p (s.ptable q).pid with lock := none }
  | none =>
      if ¬ ((List.finRange nproc).any fun q => (s.ptable q).parent = some p) ∨
          (s.ptable p).killed then
        { s.return p (-1) with lock := none }
      else
        (s.setProc p { s.ptable p with
          chan := some (.proc p), state := .sleeping, pc := .waited }).sched c p

/-- The code after a switch to `p`. -/
def Sys.resume (s : Sys n) (c : Fin n) (p : Slot) : Pc → Option (Sys n)
  | .forkret => some { s.setPc p .user with lock := none }
  | .yielded pc => some { s.setPc p pc with lock := none }
  | .slept num =>
      some { s.setProc p { s.ptable p with chan := none, pc := .call num } with lock := none }
  | .waited => some ((s.setProc p { s.ptable p with chan := none }).waitLoop c p)
  | .user | .call _ | .fork .. => none

/-- The process runs, and is not in front of the code after a switch. -/
def Pc.running : Pc → Bool
  | .user | .call _ | .fork .. => true
  | .forkret | .yielded _ | .slept _ | .waited => false

/-- `yield`. -/
def Sys.yield (s : Sys n) (c : Fin n) (p : Slot) : Sys n :=
  (s.setProc p { s.ptable p with state := .runnable, pc := .yielded (s.ptable p).pc }).sched c p

/-- `syscall`, up to the call of the handler. -/
def Proc.syscall (p : Proc) (num : Int) : Proc :=
  { p with
    counter := if num ≠ SYS_getnumsyscallp then p.counter + 1 else p.counter
    pc := .call num }

/-- What the handler of `num` returns; `v` for those not modelled here. -/
def Proc.handler (p : Proc) (num v : Int) : Int :=
  if num > 0 ∧ num < nelem then if num = SYS_getnumsyscallp then p.counter.toInt else v
  else -1

/-- The calls with steps of their own. -/
def stepwise (num : Int) : Bool :=
  num = SYS_fork || num = SYS_exit || num = SYS_wait || num = SYS_kill

/-- `sleep` on the address `a`, in a handler that calls it. -/
def Sys.sleep (s : Sys n) (c : Fin n) (p : Slot) (num : Int) (a : Nat) : Sys n :=
  (s.setProc p { s.ptable p with
    chan := some (.other a), state := .sleeping, pc := .slept num }).sched c p

/-- `fork`, up to the end of `allocproc`; it returns -1 when the table is full. -/
def Sys.fork (s : Sys n) (p : Slot) : Sys n :=
  match (List.finRange nproc).find? fun q => (s.ptable q).state = .unused with
  | none => s.return p (-1)
  | some np =>
      let s := { s.setProc np { s.ptable np with
        state := .embryo, pid := s.nextpid, pc := .forkret } with nextpid := s.nextpid + 1 }
      s.setPc p (.fork np false)

/-- `fork` with the child `np`: it fails, or the child becomes `RUNNABLE`. -/
def Sys.publish (s : Sys n) (p np : Slot) (ok : Bool) : Sys n :=
  if ok then
    (s.setProc np { s.ptable np with parent := some p, eax := 0, state := .runnable }).setPc p
      (.fork np true)
  else (s.setProc np { s.ptable np with state := .unused }).return p (-1)

/-- `np->counter = 0; return pid;` -/
def Sys.reset (s : Sys n) (p np : Slot) : Sys n :=
  (s.setProc np { s.ptable np with counter := 0 }).return p (s.ptable np).pid

/-- The process that CPU `c` runs, with its place. -/
def Sys.current (s : Sys n) (c : Fin n) : Option (Slot × Pc) :=
  (s.cpu c).map fun p => (p, (s.ptable p).pc)

/-- A step; `none` is a panic or an event that cannot happen. -/
def Sys.step (s : Sys n) : Event n → Option (Sys n)
  | .pass c =>
      if s.lock = none ∧ s.cpu c = none then some (s.loop c (List.finRange nproc)) else none
  | .resume c => (s.current c).bind fun (p, pc) => if s.lock = some c then s.resume c p pc else none
  | .yield c => (s.current c).bind fun (p, pc) =>
      if s.lock = none ∧ pc.running then some (s.yield c p) else none
  | .fault c => (s.current c).bind fun (p, pc) =>
      if pc = .user then some (s.setProc p { s.ptable p with killed := true }) else none
  | .syscall c num => (s.current c).bind fun (p, pc) =>
      if pc = .user ∧ ¬ (s.ptable p).killed then
        some (s.setProc p ((s.ptable p).syscall num))
      else none
  | .ret c v => (s.current c).bind fun (p, pc) => match pc with
      | .call num =>
          if stepwise num then none else some (s.return p ((s.ptable p).handler num v))
      | _ => none
  | .sleep c a => (s.current c).bind fun (p, pc) => match pc with
      | .call num =>
          if s.lock = none ∧ 0 < num ∧ num < nelem ∧ num ≠ SYS_getnumsyscallp ∧ ¬ stepwise num then
            some (s.sleep c p num a)
          else none
      | _ => none
  | .wakeup c a =>
      if s.lock = none ∧ ((s.current c).all fun (_, pc) => pc.running) then
        some { s with ptable := wakeup1 (.other a) s.ptable }
      else none
  | .kill c pid => (s.current c).bind fun (p, pc) =>
      if s.lock = none ∧ pc = .call SYS_kill then
        let r := Syscount.kill pid s.ptable
        some (Sys.return { s with ptable := r.2 } p r.1)
      else none
  | .exit c => (s.current c).bind fun (p, pc) =>
      if s.lock = none ∧ (pc = .call SYS_exit ∨ pc = .user ∧ (s.ptable p).killed) then s.exit c p
      else none
  | .wait c => (s.current c).bind fun (p, pc) =>
      if s.lock = none ∧ pc = .call SYS_wait then some (s.waitLoop c p) else none
  | .fork c => (s.current c).bind fun (p, pc) =>
      if s.lock = none ∧ pc = .call SYS_fork then some (s.fork p) else none
  | .publish c ok => (s.current c).bind fun (p, pc) => match pc with
      | .fork np false => some (s.publish p np ok)
      | _ => none
  | .reset c => (s.current c).bind fun (p, pc) => match pc with
      | .fork np true => some (s.reset p np)
      | _ => none

end

/-- `init` in slot 0, after `userinit`; the other slots are as the loader left
them, with zeros. -/
def boot (n : Nat) : Sys n where
  ptable p := ⟨if p.val = 0 then .runnable else .unused, if p.val = 0 then 1 else 0, none, none,
    false, 0, 0, .forkret⟩
  nextpid := 2
  lock := none
  cpu _ := none

end Cs537.Syscount
