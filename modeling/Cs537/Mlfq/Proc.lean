/-
# `Cs537.Mlfq.Proc` — the process table and the level-3 queue (p2/xv6)

The data that the scheduler of `proc.c` reads and writes: the table of
processes and the ring `p3q` of pids.  A pointer to a process is its slot.

The counters `ticks` and `slice` are `unsigned int`s and `size` is an `int`; they
wrap as on the machine.  `p3ticks`, which goes back to zero at 20, is a natural
number.  What a kernel stack holds is recorded in the process it belongs to: how
far the kernel has come (`pc`), and the child that a `fork` is making.
-/
import Mathlib.Algebra.Order.Ring.Nat
import Mathlib.Logic.Function.Basic
import Mathlib.Data.Fintype.Basic
import Mathlib.Data.List.FinRange

namespace Cs537.Mlfq

/-! ## Processes -/

def nproc : Nat := 64

abbrev Slot := Fin nproc

instance : LawfulBEq Slot := inferInstance

/-- `enum procstate`. -/
inductive PState where
  | unused
  | embryo
  | sleeping
  | runnable
  | running
  | zombie
  deriving DecidableEq

/-- What a process can sleep on: `&ticks`, a process (in `wait`), or another
address. -/
inductive Chan where
  | ticks
  | proc (p : Slot)
  | other (n : Nat)
  deriving DecidableEq

/-- Positions in `trap`, for a timer interrupt. -/
inductive Stage where
  /-- in front of `ticks++` -/
  | tick
  /-- in front of the tests of `proc` -/
  | check
  /-- in `yield`, in front of `acquire` -/
  | yield
  /-- in front of the test of `ticks%100` -/
  | bump
  /-- in front of the last test of `proc` -/
  | last
  deriving DecidableEq

/-- Where a process continues when `scheduler` switches to it. -/
inductive Resume where
  | forkret
  /-- in `yield`, called from `trap` -/
  | yielded (user : Bool)
  /-- in `sleep` with another lock than that of the table -/
  | slept
  /-- in `sleep`, called from `wait` -/
  | waited
  deriving DecidableEq

/-- Where the kernel is, on the stack of a process: not in one of the
functions modelled here, in `trap` after an interrupt of user or kernel code,
or in front of the code that runs after a switch. -/
inductive Pc where
  | free
  | trap (user : Bool) (stage : Stage)
  | resume (r : Resume)
  deriving DecidableEq

/-- `struct proc`. -/
structure Proc where
  state : PState
  pid : Int
  parent : Option Slot
  chan : Option Chan
  killed : Bool
  priority : Nat
  ticks : Nat → BitVec 32
  /-- 0 or 1 in the source -/
  starved : Bool
  ts : BitVec 32
  slice : Nat → BitVec 32
  p3ticks : Nat
  pc : Pc
  /-- in `fork`: the child, and whether it has been made `RUNNABLE` -/
  child : Option (Slot × Bool)

abbrev Table := Slot → Proc

/-- `p->state = st`. -/
def Table.setState (T : Table) (p : Slot) (st : PState) : Table :=
  Function.update T p { T p with state := st }

/-! ## The queue -/

def qlen : Nat := 100

/-- `front`, `rear`, `size` and `p3q`. -/
structure Queue where
  front : Fin qlen
  rear : Fin qlen
  size : BitVec 32
  p3q : Fin qlen → Int

theorem zero_lt_qlen : 0 < qlen := by decide

theorem last_lt_qlen : qlen - 1 < qlen := by decide

def next (i : Fin qlen) : Fin qlen := ⟨(i.val + 1) % qlen, Nat.mod_lt _ (by decide)⟩

def Queue.addq (Q : Queue) (pid : Int) : Queue :=
  { Q with rear := next Q.rear, size := Q.size + 1, p3q := Function.update Q.p3q (next Q.rear) pid }

@[simp] theorem next_val (i : Fin qlen) : (next i).val = (i.val + 1) % qlen := rfl

@[simp] theorem addq_front (Q : Queue) (pid : Int) : (Q.addq pid).front = Q.front := rfl

@[simp] theorem addq_rear (Q : Queue) (pid : Int) : (Q.addq pid).rear = next Q.rear := rfl

@[simp] theorem addq_size (Q : Queue) (pid : Int) : (Q.addq pid).size = Q.size + 1 := rfl

@[simp] theorem addq_p3q (Q : Queue) (pid : Int) :
    (Q.addq pid).p3q = Function.update Q.p3q (next Q.rear) pid := rfl

def Queue.remq (Q : Queue) : Queue := { Q with front := next Q.front, size := Q.size - 1 }

def Queue.isemp (Q : Queue) : Bool := Q.size = 0

def Queue.frontq (Q : Queue) : Int := if Q.isemp then -1 else Q.p3q Q.front

def Queue.reset (Q : Queue) : Queue := 
  { Q with front := ⟨0, zero_lt_qlen⟩, rear := ⟨qlen - 1, last_lt_qlen⟩, size := 0 }

/-! ## The loop of `scheduler` -/

/-- The slices that a process gets at the levels 0, 1 and 2. -/
def quantum (lvl : Nat) : Nat := if lvl = 2 then 10 else 5

/-- `p->state = RUNNING; p->starved = 0; p->ts = ticks`. -/
def Table.start (T : Table) (now : BitVec 32) (p : Slot) : Table :=
  Function.update T p { T p with state := .running, starved := false, ts := now }

/-- `p->priority = lvl`. -/
def Table.demote (T : Table) (p : Slot) (lvl : Nat) : Table :=
  Function.update T p { T p with priority := lvl }

/-- The levels 0, 1 and 2: demote the process, or run it. -/
def visitLevel (now : BitVec 32) (lvl : Nat) (T : Table) (Q : Queue) (p : Slot) :
    Bool × Table × Queue :=
  if quantum lvl ≤ ((T p).slice lvl).toNat then (false, T.demote p (lvl + 1), Q)
  else (true, T.start now p, Q)

/-- Level 3: run the process if its pid is at the front of the queue. -/
def visitLast (now : BitVec 32) (T : Table) (Q : Queue) (p : Slot) : Bool × Table × Queue :=
  let Q := Q.addq (T p).pid
  if (T p).pid = Q.frontq then (true, T.start now p, Q) else (false, T, Q)

/-- The loop body up to the switch; the result says whether it switches. -/
def visit (now : BitVec 32) (T : Table) (Q : Queue) (p : Slot) : Bool × Table × Queue :=
  if (T p).state ≠ .runnable then (false, T, Q)
  else match (T p).priority with
    | 0 => visitLevel now 0 T Q p
    | 1 => visitLevel now 1 T Q p
    | 2 => visitLevel now 2 T Q p
    | 3 => visitLast now T Q p
    | _ => (false, T, Q)

/-- The loop over the slots `l`, up to the first switch, with the slot switched
to. -/
def scan (now : BitVec 32) : List Slot → Table → Queue → Option Slot × Table × Queue
  | [], T, Q => (none, T, Q)
  | p :: l, T, Q =>
      match visit now T Q p with
      | (true, T, Q) => (some p, T, Q)
      | (false, T, Q) => scan now l T Q

/-- `p->ticks[lvl]++; p->slice[lvl]++`. -/
def Proc.charge (p : Proc) (lvl : Nat) : Proc :=
  { p with
    ticks := Function.update p.ticks lvl (p.ticks lvl + 1)
    slice := Function.update p.slice lvl (p.slice lvl + 1) }

/-- The loop body after the switch, in the branch of level `lvl`. -/
def back (lvl : Nat) (p : Slot) (T : Table) (Q : Queue) : Table × Queue :=
  let q := (T p).charge lvl
  if lvl = 3 then
    if q.p3ticks + 1 ≠ 0 ∧ (q.p3ticks + 1) % 20 = 0 then
      (Function.update T p { q with p3ticks := 0 }, Q.remq)
    else (Function.update T p { q with p3ticks := q.p3ticks + 1 }, Q)
  else (Function.update T p q, Q)

/-! ## Other functions -/

/-- `wakeup1`. -/
def wakeup1 (chan : Chan) (T : Table) : Table := fun p =>
  if (T p).state = .sleeping ∧ (T p).chan = some chan then { T p with state := .runnable } else T p

/-- `wakeup1(proc->parent)`. -/
def wakeParent (p : Slot) (T : Table) : Table :=
  match (T p).parent with
  | some q => wakeup1 (.proc q) T
  | none => T

/-- The first process. -/
def initproc : Slot := ⟨0, by decide⟩

/-- `exit` of `p`: its children go to `initproc`, which is woken for the zombies
among them. -/
def abandon (p : Slot) (T : Table) : Table :=
  let T' : Table := fun q => if (T q).parent = some p then { T q with parent := some initproc } else T q
  if (List.finRange nproc).any fun q => (T q).parent = some p ∧ (T q).state = .zombie then
    wakeup1 (.proc initproc) T'
  else T'

/-- `kill`: the first process with the pid. -/
def kill (pid : Int) (T : Table) : Table :=
  match (List.finRange nproc).find? fun p => (T p).pid = pid with
  | none => T
  | some p =>
      let q := { T p with killed := true }
      Function.update T p (if q.state = .sleeping then { q with state := .runnable } else q)

/-- One process in the loop of `bump_priority`; the result says whether the
queue is reset. -/
def bump (p : Proc) : Proc × Bool :=
  if p.state ≠ .runnable then (p, false)
  else if p.starved then
    if p.priority = 1 ∨ p.priority = 2 ∨ p.priority = 3 then
      ({ p with
        priority := p.priority - 1
        slice := Function.update p.slice (p.priority - 1) 0 }, p.priority = 3)
    else (p, false)
  else ({ p with starved := true }, false)

def bumpPriority (T : Table) (Q : Queue) : Table × Queue :=
  (fun p => (bump (T p)).1,
    if (List.finRange nproc).any fun p => (bump (T p)).2 then Q.reset else Q)

end Cs537.Mlfq
