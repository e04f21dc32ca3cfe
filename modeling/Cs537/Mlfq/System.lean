/-
# `Cs537.Mlfq.System` — the processors (p2/xv6)

Any number of CPUs run `scheduler`, processes, and `trap` on timer interrupts.
A step of a CPU is at most one critical section of `ptable.lock`.  The lock is
kept from one step to the next only by a CPU that `scheduler` has just switched
to a process: the next step of this CPU is the code after that switch, which
releases the lock or, in `wait`, goes on with it.

`proc` is the variable of that name of each CPU; on an idle CPU it still
points to the process that ran there last.  `yield` on an idle CPU saves the
stack of `scheduler` in that process and switches to `cpu->scheduler`, a stack
pointer that is no longer good; such a CPU is `wild` and does nothing further
here.
-/
import Cs537.Lib.Run
import Cs537.Mlfq.Proc

namespace Cs537.Mlfq

/-- The stack on which a CPU runs: that of `scheduler`, outside of the lock; the
same with a timer interrupt on top; that of a process, which `scheduler` has
switched to in the branch of level `lvl`. -/
inductive At where
  | idle
  | idleTrap (stage : Stage)
  | on (p : Slot) (lvl : Nat)
  | wild
  deriving DecidableEq

structure Cpu where
  proc : Option Slot
  stack : At

structure Sys (n : Nat) where
  ptable : Table
  queue : Queue
  ticks : BitVec 32
  nextpid : Int
  lock : Option (Fin n)
  cpu : Fin n → Cpu

/-- The event of a step, with its CPU. -/
inductive Event (n : Nat) where
  /-- `scheduler` takes the lock -/
  | pass (c : Fin n)
  /-- a timer interrupt, of user or kernel code -/
  | timer (c : Fin n) (user : Bool)
  /-- `trap` goes on -/
  | trap (c : Fin n)
  /-- the code after a switch to a process -/
  | resume (c : Fin n)
  | sleep (c : Fin n) (chan : Chan)
  | wakeup (c : Fin n) (chan : Chan)
  | kill (c : Fin n) (pid : Int)
  | exit (c : Fin n)
  | wait (c : Fin n)
  /-- `fork`, up to the end of `allocproc` -/
  | fork (c : Fin n)
  /-- `fork`, up to `np->state = RUNNABLE`, or to a failure -/
  | publish (c : Fin n) (ok : Bool)
  /-- `fork`, the rest -/
  | reset (c : Fin n)

def Event.cpu {n : Nat} : Event n → Fin n
  | .pass c | .timer c _ | .trap c | .resume c | .sleep c _ | .wakeup c _ | .kill c _ | .exit c
  | .wait c | .fork c | .publish c _ | .reset c => c

/-- Where a step leaves its CPU: out of `scheduler`, or in the loop with the
slots `l` to look at. -/
inductive Act (n : Nat) where
  | stay (s : Sys n)
  | loop (s : Sys n) (c : Fin n) (l : List Slot)

section

variable {n : Nat}

def Sys.setCpu (s : Sys n) (c : Fin n) (x : Cpu) : Sys n :=
  { s with cpu := Function.update s.cpu c x }

def Sys.setAt (s : Sys n) (c : Fin n) (a : At) : Sys n := s.setCpu c { s.cpu c with stack := a }

def Sys.setProc (s : Sys n) (p : Slot) (x : Proc) : Sys n :=
  { s with ptable := Function.update s.ptable p x }

def Sys.setPc (s : Sys n) (p : Slot) (pc : Pc) : Sys n := s.setProc p { s.ptable p with pc := pc }

/-- The loop of `scheduler`, until it switches or ends and releases the lock. -/
def Sys.loop (s : Sys n) (c : Fin n) (l : List Slot) : Sys n :=
  match scan s.ticks l s.ptable s.queue with
  | (some p, T, Q) =>
      { s.setCpu c ⟨some p, .on p (s.ptable p).priority⟩ with ptable := T, queue := Q, lock := some c }
  | (none, T, Q) => { s.setAt c .idle with ptable := T, queue := Q, lock := none }

def Act.finish : Act n → Sys n
  | .stay s => s
  | .loop s c l => s.loop c l

/-- `sched` on the stack of `p`: back in the loop after the switch to `p`,
which for level 0 ends there. -/
def Sys.sched (s : Sys n) (c : Fin n) (p : Slot) (lvl : Nat) : Act n :=
  let (T, Q) := back lvl p s.ptable s.queue
  let s := { s with ptable := T, queue := Q }
  .loop s c (if lvl = 0 then [] else (List.finRange nproc).drop (p.val + 1))

/-- The process whose stack CPU `c` runs on, with its branch in `scheduler`. -/
def Sys.current (s : Sys n) (c : Fin n) : Option (Slot × Nat) :=
  match (s.cpu c).stack with
  | .on p lvl => some (p, lvl)
  | _ => none

/-- The same, if `p` is not in the kernel functions modelled here. -/
def Sys.caller (s : Sys n) (c : Fin n) : Option (Slot × Nat) :=
  (s.current c).filter fun (p, _) => (s.ptable p).pc = .free

/-- The same, if it is not in `fork` either. -/
def Sys.syscaller (s : Sys n) (c : Fin n) : Option (Slot × Nat) :=
  (s.caller c).filter fun (p, _) => (s.ptable p).child = none

/-- `yield`, after `acquire`. -/
def Sys.yield (s : Sys n) (c : Fin n) (user : Bool) : Option (Act n) :=
  (s.cpu c).proc.map fun q =>
    let s := { s with ptable := s.ptable.setState q .runnable }
    match (s.cpu c).stack with
    | .on p lvl => (s.setPc p (.resume (.yielded user))).sched c p lvl
    | _ => .stay { s.setAt c .wild with lock := some c }

/-- `exit`, after `acquire`. -/
def Sys.exit (s : Sys n) (c : Fin n) (p : Slot) (lvl : Nat) : Option (Act n) :=
  if p = initproc then none
  else
    let T := abandon p (wakeParent p s.ptable)
    some (Sys.sched { s with ptable := T.setState p .zombie } c p lvl)

/-- The loop of `wait`, with the lock: reap a child, return, or sleep. -/
def Sys.waitLoop (s : Sys n) (c : Fin n) (p : Slot) (lvl : Nat) : Act n :=
  match (List.finRange nproc).find? fun q =>
      (s.ptable q).parent = some p ∧ (s.ptable q).state = .zombie with
  | some q =>
      let x := { s.ptable q with state := .unused, pid := 0, parent := none, killed := false }
      .stay { (s.setProc q x).setPc p .free with lock := none }
  | none =>
      if ¬ ((List.finRange nproc).any fun q => (s.ptable q).parent = some p) ∨ (s.ptable p).killed then
        .stay { s.setPc p .free with lock := none }
      else
        (s.setProc p { s.ptable p with
          chan := some (.proc p), state := .sleeping, pc := .resume .waited }).sched c p lvl

/-- `trap` on the stack of `p`, or on that of `scheduler`. -/
def Sys.setStage (s : Sys n) (c : Fin n) (user : Bool) (stage : Option Stage) : Sys n :=
  match (s.cpu c).stack, stage with
  | .on p _, some st => s.setPc p (.trap user st)
  | .on p _, none => s.setPc p .free
  | _, some st => s.setAt c (.idleTrap st)
  | _, none => s.setAt c .idle

/-- The position of `c` in `trap`. -/
def Sys.stage (s : Sys n) (c : Fin n) : Option (Bool × Stage) :=
  match (s.cpu c).stack with
  | .on p _ => match (s.ptable p).pc with
    | .trap user st => some (user, st)
    | _ => none
  | .idleTrap st => some (false, st)
  | _ => none

/-- `proc && proc->killed && (tf->cs&3) == DPL_USER`. -/
def Sys.mustExit (s : Sys n) (c : Fin n) (user : Bool) : Bool :=
  user && (s.cpu c).proc.any fun q => (s.ptable q).killed

/-- A call of `exit` from `trap`. -/
def Sys.trapExit (s : Sys n) (c : Fin n) : Option (Act n) :=
  (s.current c).bind fun (p, lvl) => if s.lock = none then s.exit c p lvl else none

/-- The steps of `trap`. -/
def Sys.trap (s : Sys n) (c : Fin n) (user : Bool) : Stage → Option (Act n)
  | .tick =>
      if c.val = 0 then
        if s.lock = none then
          let s := { s with ticks := s.ticks + 1, ptable := wakeup1 .ticks s.ptable }
          some (.stay (s.setStage c user (some .check)))
        else none
      else some (.stay (s.setStage c user (some .check)))
  | .check =>
      if s.mustExit c user then s.trapExit c
      else if (s.cpu c).proc.any fun q => (s.ptable q).state = .running then
        some (.stay (s.setStage c user (some .yield)))
      else some (.stay (s.setStage c user (some .bump)))
  | .yield => if s.lock = none then s.yield c user else none
  | .bump =>
      if s.ticks.toNat % 100 = 0 then
        if s.lock = none then
          let (T, Q) := bumpPriority s.ptable s.queue
          some (.stay (Sys.setStage { s with ptable := T, queue := Q } c user (some .last)))
        else none
      else some (.stay (s.setStage c user (some .last)))
  | .last => if s.mustExit c user then s.trapExit c else some (.stay (s.setStage c user none))

/-- The code after a switch to `p`. -/
def Sys.resume (s : Sys n) (c : Fin n) (p : Slot) (lvl : Nat) : Resume → Act n
  | .forkret => .stay { s.setPc p .free with lock := none }
  | .yielded user => .stay { s.setPc p (.trap user .bump) with lock := none }
  | .slept => .stay { s.setProc p { s.ptable p with chan := none, pc := .free } with lock := none }
  | .waited => Sys.waitLoop (s.setProc p { s.ptable p with chan := none }) c p lvl

/-- `sleep` on `chan`, after `acquire`. -/
def Sys.sleep (s : Sys n) (c : Fin n) (p : Slot) (lvl : Nat) (chan : Chan) : Act n :=
  (s.setProc p { s.ptable p with
    chan := some chan, state := .sleeping, pc := .resume .slept }).sched c p lvl

/-- `allocproc`, up to `release`; it returns 0 when the table is full. -/
def Sys.allocproc (s : Sys n) : Option Slot × Sys n :=
  match (List.finRange nproc).find? fun q => (s.ptable q).state = .unused with
  | none => (none, s)
  | some np =>
      let x := { s.ptable np with
        state := .embryo, pid := s.nextpid, pc := .resume .forkret, child := none }
      (some np, { s.setProc np x with nextpid := s.nextpid + 1 })

/-- `fork`, up to the end of `allocproc`. -/
def Sys.fork (s : Sys n) (p : Slot) : Sys n :=
  match s.allocproc with
  | (none, s) => s
  | (some np, s) => s.setProc p { s.ptable p with child := some (np, false) }

/-- `fork` with the child `np`: it fails, or the child becomes `RUNNABLE`. -/
def Sys.publish (s : Sys n) (p np : Slot) (ok : Bool) : Sys n :=
  if ok then
    let s := s.setProc np { s.ptable np with parent := some p, state := .runnable }
    s.setProc p { s.ptable p with child := some (np, true) }
  else
    let s := { s with ptable := s.ptable.setState np .unused }
    s.setProc p { s.ptable p with child := none }

/-- The end of `fork`. -/
def Sys.reset (s : Sys n) (p np : Slot) : Sys n :=
  let s := s.setProc np { s.ptable np with
    priority := 0, ticks := fun _ => 0, slice := fun _ => 0, starved := true, p3ticks := 0 }
  s.setProc p { s.ptable p with child := none }

/-- Interrupts are on. -/
def Sys.open (s : Sys n) (c : Fin n) : Bool :=
  (s.cpu c).stack = .idle || (s.caller c).isSome

/-- The work of a step that needs the lock. -/
def Sys.whenFree {α : Type} (s : Sys n) (x : Option α) : Option α := if s.lock = none then x else none

theorem whenFree_some {α : Type} {s : Sys n} {x : Option α} {y : α} (h : s.whenFree x = some y) : x = some y := by
  rw [Sys.whenFree] at h
  split at h
  · exact h
  · cases h

/-- An event up to the point where the CPU is in the loop of `scheduler`; `none`
is a panic or an event that cannot happen. -/
def Sys.act (s : Sys n) : Event n → Option (Act n)
  | .pass c =>
      s.whenFree (if (s.cpu c).stack = .idle then some (.loop s c (List.finRange nproc)) else none)
  | .timer c user =>
      if s.open c then
        some (.stay (s.setStage c (user && (s.caller c).isSome) (some .tick)))
      else none
  | .trap c => (s.stage c).bind fun (user, st) => s.trap c user st
  | .resume c =>
      (s.current c).bind fun (p, lvl) => match (s.ptable p).pc with
        | .resume r => if s.lock = some c then some (s.resume c p lvl r) else none
        | _ => none
  | .sleep c chan =>
      s.whenFree ((s.syscaller c).bind fun (p, lvl) => match chan with
        | .proc _ => none
        | chan => some (s.sleep c p lvl chan))
  | .wakeup c chan =>
      s.whenFree (if s.open c then some (.stay { s with ptable := wakeup1 chan s.ptable }) else none)
  | .kill c pid =>
      s.whenFree ((s.syscaller c).map fun _ => .stay { s with ptable := Mlfq.kill pid s.ptable })
  | .exit c => s.whenFree ((s.syscaller c).bind fun (p, lvl) => s.exit c p lvl)
  | .wait c => s.whenFree ((s.syscaller c).map fun (p, lvl) => s.waitLoop c p lvl)
  | .fork c => s.whenFree ((s.syscaller c).map fun (p, _) => .stay (s.fork p))
  | .publish c ok =>
      (s.caller c).bind fun (p, _) => match (s.ptable p).child with
        | some (np, false) => some (.stay (s.publish p np ok))
        | _ => none
  | .reset c =>
      (s.caller c).bind fun (p, _) => match (s.ptable p).child with
        | some (np, true) => some (.stay (s.reset p np))
        | _ => none

def Sys.step (s : Sys n) (e : Event n) : Option (Sys n) := (s.act e).map Act.finish

end

/-! ## The start -/

/-- `init` in slot 0, after `userinit`; nothing has run. -/
def boot (n : Nat) : Sys n where
  ptable p := ⟨if p.val = 0 then .runnable else .unused, if p.val = 0 then 1 else 0, none, none,
    false, 0, fun _ => 0, false, 0, fun _ => 0, 0, .resume .forkret, none⟩
  queue := ⟨⟨0, zero_lt_qlen⟩, ⟨qlen - 1, last_lt_qlen⟩, 0, fun _ => 0⟩
  ticks := 0
  nextpid := 2
  lock := none
  cpu _ := ⟨none, .idle⟩

end Cs537.Mlfq
