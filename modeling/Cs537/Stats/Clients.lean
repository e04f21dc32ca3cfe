/-
# `Cs537.Stats.Clients` — the clients of the statistics server

The server has made a segment of 16 slots, all with the pid -1, and a semaphore
of value 1.  A client calls `stats_init`, which takes the semaphore, looks for
the first slot with the pid -1, gives the semaphore back and returns the slot;
only then does the client write its own pid there, and from then on its
statistics, without the semaphore.  At SIGINT its handler calls `stats_unlink`,
which takes the semaphore, looks for the first slot with the client's pid,
clears it and gives the semaphore back, and the client exits.

A step is one access to the shared memory or to the semaphore.  What the system
returns to a client (a clock, a priority) comes with the step.  A client can end
at any step: a call of the system fails and it exits, or it is killed.  Its pid
is then free for another client.

    Line        where `main` of a client is, in `stats_init` and after it
    HLine       where its handler is, in `stats_unlink`
    Sys.step    one step of one client, or a start, a signal, an end
-/
import Mathlib.Algebra.Order.Ring.Nat
import Mathlib.Logic.Function.Basic
import Cs537.Lib.Run

namespace Cs537.Stats

/-! ## The shared memory -/

/-- `stats_t`; `cpu_secs` in the clock's units. -/
structure StatsT where
  pid : Int
  counter : Int
  priority : Int
  cpu_secs : Int
  pname : List UInt8

/-- `strncpy` of 15 bytes. -/
def strncpy (src : List UInt8) : List UInt8 := src.take 15 ++ List.replicate (15 - src.length) 0

/-! ## The clients -/

/-- The next line of `main`. -/
inductive Line where
  -- in `stats_init`
  | wait
  | look (i : Nat)
  | post
  -- the first writes
  | pid
  | pname
  | counter
  | cpu_secs
  | setpriority
  | priority
  -- the loop; `counter + 1` is read and then written
  | nanosleep
  | newSecs
  | loadCounter
  | storeCounter (c : Int)
  | newPriority
  deriving DecidableEq

/-- The next line of `stats_unlink`, in the handler. -/
inductive HLine where
  | wait
  | look (i : Nat)
  | clearPid (i : Nat)
  | clearCounter (i : Nat)
  | clearPriority (i : Nat)
  | clearSecs (i : Nat)
  | post
  deriving DecidableEq

/-- A client: `main` stays where the signal has come. -/
structure Client where
  argv0 : List UInt8
  main : Line
  handler : Option HLine
  addr : Option Nat

abbrev Pid := Nat

structure Sys where
  mem : Nat → StatsT
  mutex : Nat
  clients : Pid → Option Client

/-- What the server leaves. -/
def boot : Sys where
  mem _ := ⟨-1, 0, 0, 0, List.replicate 15 0⟩
  mutex := 1
  clients _ := none

/-! ## The steps -/

variable (s : Sys) (p : Pid) (c : Client)

/-- The client `p` is now `c`. -/
def Sys.set : Sys := { s with clients := Function.update s.clients p (some c) }

/-- The client `p` has ended. -/
def Sys.exit : Sys := { s with clients := Function.update s.clients p none }

def Sys.write (i : Nat) (f : StatsT → StatsT) : Sys :=
  { s with mem := Function.update s.mem i (f (s.mem i)) }

def sem_wait : Option Sys := if s.mutex = 0 then none else some { s with mutex := s.mutex - 1 }

def sem_post : Sys := { s with mutex := s.mutex + 1 }

/-- A write to `*addr`. -/
def Sys.store (line : Line) (f : StatsT → StatsT) : Option Sys :=
  c.addr.map fun i => (s.write i f).set p { c with main := line }

/-- A step of `main`; `v` is what the system returns, where it is asked. -/
def Sys.mainStep (v : Int) : Option Sys :=
  match c.main with
  | .wait => (sem_wait s).map fun s => s.set p { c with main := .look 0 }
  | .look i =>
      if i < 16 then
        if (s.mem i).pid = -1 then some (s.set p { c with main := .post, addr := some i })
        else some (s.set p { c with main := .look (i + 1) })
      else some (s.set p { c with main := .post })
  | .post =>
      -- the client exits if the slots are all taken
      if c.addr = none then some ((sem_post s).exit p)
      else some ((sem_post s).set p { c with main := .pid })
  | .pid => s.store p c .pname fun x => { x with pid := p }
  | .pname => s.store p c .counter fun x => { x with pname := strncpy c.argv0 }
  | .counter => s.store p c .cpu_secs fun x => { x with counter := 0 }
  | .cpu_secs => s.store p c .setpriority fun x => { x with cpu_secs := 0 }
  | .setpriority => some (s.set p { c with main := .priority })
  | .priority => s.store p c .nanosleep fun x => { x with priority := v }
  | .nanosleep => some (s.set p { c with main := .newSecs })
  | .newSecs => s.store p c .loadCounter fun x => { x with cpu_secs := v }
  | .loadCounter => c.addr.map fun i => s.set p { c with main := .storeCounter (s.mem i).counter }
  | .storeCounter k => s.store p c .newPriority fun x => { x with counter := k + 1 }
  | .newPriority => s.store p c .nanosleep fun x => { x with priority := v }

/-- A write to slot `i` in `stats_unlink`. -/
def Sys.clear (i : Nat) (line : HLine) (f : StatsT → StatsT) : Sys :=
  (s.write i f).set p { c with handler := some line }

def Sys.handlerStep : HLine → Option Sys
  | .wait => (sem_wait s).map fun s => s.set p { c with handler := some (.look 0) }
  | .look i =>
      if i < 16 then
        if (s.mem i).pid = p then some (s.set p { c with handler := some (.clearPid i) })
        else some (s.set p { c with handler := some (.look (i + 1)) })
      else some (s.set p { c with handler := some .post })
  | .clearPid i => some (s.clear p c i (.clearCounter i) fun x => { x with pid := -1 })
  | .clearCounter i => some (s.clear p c i (.clearPriority i) fun x => { x with counter := 0 })
  | .clearPriority i => some (s.clear p c i (.clearSecs i) fun x => { x with priority := 0 })
  | .clearSecs i => some (s.clear p c i .post fun x => { x with cpu_secs := 0 })
  | .post => some ((sem_post s).exit p)

inductive Event where
  /-- a new process runs `main`, with `argv[0]` -/
  | start (p : Pid) (argv0 : List UInt8)
  /-- the next step of a client -/
  | step (p : Pid) (v : Int)
  /-- SIGINT; it is blocked in its own handler -/
  | interrupt (p : Pid)
  /-- a client ends, by `exit(1)` or a kill -/
  | exit (p : Pid)

def Sys.step (s : Sys) : Event → Option Sys
  | .start p argv0 =>
      if (s.clients p).isNone then some (s.set p ⟨argv0, .wait, none, none⟩) else none
  | .step p v =>
      (s.clients p).bind fun c =>
        match c.handler with
        | none => s.mainStep p c v
        | some h => s.handlerStep p c h
  | .interrupt p =>
      (s.clients p).bind fun c =>
        if c.handler = none then some (s.set p { c with handler := some .wait }) else none
  | .exit p => (s.clients p).map fun _ => s.exit p

/-! ## Exclusive slots -/

/-- No two clients have the same slot from `stats_init`.  A client has its slot
until it ends, which after `stats_unlink` it does. -/
def Exclusive (s : Sys) : Prop :=
  ∀ p q c d i, s.clients p = some c → s.clients q = some d → c.addr = some i → d.addr = some i →
    p = q

/-- The slot that a line of `stats_unlink` clears. -/
def HLine.target : HLine → Option Nat
  | .clearPid i | .clearCounter i | .clearPriority i | .clearSecs i => some i
  | .wait | .look _ | .post => none

/-- A client that clears a slot clears its own. -/
def ClearsOwn (s : Sys) : Prop :=
  ∀ p c h i, s.clients p = some c → c.handler = some h → h.target = some i → c.addr = some i

/-- `stats_init` finds a slot only where no other client has had it returned
without yet having written its pid. -/
def Alone (s : Sys) : Event → Prop
  | .step p _ => ∀ c i, s.clients p = some c → c.handler = none → c.main = .look i → i < 16 →
      (s.mem i).pid = -1 → ∀ q d, q ≠ p → s.clients q = some d → d.main = .pid → d.addr ≠ some i
  | _ => True

/-- No slot has the pid of a client that starts. -/
def Fresh (s : Sys) : Event → Prop
  | .start p _ => ∀ i, (s.mem i).pid ≠ p
  | _ => True

end Cs537.Stats
