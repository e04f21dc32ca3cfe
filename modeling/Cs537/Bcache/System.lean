/-
# `Cs537.Bcache.System` — the buffer cache and the disk driver (p5/xv6)

`bio.c` and `ide.c`, with any number of processes that read and write blocks at the
same time.  A step of a process has at most one critical section, of `bcache.lock` or
of `idelock`, and ends where the process releases the lock or sleeps.

    bread     bget, which may sleep on the buffer; then iderw, if it is not valid
    bwrite    iderw
    brelse
    ideintr   the disk is done with the first buffer of `idequeue`

A process uses the buffers that `bread` has given it and that it has not passed to
`brelse`.  It changes the data only to write it: `bwrite` comes with the new data.

The disk takes the data of a write when it is started and is done when it interrupts;
the interrupt may report an error, and then nothing has been transferred.  The ports
of the controller get the sector and the number of the disk in 28 bits and one bit.
-/
import Cs537.Lib.Links
import Cs537.Lib.Run
import Mathlib.Data.List.FinRange

namespace Cs537.Bcache

open Cs537.Lib

def NBUF : Nat := 10

def NPROC : Nat := 64

abbrev Slot := Fin NPROC

/-- `struct buf*` -/
abbrev BufIx := Fin NBUF

instance lawfulBEqBuf : LawfulBEq BufIx := inferInstance

abbrev Block := Vector UInt8 512

/-- Where a sector is on the disks. -/
abbrev Addr := BitVec 1 × BitVec 28

/-- `struct buf` without its links; the flags one by one. -/
structure Buf where
  busy : Bool
  valid : Bool
  dirty : Bool
  dev : BitVec 32
  sector : BitVec 32
  data : Block

def Buf.addr (b : Buf) : Addr := (b.dev.setWidth 1, b.sector.setWidth 28)

/-- What the controller is doing: a read, or a write of the data. -/
structure Request where
  addr : Addr
  write : Option Block

/-- What `idestart` asks for. -/
def Buf.request (b : Buf) : Request := ⟨b.addr, if b.dirty then some b.data else none⟩

/-- Where a process is: in front of the next critical section of its call. -/
inductive Pc where
  /-- not in a call -/
  | user
  | bget (dev sector : BitVec 32)
  /-- asleep on the buffer `b` in `bget` -/
  | bgetSleep (b : BufIx) (dev sector : BitVec 32)
  | iderw (b : BufIx)
  /-- asleep on the buffer `b` in `iderw`, and woken up there -/
  | iderwSleep (b : BufIx)
  | iderwWoken (b : BufIx)
  deriving DecidableEq

structure Proc where
  pc : Pc
  /-- the buffers it has -/
  held : List BufIx

inductive Fault where
  | noBuffers
  | bwrite
  | brelse
  | notBusy
  | nothingToDo
  | noDisk
  deriving DecidableEq

structure Sys where
  buf : BufIx → Buf
  /-- `prev` and `next` of the buffers and of `bcache.head` -/
  links : Links BufIx
  idequeue : List BufIx
  havedisk1 : Bool
  /-- what the controller is doing, and what is on the disks -/
  ide : Option Request
  disk : Addr → Block
  procs : Slot → Proc
  fault : Option Fault

inductive Event where
  | bread (i : Slot) (dev sector : BitVec 32)
  | bwrite (i : Slot) (b : BufIx) (data : Block)
  | brelse (i : Slot) (b : BufIx)
  /-- the next critical section of process `i` -/
  | go (i : Slot)
  /-- `kill` -/
  | wake (i : Slot)
  | ideintr (error : Bool)

/-! ## Parts of a step -/

def Sys.setBuf (s : Sys) (b : BufIx) (x : Buf) : Sys :=
  { s with buf := Function.update s.buf b x }

def Sys.setProc (s : Sys) (i : Slot) (x : Proc) : Sys :=
  { s with procs := Function.update s.procs i x }

def Sys.setPc (s : Sys) (i : Slot) (pc : Pc) : Sys := s.setProc i { s.procs i with pc := pc }

def Sys.crash (s : Sys) (f : Fault) : Sys := { s with fault := some f }

/-- `wakeup(b)`, for a process. -/
def Pc.wake (b : BufIx) : Pc → Pc
  | .bgetSleep c dev sector => if c = b then .bget dev sector else .bgetSleep c dev sector
  | .iderwSleep c => if c = b then .iderwWoken c else .iderwSleep c
  | pc => pc

def Sys.wakeup (s : Sys) (b : BufIx) : Sys :=
  { s with procs := fun i => { s.procs i with pc := (s.procs i).pc.wake b } }

/-! ## `ide.c` -/

/-- `idestart(b)` -/
def Sys.idestart (s : Sys) (b : BufIx) : Sys := { s with ide := some (s.buf b).request }

/-- Appends `b` to `idequeue`, and starts the disk if necessary. -/
def Sys.enqueue (s : Sys) (b : BufIx) : Sys :=
  let s := { s with idequeue := s.idequeue ++ [b] }
  if s.idequeue.head? = some b then s.idestart b else s

/-- The loop of `iderw(b)` in process `i`. -/
def Sys.iderwLoop (s : Sys) (i : Slot) (b : BufIx) : Sys :=
  let x := s.buf b
  s.setPc i (if x.valid ∧ x.dirty = false then .user else .iderwSleep b)

/-- `iderw(b)` -/
def Sys.iderw (s : Sys) (i : Slot) (b : BufIx) : Sys :=
  let x := s.buf b
  if x.busy = false then s.crash .notBusy
  else if x.valid ∧ x.dirty = false then s.crash .nothingToDo
  else if x.dev ≠ 0 ∧ s.havedisk1 = false then s.crash .noDisk
  else (s.enqueue b).iderwLoop i b

/-- The disk is done with what it has been told to do. -/
def Sys.transfer (s : Sys) (error : Bool) : Sys :=
  match s.ide with
  | some ⟨a, some data⟩ =>
      { s with ide := none, disk := if error then s.disk else Function.update s.disk a data }
  | _ => { s with ide := none }

/-- What `insl` finds in the data port. -/
def Sys.insl (s : Sys) (old : Block) : Block :=
  match s.ide with
  | some r => s.disk r.addr
  | none => old

def Sys.ideintr (s : Sys) (error : Bool) : Sys :=
  let t := s.transfer error
  match s.idequeue with
  | [] => t
  | b :: q =>
      let x := s.buf b
      let data := if x.dirty = false ∧ error = false then s.insl x.data else x.data
      let t := (t.setBuf b { x with valid := true, dirty := false, data := data }).wakeup b
      let t := { t with idequeue := q }
      match q with
      | [] => t
      | c :: _ => t.idestart c

/-! ## `bio.c` -/

/-- The first loop of `bget`. -/
def Sys.cached (s : Sys) (dev sector : BitVec 32) : Option BufIx :=
  (s.links.ahead NBUF).find? fun b => (s.buf b).dev = dev ∧ (s.buf b).sector = sector

/-- The second loop of `bget`. -/
def Sys.victim (s : Sys) : Option BufIx :=
  (s.links.back NBUF).find? fun b => (s.buf b).busy = false

/-- Process `i` gets the buffer `b` from `bget`, and goes on in `bread`. -/
def Sys.take (s : Sys) (i : Slot) (b : BufIx) : Sys :=
  s.setProc i ⟨if (s.buf b).valid then .user else .iderw b, b :: (s.procs i).held⟩

def Sys.bget (s : Sys) (i : Slot) (dev sector : BitVec 32) : Sys :=
  match s.cached dev sector with
  | some b =>
      let x := s.buf b
      if x.busy = false then (s.setBuf b { x with busy := true }).take i b
      else s.setPc i (.bgetSleep b dev sector)
  | none =>
      match s.victim with
      | some b => (s.setBuf b ⟨true, false, false, dev, sector, (s.buf b).data⟩).take i b
      | none => s.crash .noBuffers

def Sys.bwrite (s : Sys) (i : Slot) (b : BufIx) (data : Block) : Sys :=
  let x := s.buf b
  if x.busy = false then s.crash .bwrite
  else (s.setBuf b { x with dirty := true, data := data }).setPc i (.iderw b)

def Sys.brelse (s : Sys) (i : Slot) (b : BufIx) : Sys :=
  let x := s.buf b
  if x.busy = false then s.crash .brelse
  else
    let s := { s with links := (s.links.unlink b).pushFront b }
    ((s.setBuf b { x with busy := false }).wakeup b).setProc i
      ⟨.user, (s.procs i).held.erase b⟩

/-! ## The system -/

/-- A step; `none` is an event that cannot happen. -/
def Sys.step (s : Sys) (e : Event) : Option Sys :=
  if s.fault = none then
    match e with
    | .bread i dev sector =>
        if (s.procs i).pc = .user then some (s.setPc i (.bget dev sector)) else none
    | .bwrite i b data =>
        if (s.procs i).pc = .user ∧ b ∈ (s.procs i).held then some (s.bwrite i b data) else none
    | .brelse i b =>
        if (s.procs i).pc = .user ∧ b ∈ (s.procs i).held then some (s.brelse i b) else none
    | .go i =>
        match (s.procs i).pc with
        | .bget dev sector => some (s.bget i dev sector)
        | .iderw b => some (s.iderw i b)
        | .iderwWoken b => some (s.iderwLoop i b)
        | _ => none
    | .wake i =>
        match (s.procs i).pc with
        | .bgetSleep _ dev sector => some (s.setPc i (.bget dev sector))
        | .iderwSleep b => some (s.setPc i (.iderwWoken b))
        | _ => none
    | .ideintr error => some (s.ideintr error)
  else none

/-- The links after `binit`. -/
def binit : Links BufIx := (List.finRange NBUF).foldl Links.pushFront Links.empty

/-- The cache after `binit`, with `disk` on the disks. -/
def boot (havedisk1 : Bool) (disk : Addr → Block) : Sys where
  buf _ := ⟨false, false, false, -1, 0, .replicate 512 0⟩
  links := binit
  idequeue := []
  havedisk1 := havedisk1
  ide := none
  disk := disk
  procs _ := ⟨.user, []⟩
  fault := none

/-! ## For small runs -/

def slot0 : Slot := ⟨0, Nat.zero_lt_succ _⟩

def slot1 : Slot := ⟨1, Nat.one_lt_succ_succ _⟩

def buf0 : BufIx := ⟨0, Nat.zero_lt_succ _⟩

def buf1 : BufIx := ⟨1, Nat.one_lt_succ_succ _⟩

end Cs537.Bcache
