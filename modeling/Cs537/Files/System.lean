/-
# `Cs537.Files.System` — open files, descriptors and pipes (p5/xv6)

The table of open files of `file.c`, the pipes of `pipe.c`, and the system calls
of `sysfile.c` that pass files from one descriptor to another, with the part that
`fork` and `exit` of `proc.c` have in it.  Any number of processes make calls at
the same time.  A step of a process has at most one critical section, of
`ftable.lock` or of the lock of a pipe, and ends where the process releases the lock
or sleeps.  What it does without a lock, to its own descriptors and to files that
nobody else has, is part of the step in front or behind.

    sys_pipe    filealloc; filealloc; kalloc and fdalloc
    sys_close   fileclose; pipeclose; kfree
    fork        filedup, once for each descriptor
    exit        fileclose, once for each descriptor

`killed` may be set at any time, so the value that a step finds there is part of
the event, and a process may be woken by `kill`.  A page that `kalloc` returns is
any page that is not a pipe.  Memory that is used after `kfree`, and the panics of
`file.c`, are a `Fault`.

Files that are inodes are counted and closed here; what is in them is left to
`Cs537.CheckedFs`.  Calls that fail before they come to a file (bad arguments, no
such path, no process for `fork`) return -1 and are left out.
-/
import Cs537.Files.Pipe
import Cs537.Lib.Run
import Mathlib.Data.List.FinRange

namespace Cs537.Files

def nproc : Nat := 64

def nofile : Nat := 16

def nfile : Nat := 100

abbrev Slot := Fin nproc

abbrev Fd := Fin nofile

/-- `struct file*` -/
abbrev FileIx := Fin nfile

/-- The address of a page. -/
abbrev Page := Nat

instance lawfulBEqFile : LawfulBEq FileIx := inferInstance

inductive FdType where
  | none
  | pipe
  | inode
  deriving DecidableEq

/-- `struct file`, without the fields of an inode. -/
structure File where
  type : FdType
  ref : Nat
  readable : Bool
  writable : Bool
  pipe : Page
  deriving DecidableEq

/-- Where a process is: in front of the next critical section of its call. -/
inductive Pc where
  /-- no process, or one that has exited -/
  | gone
  /-- a child that `fork` is not done with -/
  | embryo
  | user
  | read (p : Page) (n : Int)
  /-- asleep on `p->nread` -/
  | readSleep (p : Page) (n : Int)
  /-- `rest` is still to be written -/
  | write (p : Page) (n : Int) (rest : List UInt8)
  /-- asleep on `p->nwrite` -/
  | writeSleep (p : Page) (n : Int) (rest : List UInt8)
  /-- `pipealloc` with one file, and with two -/
  | pipe1 (f0 : FileIx)
  | pipe2 (f0 f1 : FileIx)
  /-- `fileclose(f)`, and then the files `fs` -/
  | closing (f : FileIx) (fs : List FileIx) (exiting : Bool)
  | pipeclose (p : Page) (writable : Bool) (fs : List FileIx) (exiting : Bool)
  | kfree (p : Page) (fs : List FileIx) (exiting : Bool)
  /-- `fork`, with the descriptors `todo` left to copy -/
  | fork (np : Slot) (todo : List Fd)
  /-- `exit`, between two descriptors -/
  | exit
  deriving DecidableEq

/-- A process.  `eax` is what its last call has returned, `buf` what the last read
has stored. -/
structure Proc where
  ofile : Fd → Option FileIx
  pc : Pc
  eax : Int
  buf : List UInt8

inductive Fault where
  | fileread
  | filewrite
  | filedup
  | fileclose
  /-- a pipe is used after `kfree` -/
  | freed
  deriving DecidableEq

structure Sys where
  ftable : FileIx → File
  pipes : Page → Option Pipe
  procs : Slot → Proc
  fault : Option Fault

/-- A system call; `v` is what it returns for an inode. -/
inductive Call where
  | read (fd : Fd) (n v : Int)
  | write (fd : Fd) (n v : Int) (src : Nat → UInt8)
  | dup (fd : Fd)
  | close (fd : Fd)
  | pipe
  | open (omode : BitVec 32)
  | fork (np : Slot)
  | exit

inductive Event where
  /-- process `i` makes a call, up to its first section or with it -/
  | call (i : Slot) (c : Call)
  /-- the next section: `killed`, and the page of `kalloc` with what is in it -/
  | go (i : Slot) (killed : Bool) (page : Option (Page × (Int → UInt8)))
  /-- `kill` -/
  | wake (i : Slot)

/-! ## Parts of a step -/

def Sys.setFile (s : Sys) (f : FileIx) (x : File) : Sys :=
  { s with ftable := Function.update s.ftable f x }

def Sys.setProc (s : Sys) (i : Slot) (x : Proc) : Sys :=
  { s with procs := Function.update s.procs i x }

def Sys.setPc (s : Sys) (i : Slot) (pc : Pc) : Sys := s.setProc i { s.procs i with pc := pc }

def Sys.setOfile (s : Sys) (i : Slot) (fd : Fd) (x : Option FileIx) : Sys :=
  s.setProc i { s.procs i with ofile := Function.update (s.procs i).ofile fd x }

def Sys.setPipe (s : Sys) (p : Page) (x : Option Pipe) : Sys :=
  { s with pipes := Function.update s.pipes p x }

/-- The call returns `v`, after `pc`. -/
def Sys.ret (s : Sys) (i : Slot) (v : Int) (pc : Pc := .user) : Sys :=
  s.setProc i { s.procs i with eax := v, pc := pc }

def Sys.crash (s : Sys) (f : Fault) : Sys := { s with fault := some f }

/-- `wakeup(&p->nread)`, for a process. -/
def Pc.wakeRead (p : Page) : Pc → Pc
  | .readSleep q n => if q = p then .read q n else .readSleep q n
  | pc => pc

/-- `wakeup(&p->nwrite)`, for a process. -/
def Pc.wakeWrite (p : Page) : Pc → Pc
  | .writeSleep q n rest => if q = p then .write q n rest else .writeSleep q n rest
  | pc => pc

/-- The wake-up at the other end, when one end is closed. -/
def Pc.wakeOther (p : Page) (writable : Bool) : Pc → Pc :=
  if writable then .wakeRead p else .wakeWrite p

def Sys.wakeup (s : Sys) (wake : Pc → Pc) : Sys :=
  { s with procs := fun i => { s.procs i with pc := wake (s.procs i).pc } }

/-- After a file has been closed. -/
def Pc.next : List FileIx → Bool → Pc
  | f :: fs, exiting => .closing f fs exiting
  | [], true => .exit
  | [], false => .user

/-! ## The sections -/

def fdalloc (ofile : Fd → Option FileIx) : Option Fd :=
  (List.finRange nofile).find? fun fd => ofile fd = none

/-- `filealloc`, without setting `ref`. -/
def Sys.filealloc (s : Sys) : Option FileIx :=
  (List.finRange nfile).find? fun f => (s.ftable f).ref = 0

/-- `fileclose(f)` in process `i`, up to `pipeclose`. -/
def Sys.fileclose (s : Sys) (i : Slot) (f : FileIx) (fs : List FileIx) (exiting : Bool) : Sys :=
  let x := s.ftable f
  if x.ref < 1 then s.crash .fileclose
  else if 0 < x.ref - 1 then (s.setFile f { x with ref := x.ref - 1 }).setPc i (.next fs exiting)
  else
    (s.setFile f { x with ref := 0, type := .none }).setPc i
      (if x.type = .pipe then .pipeclose x.pipe x.writable fs exiting else .next fs exiting)

/-- `filedup(f)`, for the descriptor `fd` of process `i`. -/
def Sys.filedup (s : Sys) (i : Slot) (fd : Fd) (f : FileIx) : Sys :=
  let x := s.ftable f
  if x.ref < 1 then s.crash .filedup
  else (s.setFile f { x with ref := x.ref + 1 }).setOfile i fd (some f)

/-- `pipeclose`, up to `kfree`. -/
def Sys.pipeclose (s : Sys) (i : Slot) (p : Page) (writable : Bool) (fs : List FileIx)
    (exiting : Bool) : Sys :=
  match s.pipes p with
  | none => s.crash .freed
  | some x =>
      let x := x.close writable
      ((s.setPipe p (some x)).wakeup (.wakeOther p writable)).setPc i
        (if x.readopen = false ∧ x.writeopen = false then .kfree p fs exiting else .next fs exiting)

/-- `pipewrite`, from `acquire` or from a wake-up on. -/
def Sys.pipewrite (s : Sys) (i : Slot) (killed : Bool) (p : Page) (n : Int) (rest : List UInt8) :
    Sys :=
  match s.pipes p with
  | none => s.crash .freed
  | some x =>
      let r := x.fill rest
      let s := s.setPipe p (some r.1)
      if r.2 = [] then (s.wakeup (.wakeRead p)).ret i n
      else if r.1.readopen = false ∨ killed then s.ret i (-1)
      else (s.wakeup (.wakeRead p)).setPc i (.writeSleep p n r.2)

/-- `piperead`. -/
def Sys.piperead (s : Sys) (i : Slot) (killed : Bool) (p : Page) (n : Int) : Sys :=
  match s.pipes p with
  | none => s.crash .freed
  | some x =>
      if x.Empty ∧ x.writeopen then
        if killed then s.ret i (-1) else s.setPc i (.readSleep p n)
      else
        let r := x.drain n.toNat
        let s := (s.setPipe p (some r.2)).wakeup (.wakeWrite p)
        s.setProc i { s.procs i with eax := r.1.length, buf := r.1, pc := .user }

/-- The end of `pipealloc`, with the page `p`. -/
def Sys.pipealloc (s : Sys) (f0 f1 : FileIx) (p : Page) (data : Int → UInt8) : Sys :=
  ((s.setPipe p (some (.fresh data))).setFile f0 ⟨.pipe, (s.ftable f0).ref, true, false, p⟩).setFile
    f1 ⟨.pipe, (s.ftable f1).ref, false, true, p⟩

/-- The end of `sys_pipe`. -/
def Sys.pipe (s : Sys) (i : Slot) (f0 f1 : FileIx) : Sys :=
  match fdalloc (s.procs i).ofile with
  | none => s.ret i (-1) (.closing f0 [f1] false)
  | some fd0 =>
      match fdalloc (Function.update (s.procs i).ofile fd0 (some f0)) with
      | none => s.ret i (-1) (.closing f0 [f1] false)
      | some fd1 => ((s.setOfile i fd0 (some f0)).setOfile i fd1 (some f1)).ret i 0

/-- The end of `sys_open`, with the new file `f`. -/
def Sys.openFile (s : Sys) (i : Slot) (f : FileIx) (omode : BitVec 32) : Sys :=
  match fdalloc (s.procs i).ofile with
  | none => (s.setFile f { s.ftable f with ref := 1 }).ret i (-1) (.closing f [] false)
  | some fd =>
      ((s.setFile f { s.ftable f with
        type := .inode
        ref := 1
        readable := omode &&& 1#32 = 0#32
        writable := omode &&& 1#32 ≠ 0#32 ∨ omode &&& 2#32 ≠ 0#32 }).setOfile i fd (some f)).ret i
          (fd.val : Nat)

/-- A call of process `i`, up to its first section. -/
def Sys.call (s : Sys) (i : Slot) : Call → Option Sys
  | .read fd n v =>
      match (s.procs i).ofile fd with
      | none => some (s.ret i (-1))
      | some f =>
          let x := s.ftable f
          if x.readable = false then some (s.ret i (-1))
          else match x.type with
            | .pipe => some (s.setPc i (.read x.pipe n))
            | .inode => some (s.ret i v)
            | .none => some (s.crash .fileread)
  | .write fd n v src =>
      match (s.procs i).ofile fd with
      | none => some (s.ret i (-1))
      | some f =>
          let x := s.ftable f
          if x.writable = false then some (s.ret i (-1))
          else match x.type with
            | .pipe => some (s.setPc i (.write x.pipe n ((List.range n.toNat).map src)))
            | .inode => some (s.ret i v)
            | .none => some (s.crash .filewrite)
  | .dup fd =>
      match (s.procs i).ofile fd with
      | none => some (s.ret i (-1))
      | some f =>
          match fdalloc (s.procs i).ofile with
          | none => some (s.ret i (-1))
          | some fd' => some ((s.filedup i fd' f).ret i (fd'.val : Nat))
  | .close fd =>
      match (s.procs i).ofile fd with
      | none => some (s.ret i (-1))
      | some f => some ((s.setOfile i fd none).ret i 0 (.closing f [] false))
  | .pipe =>
      match s.filealloc with
      | none => some (s.ret i (-1))
      | some f => some ((s.setFile f { s.ftable f with ref := 1 }).setPc i (.pipe1 f))
  | .open omode =>
      match s.filealloc with
      | none => some (s.ret i (-1))
      | some f => some (s.openFile i f omode)
  | .fork np =>
      if (s.procs np).pc = .gone then
        some ((s.setPc np .embryo).setPc i (.fork np (List.finRange nofile)))
      else none
  | .exit => some (s.setPc i .exit)

/-- The next section of process `i`. -/
def Sys.go (s : Sys) (i : Slot) (killed : Bool) (page : Option (Page × (Int → UInt8))) :
    Option Sys :=
  match (s.procs i).pc with
  | .read p n => some (s.piperead i killed p n)
  | .write p n rest => some (s.pipewrite i killed p n rest)
  | .pipe1 f0 =>
      match s.filealloc with
      | none => some (s.ret i (-1) (.closing f0 [] false))
      | some f1 => some ((s.setFile f1 { s.ftable f1 with ref := 1 }).setPc i (.pipe2 f0 f1))
  | .pipe2 f0 f1 =>
      match page with
      | none => some (s.ret i (-1) (.closing f0 [f1] false))
      | some (p, data) =>
          if (s.pipes p).isNone then some ((s.pipealloc f0 f1 p data).pipe i f0 f1) else none
  | .closing f fs exiting => some (s.fileclose i f fs exiting)
  | .pipeclose p writable fs exiting => some (s.pipeclose i p writable fs exiting)
  | .kfree p fs exiting =>
      match s.pipes p with
      | none => some (s.crash .freed)
      | some _ => some ((s.setPipe p none).setPc i (.next fs exiting))
  | .fork np (fd :: todo) =>
      match (s.procs i).ofile fd with
      | none => some (s.setPc i (.fork np todo))
      | some f => some ((s.setPc i (.fork np todo)).filedup np fd f)
  | .fork np [] => some ((s.setPc i .user).ret np 0)
  | .exit =>
      match (List.finRange nofile).find? fun fd => ((s.procs i).ofile fd).isSome with
      | none => some (s.setPc i .gone)
      | some fd =>
          match (s.procs i).ofile fd with
          | none => none
          | some f => some ((s.setOfile i fd none).setPc i (.closing f [] true))
  | .gone | .embryo | .user | .readSleep .. | .writeSleep .. => none

/-- A step; `none` is an event that cannot happen. -/
def Sys.step (s : Sys) (e : Event) : Option Sys :=
  if s.fault = none then
    match e with
    | .call i c => if (s.procs i).pc = .user then s.call i c else none
    | .go i killed page => s.go i killed page
    | .wake i =>
        match (s.procs i).pc with
        | .readSleep p n => some (s.setPc i (.read p n))
        | .writeSleep p n rest => some (s.setPc i (.write p n rest))
        | _ => none
  else none

/-- One process, without files. -/
def boot : Sys where
  ftable _ := ⟨.none, 0, false, false, 0⟩
  pipes _ := none
  procs i := ⟨fun _ => none, if i.val = 0 then .user else .gone, 0, []⟩
  fault := none

end Cs537.Files
