/-
# `Cs537.Names.System` — directories and the calls that change them (p5/xv6)

The directory layer of `fs.c` and the calls of `sysfile.c` that use it, made by any number
of processes at the same time.

    namex      one step for each path element: looks it up in the directory that the
               process has reached, and goes on from there
    create     open with O_CREATE, mkdir, mknod
    sys_link   counts the link first, and makes it after a second walk
    sys_unlink, sys_open, sys_chdir, sys_close
    iput       frees an inode that has no link when its last reference goes

A step of a process is what it does while it holds the lock of one directory or inode, or
one `iput`; the references that it still has to put are its `drops`.

A directory is the list of its entries, up to its size; the contents of files are left out,
and that the disk is full, which is a panic in `balloc`.  A change of an inode is written
through (`iupdate`), so there is one copy of it.  There is one device.  A disk has fewer
entries than would overflow `nlink`.
-/
import Cs537.Lib.Run
import Mathlib.Data.List.FinRange
import Mathlib.Logic.Function.Basic

namespace Cs537.Names

open Cs537.Lib

def NPROC : Nat := 64

/-- The slots of `icache`. -/
def NINODE : Nat := 50

/-- The inodes of the disk. -/
def NINODES : Nat := 200

def DIRSIZ : Nat := 14

/-- The entries of a directory of `MAXFILE` blocks. -/
def MAXENTS : Nat := 140 * 32

abbrev Slot := Fin NPROC

abbrev Inum := Fin NINODES

def ROOTINO : Inum := ⟨1, Nat.one_lt_succ_succ _⟩

abbrev Name := List UInt8

/-- `"."` -/
def dot : Name := [46]

/-- `".."` -/
def dotdot : Name := [46, 46]

/-- `T_DIR` and so on; a free inode has type 0. -/
inductive FType where
  | free
  | dir
  | file
  | dev
  | checked
  deriving DecidableEq

/-- `struct dirent`; an empty one has inode number 0. -/
structure Dirent where
  inum : Option Inum
  name : Name

structure Inode where
  type : FType
  nlink : Nat
  entries : List Dirent

/-! ## Paths -/

/-- The next element of a path, and what follows it. -/
def skipelem (path : List UInt8) : Option (Name × List UInt8) :=
  let path := path.dropWhile (· == 47)
  if path = [] then none
  else
    let s := path.takeWhile (· != 47)
    let path := path.dropWhile (· != 47)
    some (s.take DIRSIZ, path.dropWhile (· == 47))

/-! ## Directories -/

/-- Where `name` is, and the inode number there. -/
def dirlookup (name : Name) : List Dirent → Option (Nat × Inum)
  | [] => none
  | de :: l =>
      match de.inum with
      | none => (dirlookup name l).map fun r => (r.1 + 1, r.2)
      | some n => if de.name = name then some (0, n)
                  else (dirlookup name l).map fun r => (r.1 + 1, r.2)

/-- Writes `de` to the first empty entry, or behind the last. -/
def dirlink (de : Dirent) : List Dirent → List Dirent
  | [] => [de]
  | e :: l => if e.inum = none then de :: l else e :: dirlink de l

def isFull (l : List Dirent) : Prop := MAXENTS ≤ l.length ∧ ∀ de ∈ l, de.inum ≠ none

instance (l : List Dirent) : Decidable (isFull l) :=
  inferInstanceAs (Decidable (MAXENTS ≤ l.length ∧ ∀ de ∈ l, de.inum ≠ none))

/-- No entry but `.` and `..`, which are the first two. -/
def isdirempty (l : List Dirent) : Prop := ∀ de ∈ l.drop 2, de.inum = none

instance (l : List Dirent) : Decidable (isdirempty l) :=
  inferInstanceAs (Decidable (∀ de ∈ l.drop 2, de.inum = none))

/-! ## Processes -/

/-- What a call does with the inode that `namex` returns. -/
inductive Goal where
  | openFile (rdonly full : Bool)
  /-- `full` is for `open`: whether there is no file or descriptor left -/
  | create (type : FType) (full : Option Bool)
  | link (new : List UInt8)
  /-- the second walk of `sys_link` -/
  | linkTo (old : Inum)
  | unlink
  | chdir

/-- For `nameiparent`. -/
def Goal.parent : Goal → Bool
  | .create _ _ | .linkTo _ | .unlink => true
  | _ => false

/-- Where a process is: in front of what it does with the next lock. -/
inductive Pc where
  /-- not in a call -/
  | user
  /-- in `namex`, at `ip` -/
  | walk (ip : Inum) (path : List UInt8) (goal : Goal)
  /-- `namex` has returned `ip` -/
  | found (ip : Inum) (name : Name) (goal : Goal)
  /-- `create` has found the name, with the inode `ip` -/
  | present (ip : Inum) (type : FType) (full : Option Bool)
  /-- `bad` in `sys_link` -/
  | bad (ip : Inum)

structure Proc where
  pc : Pc
  cwd : Inum
  /-- the inodes of its open files -/
  files : List Inum
  /-- the references that it has to put before it goes on -/
  drops : List Inum

inductive Fault where
  | noInodes
  | noFree
  | dirFull
  | noType
  | notDir
  | nlink
  /-- a process waits for a lock that it has -/
  | deadlock
  deriving DecidableEq

structure Sys where
  inodes : Inum → Inode
  ref : Inum → Nat
  procs : Slot → Proc
  fault : Option Fault

inductive Call where
  | openFile (path : List UInt8) (rdonly full : Bool)
  /-- `open` with `O_CREATE` -/
  | create (path : List UInt8) (checked full : Bool)
  | mkdir (path : List UInt8)
  | mknod (path : List UInt8)
  | link (old new : List UInt8)
  | unlink (path : List UInt8)
  | chdir (path : List UInt8)
  /-- the `k`-th open file -/
  | close (k : Nat)

inductive Event where
  | call (i : Slot) (c : Call)
  | go (i : Slot)

/-! ## Parts of a step -/

def Sys.setInode (s : Sys) (n : Inum) (x : Inode) : Sys :=
  { s with inodes := Function.update s.inodes n x }

def Sys.setRef (s : Sys) (n : Inum) (k : Nat) : Sys :=
  { s with ref := Function.update s.ref n k }

def Sys.setProc (s : Sys) (i : Slot) (x : Proc) : Sys :=
  { s with procs := Function.update s.procs i x }

def Sys.crash (s : Sys) (f : Fault) : Sys := { s with fault := some f }

/-- Process `i` goes to `pc` when it has put `drops`. -/
def Sys.leave (s : Sys) (i : Slot) (pc : Pc) (drops : List Inum) : Sys :=
  s.setProc i { s.procs i with pc := pc, drops := drops }

/-! ## The inode cache -/

def Sys.cached (s : Sys) : Nat := (List.finRange NINODES).countP fun n => 0 < s.ref n

/-- `iget`, and what follows. -/
def Sys.iget (s : Sys) (n : Inum) (k : Sys → Sys) : Sys :=
  if 0 < s.ref n ∨ s.cached < NINODE then k (s.setRef n (s.ref n + 1)) else s.crash .noInodes

def Sys.iput (s : Sys) (n : Inum) : Sys :=
  let s := if s.ref n = 1 ∧ (s.inodes n).nlink = 0 then s.setInode n ⟨.free, 0, []⟩ else s
  s.setRef n (s.ref n - 1)

/-- The free inode that `ialloc` takes. -/
def Sys.ialloc (s : Sys) : Option Inum :=
  (List.finRange NINODES).find? fun n => n.val ≠ 0 ∧ (s.inodes n).type = .free

/-! ## `namex` -/

/-- The first lines of `namex`. -/
def Sys.namex (s : Sys) (i : Slot) (path : List UInt8) (goal : Goal) (drops : List Inum) : Sys :=
  if path.head? = some 47 then
    s.iget ROOTINO fun s => s.leave i (.walk ROOTINO path goal) drops
  else
    let cwd := (s.procs i).cwd
    (s.setRef cwd (s.ref cwd + 1)).leave i (.walk cwd path goal) drops

/-- What a call does when `namex` returns a null pointer. -/
def Goal.fail : Goal → Pc
  | .linkTo old => .bad old
  | _ => .user

/-- A turn of the loop of `namex`. -/
def Sys.walk (s : Sys) (i : Slot) (ip : Inum) (path : List UInt8) (goal : Goal) : Sys :=
  match skipelem path with
  | none =>
      if goal.parent then s.leave i goal.fail [ip] else s.leave i (.found ip [] goal) []
  | some (name, path) =>
      let x := s.inodes ip
      if x.type = .free then s.crash .noType
      else if x.type ≠ .dir then s.leave i goal.fail [ip]
      else if goal.parent ∧ path = [] then s.leave i (.found ip name goal) []
      else
        match dirlookup name x.entries with
        | none => s.leave i goal.fail [ip]
        | some r => s.iget r.2 fun s => s.leave i (.walk r.2 path goal) [ip]

/-! ## `sysfile.c` -/

/-- The end of `sys_open`. -/
def Sys.opened (s : Sys) (i : Slot) (ip : Inum) (full : Bool) (drops : List Inum) : Sys :=
  if full then s.leave i .user (drops ++ [ip])
  else
    let p := s.procs i
    s.setProc i { p with pc := .user, files := ip :: p.files, drops := drops }

/-- What a call does with the locked inode that `create` returns. -/
def Sys.created (s : Sys) (i : Slot) (ip : Inum) (full : Option Bool) (drops : List Inum) : Sys :=
  match full with
  | none => s.leave i .user (drops ++ [ip])
  | some full => s.opened i ip full drops

/-- The inodes with the new inode `n` in the directory `dp`. -/
def Sys.mknode (s : Sys) (dp : Inum) (name : Name) (n : Inum) (type : FType) : Sys :=
  let x := s.inodes dp
  let dots := if type = .dir then [⟨some n, dot⟩, ⟨some dp, dotdot⟩] else []
  let nlink := if type = .dir then x.nlink + 1 else x.nlink
  (s.setInode n ⟨type, 1, dots⟩).setInode dp
    { x with nlink := nlink, entries := dirlink ⟨some n, name⟩ x.entries }

def Sys.create (s : Sys) (i : Slot) (dp : Inum) (name : Name) (type : FType)
    (full : Option Bool) : Sys :=
  let x := s.inodes dp
  if x.type ≠ .dir then s.crash .notDir
  else
    match dirlookup name x.entries with
    | some r => s.iget r.2 fun s => s.leave i (.present r.2 type full) [dp]
    | none =>
        match s.ialloc with
        | none => s.crash .noFree
        | some n =>
            s.iget n fun s =>
              if isFull x.entries then s.crash .dirFull
              else (s.mknode dp name n type).created i n full [dp]

/-- What `create` does with an inode that is there. -/
def Sys.present (s : Sys) (i : Slot) (ip : Inum) (type : FType) (full : Option Bool) : Sys :=
  let x := s.inodes ip
  if x.type = .free then s.crash .noType
  else if (type = .file ∧ x.type = .file) ∨ (type = .checked ∧ x.type = .checked) then
    s.created i ip full []
  else s.leave i .user [ip]

/-- The end of `sys_link`, with `dirlink`. -/
def Sys.linkTo (s : Sys) (i : Slot) (dp : Inum) (name : Name) (old : Inum) : Sys :=
  let x := s.inodes dp
  if x.type ≠ .dir then s.crash .notDir
  else
    match dirlookup name x.entries with
    | some r => s.iget r.2 fun s => s.leave i (.bad old) [r.2, dp]
    | none =>
        if isFull x.entries then s.crash .dirFull
        else
          (s.setInode dp { x with entries := dirlink ⟨some old, name⟩ x.entries }).leave i .user
            [dp, old]

def Sys.bad (s : Sys) (i : Slot) (ip : Inum) : Sys :=
  let x := s.inodes ip
  if x.type = .free then s.crash .noType
  else (s.setInode ip { x with nlink := x.nlink - 1 }).leave i .user [ip]

/-- The inodes without the entry `k` of `dp`, which is the inode `n`. -/
def Sys.rmnode (s : Sys) (dp : Inum) (k : Nat) (n : Inum) : Sys :=
  let x := s.inodes dp
  let y := s.inodes n
  let nlink := if y.type = .dir then x.nlink - 1 else x.nlink
  (s.setInode dp { x with nlink := nlink, entries := x.entries.set k ⟨none, []⟩ }).setInode n
    { y with nlink := y.nlink - 1 }

def Sys.unlink (s : Sys) (i : Slot) (dp : Inum) (name : Name) : Sys :=
  let x := s.inodes dp
  if name = dot ∨ name = dotdot then s.leave i .user [dp]
  else if x.type ≠ .dir then s.crash .notDir
  else
    match dirlookup name x.entries with
    | none => s.leave i .user [dp]
    | some r =>
        s.iget r.2 fun s =>
          let y := s.inodes r.2
          if r.2 = dp then s.crash .deadlock
          else if y.type = .free then s.crash .noType
          else if y.nlink < 1 then s.crash .nlink
          else if y.type = .dir ∧ ¬isdirempty y.entries then s.leave i .user [r.2, dp]
          else (s.rmnode dp r.1 r.2).leave i .user [dp, r.2]

/-- What a call does with the inode `ip` that `namex` has returned. -/
def Sys.found (s : Sys) (i : Slot) (ip : Inum) (name : Name) (goal : Goal) : Sys :=
  let x := s.inodes ip
  if x.type = .free then s.crash .noType
  else
    match goal with
    | .openFile rdonly full =>
        if x.type = .dir ∧ rdonly = false then s.leave i .user [ip] else s.opened i ip full []
    | .create type full => s.create i ip name type full
    | .link new =>
        if x.type = .dir then s.leave i .user [ip]
        else (s.setInode ip { x with nlink := x.nlink + 1 }).namex i new (.linkTo ip) []
    | .linkTo old => s.linkTo i ip name old
    | .unlink => s.unlink i ip name
    | .chdir =>
        if x.type ≠ .dir then s.leave i .user [ip]
        else
          let p := s.procs i
          s.setProc i { p with pc := .user, cwd := ip, drops := [p.cwd] }

def Sys.call (s : Sys) (i : Slot) : Call → Option Sys
  | .openFile path rdonly full => some (s.namex i path (.openFile rdonly full) [])
  | .create path checked full =>
      some (s.namex i path (.create (if checked then .checked else .file) (some full)) [])
  | .mkdir path => some (s.namex i path (.create .dir none) [])
  | .mknod path => some (s.namex i path (.create .dev none) [])
  | .link old new => some (s.namex i old (.link new) [])
  | .unlink path => some (s.namex i path .unlink [])
  | .chdir path => some (s.namex i path .chdir [])
  | .close k =>
      let p := s.procs i
      p.files[k]?.map fun n => s.setProc i { p with files := p.files.eraseIdx k, drops := [n] }

/-! ## The system -/

def Sys.go (s : Sys) (i : Slot) : Option Sys :=
  let p := s.procs i
  match p.drops with
  | n :: rest => some ((s.iput n).setProc i { p with drops := rest })
  | [] =>
      match p.pc with
      | .user => none
      | .walk ip path goal => some (s.walk i ip path goal)
      | .found ip name goal => some (s.found i ip name goal)
      | .present ip type full => some (s.present i ip type full)
      | .bad ip => some (s.bad i ip)

def Pc.isUser : Pc → Bool
  | .user => true
  | _ => false

/-- A step; `none` is an event that cannot happen. -/
def Sys.step (s : Sys) (e : Event) : Option Sys :=
  if s.fault = none then
    match e with
    | .call i c =>
        if (s.procs i).pc.isUser ∧ (s.procs i).drops = [] then s.call i c else none
    | .go i => s.go i
  else none

/-- The root directory, and nothing else; it is the directory of every process. -/
def boot : Sys where
  inodes n :=
    if n = ROOTINO then ⟨.dir, 1, [⟨some ROOTINO, dot⟩, ⟨some ROOTINO, dotdot⟩]⟩
    else ⟨.free, 0, []⟩
  ref n := if n = ROOTINO then NPROC else 0
  procs _ := ⟨.user, ROOTINO, [], []⟩
  fault := none

end Cs537.Names
