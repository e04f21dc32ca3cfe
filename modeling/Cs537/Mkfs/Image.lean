/-
# `Cs537.Mkfs.Image` — making an image

`mkfs.c` of `p5/linux` writes a file of 1024 sectors from the files under a
directory.  Blocks and inodes are numbered by counters that only go up
(`freeblock`, `freeinode`); a file grows at its end (`iappend`).  `none` is an
exit with a failure: a read past the end of the file (`rsect`), or an assertion.

    wsect, rsect, winode, rinode     a sector, an inode
    ialloc, iappend, balloc          a new inode, bytes at a file's end, the bitmap
    mkfs, addDir, main               the empty image, the files, the program

A `Dir` is what the loop of `add_dir` reads, in the order in which it does: the
names, and for a file what each `read` gives.  The calls of the host do not fail
here.  `trace` is what has been done, the last first, for the statements to
speak of; no function reads it.
-/
import Cs537.Lib.Memory

namespace Cs537.Mkfs

open Cs537.Lib

def BSIZE : Nat := 512
def NDIRECT : Nat := 12
def MAXFILE : Nat := 140
/-- inodes in a block -/
def IPB : Nat := 8
def DIRSIZ : Nat := 14
def ROOTINO : Nat := 1
def T_DIR : Nat := 1
def T_FILE : Nat := 2

def nblocks : Nat := 995
def ninodes : Nat := 200
def size : Nat := 1024

def zeroes : Mem := fun _ => 0

/-! ## `struct dinode` -/

abbrev Dinode := Mem

namespace Dinode

def type (d : Dinode) : Nat := d.get 2 0
def nlink (d : Dinode) : Nat := d.get 2 6
def size (d : Dinode) : Nat := d.get 4 8
def addrs (d : Dinode) (j : Nat) : Nat := d.get 4 (12 + 4 * j)
def setType (d : Dinode) (v : Nat) : Dinode := d.put 2 0 v
def setNlink (d : Dinode) (v : Nat) : Dinode := d.put 2 6 v
def setSize (d : Dinode) (v : Nat) : Dinode := d.put 4 8 v
def setAddrs (d : Dinode) (j v : Nat) : Dinode := d.put 4 (12 + 4 * j) v

end Dinode

/-! ## The state -/

/-- What a sector is written for. -/
inductive What where
  | format
  | inode
  | indirect
  | data
  | bitmap
  deriving DecidableEq

inductive Event where
  | ialloc (inum : Nat)
  | iappend (inum : Nat) (p : List UInt8)
  | block (b : Nat)
  | write (what : What) (sec : Nat)

/-- The file, its length in sectors, and the counters. -/
structure St where
  img : Mem
  sectors : Nat
  freeblock : Nat
  usedblocks : Nat
  freeinode : Nat
  trace : List Event

namespace St

/-! ## Sectors and inodes -/

def wsect (s : St) (what : What) (sec : Nat) (buf : Mem) : St :=
  { s with
    img := s.img.copy (sec * BSIZE) BSIZE buf
    sectors := max s.sectors (sec + 1)
    trace := .write what sec :: s.trace }

def rsect (s : St) (sec : Nat) : Option Mem :=
  if sec < s.sectors then some (s.img.ptr (sec * BSIZE)) else none

def i2b (inum : Nat) : Nat := inum / IPB + 2

def winode (s : St) (inum : Nat) (d : Dinode) : Option St := do
  let buf ← s.rsect (i2b inum)
  return s.wsect .inode (i2b inum) (buf.copy (64 * (inum % IPB)) 64 d)

def rinode (s : St) (inum : Nat) : Option Dinode := do
  let buf ← s.rsect (i2b inum)
  return buf.ptr (64 * (inum % IPB))

/-- `ialloc(type)`: the number, and the state. -/
def ialloc (s : St) (type : Nat) : Option (Nat × St) := do
  let inum := s.freeinode
  let din := ((Dinode.setType zeroes type).setNlink 1).setSize 0
  let s ← { s with freeinode := s.freeinode + 1 }.winode inum din
  return (inum, { s with trace := .ialloc inum :: s.trace })

/-! ## `iappend` -/

/-- `freeblock++` and `usedblocks++`. -/
def take (s : St) : St :=
  { s with
    freeblock := s.freeblock + 1
    usedblocks := s.usedblocks + 1
    trace := .block s.freeblock :: s.trace }

/-- A block for `din.addrs[j]`, if it has none. -/
def link (s : St) (din : Dinode) (j : Nat) : St × Dinode :=
  if din.addrs j = 0 then (s.take, din.setAddrs j s.freeblock) else (s, din)

/-- A block for entry `j` of the indirect block in sector `sec`, if it has none. -/
def linkEntry (s : St) (sec : Nat) (indirect : Mem) (j : Nat) : St × Mem :=
  if indirect.get 4 (4 * j) = 0 then
    (s.take.wsect .indirect sec (indirect.put 4 (4 * j) s.freeblock),
      indirect.put 4 (4 * j) s.freeblock)
  else (s, indirect)

/-- `x` for entry `j` of the indirect block. -/
def entryBlock (s : St) (din : Dinode) (j : Nat) : Option (St × Dinode × Nat) := do
  let indirect ← s.rsect (din.addrs NDIRECT)
  let (s, indirect) := s.linkEntry (din.addrs NDIRECT) indirect j
  return (s, din, indirect.get 4 (4 * j))

/-- `x`, the block of the file's bytes from `512 * fbn` on. -/
def blockFor (s : St) (din : Dinode) (fbn : Nat) : Option (St × Dinode × Nat) :=
  if fbn < NDIRECT then
    let (s, din) := s.link din fbn
    some (s, din, din.addrs fbn)
  else
    let (s, din) := s.link din NDIRECT
    s.entryBlock din (fbn - NDIRECT)

/-- The bytes at a pointer into `xp`. -/
def bytesAt (p : List UInt8) : Mem := fun i => p.getD i 0

/-- `n1`: what of `p` goes in the block of `off`. -/
def chunk (off : Nat) (p : List UInt8) : Nat := min p.length ((off / 512 + 1) * 512 - off)

/-- An iteration of the loop of `iappend`. -/
def turn (s : St) (din : Dinode) (off : Nat) (p : List UInt8) : Option (St × Dinode) :=
  if off / 512 < MAXFILE then do
    let (s, din, x) ← s.blockFor din (off / 512)
    let buf ← s.rsect x
    return (s.wsect .data x (buf.copy (off - off / 512 * 512) (chunk off p) (bytesAt p)), din)
  else none

theorem chunk_pos (off : Nat) {p : List UInt8} (h : p ≠ []) : 0 < chunk off p := by
  have := List.length_pos_iff.mpr h
  rw [chunk]
  omega

/-- The loop: `din` and `off` at its end. -/
def iappendLoop (s : St) (din : Dinode) (off : Nat) (p : List UInt8) :
    Option (St × Dinode × Nat) :=
  if _h : p = [] then some (s, din, off)
  else do
    let (s, din) ← s.turn din off p
    iappendLoop s din (off + chunk off p) (p.drop (chunk off p))
termination_by p.length
decreasing_by
  have := chunk_pos off _h
  have := List.length_pos_iff.mpr _h
  rw [List.length_drop]
  omega

def iappend (s : St) (inum : Nat) (p : List UInt8) : Option St := do
  let din ← s.rinode inum
  let (s, din, off) ← s.iappendLoop din din.size p
  let s ← s.winode inum (din.setSize off)
  return { s with trace := .iappend inum p :: s.trace }

/-! ## The bitmap -/

/-- `buf` after the loop of `balloc`. -/
def usedBits (used : Nat) : Mem :=
  (List.range used).foldl (fun buf i => buf.put 1 (i / 8) (buf.get 1 (i / 8) ||| 2 ^ (i % 8))) zeroes

def balloc (s : St) (used : Nat) : Option St :=
  if used < 512 * 8 then some (s.wsect .bitmap (ninodes / IPB + 3) (usedBits used)) else none

/-! ## The empty image -/

/-- The file as `open` with `O_TRUNC` leaves it, and the initial counters. -/
def start : St where
  img := zeroes
  sectors := 0
  freeblock := 0
  usedblocks := 0
  freeinode := 1
  trace := []

def superblock (nblocks ninodes size : Nat) : Mem :=
  Mem.put 4 (Mem.put 4 (Mem.put 4 zeroes 0 size) 4 nblocks) 8 ninodes

def mkfs (s : St) (nblocks ninodes size : Nat) : Option St :=
  let bitblocks := size / (512 * 8) + 1
  let usedblocks := ninodes / IPB + 3 + bitblocks
  if nblocks + usedblocks = size then
    let s := { s with usedblocks, freeblock := usedblocks }
    let s := (List.range (nblocks + usedblocks)).foldl (fun s i => s.wsect .format i zeroes) s
    some (s.wsect .format 1 (superblock nblocks ninodes size))
  else none

end St

/-! ## Directories -/

/-- What is left to read of a directory of the host: files, with what each
`read` gives, and directories. -/
inductive Dir where
  | nil
  | file (name : List UInt8) (reads : List (List UInt8)) (rest : Dir)
  | sub (name : List UInt8) (dir : Dir) (rest : Dir)

def dot : List UInt8 := [46]
def dotdot : List UInt8 := [46, 46]

/-- The names that the loop of `add_dir` passes by. -/
def Passed (name : List UInt8) : Prop := name = dot ∨ name = dotdot

instance (name : List UInt8) : Decidable (Passed name) := inferInstanceAs (Decidable (_ ∨ _))

/-- The bytes of a `struct dirent`; the name is cut by `strncpy`. -/
def dirent (inum : Nat) (name : List UInt8) : List UInt8 :=
  le 2 inum ++ (name.take DIRSIZ ++ List.replicate (DIRSIZ - name.length) 0)

namespace St

/-- The size of a directory is rounded up, to the next block if it is full. -/
def fixSize (s : St) (inum : Nat) : Option St := do
  let din ← s.rinode inum
  s.winode inum (din.setSize ((din.size / BSIZE + 1) * BSIZE))

/-- `add_dir`, with its loop as a parameter. -/
def inDir (entries : St → Option St) (cur parent : Nat) (s : St) : Option St := do
  let s ← s.iappend cur (dirent cur dot)
  let s ← s.iappend cur (dirent parent dotdot)
  let s ← entries s
  s.fixSize cur

/-- The loop of `add_dir`. -/
def addEntries : Dir → Nat → St → Option St
  | .nil, _, s => some s
  | .file name reads rest, cur, s =>
      if Passed name then addEntries rest cur s
      else do
        let (child, s) ← s.ialloc T_FILE
        let s ← reads.foldlM (fun s buf => s.iappend child buf) s
        let s ← s.iappend cur (dirent child name)
        addEntries rest cur s
  | .sub name dir rest, cur, s =>
      if Passed name then addEntries rest cur s
      else do
        let (child, s) ← s.ialloc T_DIR
        let s ← inDir (addEntries dir child) child cur s
        let s ← s.iappend cur (dirent child name)
        addEntries rest cur s

def addDir (dir : Dir) (cur parent : Nat) (s : St) : Option St :=
  inDir (addEntries dir cur) cur parent s

end St

/-- The program on the directory `root`: the file that it leaves. -/
def main (root : Dir) : Option St := do
  let s ← St.start.mkfs nblocks ninodes size
  let (inum, s) ← s.ialloc T_DIR
  if inum = ROOTINO then
    let s ← s.addDir root inum inum
    s.balloc s.usedblocks
  else none

end Cs537.Mkfs
