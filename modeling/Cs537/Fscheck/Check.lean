/-
# `Cs537.Fscheck.Check` — the checker

`fscheck.c` maps an image and goes over its inodes once, in order: the type, the
addresses of the blocks, the first two entries of a directory, the root, the
entries of a directory, its parent.  It counts as it goes (`u_blocks`,
`uind_table`, `uind_dir`); the bitmap and the counts are checked after that.
The first check that fails prints its message and ends the program.

An image is a memory (`Lib.Memory`) from the start of the file.  Reads past its
end are reads of any bytes here, where the program would fault.  The program
stops `outside` where C defines nothing: an index past an array, an `int`
counted past its range.

    refs img i         the block addresses of inode `i`, in the order they are read
    dirents img i      the places of the entries of a directory
    checkInode img     an iteration of the loop over the inodes
    fscheck img        the program after the image is mapped

A directory's indirect block is read as a block of entries too, and for a
parent with an indirect block the entries in the child's are searched: that is
what the loops do.
-/
import Mathlib.Logic.Function.Basic
import Cs537.Lib.Memory

namespace Cs537.Fscheck

open Cs537.Lib

/-! ## The image -/

abbrev Image := Mem

def BSIZE : Nat := 512
def ROOTINO : Nat := 1
def T_DIR : Nat := 1
def T_FILE : Nat := 2
def T_DEV : Nat := 3
def NDIRECT : Nat := 12
def NINDIRECT : Nat := 128
/-- inodes, and directory entries, in a block -/
def IPB : Nat := 8
def DPB : Nat := 32

variable (img : Image)

/-- `sb->size`, `sb->nblocks`, `sb->ninodes` -/
def size : Nat := img.get 4 BSIZE
def nblocks : Nat := img.get 4 (BSIZE + 4)
def ninodes : Nat := img.get 4 (BSIZE + 8)

/-- The numbers of bitmap and of inode blocks, and the first data block. -/
def nbitmaps : Nat := nblocks img / (512 * 8) + 1
def nind_blocks : Nat := ninodes img / IPB + 1
def b_start : Nat := 2 + nind_blocks img + nbitmaps img

/-- `block * BSIZE`, a product of 32 bits. -/
def place (block : Nat) : Nat := block * BSIZE % 2 ^ 32

/-- Where `struct dinode` `i` starts, and its fields. -/
def dinode (i : Nat) : Nat := 2 * BSIZE + 64 * i
def type (i : Nat) : Nat := img.get 2 (dinode i)
def nlink (i : Nat) : Nat := img.get 2 (dinode i + 6)
def addrs (i j : Nat) : Nat := img.get 4 (dinode i + 12 + 4 * j)

/-- Entry `j` of the indirect block of inode `i`. -/
def ndaddr (i j : Nat) : Nat := img.get 4 (place (addrs img i NDIRECT) + 4 * j)

def direct (i : Nat) : List Nat := (List.range (NDIRECT + 1)).map (addrs img i)
def indirect (i : Nat) : List Nat := (List.range NINDIRECT).map (ndaddr img i)

/-- `addrs[0]` to `addrs[NDIRECT]`, then the entries of the indirect block. -/
def refs (i : Nat) : List Nat :=
  direct img i ++ if addrs img i NDIRECT ≠ 0 then indirect img i else []

/-- `inum` and `name` of the `struct dirent` at `o`, the latter against `"."`
and `".."` for one and two bytes. -/
def inum (o : Nat) : Nat := img.get 2 o
def isDot (o : Nat) : Prop := img (o + 2) = 46
def isDotDot (o : Nat) : Prop := img (o + 2) = 46 ∧ img (o + 3) = 46

instance (o : Nat) : Decidable (isDot img o) := inferInstanceAs (Decidable (_ = _))
instance (o : Nat) : Decidable (isDotDot img o) := inferInstanceAs (Decidable (_ ∧ _))

/-- The entries of a block. -/
def slots (block : Nat) : List Nat := (List.range DPB).map fun n => place block + 16 * n

/-- The entries in the blocks of a list. -/
def entries (blocks : List Nat) : List Nat := (blocks.filter (· ≠ 0)).flatMap slots

def dirents (i : Nat) : List Nat := entries (refs img i)

/-- The entries that the loops over a directory pass by. -/
def Skipped (o : Nat) : Prop :=
  inum img o ≤ 0 ∧ inum img o ≥ ninodes img ∨ isDot img o ∨ isDotDot img o

instance (o : Nat) : Decidable (Skipped img o) := inferInstanceAs (Decidable (_ ∨ _))

/-- Bit `l` of the bitmap, in the 32-bit word that has it. -/
def bit (l : Nat) : Bool :=
  (img.get 4 (place (b_start img - nbitmaps img) + 4 * (l / 32))).testBit (l % 32)

/-! ## Stops -/

/-- The messages. -/
inductive Message where
  | badInode
  | badAddress
  | rootMissing
  | dirFormat
  | parentMismatch
  | addressFree
  | bitmapUnused
  | addressTwice
  | inodeNotFound
  | inodeFree
  | badCount
  | dirTwice
  deriving DecidableEq

def Message.text : Message → String
  | badInode => "ERROR: bad inode.\n"
  | badAddress => "ERROR: bad address in inode.\n"
  | rootMissing => "ERROR: root directory does not exist.\n"
  | dirFormat => "ERROR: directory not properly formatted.\n"
  | parentMismatch => "ERROR: parent directory mismatch.\n"
  | addressFree => "ERROR: address used by inode but marked free in bitmap.\n"
  | bitmapUnused => "ERROR: bitmap marks block in use but it is not in use.\n"
  | addressTwice => "ERROR: address used more than once.\n"
  | inodeNotFound => "ERROR: inode marked use but not found in a directory.\n"
  | inodeFree => "ERROR: inode referred to in directory but marked free.\n"
  | badCount => "ERROR: bad reference count for file.\n"
  | dirTwice => "ERROR: directory appears more than once in file system.\n"

/-- How the program ends before its end: `exit(1)` after a message, or in
behaviour that C does not define. -/
inductive Stop where
  | error (m : Message)
  | outside
  deriving DecidableEq

/-- A test with its message. -/
def check (p : Prop) [Decidable p] (m : Message) : Except Stop Unit :=
  if p then .ok () else .error (.error m)

/-- `for (i = lo; i < n; i++)` with an `int`. -/
def forInt {σ : Type} (lo n : Nat) (f : σ → Nat → Except Stop σ) (s : σ) : Except Stop σ := do
  let s ← (List.range' lo (min n (2 ^ 31) - lo)).foldlM f s
  if 2 ^ 31 ≤ n then .error .outside else .ok s

/-! ## The pass over the inodes -/

/-- `u_blocks`, `uind_table`, `uind_dir`. -/
structure Tables where
  u_blocks : Nat → Nat
  uind_table : Nat → Nat
  uind_dir : Nat → Nat

/-- An address of a used inode: errors 2, 6 and 8. -/
def checkAddr (u : Nat → Nat) (a : Nat) : Except Stop (Nat → Nat) :=
  if a = 0 then .ok u
  else if a < b_start img ∨ a ≥ size img then .error (.error .badAddress)
  else if bit img a = false then .error (.error .addressFree)
  else if a - b_start img ≥ nblocks img then .error .outside
  else if u (a - b_start img) = 1 then .error (.error .addressTwice)
  else .ok (Function.update u (a - b_start img) 1)

/-- An entry of a directory. -/
def countEntry (dir : Nat → Nat) (o : Nat) : Except Stop (Nat → Nat) :=
  if Skipped img o then .ok dir
  else if inum img o ≥ ninodes img then .error .outside
  else .ok (Function.update dir (inum img o) (dir (inum img o) + 1))

def TypeOk (i : Nat) : Prop :=
  type img i = 0 ∨ type img i = T_FILE ∨ type img i = T_DEV ∨ type img i = T_DIR

/-- A directory starts with `.` and `..`: error 4. -/
def FormatOk (i : Nat) : Prop :=
  isDot img (place (addrs img i 0)) ∧ isDotDot img (place (addrs img i 0) + 16)

/-- The root has a block, and is its own parent: error 3. -/
def RootOk (i : Nat) : Prop :=
  addrs img i 0 ≠ 0 ∧ inum img (place (addrs img i 0)) = ROOTINO ∧
    inum img (place (addrs img i 0) + 16) = ROOTINO

/-- Where the entry of directory `i` in its parent `cdp` is looked for. -/
def parentEntries (i cdp : Nat) : List Nat :=
  entries (direct img cdp ++ if addrs img cdp NDIRECT ≠ 0 then indirect img i else [])

/-- The parent has an entry for the directory: error 5. -/
def ParentOk (i : Nat) : Prop :=
  ∃ o ∈ parentEntries img i (inum img (place (addrs img i 0) + 16)),
    ¬ Skipped img o ∧ inum img o = inum img (place (addrs img i 0))

instance (i : Nat) : Decidable (TypeOk img i) := inferInstanceAs (Decidable (_ ∨ _))
instance (i : Nat) : Decidable (FormatOk img i) := inferInstanceAs (Decidable (_ ∧ _))
instance (i : Nat) : Decidable (RootOk img i) := inferInstanceAs (Decidable (_ ∧ _))
instance (i : Nat) : Decidable (ParentOk img i) := inferInstanceAs (Decidable (∃ o ∈ _, _))

/-- What the loops over the addresses of inode `i` read: nothing if it is free. -/
def usedRefs (i : Nat) : List Nat := if type img i ≠ 0 then refs img i else []

/-- What the loops over the entries of directory `i` read. -/
def usedDirents (i : Nat) : List Nat := if type img i = T_DIR then dirents img i else []

/-- `uind_table[i]++` for an inode that is not free. -/
def countInode (table : Nat → Nat) (i : Nat) : Nat → Nat :=
  if type img i ≠ 0 then Function.update table i (table i + 1) else table

def checkInode (s : Tables) (i : Nat) : Except Stop Tables := do
  check (TypeOk img i) .badInode
  let u ← (usedRefs img i).foldlM (checkAddr img) s.u_blocks
  check (type img i = T_DIR → FormatOk img i) .dirFormat
  check (i = ROOTINO → RootOk img i) .rootMissing
  let dir ← (usedDirents img i).foldlM (countEntry img) s.uind_dir
  check (type img i = T_DIR → i ≠ 1 → ParentOk img i) .parentMismatch
  .ok ⟨u, countInode img s.uind_table i, dir⟩

/-! ## The program -/

/-- Error 7. -/
def checkBit (s : Tables) (l : Nat) : Except Stop Tables := do
  check (bit img l = true → s.u_blocks (l - b_start img) ≠ 0) .bitmapUnused
  .ok s

/-- Error 9. -/
def checkFound (s : Tables) (l : Nat) : Except Stop Tables := do
  check (s.uind_table l ≠ 0 → s.uind_dir l ≠ 0) .inodeNotFound
  .ok s

/-- Error 10. -/
def checkUsed (s : Tables) (l : Nat) : Except Stop Tables := do
  check (s.uind_dir l ≠ 0 → s.uind_table l ≠ 0) .inodeFree
  .ok s

/-- `dinp->nlink`, a `short`, as it is compared with a `uint`. -/
def links (i : Nat) : Nat :=
  if nlink img i < 2 ^ 15 then nlink img i else nlink img i + 2 ^ 32 - 2 ^ 16

/-- Errors 11 and 12. -/
def checkLinks (s : Tables) (i : Nat) : Except Stop Tables := do
  check (type img i = T_FILE → links img i = s.uind_dir i) .badCount
  check (type img i = T_DIR → i ≠ 1 → s.uind_dir i = 1) .dirTwice
  .ok s

/-- The tables before the pass.  The loop that clears `uind_table` and `uind_dir`
runs to `nblocks` and not to `ninodes`: with less blocks than inodes the rest
holds what was there, with more the zeros past the arrays are taken to hit
nothing. -/
def cleared (junk : Tables) : Tables where
  u_blocks _ := 0
  uind_table k := if k < nblocks img then 0 else junk.uind_table k
  uind_dir k := if k < nblocks img then 0 else junk.uind_dir k

def fscheck (junk : Tables) : Except Stop Unit :=
  -- the loops that clear the tables
  if nblocks img ≥ 2 ^ 31 then .error .outside
  else do
    let s ← forInt 0 (ninodes img) (checkInode img) (cleared img junk)
    let s ← forInt (b_start img) ((b_start img + nblocks img) % 2 ^ 32) (checkBit img) s
    let s ← forInt 2 (ninodes img) checkFound s
    let s ← forInt 2 (ninodes img) checkUsed s
    let _ ← forInt 0 (ninodes img) (checkLinks img) s
    .ok ()

end Cs537.Fscheck
