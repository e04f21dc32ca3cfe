/-
# `Cs537.CheckedFs.Fs` — the block and inode layers of `fs.c` (p5/xv6)

The disk is a function from block numbers to blocks; `bread` followed by
`bwrite` is a read and a write of it, since the buffer cache writes through.
The layout is that of `fs.h`: block 1 is the superblock, inodes start at
block 2, the bitmap follows, then the data blocks.

There is one device.  Each function runs from `ilock` to `iunlock` without
another process in between, so the flag `I_BUSY` is left out, and a function
that panics returns `none`.  The read and write functions of a device (`T_DEV`)
do not touch the file system; they are a parameter.
-/
import Cs537.CheckedFs.Block
import Mathlib.Algebra.Order.Ring.Nat
import Mathlib.Logic.Function.Basic
import Mathlib.Data.Fintype.Basic

namespace Cs537.CheckedFs

open Cs537.Lib.BitField

/-! ## Constants of `fs.h`, `stat.h` and `param.h` -/

def bpb : Nat := 4096
def ipb : Nat := 8
def ndirect : Nat := 12
def nindirect : Nat := 128
def maxfile : Nat := ndirect + nindirect
def ninode : Nat := 50
def ndev : Nat := 10

def tDir : BitVec 16 := 1
def tFile : BitVec 16 := 2
def tDev : BitVec 16 := 3
def tChecked : BitVec 16 := 4

/-! ## Blocks -/

/-- `sb.size` and `sb.ninodes`, as `readsb` finds them. -/
def sbSize (d : Disk) : Nat := (word (d 1) 0).toNat
def sbNinodes (d : Disk) : Nat := (word (d 1) 2).toNat

/-- `IBLOCK(i)`. -/
def iblock (inum : Nat) : Nat := inum / ipb + 2

/-- `BBLOCK(b, sb.ninodes)`. -/
def bblock (d : Disk) (b : Nat) : Nat := b / bpb + sbNinodes d / ipb + 3

def bzero (d : Disk) (bno : Nat) : Disk := Function.update d bno 0

/-- `data[bi/8] & (1 << (bi % 8))`. -/
def bit (data : Block) (bi : Nat) : Bool := data.getLsbD bi

def setBit (data : Block) (bi : Nat) (v : Bool) : Block := setField data bi (BitVec.ofBool v)

/-- `balloc`: the bitmap blocks in order, and in each the first clear bit. -/
def balloc (d : Disk) : Option (Nat × Disk) :=
  (List.range ((sbSize d + bpb - 1) / bpb)).findSome? fun c =>
    let bp := bblock d (c * bpb)
    ((List.range bpb).find? fun bi => !bit (d bp) bi).map fun bi =>
      (c * bpb + bi, Function.update d bp (setBit (d bp) bi true))

def bfree (d : Disk) (b : Nat) : Option Disk :=
  let d := bzero d b
  let bp := bblock d b
  let bi := b % bpb
  if bit (d bp) bi then some (Function.update d bp (setBit (d bp) bi false)) else none

/-- `bfree` on each block of a list, in order. -/
def bfreeEach : List Nat → Disk → Option Disk
  | [], d => some d
  | b :: bs, d => (bfree d b).bind fun d => bfreeEach bs d

/-! ## Inodes -/

/-- `struct dinode`. -/
@[ext] structure Dinode where
  type : BitVec 16
  major : BitVec 16
  minor : BitVec 16
  nlink : BitVec 16
  size : BitVec 32
  addrs : Fin 13 → BitVec 32

/-- `struct inode`: a slot of the inode cache. -/
structure Inode extends Dinode where
  inum : Nat
  ref : Nat
  /-- `I_VALID` -/
  valid : Bool

/-- `ip->addrs[j]`. -/
def Dinode.addr (ip : Dinode) (j : Nat) : BitVec 32 := ip.addrs (Fin.ofNat 13 j)

def Inode.setAddr (ip : Inode) (j : Nat) (w : BitVec 32) : Inode :=
  { ip with addrs := Function.update ip.addrs (Fin.ofNat 13 j) w }

/-- `memmove(dip->addrs, addrs, sizeof(addrs))`, the first `n` words, at bit `s`. -/
def putAddrs (b : Block) (s : Nat) (ip : Dinode) : Nat → Block
  | 0 => b
  | n + 1 => setField (putAddrs b s ip n) (s + 32 * n) (ip.addr n)

/-- The dinode at bit `s` of a block, and the block with a dinode put there. -/
def getDinode (b : Block) (s : Nat) : Dinode where
  type := field b s 16
  major := field b (s + 16) 16
  minor := field b (s + 32) 16
  nlink := field b (s + 48) 16
  size := field b (s + 64) 32
  addrs := fun j => field b (s + 96 + 32 * j.val) 32

def putDinode (b : Block) (s : Nat) (ip : Dinode) : Block :=
  let b := setField b s ip.type
  let b := setField b (s + 16) ip.major
  let b := setField b (s + 32) ip.minor
  let b := setField b (s + 48) ip.nlink
  let b := setField b (s + 64) ip.size
  putAddrs b (s + 96) ip 13

/-- `(struct dinode*)bp->data + inum%IPB`, in bits. -/
def dinodeBit (inum : Nat) : Nat := 512 * (inum % ipb)

/-- The on-disk inode `inum`. -/
def dinode (d : Disk) (inum : Nat) : Dinode := getDinode (d (iblock inum)) (dinodeBit inum)

def setDinode (d : Disk) (inum : Nat) (ip : Dinode) : Disk :=
  Function.update d (iblock inum) (putDinode (d (iblock inum)) (dinodeBit inum) ip)

def iupdate (d : Disk) (ip : Inode) : Disk := setDinode d ip.inum ip.toDinode

/-! ## The inode cache -/

abbrev Slot := Fin ninode

structure Fs where
  disk : Disk
  icache : Slot → Inode

def Fs.setInode (fs : Fs) (i : Slot) (ip : Inode) : Fs :=
  { fs with icache := Function.update fs.icache i ip }

/-- The slot that `iget` takes: a cached one, or the first empty one. -/
def igetSlot (fs : Fs) (inum : Nat) : Option (Bool × Slot) :=
  match (List.finRange ninode).find? fun i =>
      decide (0 < (fs.icache i).ref ∧ (fs.icache i).inum = inum) with
  | some i => some (true, i)
  | none => ((List.finRange ninode).find? fun i => (fs.icache i).ref = 0).map fun i => (false, i)

def iget (fs : Fs) (inum : Nat) : Option (Slot × Fs) :=
  match igetSlot fs inum with
  | some (true, i) =>
      let ip := fs.icache i
      some (i, fs.setInode i { ip with ref := ip.ref + 1 })
  | some (false, i) =>
      let ip := fs.icache i
      some (i, fs.setInode i { ip with inum := inum, ref := 1, valid := false })
  | none => none

/-- `ilock`: read the inode from disk if the slot is not valid. -/
def ilock (fs : Fs) (i : Slot) : Option Fs :=
  let ip := fs.icache i
  if ip.ref < 1 then none
  else if ip.valid then some fs
  else
    let dip := dinode fs.disk ip.inum
    if dip.type = 0 then none
    else some (fs.setInode i { ip with toDinode := dip, valid := true })

/-- `ialloc`: the first free inode, marked on the disk and put in the cache. -/
def ialloc (fs : Fs) (type : BitVec 16) : Option (Slot × Fs) :=
  match (List.range' 1 (sbNinodes fs.disk - 1)).find? fun inum =>
      (dinode fs.disk inum).type = 0 with
  | none => none
  | some inum =>
      iget { fs with disk := setDinode fs.disk inum ⟨type, 0, 0, 0, 0, fun _ => 0⟩ } inum

/-! ## Inode contents -/

/-- The block number in a data pointer of `ip`. -/
def Dinode.blockno (ip : Dinode) (w : BitVec 32) : BitVec 32 :=
  if ip.type = tChecked then mask24 w else w

/-- `bmap`: the disk block of block `bn` of `ip`, allocated if necessary. -/
def bmap (d : Disk) (ip : Inode) (bn : Nat) : Option (Nat × Disk × Inode) :=
  if bn < ndirect then
    if ip.addr bn = 0 then
      (balloc d).map fun (b, d) =>
        let addr := BitVec.ofNat 32 b
        ((ip.blockno addr).toNat, d, ip.setAddr bn addr)
    else some ((ip.blockno (ip.addr bn)).toNat, d, ip)
  else
    let bn := bn - ndirect
    if bn < nindirect then
      let loaded :=
        if ip.addr ndirect = 0 then
          (balloc d).map fun (b, d) => (d, ip.setAddr ndirect (BitVec.ofNat 32 b))
        else some (d, ip)
      loaded.bind fun (d, ip) =>
        let ind := (ip.addr ndirect).toNat
        let a := d ind
        if word a bn = 0 then
          (balloc d).map fun (b, d) =>
            let addr := BitVec.ofNat 32 b
            ((ip.blockno addr).toNat, Function.update d ind (setWord a bn addr), ip)
        else some ((ip.blockno (word a bn)).toNat, d, ip)
    else none

/-- The calls of `itrunc` to `bfree` have this argument for a data pointer
`w`; the branches of the type test are as in the source. -/
def truncArg (ip : Inode) (w : BitVec 32) : Nat :=
  if ip.type = tChecked then w.toNat else (mask24 w).toNat

/-- The blocks that the loop over the direct pointers passes to `bfree`. -/
def directCalls (ip : Inode) : List Nat :=
  ((List.range ndirect).filter fun i => ip.addr i ≠ 0).map fun i => truncArg ip (ip.addr i)

/-- The blocks that the loop over the indirect block `a` passes to `bfree`. -/
def indirectCalls (ip : Inode) (a : Block) : List Nat :=
  ((List.range nindirect).filter fun j => word a j ≠ 0).map fun j => truncArg ip (word a j)

def itrunc (d : Disk) (ip : Inode) : Option (Disk × Inode) := do
  let d ← bfreeEach (directCalls ip) d
  let d ←
    if ip.addr ndirect ≠ 0 then
      let ind := (ip.addr ndirect).toNat
      bfreeEach (indirectCalls ip (d ind) ++ [ind]) d
    else some d
  let ip := { ip with addrs := fun _ => 0, size := 0 }
  some (iupdate d ip, ip)

/-- `iput`: drop a reference; the last one of an inode without links frees it. -/
def iput (fs : Fs) (i : Slot) : Option Fs :=
  let ip := fs.icache i
  if ip.ref = 1 ∧ ip.valid ∧ ip.nlink = 0 then
    (itrunc fs.disk ip).map fun (d, ip) =>
      let ip := { ip with type := 0 }
      Fs.setInode { fs with disk := iupdate d ip } i { ip with valid := false, ref := ip.ref - 1 }
  else some (fs.setInode i { ip with ref := ip.ref - 1 })

/-- `devsw`: the functions of the devices that have some; the result of a
device read is its return value and the bytes it delivers. -/
structure Devsw where
  read : Fin ndev → Option (BitVec 32 → Int × List Byte)
  write : Fin ndev → Option ((Nat → Byte) → BitVec 32 → Int)

/-- `ip->major`, when it is the index of a device. -/
def devMajor (ip : Inode) : Option (Fin ndev) :=
  if h : 0 ≤ ip.major.toInt ∧ ip.major.toInt < ndev then some ⟨ip.major.toInt.toNat, by omega⟩
  else none

/-- The word that holds the pointer to block `bn`, where `readi` finds the
checksum. -/
def Dinode.sumWord (ip : Dinode) (d : Disk) (bn : Nat) : BitVec 32 :=
  if bn < ndirect then ip.addr bn else word (d (ip.addr ndirect).toNat) (bn - ndirect)

/-- The loop of `readi`, with `tot` bytes of `n` delivered, in `out`, and the
file offset at `off`. -/
def readiLoop (n : Nat) : Nat → Disk → Inode → Nat → Nat → List Byte →
    Option (Int × List Byte × Disk × Inode)
  | 0, _, _, _, _, _ => none
  | fuel + 1, d, ip, tot, off, out =>
      if tot < n then
        (bmap d ip (off / bsize)).bind fun (b, d, ip) =>
          let bp := d b
          let m := min (n - tot) (bsize - off % bsize)
          let out := out ++ (List.range m).map fun i => byteAt bp (off % bsize + i)
          if ip.type = tChecked ∧ xorBytes bp ≠ tag (ip.sumWord d (off / bsize)) then
            some (-1, out, d, ip)
          else readiLoop n fuel d ip (tot + m) (off + m) out
      else some (n, out, d, ip)

/-- `readi`, with the bytes that it stores at `dst`.  The loop runs at most
once for each block that `bmap` accepts. -/
def readi (dev : Devsw) (d : Disk) (ip : Inode) (off n : BitVec 32) :
    Option (Int × List Byte × Disk × Inode) :=
  if ip.type = tDev then
    match (devMajor ip).bind dev.read with
    | none => some (-1, [], d, ip)
    | some read => some ((read n).1, (read n).2, d, ip)
  else if ip.size < off ∨ off + n < off then some (-1, [], d, ip)
  else
    let n := if ip.size < off + n then ip.size - off else n
    readiLoop n.toNat (maxfile + 1) d ip 0 off.toNat []

/-- The checksum of block `bn`, whose data will be `bp`, stored next to its
pointer. -/
def storeSum (d : Disk) (ip : Inode) (bn : Nat) (bp : Block) : Disk × Inode :=
  if bn < ndirect then (d, ip.setAddr bn (retag (ip.addr bn) (xorBytes bp)))
  else
    let ind := (ip.addr ndirect).toNat
    let a := d ind
    (Function.update d ind
      (setWord a (bn - ndirect) (retag (word a (bn - ndirect)) (xorBytes bp))), ip)

/-- One turn of the loop of `writei`: block `bn`, with its data changed by
`change`. -/
def writeBlock (d : Disk) (ip : Inode) (bn : Nat) (change : Block → Block) :
    Option (Disk × Inode) :=
  (bmap d ip bn).map fun (b, d, ip) =>
    let bp := change (d b)
    let (d, ip) := if ip.type = tChecked then storeSum d ip bn bp else (d, ip)
    (Function.update d b bp, ip)

/-- The loop of `writei`; the result has the offset reached. -/
def writeiLoop (n : Nat) (src : Nat → Byte) : Nat → Disk → Inode → Nat → Nat →
    Option (Nat × Disk × Inode)
  | 0, _, _, _, _ => none
  | fuel + 1, d, ip, tot, off =>
      if tot < n then
        let m := min (n - tot) (bsize - off % bsize)
        (writeBlock d ip (off / bsize) fun data =>
          copyIn data (off % bsize) (fun i => src (tot + i)) m).bind fun (d, ip) =>
            writeiLoop n src fuel d ip (tot + m) (off + m)
      else some (off, d, ip)

/-- `writei` of the `n` bytes at `src`. -/
def writei (dev : Devsw) (d : Disk) (ip : Inode) (src : Nat → Byte) (off n : BitVec 32) :
    Option (Int × Disk × Inode) :=
  if ip.type = tDev then
    match (devMajor ip).bind dev.write with
    | none => some (-1, d, ip)
    | some write => some (write src n, d, ip)
  else if ip.size < off ∨ off + n < off then some (-1, d, ip)
  else
    let max := BitVec.ofNat 32 (maxfile * bsize)
    let n := if max < off + n then max - off else n
    (writeiLoop n.toNat src (maxfile + 1) d ip 0 off.toNat).map fun (off, d, ip) =>
      if 0 < n ∧ ip.size < BitVec.ofNat 32 off then
        let ip := { ip with size := BitVec.ofNat 32 off }
        ((n.toNat : Int), iupdate d ip, ip)
      else ((n.toNat : Int), d, ip)

end Cs537.CheckedFs
