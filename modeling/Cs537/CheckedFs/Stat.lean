/-
# `Cs537.CheckedFs.Stat` — the checksum of `fstat`

`stati` takes the exclusive or of the tags of a checked file: those next to the
direct pointers, and those in the block that `addrs[NDIRECT]` points to.  With
tags that match the blocks this is the exclusive or of all bytes of the file.
A file without an indirect block has 0 there, and `stati` reads block 0 of the
disk instead: the checksum is right just when the words in that block
have no tags in sum (`stati_checksum`).

There is one device; `st->dev` is left out.
-/
import Cs537.Lib.Xor
import Cs537.CheckedFs.Mkfs
import Cs537.CheckedFs.Tree

namespace Cs537.CheckedFs

open Cs537.Lib Cs537.Lib.BitField

/-- `struct stat`. -/
structure Stat where
  type : BitVec 16
  ino : Nat
  nlink : BitVec 16
  size : BitVec 32
  checksum : Byte

/-- The loop over the indirect block. -/
def indirectSum (bp : Block) : BitVec 32 :=
  (List.range (bsize / 4)).foldl (fun inode_sum j => inode_sum ^^^ (word bp j >>> 24)) 0

def stati (d : Disk) (ip : Inode) (st : Stat) : Stat :=
  let st := { st with ino := ip.inum, type := ip.type, nlink := ip.nlink, size := ip.size }
  if ip.type = tChecked then
    let checksum := (List.range (ndirect + 1)).foldl (fun checksum i =>
      if i < ndirect then checksum ^^^ (ip.addr i >>> 24)
      else checksum ^^^ indirectSum (d (ip.addr ndirect).toNat)) (0 : BitVec 32)
    { st with checksum := checksum.setWidth 8 }
  else st

variable {d e : Disk} {ip iq : Inode}

/-! ## The bytes of a file -/

/-- The blocks that the file has a pointer to. -/
def Dinode.allocated (ip : Dinode) (d : Disk) : List Nat :=
  (List.range (if ip.addr ndirect = 0 then ndirect else maxfile)).filter fun bn =>
    ip.sumWord d bn ≠ 0

/-- The contents of these blocks. -/
def Dinode.contents (ip : Dinode) (d : Disk) : List Block :=
  (ip.allocated d).map fun bn => d (ip.blk d bn)

def bytesOf (b : Block) : List Byte := (List.range bsize).map (byteAt b)

/-- The tags match the blocks. -/
def Matches (d : Disk) (ip : Dinode) : Prop :=
  ∀ bn ∈ ip.allocated d, tag (ip.sumWord d bn) = xorBytes (d (ip.blk d bn))

instance (d : Disk) (ip : Dinode) : Decidable (Matches d ip) :=
  inferInstanceAs (Decidable (∀ bn ∈ _, _))

/-- The exclusive or of the tags in an indirect block. -/
def tagSum (b : Block) : Byte := xorSum ((List.range nindirect).map fun j => tag (word b j))

theorem xorBytes_eq (b : Block) : xorBytes b = xorSum (bytesOf b) := by
  rw [xorBytes, foldl_xor]
  exact BitVec.zero_xor

theorem tag_eq_shift (w : BitVec 32) : (w >>> 24).setWidth 8 = tag w := by
  apply BitVec.eq_of_getLsbD_eq
  intro i hi
  rw [getLsbD_tag, BitVec.getLsbD_setWidth, BitVec.getLsbD_ushiftRight]

/-! ## What `stati` computes -/

theorem stati_tags (st : Stat) (hc : ip.type = tChecked) :
    (stati d ip st).checksum =
      xorSum ((List.range ndirect).map fun bn => tag (ip.addr bn)) ^^^ tagSum (d ip.ind) := by
  have hdirect : (List.range ndirect).foldl (fun checksum i =>
      if i < ndirect then checksum ^^^ (ip.addr i >>> 24)
      else checksum ^^^ indirectSum (d (ip.addr ndirect).toNat)) (0 : BitVec 32) =
      xorSum ((List.range ndirect).map fun bn => ip.addr bn >>> 24) := by
    have hstep : ∀ (s : BitVec 32), ∀ i ∈ List.range ndirect,
        (if i < ndirect then s ^^^ (ip.addr i >>> 24)
          else s ^^^ indirectSum (d (ip.addr ndirect).toNat)) = s ^^^ (ip.addr i >>> 24) :=
      fun s i hi => if_pos (List.mem_range.mp hi)
    rw [List.foldl_ext _ _ _ hstep, foldl_xor]
    exact BitVec.zero_xor
  have hind : indirectSum (d ip.ind) =
      xorSum ((List.range nindirect).map fun j => word (d ip.ind) j >>> 24) := by
    rw [indirectSum, foldl_xor]
    exact BitVec.zero_xor
  have hsum : (stati d ip st).checksum =
      ((List.range (ndirect + 1)).foldl (fun checksum i =>
        if i < ndirect then checksum ^^^ (ip.addr i >>> 24)
        else checksum ^^^ indirectSum (d (ip.addr ndirect).toNat)) (0 : BitVec 32)).setWidth 8 := by
    rw [stati, if_pos hc]
  rw [hsum, List.range_succ, List.foldl_append, hdirect, List.foldl_cons, List.foldl_nil,
    if_neg (Nat.lt_irrefl _), ← Dinode.ind, hind, BitVec.setWidth_xor, xorSum_map_setWidth,
    xorSum_map_setWidth, tagSum]
  simp only [tag_eq_shift]

/-- With tags that match, the bytes of a file sum up to its tags. -/
theorem xorSum_contents (hm : Matches d ip.toDinode) :
    xorSum ((ip.contents d).flatMap bytesOf) =
      xorSum ((List.range ndirect).map fun bn => tag (ip.addr bn)) ^^^
        if ip.addr ndirect = 0 then 0 else tagSum (d ip.ind) := by
  have hzero : ∀ bn, decide (ip.sumWord d bn ≠ 0) = false → tag (ip.sumWord d bn) = 0 :=
    fun bn h => by
      rw [show ip.sumWord d bn = 0 by simpa using h]
      rfl
  have hdirect : (List.range ndirect).map (fun bn => tag (ip.sumWord d bn)) =
      (List.range ndirect).map fun bn => tag (ip.addr bn) :=
    List.map_congr_left fun bn hbn => by rw [sumWord_direct d (List.mem_range.mp hbn)]
  rw [xorSum_flatMap, Dinode.contents, List.map_map]
  have hblocks : (ip.allocated d).map ((fun b => xorSum (bytesOf b)) ∘ fun bn => d (ip.blk d bn)) =
      (ip.allocated d).map fun bn => tag (ip.sumWord d bn) :=
    List.map_congr_left fun bn hbn => by
      rw [hm bn hbn, xorBytes_eq, Function.comp_apply]
  rw [hblocks, Dinode.allocated, xorSum_map_filter fun bn _ h => hzero bn h]
  by_cases h0 : ip.addr ndirect = 0
  · rw [if_pos h0, if_pos h0, hdirect]
    exact BitVec.xor_zero.symm
  · have hsplit : List.range maxfile =
        List.range ndirect ++ (List.range nindirect).map (ndirect + ·) := by
      rw [maxfile, List.range_add]
    have hind : ((List.range nindirect).map (ndirect + ·)).map (fun bn => tag (ip.sumWord d bn)) =
        (List.range nindirect).map fun j => tag (word (d ip.ind) j) := by
      rw [List.map_map]
      refine List.map_congr_left fun j _ => ?_
      show tag (ip.sumWord d (ndirect + j)) = _
      rw [sumWord_indirect d (Nat.le_add_right _ _), Nat.add_sub_cancel_left]
    rw [if_neg h0, if_neg h0, hsplit, List.map_append, xorSum_append, hdirect, hind, tagSum]

/-! ## The checksum of the bytes -/

/-- The file has an indirect block, or the words in block 0 have no tags in sum. -/
def IndirectOk (d : Disk) (ip : Dinode) : Prop := ip.addr ndirect ≠ 0 ∨ tagSum (d 0) = 0

instance (d : Disk) (ip : Dinode) : Decidable (IndirectOk d ip) :=
  inferInstanceAs (Decidable (_ ∨ _))

theorem checksum_iff (st : Stat) (hc : ip.type = tChecked) (hm : Matches d ip.toDinode) :
    (stati d ip st).checksum = xorSum ((ip.contents d).flatMap bytesOf) ↔
      IndirectOk d ip.toDinode := by
  rw [stati_tags st hc, xorSum_contents hm, BitVec.xor_right_inj, IndirectOk]
  by_cases h0 : ip.addr ndirect = 0
  · have hind : ip.ind = 0 := by rw [Dinode.ind, h0]; rfl
    rw [if_pos h0, hind]
    exact ⟨.inr, fun h => h.resolve_left (not_not_intro h0)⟩
  · rw [if_neg h0]
    exact iff_of_true rfl (.inl h0)

/-- The checksum is that of the bytes of the file just when the file has an
indirect block or block 0 has no tags in sum; two such files with the same
contents have the same checksum. -/
theorem stati_checksum (d : Disk) (ip : Inode) (st : Stat) (hc : ip.type = tChecked)
    (hm : Matches d ip.toDinode) :
    ((stati d ip st).checksum = xorSum ((ip.contents d).flatMap bytesOf) ↔
        IndirectOk d ip.toDinode) ∧
      ∀ (e : Disk) (iq : Inode) (st' : Stat), iq.type = tChecked → Matches e iq.toDinode →
        IndirectOk d ip.toDinode → IndirectOk e iq.toDinode → iq.contents e = ip.contents d →
        (stati e iq st').checksum = (stati d ip st).checksum := by
  refine ⟨checksum_iff st hc hm, fun e iq st' hc' hm' hok hok' hsame => ?_⟩
  rw [(checksum_iff st hc hm).mpr hok, (checksum_iff st' hc' hm').mpr hok', hsame]

/-- A file with one block, with a byte 7, and block 0 with `b`. -/
def oneBlock (b : Block) : Disk := fun n => if n = 0 then b else if n = 5 then 7 else smallDisk n

def oneBlockInode : Inode :=
  ⟨⟨tChecked, 0, 0, 1, 1, fun j => if j.val = 0 then 0x07000005 else 0⟩, 2, 1, true⟩

def noStat : Stat := ⟨0, 0, 0, 0, 0⟩

theorem stati_checksum_oneBlock :
    ((stati (oneBlock 0) oneBlockInode noStat).checksum =
          xorSum ((oneBlockInode.contents (oneBlock 0)).flatMap bytesOf) ↔
        IndirectOk (oneBlock 0) oneBlockInode.toDinode) ∧
      ∀ (e : Disk) (iq : Inode) (st' : Stat), iq.type = tChecked → Matches e iq.toDinode →
        IndirectOk (oneBlock 0) oneBlockInode.toDinode → IndirectOk e iq.toDinode →
        iq.contents e = oneBlockInode.contents (oneBlock 0) →
        (stati e iq st').checksum = (stati (oneBlock 0) oneBlockInode noStat).checksum :=
  stati_checksum (oneBlock 0) oneBlockInode noStat rfl (by decide +kernel)

/-- With the byte 1 as the fourth byte of block 0, the checksum is 6. -/
theorem oneBlock_wrong : oneBlockInode.type = tChecked ∧
    Matches (oneBlock 0x01000000) oneBlockInode.toDinode ∧
    (stati (oneBlock 0x01000000) oneBlockInode noStat).checksum = 6 ∧
    xorSum ((oneBlockInode.contents (oneBlock 0x01000000)).flatMap bytesOf) = 7 := by
  decide +kernel

end Cs537.CheckedFs
