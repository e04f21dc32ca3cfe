/-
# `Cs537.CheckedFs.Mkfs` — the image that `mkfs` makes

`mkfs` writes zeros and the superblock; `balloc` at its end marks the first
`usedblocks` blocks in the one bitmap block that it writes.  Without files
these are the blocks in front of the data blocks, and the image is consistent.
-/
import Cs537.CheckedFs.Bitmap

namespace Cs537.CheckedFs

open Cs537.Lib.BitField

/-- `usedblocks` at the start of `mkfs`. -/
def usedblocks (ninodes size : Nat) : Nat := ninodes / ipb + 3 + (size / bpb + 1)

/-- The superblock. -/
def superblock (nblocks ninodes size : Nat) : Block :=
  setWord (setWord (setWord 0 0 (BitVec.ofNat 32 size)) 1 (BitVec.ofNat 32 nblocks)) 2
    (BitVec.ofNat 32 ninodes)

/-- `balloc(used)`: the bits below `used` are set. -/
def usedBits (used : Nat) : Block := BitVec.ofNat 4096 (2 ^ used - 1)

/-- `mkfs(nblocks, ninodes, size)` and then `balloc(usedblocks)`; `none` where
an assertion fails. -/
def mkfs (nblocks ninodes size : Nat) : Option Disk :=
  if nblocks + usedblocks ninodes size = size ∧ usedblocks ninodes size < bpb then
    some fun b =>
      if b = 1 then superblock nblocks ninodes size
      else if b = ninodes / ipb + 3 then usedBits (usedblocks ninodes size)
      else 0
  else none

section

variable {nblocks ninodes size : Nat} {d : Disk}

theorem mkfs_some (h : mkfs nblocks ninodes size = some d) :
    nblocks + usedblocks ninodes size = size ∧ usedblocks ninodes size < bpb ∧
      d = fun b => if b = 1 then superblock nblocks ninodes size
        else if b = ninodes / ipb + 3 then usedBits (usedblocks ninodes size) else 0 := by
  rw [mkfs] at h
  split at h
  · rename_i hc
    exact ⟨hc.1, hc.2, (Option.some.inj h).symm⟩
  · cases h

theorem word_superblock (nblocks : Nat) (hi : ninodes < 2 ^ 32) (hs : size < 2 ^ 32) :
    (word (superblock nblocks ninodes size) 0).toNat = size ∧
      (word (superblock nblocks ninodes size) 2).toNat = ninodes := by
  have h0 : (0 : Nat) < 128 := by decide
  have h1 : (1 : Nat) < 128 := by decide
  have h2 : (2 : Nat) < 128 := by decide
  rw [superblock, word_setWord _ _ h2, word_setWord _ _ h1, word_setWord _ _ h0, word_setWord _ _ h2]
  simp only [show ¬ (0 = 2) by decide, show ¬ (0 = 1) by decide, if_false, if_true,
    BitVec.toNat_ofNat, Nat.mod_eq_of_lt hi, Nat.mod_eq_of_lt hs, and_self]

theorem getLsbD_usedBits {used i : Nat} (hi : i < 4096) :
    (usedBits used).getLsbD i = decide (i < used) := by
  rw [usedBits, BitVec.getLsbD_ofNat, Nat.testBit_two_pow_sub_one]
  simp [hi]

/-- The blocks in use in a new image. -/
theorem mkfs_inUse (h : mkfs nblocks ninodes size = some d) (hi : ninodes < 2 ^ 32)
    (hs : size < 2 ^ 32) {b : Nat} : inUse d b = decide (b < usedblocks ninodes size) := by
  obtain ⟨-, hused, rfl⟩ := mkfs_some h
  have hlt : b % bpb < 4096 := Nat.mod_lt _ (by decide)
  have hsb : ∀ f : Disk, f 1 = superblock nblocks ninodes size → bblock f b
      = b / bpb + ninodes / ipb + 3 := fun f hf => by
    rw [bblock, sbNinodes, hf, (word_superblock nblocks hi hs).2]
  have hne1 : ¬ b / bpb + ninodes / ipb + 3 = 1 := by
    simp only [bpb, ipb]
    omega
  rw [inUse, hsb _ rfl, bit, if_neg hne1]
  by_cases hb : b / bpb = 0
  · have hmod : b % bpb = b := Nat.mod_eq_of_lt ((Nat.div_eq_zero_iff_lt (by decide)).mp hb)
    rw [if_pos (by rw [hb, Nat.zero_add]), getLsbD_usedBits hlt, hmod]
  · have hge : bpb ≤ b := by
      by_contra hlt'
      exact hb (Nat.div_eq_of_lt (by omega))
    rw [if_neg (by omega)]
    have hout : ¬ b < usedblocks ninodes size := by omega
    simp only [hout, decide_false]
    exact BitVec.getLsbD_zero

/-- What `mkfs` makes is consistent. -/
theorem mkfs_image (h : mkfs nblocks ninodes size = some d) (hs : size ≤ 2 ^ 24) : Image d := by
  obtain ⟨hsum, hused, hd⟩ := mkfs_some h
  have hi : ninodes < 2 ^ 32 := by
    simp only [usedblocks, ipb, bpb] at hsum
    omega
  obtain ⟨hsize, hninodes⟩ := word_superblock nblocks hi (show size < 2 ^ 32 by omega)
  have h1 : d 1 = superblock nblocks ninodes size := by rw [hd]; rfl
  have hstart : dataStart d = usedblocks ninodes size := by
    rw [dataStart, bitmapStart, sbNinodes, sbSize, h1, hninodes, hsize, usedblocks]
  refine ⟨by rw [sbSize, h1, hsize]; exact hs, fun b hb _ => ?_, fun b hb _ _ => ?_⟩
  · rw [mkfs_inUse h hi (by omega), ← hstart]
    exact decide_eq_true hb
  · rw [hstart] at hb
    have hne : ¬ b = 1 ∧ ¬ b = ninodes / ipb + 3 := by
      simp only [usedblocks, bpb, ipb] at hb ⊢
      omega
    rw [hd]
    simp only [if_neg hne.1, if_neg hne.2]

end

/-- A small disk: eight inodes, and 59 data blocks from block 5 on. -/
def smallDisk : Disk := fun b =>
  if b = 1 then superblock 59 8 64 else if b = 4 then usedBits 5 else 0

theorem mkfs_smallDisk : mkfs 59 8 64 = some smallDisk := rfl

end Cs537.CheckedFs
