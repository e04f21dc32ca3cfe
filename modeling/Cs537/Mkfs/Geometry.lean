/-
# `Cs537.Mkfs.Geometry` — where the blocks are, for `mkfs` and for `fscheck`

`mkfs` of `p5/linux` takes the numbers of data blocks, of inodes and of sectors
as three `int`s, and is in `Cs537.Mkfs.Image` for numbers that are not negative.
Here it has the types of the source.  Three formulas place the blocks:

    usedblocks      mkfs, with the bitmap blocks counted from `size`
    b_start         fscheck, with the bitmap blocks counted from `nblocks`
    BBLOCK          fs.h, from `ninodes` alone

`usedblocks` and `BBLOCK` divide by `IPB`, which is a `size_t`, in 64 bits.
-/
import Cs537.Mkfs.Calls
import Cs537.Fscheck.Check

namespace Cs537.Mkfs.Geometry

open Cs537.Lib

/-! ## The formulas -/

def bitblocks (size : Int32) : UInt32 := (size / (512 * 8) + 1).toUInt32

def usedblocks (ninodes size : Int32) : UInt32 :=
  (ninodes.toInt64.toUInt64 / 8 + 3 + (bitblocks size).toUInt64).toUInt32

/-- `BBLOCK(b, ninodes)`, with `BPB` an `int`. -/
def BBLOCK (b ninodes : Int32) : UInt64 :=
  (b / (512 * 8)).toInt64.toUInt64 + ninodes.toInt64.toUInt64 / 8 + 3

/-- `mkfs(nblocks, ninodes, size)`; `none` when the assertion fails. -/
def mkfs (s : St) (nblocks ninodes size : Int32) : Option St :=
  let usedblocks := usedblocks ninodes size
  if nblocks.toUInt32 + usedblocks = size.toUInt32 then
    let s := { s with usedblocks := usedblocks.toNat, freeblock := usedblocks.toNat }
    let s := (List.range (nblocks.toUInt32 + usedblocks).toNat).foldl
      (fun s i => s.wsect .format i zeroes) s
    some (s.wsect .format 1
      (St.superblock nblocks.toUInt32.toNat ninodes.toUInt32.toNat size.toUInt32.toNat))
  else none

/-! ## Their values -/

variable {nblocks ninodes size : Int32} {s s' : St}

theorem uint_eq (x : Int32) : (x.toUInt32.toNat : Int) = x.toInt % 2 ^ 32 := by
  have hbmod : x.toInt = (x.toUInt32.toNat : Int).bmod (2 ^ 32) :=
    BitVec.toInt_eq_toNat_bmod x.toBitVec
  have hlt : x.toUInt32.toNat < 2 ^ 32 := x.toUInt32.toNat_lt
  rw [hbmod]
  refine .trans ?_ Int.bmod_emod.symm
  omega

theorem size_t_eq (x : Int32) : (x.toInt64.toUInt64.toNat : Int) = x.toInt % 2 ^ 64 := by
  have hbmod : x.toInt64.toInt = (x.toInt64.toUInt64.toNat : Int).bmod (2 ^ 64) :=
    BitVec.toInt_eq_toNat_bmod x.toInt64.toBitVec
  have hlt : x.toInt64.toUInt64.toNat < 2 ^ 64 := x.toInt64.toUInt64.toNat_lt
  rw [← Int32.toInt_toInt64, hbmod]
  refine .trans ?_ Int.bmod_emod.symm
  omega

theorem bitblocks_eq (size : Int32) :
    ((bitblocks size).toNat : Int) = (size.toInt.tdiv 4096 + 1) % 2 ^ 32 := by
  rw [bitblocks, uint_eq, Int32.toInt_add, Int32.toInt_div_of_ne_right _ _ (by decide)]
  exact Int.bmod_emod

theorem usedblocks_eq (ninodes size : Int32) :
    ((usedblocks ninodes size).toNat : Int) =
      (ninodes.toInt % 2 ^ 64 / 8 + 3 + (size.toInt.tdiv 4096 + 1) % 2 ^ 32) % 2 ^ 32 := by
  have hsize_t := size_t_eq ninodes
  have hbit := bitblocks_eq size
  rw [usedblocks, UInt64.toNat_toUInt32, UInt64.toNat_add, UInt64.toNat_add, UInt64.toNat_div,
    UInt32.toNat_toUInt64]
  simp only [UInt64.reduceToNat]
  omega

theorem BBLOCK_zero (ninodes : Int32) :
    ((BBLOCK 0 ninodes).toNat : Int) = ninodes.toInt % 2 ^ 64 / 8 + 3 := by
  have hsize_t := size_t_eq ninodes
  have hzero : ((0 : Int32) / (512 * 8)).toInt64.toUInt64 = 0 := by decide
  rw [BBLOCK, hzero, UInt64.zero_add, UInt64.toNat_add, UInt64.toNat_div]
  simp only [UInt64.reduceToNat]
  omega

/-! ## What `mkfs` leaves -/

theorem mkfs_some : mkfs s nblocks ninodes size = some s' ↔
    nblocks.toUInt32 + usedblocks ninodes size = size.toUInt32 ∧
      s' = ((List.range (nblocks.toUInt32 + usedblocks ninodes size).toNat).foldl
        (fun (s : St) i => s.wsect .format i zeroes)
        { s with
          usedblocks := (usedblocks ninodes size).toNat
          freeblock := (usedblocks ninodes size).toNat }).wsect .format 1
        (St.superblock nblocks.toUInt32.toNat ninodes.toUInt32.toNat size.toUInt32.toNat) := by
  rw [mkfs]
  by_cases hacc : nblocks.toUInt32 + usedblocks ninodes size = size.toUInt32
  · rw [if_pos hacc, Option.some_inj]
    exact ⟨fun heq => ⟨hacc, heq.symm⟩, fun h => h.2.symm⟩
  · rw [if_neg hacc]
    exact ⟨fun h => absurd h (by rintro ⟨⟩), fun h => absurd h.1 hacc⟩

theorem format_usedblocks (l : List Nat) (s : St) :
    (l.foldl (fun (s : St) i => s.wsect .format i zeroes) s).usedblocks = s.usedblocks := by
  induction l generalizing s with
  | nil => rfl
  | cons i l ih => exact ih _

theorem mkfs_usedblocks (h : mkfs s nblocks ninodes size = some s') :
    s'.usedblocks = (usedblocks ninodes size).toNat := by
  obtain ⟨-, rfl⟩ := mkfs_some.mp h
  exact format_usedblocks _ _

/-- The checker reads the three numbers as `uint`s. -/
theorem mkfs_superblock (h : mkfs s nblocks ninodes size = some s') :
    Fscheck.nblocks s'.img = nblocks.toUInt32.toNat ∧
      Fscheck.ninodes s'.img = ninodes.toUInt32.toNat := by
  obtain ⟨-, rfl⟩ := mkfs_some.mp h
  refine ⟨(Mem.get_copy_inside (by decide)).trans ?_, (Mem.get_copy_inside (by decide)).trans ?_⟩
  · exact St.superblock_nblocks nblocks.toUInt32.toNat_lt
  · exact St.superblock_ninodes ninodes.toUInt32.toNat_lt

/-- On numbers that are not negative this is `St.mkfs`. -/
theorem mkfs_nonneg (hnb : 0 ≤ nblocks.toInt) (hni : 0 ≤ ninodes.toInt) (hsize : 0 ≤ size.toInt) :
    mkfs s nblocks ninodes size =
      s.mkfs nblocks.toUInt32.toNat ninodes.toUInt32.toNat size.toUInt32.toNat := by
  have hnbu := uint_eq nblocks
  have hniu := uint_eq ninodes
  have hsizeu := uint_eq size
  have hnblt := nblocks.toInt_lt
  have hnilt := ninodes.toInt_lt
  have hsizelt := size.toInt_lt
  have hused : (usedblocks ninodes size).toNat =
      ninodes.toUInt32.toNat / IPB + 3 + (size.toUInt32.toNat / (512 * 8) + 1) := by
    have heq := usedblocks_eq ninodes size
    rw [Int.tdiv_eq_ediv_of_nonneg hsize] at heq
    rw [IPB]
    omega
  have hsum : (nblocks.toUInt32 + usedblocks ninodes size).toNat =
      nblocks.toUInt32.toNat + (usedblocks ninodes size).toNat := by
    rw [UInt32.toNat_add]
    rw [IPB] at hused
    omega
  have hacc : nblocks.toUInt32 + usedblocks ninodes size = size.toUInt32 ↔
      nblocks.toUInt32.toNat + (usedblocks ninodes size).toNat = size.toUInt32.toNat := by
    rw [← hsum]
    exact UInt32.toNat_inj.symm
  rw [mkfs, St.mkfs, ← hused]
  simp only [hacc, hsum]

/-! ## The two programs -/

theorem tdiv_eq (a : Int) : a.tdiv 4096 = if 0 ≤ a then a / 4096 else -(-a / 4096) := by
  by_cases ha : 0 ≤ a
  · rw [if_pos ha, Int.tdiv_eq_ediv_of_nonneg ha]
  · rw [if_neg ha, ← Int.tdiv_eq_ediv_of_nonneg (by omega), Int.neg_tdiv, Int.neg_neg]

/-- `fscheck` takes the first data block where `mkfs` has put it, and the first
bitmap block where `BBLOCK` has it, just if `nblocks` and `size` are in the same
multiple of 4096 and the numbers are not negative. -/
theorem mkfs_agrees (h : mkfs s nblocks ninodes size = some s') :
    Fscheck.b_start s'.img = s'.usedblocks ∧
        Fscheck.b_start s'.img - Fscheck.nbitmaps s'.img = (BBLOCK 0 ninodes).toNat ↔
      0 ≤ nblocks.toInt ∧ 0 ≤ ninodes.toInt ∧ nblocks.toInt / 4096 = size.toInt / 4096 := by
  obtain ⟨hnb, hni⟩ := mkfs_superblock h
  have hacc := congrArg UInt32.toNat (mkfs_some.mp h).1
  rw [UInt32.toNat_add] at hacc
  have hbblock := BBLOCK_zero ninodes
  have hused := usedblocks_eq ninodes size
  rw [tdiv_eq] at hused
  rw [mkfs_usedblocks h, Fscheck.b_start, Fscheck.nind_blocks, Fscheck.nbitmaps, hnb, hni,
    Fscheck.IPB]
  have hnbu := uint_eq nblocks
  have hniu := uint_eq ninodes
  have hsizeu := uint_eq size
  have hnblt := nblocks.toInt_lt
  have hnilt := ninodes.toInt_lt
  have hsizelt := size.toInt_lt
  have hnble := nblocks.le_toInt
  have hnile := ninodes.le_toInt
  have hsizele := size.le_toInt
  by_cases hneg : 0 ≤ ninodes.toInt
  · by_cases hsize : 0 ≤ size.toInt
    · rw [if_pos hsize] at hused
      omega
    · -- the sum of the blocks is below 2 ^ 31 if there is one bitmap block
      rw [if_neg hsize] at hused
      have hsizeu : (size.toUInt32.toNat : Int) = size.toInt + 2 ^ 32 := by omega
      have hused : ((usedblocks ninodes size).toNat : Int) =
          (ninodes.toInt / 8 + 3 + (1 - -size.toInt / 4096) % 2 ^ 32) % 2 ^ 32 := by omega
      rcases Int.le_iff_lt_or_eq.mp (show 0 ≤ -size.toInt / 4096 by omega) with hq | hq
      · have hbit : (1 - -size.toInt / 4096) % 2 ^ 32 =
          if -size.toInt / 4096 = 1 then 0 else 1 - -size.toInt / 4096 + 2 ^ 32 := by
          split <;> omega
        split at hbit <;> omega
      · rw [← hq] at hused
        omega
  · omega

/-- The default image. -/
theorem mkfs_agrees_default : ∃ s', mkfs St.start 995 200 1024 = some s' ∧
    Fscheck.b_start s'.img = s'.usedblocks ∧
      Fscheck.b_start s'.img - Fscheck.nbitmaps s'.img = (BBLOCK 0 200).toNat := by
  have hmkfs := (mkfs_some (s := St.start)).mpr
    ⟨show (995 : Int32).toUInt32 + usedblocks 200 1024 = (1024 : Int32).toUInt32 by decide, rfl⟩
  exact ⟨_, hmkfs, (mkfs_agrees hmkfs).mpr (by decide)⟩

/-- 4096 sectors with 200 inodes: the checker counts one bitmap block, `mkfs` two. -/
theorem mkfs_disagrees : ¬ ∀ (s s' : St) (nblocks ninodes size : Int32),
    mkfs s nblocks ninodes size = some s' →
      Fscheck.b_start s'.img = s'.usedblocks ∧
        Fscheck.b_start s'.img - Fscheck.nbitmaps s'.img = (BBLOCK 0 ninodes).toNat := by
  intro h
  have hmkfs := (mkfs_some (s := St.start)).mpr
    ⟨show (4066 : Int32).toUInt32 + usedblocks 200 4096 = (4096 : Int32).toUInt32 by decide, rfl⟩
  obtain ⟨hstart, -⟩ := h _ _ _ _ _ hmkfs
  obtain ⟨hnb, hni⟩ := mkfs_superblock hmkfs
  rw [mkfs_usedblocks hmkfs, Fscheck.b_start, Fscheck.nind_blocks, Fscheck.nbitmaps, hnb, hni]
    at hstart
  exact absurd hstart (by decide)

end Cs537.Mkfs.Geometry
