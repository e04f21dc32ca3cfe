/-
# `Cs537.CheckedFs.Corrupt` — `readi` on a corrupted disk

One byte of a block changed changes the exclusive or of the block
(`xorBytes_ne`), so a block of a checked file that has been changed so is not
`Fine` any more, and the others still are.  `readi` then fails just when the
range that it reads meets a changed block (`readi_corrupted`).

The disk is what `bread` delivers: a block is changed while it is not in the
buffer cache.
-/
import Cs537.CheckedFs.Stat
import Cs537.CheckedFs.Writei

namespace Cs537.CheckedFs

open Cs537.Lib

variable {d d' : Disk} {ip : Inode} {k : Nat} {S : Set Nat}

/-- Exactly one byte is different. -/
def OneByte (b b' : Block) : Prop :=
  ∃ i < bsize, byteAt b' i ≠ byteAt b i ∧ ∀ j < bsize, j ≠ i → byteAt b' j = byteAt b j

theorem xorBytes_ne {b b' : Block} (h : OneByte b b') : xorBytes b' ≠ xorBytes b := by
  obtain ⟨i, hi, hne, hsame⟩ := h
  rw [xorBytes_eq, xorBytes_eq, bytesOf, bytesOf]
  exact xorSum_map_ne List.nodup_range (List.mem_range.mpr hi) hne fun j hj =>
    hsame j (List.mem_range.mp hj)

/-- The disk blocks in `S`, data blocks of the file, have one byte changed each;
none of them is its indirect block. -/
structure Corrupted (d d' : Disk) (ip : Dinode) (k : Nat) (S : Set Nat) : Prop where
  data : ∀ b ∈ S, ∃ bn < k, b = ip.blk d bn
  apart : ndirect < k → ip.ind ∉ S
  changed : ∀ b ∈ S, OneByte (d b) (d' b)
  same : ∀ b, b ∉ S → d' b = d b

namespace Corrupted

theorem sumWord (h : Corrupted d d' ip.toDinode k S) {bn : Nat} (hbn : bn < k) :
    ip.sumWord d' bn = ip.sumWord d bn := by
  by_cases hd : bn < ndirect
  · rw [sumWord_direct _ hd, sumWord_direct _ hd]
  · rw [sumWord_indirect _ (by omega), sumWord_indirect _ (by omega), h.same _ (h.apart (by omega))]

theorem blk (h : Corrupted d d' ip.toDinode k S) {bn : Nat} (hbn : bn < k) :
    ip.blk d' bn = ip.blk d bn :=
  blk_congr rfl (h.sumWord hbn)

theorem mapped (h : Corrupted d d' ip.toDinode k S) (hm : Mapped d ip.toDinode k) :
    Mapped d' ip.toDinode k :=
  ⟨hm.bound, fun bn hbn => by rw [h.sumWord hbn]; exact hm.ptr bn hbn, hm.ind⟩

/-- A byte is fine just when its block is not changed. -/
theorem fine_iff (h : Corrupted d d' ip.toDinode k S) (hc : ip.type = tChecked)
    (ht : Tagged d ip.toDinode k) {p : Nat} (hp : p / bsize < k) :
    Fine d' ip.toDinode p ↔ ip.blk d (p / bsize) ∉ S := by
  have htag := ht _ hp
  rw [dataAt, if_pos hp] at htag
  rw [Fine, h.blk hp, h.sumWord hp, htag]
  constructor
  · intro hfine hmem
    exact xorBytes_ne (h.changed _ hmem) (hfine hc)
  · intro hno _
    rw [h.same _ hno]

theorem byteOf (h : Corrupted d d' ip.toDinode k S) {p : Nat} (hp : p / bsize < k)
    (hno : ip.blk d (p / bsize) ∉ S) :
    CheckedFs.byteOf d' ip.toDinode k p = CheckedFs.byteOf d ip.toDinode k p := by
  rw [CheckedFs.byteOf, CheckedFs.byteOf, dataAt, dataAt, if_pos hp, if_pos hp, h.blk hp, h.same _ hno]

end Corrupted

/-- The read of `n` bytes at `off` meets a changed block. -/
def Meets (d : Disk) (ip : Inode) (S : Set Nat) (off n : BitVec 32) : Prop :=
  ∃ p, off.toNat ≤ p ∧ p < min (off.toNat + n.toNat) ip.size.toNat ∧ ip.blk d (p / bsize) ∈ S

/-- A read that meets a changed block fails, and one that meets none is as
before. -/
theorem readi_corrupted (dev : Devsw) (d d' : Disk) (ip : Inode) (S : Set Nat)
    (hc : ip.type = tChecked) (hm : Mapped d ip.toDinode (nblk ip.size.toNat))
    (ht : Tagged d ip.toDinode (nblk ip.size.toNat))
    (h : Corrupted d d' ip.toDinode (nblk ip.size.toNat) S) (off n : BitVec 32) :
    (Meets d ip S off n → ∃ out, readi dev d' ip off n = some (-1, out, d', ip)) ∧
      (¬ Meets d ip S off n → ∃ r out, readi dev d ip off n = some (r, out, d, ip) ∧
        readi dev d' ip off n = some (r, out, d', ip)) := by
  have hdev : ip.type ≠ tDev := by
    rw [hc]
    decide
  by_cases hacc : off.toNat ≤ ip.size.toNat ∧ off.toNat + n.toNat < 2 ^ 32
  · obtain ⟨hoff, hn⟩ := hacc
    have haccept : ¬ (ip.size < off ∨ off + n < off) := fun hr => refused_iff.mp hr ⟨hoff, hn⟩
    -- `n` cut off at the end of the file
    obtain ⟨n', hn'⟩ : ∃ n', n' = if ip.size < off + n then ip.size - off else n := ⟨_, rfl⟩
    have hlen : off.toNat + n'.toNat = min (off.toNat + n.toNat) (max off.toNat ip.size.toNat) := by
      rw [hn']
      by_cases hlt : ip.size < off + n
      · rw [if_pos hlt, BitVec.toNat_sub_of_le (by rw [BitVec.le_def]; exact hoff)]
        rw [BitVec.lt_def, range_of_accepted hn] at hlt
        omega
      · rw [if_neg hlt]
        rw [BitVec.lt_def, range_of_accepted hn] at hlt
        omega
    have hread : ∀ e : Disk, readi dev e ip off n =
        readiLoop n'.toNat (maxfile + 1) e ip 0 off.toNat [] := fun e => by
      rw [readi, if_neg hdev, if_neg haccept, hn']
    have hmax : off.toNat + (n'.toNat - 0) ≤ bsize * nblk ip.size.toNat := by
      simp only [nblk, bsize]
      omega
    have hblock : ∀ p, p < ip.size.toNat → p / bsize < nblk ip.size.toNat := fun p hp => by
      simp only [nblk, bsize]
      omega
    constructor
    · rintro ⟨p, h1, h2, hmem⟩
      rw [hread d']
      refine readiLoop_caught (h.mapped hm) hmax (Nat.le_add_left _ _) ⟨p, h1, by omega, ?_⟩
      rw [h.fine_iff hc ht (hblock p (by omega))]
      exact not_not_intro hmem
    · intro hno
      have hfree : ∀ p, off.toNat ≤ p → p < off.toNat + (n'.toNat - 0) →
          p < ip.size.toNat ∧ ip.blk d (p / bsize) ∉ S := fun p h1 h2 => by
        have hlt : p < min (off.toNat + n.toNat) ip.size.toNat := by omega
        exact ⟨by omega, fun hmem => hno ⟨p, h1, hlt, hmem⟩⟩
      refine ⟨_, _, (hread d).trans (readiLoop_fine hm (Nat.zero_le _) hmax
        (fun _ => Nat.le_add_left _ _) (Nat.le_add_left 1 _) fun p h1 h2 _ => ?_), ?_⟩
      · have hp := hblock p (hfree p h1 h2).1
        have htag := ht _ hp
        rw [dataAt, if_pos hp] at htag
        exact htag.symm
      · rw [hread d', readiLoop_fine (h.mapped hm) (Nat.zero_le _) hmax
          (fun _ => Nat.le_add_left _ _) (Nat.le_add_left 1 _) fun p h1 h2 =>
            (h.fine_iff hc ht (hblock p (hfree p h1 h2).1)).mpr (hfree p h1 h2).2]
        congr 4
        refine List.map_congr_left fun i hi => ?_
        rw [List.mem_range] at hi
        obtain ⟨hp, hnot⟩ := hfree (off.toNat + i) (Nat.le_add_right _ _) (by omega)
        exact h.byteOf (hblock _ hp) hnot
  · have hrefused : ∀ e : Disk, readi dev e ip off n = some (-1, [], e, ip) := fun e => by
      rw [readi, if_neg hdev, if_pos (refused_iff.mpr hacc)]
    exact ⟨fun _ => ⟨[], hrefused d'⟩, fun _ => ⟨-1, [], hrefused d, hrefused d'⟩⟩

/-- The file with one block, whose first byte is changed from 7 to 8. -/
def changedDisk : Disk := Function.update (oneBlock 0) 5 8

theorem corrupted_changedDisk :
    Corrupted (oneBlock 0) changedDisk oneBlockInode.toDinode (nblk oneBlockInode.size.toNat) {5} := by
  have hk : nblk oneBlockInode.size.toNat = 1 := by decide +kernel
  refine ⟨fun b hb => ⟨0, by rw [hk]; decide, ?_⟩, fun hk' => ?_, fun b hb => ?_, fun b hb => ?_⟩
  · rw [Set.mem_singleton_iff.mp hb]
    decide +kernel
  · rw [hk] at hk'
    exact absurd hk' (by decide)
  · rw [Set.mem_singleton_iff.mp hb]
    refine ⟨0, by decide, by decide +kernel, ?_⟩
    decide +kernel
  · exact Function.update_of_ne hb ..

theorem readi_corrupted_changedDisk :
    ∃ out, readi ⟨fun _ => none, fun _ => none⟩ changedDisk oneBlockInode 0 1 =
      some (-1, out, changedDisk, oneBlockInode) := by
  have hk : nblk oneBlockInode.size.toNat = 1 := by decide +kernel
  refine (readi_corrupted ⟨fun _ => none, fun _ => none⟩ (oneBlock 0) changedDisk oneBlockInode {5}
    rfl ⟨by decide +kernel, fun bn hbn => ?_, fun hk' => ?_⟩ (fun bn hbn => ?_)
    corrupted_changedDisk 0 1).1 ⟨0, by decide, by decide, ?_⟩
  · rw [hk] at hbn
    obtain rfl : bn = 0 := by omega
    decide +kernel
  · rw [hk] at hk'
    exact absurd hk' (by decide)
  · rw [hk] at hbn
    obtain rfl : bn = 0 := by omega
    decide +kernel
  · rw [Set.mem_singleton_iff]
    decide +kernel

end Cs537.CheckedFs
