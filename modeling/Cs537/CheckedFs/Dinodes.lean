/-
# `Cs537.CheckedFs.Dinodes` — the inodes on the disk

A `dinode` is 512 bits, so the eight of a block lie side by side.  Writing one
of them changes no other, and no block but its own, which is neither the
superblock nor a block of the bitmap nor a data block.
-/
import Cs537.CheckedFs.Bitmap

namespace Cs537.CheckedFs

open Cs537.Lib.BitField

/-! ## Fields -/

theorem field_putAddrs_apart (b : Block) {s t w : Nat} (ip : Dinode) :
    ∀ {n : Nat}, s + 32 * n ≤ 4096 → t + w ≤ s ∨ s + 32 * n ≤ t →
      field (putAddrs b s ip n) t w = field b t w
  | 0, _, _ => rfl
  | n + 1, h, hapart => by
      rw [putAddrs, field_setField_apart _ _ _ _ _ (by omega) (by omega),
        field_putAddrs_apart b ip (by omega) (by omega)]

theorem field_putAddrs (b : Block) {s : Nat} (ip : Dinode) :
    ∀ {n : Nat}, s + 32 * n ≤ 4096 → ∀ j, j < n →
      field (putAddrs b s ip n) (s + 32 * j) 32 = ip.addr j
  | n + 1, h, j, hj => by
      rw [putAddrs]
      rcases Nat.lt_succ_iff_lt_or_eq.mp hj with hlt | rfl
      · rw [field_setField_apart _ _ _ _ _ (by omega) (by omega), field_putAddrs b ip (by omega) j hlt]
      · rw [field_setField_same _ _ _ (by omega)]

theorem field_putDinode_apart (b : Block) {s t w : Nat} (ip : Dinode) (hs : s + 512 ≤ 4096)
    (hapart : t + w ≤ s ∨ s + 512 ≤ t) : field (putDinode b s ip) t w = field b t w := by
  simp only [putDinode]
  rw [field_putAddrs_apart _ _ (by omega) (by omega)]
  simp (disch := omega) only [field_setField_apart]

theorem addr_val (ip : Dinode) (j : Fin 13) : ip.addr j.val = ip.addrs j := by
  rw [Dinode.addr, Fin.ofNat_val_eq_self]

/-- What is put is what is found. -/
theorem getDinode_putDinode (b : Block) {s : Nat} (ip : Dinode) (hs : s + 512 ≤ 4096) :
    getDinode (putDinode b s ip) s = ip := by
  have hlow : ∀ (b : Block) (t w : Nat), t + w ≤ s + 96 →
      field (putAddrs b (s + 96) ip 13) t w = field b t w := fun b t w ht =>
    field_putAddrs_apart b ip (by omega) (.inl ht)
  simp only [getDinode, putDinode, Dinode.ext_iff]
  refine ⟨?_, ?_, ?_, ?_, ?_, funext fun j => ?_⟩
  · simp (disch := omega) only [hlow, field_setField_apart, field_setField_same]
  · simp (disch := omega) only [hlow, field_setField_apart, field_setField_same]
  · simp (disch := omega) only [hlow, field_setField_apart, field_setField_same]
  · simp (disch := omega) only [hlow, field_setField_apart, field_setField_same]
  · simp (disch := omega) only [hlow, field_setField_same]
  · rw [field_putAddrs _ ip (by omega) j.val j.isLt, addr_val]

/-- Another `dinode` of the same block. -/
theorem getDinode_putDinode_apart (b : Block) {s t : Nat} (ip : Dinode) (hs : s + 512 ≤ 4096)
    (hapart : t + 512 ≤ s ∨ s + 512 ≤ t) : getDinode (putDinode b s ip) t = getDinode b t := by
  have hf : ∀ u w, t ≤ u → u + w ≤ t + 512 → field (putDinode b s ip) u w = field b u w :=
    fun u w _ _ => field_putDinode_apart b ip hs (by omega)
  simp only [getDinode, Dinode.ext_iff]
  refine ⟨?_, ?_, ?_, ?_, ?_, funext fun j => ?_⟩
  · exact hf _ _ (by omega) (by omega)
  · exact hf _ _ (by omega) (by omega)
  · exact hf _ _ (by omega) (by omega)
  · exact hf _ _ (by omega) (by omega)
  · exact hf _ _ (by omega) (by omega)
  · exact hf _ _ (by omega) (by omega)

/-! ## On the disk -/

theorem dinodeBit_le (i : Nat) : dinodeBit i + 512 ≤ 4096 := by
  simp only [dinodeBit, ipb]
  omega

theorem dinode_setDinode (d : Disk) (i : Nat) (ip : Dinode) (i' : Nat) :
    dinode (setDinode d i ip) i' = if i' = i then ip else dinode d i' := by
  rw [dinode, setDinode]
  by_cases hb : iblock i' = iblock i
  · rw [hb, Function.update_self]
    by_cases he : i' = i
    · rw [if_pos he, he, getDinode_putDinode _ _ (dinodeBit_le i)]
    · rw [if_neg he, getDinode_putDinode_apart _ _ (dinodeBit_le i), dinode, hb]
      simp only [iblock, dinodeBit, ipb] at *
      omega
  · have he : i' ≠ i := fun he => hb (by rw [he])
    rw [if_neg he, Function.update_of_ne hb, dinode]

theorem dinode_congr {d d' : Disk} {i : Nat} (h : d' (iblock i) = d (iblock i)) :
    dinode d' i = dinode d i := by
  rw [dinode, h, dinode]

section

variable {d : Disk} {i : Nat}

/-- The block of a `dinode` lies between the superblock and the bitmap. -/
theorem iblock_range (hi : i < sbNinodes d) : 1 < iblock i ∧ iblock i < bitmapStart d := by
  simp only [iblock, bitmapStart, ipb]
  omega

theorem SameLow.dinode {d' : Disk} (h : SameLow d d') (hi : i < sbNinodes d) :
    dinode d' i = dinode d i :=
  dinode_congr (h.low _ (iblock_range hi).2)

/-- Superblock, bitmap and data are the same. -/
structure SameHigh (d d' : Disk) : Prop where
  sb : d' 1 = d 1
  high : ∀ b, bitmapStart d ≤ b → d' b = d b

theorem sameHigh_setDinode (hi : i < sbNinodes d) (ip : Dinode) :
    SameHigh d (setDinode d i ip) := by
  obtain ⟨h1, h2⟩ := iblock_range hi
  exact ⟨Function.update_of_ne (by omega) _ _, fun b hb => Function.update_of_ne (by omega) _ _⟩

theorem SameHigh.inUse {d' : Disk} (h : SameHigh d d') (b : Nat) : inUse d' b = inUse d b := by
  have hb : bitmapStart d ≤ bblock d b := by
    simp only [bitmapStart, bblock, bpb]
    omega
  rw [CheckedFs.inUse, bblock_eq h.sb, h.high _ hb, CheckedFs.inUse]

theorem SameHigh.freeCount {d' : Disk} (h : SameHigh d d') : freeCount d' = freeCount d := by
  simp only [CheckedFs.freeCount, sbSize_eq h.sb, h.inUse]

theorem SameHigh.image {d' : Disk} (h : SameHigh d d') (hd : Image d) : Image d' where
  small := by
    rw [sbSize_eq h.sb]
    exact hd.small
  reserved b hb hsz := by
    rw [h.inUse]
    exact hd.reserved b (by rwa [← dataStart_eq h.sb]) (by rwa [← sbSize_eq h.sb])
  zero b hb hsz hu := by
    rw [dataStart_eq h.sb] at hb
    rw [h.high b ((Nat.le_add_right _ _).trans hb)]
    exact hd.zero b hb (by rwa [← sbSize_eq h.sb]) (by rwa [← h.inUse])

end

end Cs537.CheckedFs
