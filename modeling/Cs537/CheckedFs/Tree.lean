/-
# `Cs537.CheckedFs.Tree` — the blocks of one file

`Wf d ip k ib`: the inode `ip` on the disk `d` has exactly the data blocks
`0 .. k-1`, and an indirect block just when `ib`.  The blocks are data blocks
in use, all different; every pointer past them is 0.

The file grows by one pointer at a time: `balloc` takes a free block, and then
it is linked into the inode (`Wf.link_direct`), as the indirect block
(`Wf.link_ind`), or into the indirect block (`Wf.link_indirect`).  What such
steps do to the rest of the disk is `Ext`, which composes.
-/
import Cs537.CheckedFs.Bitmap

namespace Cs537.CheckedFs

open Cs537.Lib.BitField

/-! ## Pointers -/

/-- The disk block of block `bn`. -/
def Dinode.blk (ip : Dinode) (d : Disk) (bn : Nat) : Nat := (ip.blockno (ip.sumWord d bn)).toNat

/-- The indirect block. -/
def Dinode.ind (ip : Dinode) : Nat := (ip.addr ndirect).toNat

/-- A data block in use. -/
def Taken (d : Disk) (b : Nat) : Prop := IsData d b ∧ inUse d b = true

structure Wf (d : Disk) (ip : Dinode) (k : Nat) (ib : Bool) : Prop where
  bound : k ≤ maxfile
  direct : ib = false → k ≤ ndirect
  taken : ∀ bn, bn < k → Taken d (ip.blk d bn)
  ind : ib = true → Taken d ip.ind
  noInd : ib = false → ip.addr ndirect = 0
  fresh : ∀ bn, k ≤ bn → bn < maxfile → bn < ndirect ∨ ib = true → ip.sumWord d bn = 0
  inj : ∀ bn bn', bn < k → bn' < k → ip.blk d bn = ip.blk d bn' → bn = bn'
  apart : ∀ bn, bn < k → ib = true → ip.blk d bn ≠ ip.ind

/-- `b` is a block of the file. -/
def IsRef (d : Disk) (ip : Dinode) (k : Nat) (ib : Bool) (b : Nat) : Prop :=
  (∃ bn, bn < k ∧ b = ip.blk d bn) ∨ (ib = true ∧ b = ip.ind)

theorem Wf.isRef_taken {d : Disk} {ip : Dinode} {k : Nat} {ib : Bool} (h : Wf d ip k ib) {b : Nat}
    (hb : IsRef d ip k ib b) : Taken d b := by
  rcases hb with ⟨bn, hbn, rfl⟩ | ⟨hib, rfl⟩
  · exact h.taken bn hbn
  · exact h.ind hib

theorem IsData.pos {d : Disk} {b : Nat} (h : IsData d b) : 3 ≤ b := by
  have := h.1
  simp only [dataStart, bitmapStart, ipb, bpb] at this
  omega

theorem addr_setAddr (ip : Inode) (w : BitVec 32) {j j' : Nat} (hj : j < 13) (hj' : j' < 13) :
    (ip.setAddr j w).addr j' = if j' = j then w else ip.addr j' := by
  by_cases he : j' = j
  · subst he
    rw [if_pos rfl]
    exact Function.update_self ..
  · have hne : Fin.ofNat 13 j' ≠ Fin.ofNat 13 j := fun h => he (by
      have := congrArg Fin.val h
      simpa [Fin.ofNat, Nat.mod_eq_of_lt hj, Nat.mod_eq_of_lt hj'] using this)
    rw [if_neg he]
    exact Function.update_of_ne hne _ _

theorem sumWord_direct {ip : Dinode} {bn : Nat} (d : Disk) (h : bn < ndirect) :
    ip.sumWord d bn = ip.addr bn := if_pos h

theorem sumWord_indirect {ip : Dinode} {bn : Nat} (d : Disk) (h : ndirect ≤ bn) :
    ip.sumWord d bn = word (d ip.ind) (bn - ndirect) := if_neg (by omega)

theorem blk_congr {ip ip' : Dinode} {d d' : Disk} {bn : Nat} (ht : ip'.type = ip.type)
    (h : ip'.sumWord d' bn = ip.sumWord d bn) : ip'.blk d' bn = ip.blk d bn := by
  rw [Dinode.blk, Dinode.blockno, ht, h, Dinode.blk, Dinode.blockno]

/-- The number of a block on a small disk, as a pointer. -/
theorem blockno_ofNat (ip : Dinode) {b : Nat} (hb : b < 2 ^ 24) :
    (ip.blockno (BitVec.ofNat 32 b)).toNat = b := by
  have h32 : (BitVec.ofNat 32 b).toNat = b := by
    rw [BitVec.toNat_ofNat, Nat.mod_eq_of_lt (by omega)]
  rw [Dinode.blockno]
  split
  · rw [mask24_of_lt (by omega), h32]
  · exact h32

theorem toNat_ofNat_block {b : Nat} (hb : b < 2 ^ 24) : (BitVec.ofNat 32 b).toNat = b := by
  rw [BitVec.toNat_ofNat, Nat.mod_eq_of_lt (by omega)]

theorem Wf.sumWord_ne_zero {d : Disk} {ip : Dinode} {k : Nat} {ib : Bool} (h : Wf d ip k ib)
    {bn : Nat} (hbn : bn < k) : ip.sumWord d bn ≠ 0 := by
  intro h0
  have h3 := (h.taken bn hbn).1.pos
  rw [Dinode.blk, h0, Dinode.blockno] at h3
  split at h3 <;> simp [mask24] at h3

theorem Wf.ind_ne_zero {d : Disk} {ip : Dinode} {k : Nat} (h : Wf d ip k true) :
    ip.addr ndirect ≠ 0 := by
  intro h0
  have h3 := (h.ind rfl).1.pos
  rw [Dinode.ind, h0] at h3
  simp at h3

/-! ## Frames -/

section Frame

variable {d d' : Disk} {ip : Dinode} {k : Nat} {ib : Bool}

/-- The words of a file depend on the indirect block alone. -/
theorem Wf.sumWord_frame (h : Wf d ip k ib) (hind : ib = true → d' ip.ind = d ip.ind) {bn : Nat}
    (hbn : bn < k ∨ bn < ndirect ∨ ib = true) : ip.sumWord d' bn = ip.sumWord d bn := by
  by_cases hd : bn < ndirect
  · rw [sumWord_direct _ hd, sumWord_direct _ hd]
  · have hib : ib = true := by
      cases ib with
      | true => rfl
      | false =>
          have := h.direct rfl
          rcases hbn with hbn | hbn | hbn
          · omega
          · omega
          · exact hbn
    rw [sumWord_indirect _ (by omega), sumWord_indirect _ (by omega), hind hib]

theorem Taken.frame (hsb : d' 1 = d 1) {b : Nat} (hb : Taken d b)
    (huse : inUse d' b = true) : Taken d' b :=
  ⟨(isData_eq hsb b).mpr hb.1, huse⟩

theorem Wf.frame (h : Wf d ip k ib) (hsb : d' 1 = d 1)
    (hind : ib = true → d' ip.ind = d ip.ind) (huse : ∀ b, IsRef d ip k ib b → inUse d' b = true) :
    Wf d' ip k ib := by
  have hblk : ∀ bn, bn < k → ip.blk d' bn = ip.blk d bn := fun bn hbn =>
    blk_congr rfl (h.sumWord_frame hind (.inl hbn))
  refine ⟨h.bound, h.direct, fun bn hbn => ?_, fun hib => ?_, h.noInd, fun bn h1 h2 h3 => ?_,
    fun bn bn' h1 h2 he => ?_, fun bn hbn hib => ?_⟩
  · rw [hblk bn hbn]
    exact (h.taken bn hbn).frame hsb (huse _ (.inl ⟨bn, hbn, rfl⟩))
  · exact (h.ind hib).frame hsb (huse _ (.inr ⟨hib, rfl⟩))
  · rw [h.sumWord_frame hind (.inr h3)]
    exact h.fresh bn h1 h2 h3
  · rw [hblk bn h1, hblk bn' h2] at he
    exact h.inj bn bn' h1 h2 he
  · rw [hblk bn hbn]
    exact h.apart bn hbn hib

end Frame

/-! ## Links -/

section Link

variable {d d' : Disk} {k b : Nat} {ib : Bool} {w : BitVec 32}

theorem Wf.low_or_ind {ip : Dinode} (h : Wf d ip k ib) {bn : Nat} (hbn : bn < k) :
    bn < ndirect ∨ ib = true := by
  cases ib with
  | true => exact .inr rfl
  | false =>
      have := h.direct rfl
      exact .inl (by omega)

/-- One more pointer, to a block in use that is not yet one of the file. -/
theorem Wf.link {ip ip' : Dinode} (h : Wf d ip k ib) (hk : k < maxfile)
    (hib : ib = false → k < ndirect) (ht : ip'.type = ip.type)
    (haddr : ip'.addr ndirect = ip.addr ndirect)
    (hword : ∀ bn, bn ≠ k → bn < ndirect ∨ ib = true → ip'.sumWord d' bn = ip.sumWord d bn)
    (htaken : ∀ c, Taken d c → Taken d' c) (hb : Taken d b) (hnew : ¬ IsRef d ip k ib b)
    (hblkk : ip'.blk d' k = b) : Wf d' ip' (k + 1) ib := by
  have hblk : ∀ bn, bn < k → ip'.blk d' bn = ip.blk d bn := fun bn hbn =>
    blk_congr ht (hword bn (by omega) (h.low_or_ind hbn))
  have hind : ip'.ind = ip.ind := by rw [Dinode.ind, haddr, Dinode.ind]
  have hold : ∀ bn, bn < k → ip.blk d bn ≠ b := fun bn hbn he => hnew (.inl ⟨bn, hbn, he.symm⟩)
  refine ⟨hk, hib, fun bn hbn => ?_, fun hi => ?_, fun hi => ?_, fun bn h1 h2 h3 => ?_,
    fun bn bn' h1 h2 he => ?_, fun bn hbn hi => ?_⟩
  · rcases Nat.lt_succ_iff_lt_or_eq.mp hbn with hlt | rfl
    · rw [hblk bn hlt]
      exact htaken _ (h.taken bn hlt)
    · rw [hblkk]
      exact htaken _ hb
  · rw [hind]
    exact htaken _ (h.ind hi)
  · rw [haddr]
    exact h.noInd hi
  · rw [hword bn (by omega) h3]
    exact h.fresh bn (by omega) h2 h3
  · rcases Nat.lt_succ_iff_lt_or_eq.mp h1 with hlt | rfl <;>
      rcases Nat.lt_succ_iff_lt_or_eq.mp h2 with hlt' | rfl
    · rw [hblk bn hlt, hblk bn' hlt'] at he
      exact h.inj bn bn' hlt hlt' he
    · rw [hblk bn hlt, hblkk] at he
      exact absurd he (hold bn hlt)
    · rw [hblkk, hblk bn' hlt'] at he
      exact absurd he.symm (hold bn' hlt')
    · rfl
  · rw [hind]
    rcases Nat.lt_succ_iff_lt_or_eq.mp hbn with hlt | rfl
    · rw [hblk bn hlt]
      exact h.apart bn hlt hi
    · rw [hblkk]
      exact fun he => hnew (.inr ⟨hi, he⟩)

theorem setAddr_addr_ne (ip : Inode) (w : BitVec 32) {j j' : Nat} (hj : j < 13) (hj' : j' < 13)
    (hne : j' ≠ j) : (ip.setAddr j w).addr j' = ip.addr j' := by
  rw [addr_setAddr ip w hj hj', if_neg hne]

/-- Storing a direct pointer changes one word. -/
theorem sumWord_setAddr {ip : Inode} {j : Nat} (hj : j < ndirect) (w : BitVec 32) (d : Disk)
    (bn : Nat) : (ip.setAddr j w).sumWord d bn = if bn = j then w else ip.sumWord d bn := by
  have hj' : j < 12 := hj
  by_cases hd : bn < ndirect
  · have hd' : bn < 12 := hd
    rw [sumWord_direct _ hd, sumWord_direct _ hd, addr_setAddr ip w (by omega) (by omega)]
  · have hind : (ip.setAddr j w).ind = ip.ind := by
      rw [Dinode.ind, setAddr_addr_ne ip w (by omega) (show ndirect < 13 by decide)
        (show ndirect ≠ j by omega), Dinode.ind]
    rw [sumWord_indirect _ (by omega), sumWord_indirect _ (by omega), hind, if_neg (by omega)]

/-- Storing an indirect pointer changes one word. -/
theorem sumWord_setWord {ip : Dinode} {j : Nat} (hj : ndirect ≤ j) (hj' : j < maxfile)
    (w : BitVec 32) (d : Disk) (bn : Nat) :
    ip.sumWord (Function.update d ip.ind (setWord (d ip.ind) (j - ndirect) w)) bn
      = if bn = j then w else ip.sumWord d bn := by
  have hm : maxfile = ndirect + 128 := rfl
  by_cases hd : bn < ndirect
  · rw [sumWord_direct _ hd, sumWord_direct _ hd, if_neg (by omega)]
  · rw [sumWord_indirect _ (by omega), sumWord_indirect _ (by omega), Function.update_self,
      word_setWord _ _ (by omega)]
    by_cases he : bn = j
    · rw [if_pos (by omega), if_pos he]
    · rw [if_neg (by omega), if_neg he]

/-- A new block linked into the inode. -/
theorem Wf.link_direct {ip : Inode} (h : Wf d ip.toDinode k ib) (hk : k < ndirect)
    (hb : Taken d b) (hnew : ¬ IsRef d ip.toDinode k ib b) (hw : (ip.blockno w).toNat = b) :
    Wf d (ip.setAddr k w).toDinode (k + 1) ib := by
  have hk' : k < 12 := hk
  have hm : maxfile = 140 := rfl
  refine h.link (by omega) (fun _ => hk) rfl
    (setAddr_addr_ne ip w (by omega) (show ndirect < 13 by decide) (show ndirect ≠ k by omega))
    (fun bn hne _ => ?_) (fun _ hc => hc) hb hnew ?_
  · rw [sumWord_setAddr hk, if_neg hne]
  · rw [Dinode.blk, sumWord_setAddr hk, if_pos rfl]
    exact hw

/-- A new block linked into the indirect block. -/
theorem Wf.link_indirect {ip : Dinode} (h : Wf d ip k true) (hk : ndirect ≤ k)
    (hk' : k < maxfile) (hb : Taken d b) (hnew : ¬ IsRef d ip k true b)
    (hw : (ip.blockno w).toNat = b)
    (hbits : ∀ c, c < sbSize d → inUse (Function.update d ip.ind
      (setWord (d ip.ind) (k - ndirect) w)) c = inUse d c) :
    Wf (Function.update d ip.ind (setWord (d ip.ind) (k - ndirect) w)) ip (k + 1) true := by
  have hsb : Function.update d ip.ind (setWord (d ip.ind) (k - ndirect) w) 1 = d 1 := by
    have := (h.ind rfl).1.pos
    exact Function.update_of_ne (by omega) _ _
  refine h.link hk' (fun he => by cases he) rfl rfl (fun bn hne _ => ?_)
    (fun c hc => hc.frame hsb ?_) hb hnew ?_
  · rw [sumWord_setWord hk hk', if_neg hne]
  · rw [hbits c hc.1.2]
    exact hc.2
  · rw [Dinode.blk, sumWord_setWord hk hk', if_pos rfl]
    exact hw

/-- A new block, all zero, as the indirect block. -/
theorem Wf.link_ind {ip : Inode} (h : Wf d ip.toDinode ndirect false) (hb : Taken d b)
    (hnew : ¬ IsRef d ip.toDinode ndirect false b) (hw : w.toNat = b) (hzero : d b = 0) :
    Wf d (ip.setAddr ndirect w).toDinode ndirect true := by
  have haddr : (ip.setAddr ndirect w).addr ndirect = w := by
    rw [addr_setAddr ip w (show ndirect < 13 by decide) (show ndirect < 13 by decide), if_pos rfl]
  have hind : (ip.setAddr ndirect w).ind = b := by rw [Dinode.ind, haddr, hw]
  have hword : ∀ bn, bn < ndirect →
      (ip.setAddr ndirect w).sumWord d bn = ip.sumWord d bn := fun bn hbn => by
    have hbn' : bn < 12 := hbn
    rw [sumWord_direct _ hbn, sumWord_direct _ hbn, setAddr_addr_ne ip w (show ndirect < 13 by decide)
      (by omega) (show bn ≠ ndirect by omega)]
  have hblk : ∀ bn, bn < ndirect → (ip.setAddr ndirect w).blk d bn = ip.blk d bn :=
    fun bn hbn => blk_congr rfl (hword bn hbn)
  refine ⟨h.bound, fun he => (by cases he), fun bn hbn => ?_, fun _ => ?_, fun he => (by cases he),
    fun bn h1 h2 _ => ?_, fun bn bn' h1 h2 he => ?_, fun bn hbn _ => ?_⟩
  · rw [hblk bn hbn]
    exact h.taken bn hbn
  · rwa [hind]
  · rw [sumWord_indirect _ h1, hind, hzero, word_zero]
  · rw [hblk bn h1, hblk bn' h2] at he
    exact h.inj bn bn' h1 h2 he
  · rw [hblk bn hbn, hind]
    exact fun he => hnew (.inl ⟨bn, hbn, he.symm⟩)

end Link

/-! ## Growth -/

/-- From `(d, ip)` with `k` blocks to `(d', ip')` with `k'`: old blocks stay
where they are, new ones were free, and of the rest of the disk only the
bitmap changed, to mark them. -/
structure Ext (d : Disk) (ip : Inode) (k : Nat) (ib : Bool) (d' : Disk) (ip' : Inode) (k' : Nat)
    (ib' : Bool) : Prop where
  same : SameLow d d'
  le : k ≤ k'
  leInd : ib = true → ib' = true
  rest : ip' = { ip with addrs := ip'.addrs }
  blk : ∀ bn, bn < k → ip'.blk d' bn = ip.blk d bn
  ind : ib = true → ip'.ind = ip.ind
  data : ∀ b, dataStart d ≤ b → ¬ IsRef d' ip'.toDinode k' ib' b → d' b = d b
  used : ∀ b, b < sbSize d →
    (inUse d' b = true ↔ inUse d b = true ∨ IsRef d' ip'.toDinode k' ib' b)
  fresh : ∀ b, b < sbSize d → IsRef d' ip'.toDinode k' ib' b →
    IsRef d ip.toDinode k ib b ∨ inUse d b = false

section Growth

variable {d d' d'' : Disk} {ip ip' ip'' : Inode} {k k' k'' : Nat} {ib ib' ib'' : Bool}

theorem Ext.refl (h : Wf d ip.toDinode k ib) : Ext d ip k ib d ip k ib where
  same := SameLow.refl d
  le := le_rfl
  leInd := id
  rest := rfl
  blk _ _ := rfl
  ind _ := rfl
  data _ _ _ := rfl
  used _ _ := ⟨.inl, fun hu => hu.elim id fun hr => (h.isRef_taken hr).2⟩
  fresh _ _ := .inl

theorem Ext.isRef (h : Ext d ip k ib d' ip' k' ib') {b : Nat} (hb : IsRef d ip.toDinode k ib b) :
    IsRef d' ip'.toDinode k' ib' b := by
  rcases hb with ⟨bn, hbn, rfl⟩ | ⟨hib, rfl⟩
  · exact .inl ⟨bn, hbn.trans_le h.le, (h.blk bn hbn).symm⟩
  · exact .inr ⟨h.leInd hib, (h.ind hib).symm⟩

theorem Ext.trans (h : Ext d ip k ib d' ip' k' ib') (h' : Ext d' ip' k' ib' d'' ip'' k'' ib'') :
    Ext d ip k ib d'' ip'' k'' ib'' where
  same := h.same.trans h'.same
  le := h.le.trans h'.le
  leInd hib := h'.leInd (h.leInd hib)
  rest := by rw [h'.rest, h.rest]
  blk bn hbn := (h'.blk bn (hbn.trans_le h.le)).trans (h.blk bn hbn)
  ind hib := (h'.ind (h.leInd hib)).trans (h.ind hib)
  data b hb hno := by
    rw [h'.data b (by rwa [dataStart_eq h.same.sb]) hno]
    exact h.data b hb fun hr => hno (h'.isRef hr)
  used b hb := by
    rw [h'.used b (by rwa [sbSize_eq h.same.sb]), h.used b hb]
    constructor
    · rintro ((hu | hr) | hr)
      · exact .inl hu
      · exact .inr (h'.isRef hr)
      · exact .inr hr
    · rintro (hu | hr)
      · exact .inl (.inl hu)
      · exact .inr hr
  fresh b hsz hb := by
    rcases h'.fresh b (by rwa [sbSize_eq h.same.sb]) hb with hr | hu
    · exact h.fresh b hsz hr
    · refine .inr (Bool.eq_false_iff.mpr fun hd => ?_)
      have := (h.used b hsz).mpr (.inl hd)
      simp [hu] at this

/-- A consistent image stays one. -/
theorem Ext.image (h : Ext d ip k ib d' ip' k' ib') (hd : Image d) : Image d' where
  small := by
    rw [sbSize_eq h.same.sb]
    exact hd.small
  reserved b hb hsz := by
    rw [dataStart_eq h.same.sb] at hb
    rw [sbSize_eq h.same.sb] at hsz
    exact (h.used b hsz).mpr (.inl (hd.reserved b hb hsz))
  zero b hb hsz hu := by
    rw [dataStart_eq h.same.sb] at hb
    rw [sbSize_eq h.same.sb] at hsz
    have hno := (h.used b hsz).not.mp (by simp [hu])
    rw [h.data b hb fun hr => hno (.inr hr)]
    exact hd.zero b hb hsz (Bool.eq_false_iff.mpr fun hu' => hno (.inl hu'))

/-- The blocks of a file, as a set. -/
def refs (d : Disk) (ip : Dinode) (k : Nat) (ib : Bool) : Finset Nat :=
  (Finset.range k).image (ip.blk d) ∪ if ib then {ip.ind} else ∅

theorem mem_refs {ip : Dinode} {b : Nat} : b ∈ refs d ip k ib ↔ IsRef d ip k ib b := by
  simp only [refs, Finset.mem_union, Finset.mem_image, Finset.mem_range, IsRef]
  cases ib <;> simp [eq_comm]

theorem Wf.card_refs {ip : Dinode} (h : Wf d ip k ib) : (refs d ip k ib).card = k + ib.toNat := by
  have himg : ((Finset.range k).image (ip.blk d)).card = k := by
    rw [Finset.card_image_of_injOn, Finset.card_range]
    intro bn hbn bn' hbn' he
    exact h.inj bn bn' (by simpa using hbn) (by simpa using hbn') he
  cases hib : ib with
  | false => simp [refs, himg]
  | true =>
      have hno : ip.ind ∉ (Finset.range k).image (ip.blk d) := by
        simp only [Finset.mem_image, Finset.mem_range, not_exists, not_and]
        exact fun bn hbn => h.apart bn hbn hib
      simp [refs, hno, himg]

/-- Every block gained was free before. -/
theorem Ext.freeCount_eq (h : Ext d ip k ib d' ip' k' ib') (hw : Wf d ip.toDinode k ib)
    (hw' : Wf d' ip'.toDinode k' ib') :
    freeCount d' + (k' + ib'.toNat) = freeCount d + (k + ib.toNat) := by
  have hfree : ((Finset.range (sbSize d)).filter fun b => inUse d b = false)
      = ((Finset.range (sbSize d')).filter fun b => inUse d' b = false) ∪
        (refs d' ip'.toDinode k' ib' \ refs d ip.toDinode k ib) := by
    ext b
    simp only [Finset.mem_filter, Finset.mem_range, Finset.mem_union, Finset.mem_sdiff, mem_refs,
      sbSize_eq h.same.sb]
    constructor
    · rintro ⟨hsz, hu⟩
      by_cases hr : IsRef d' ip'.toDinode k' ib' b
      · refine .inr ⟨hr, fun hold => ?_⟩
        have := (hw.isRef_taken hold).2
        simp [hu] at this
      · refine .inl ⟨hsz, Bool.eq_false_iff.mpr fun hu' => ?_⟩
        rcases (h.used b hsz).mp hu' with h1 | h1
        · simp [hu] at h1
        · exact hr h1
    · rintro (⟨hsz, hu⟩ | ⟨hr, hno⟩)
      · refine ⟨hsz, Bool.eq_false_iff.mpr fun hu' => ?_⟩
        have := (h.used b hsz).mpr (.inl hu')
        simp [hu] at this
      · have hsz : b < sbSize d := by
          have := (hw'.isRef_taken hr).1.2
          rwa [sbSize_eq h.same.sb] at this
        exact ⟨hsz, (h.fresh b hsz hr).resolve_left hno⟩
  have hdisj : Disjoint ((Finset.range (sbSize d')).filter fun b => inUse d' b = false)
      (refs d' ip'.toDinode k' ib' \ refs d ip.toDinode k ib) := by
    rw [Finset.disjoint_left]
    intro b hb hr
    have h1 := (Finset.mem_filter.mp hb).2
    have h2 := (hw'.isRef_taken (mem_refs.mp (Finset.mem_sdiff.mp hr).1)).2
    simp [h1] at h2
  have hsub : refs d ip.toDinode k ib ⊆ refs d' ip'.toDinode k' ib' := fun b hb =>
    mem_refs.mpr (h.isRef (mem_refs.mp hb))
  have hcard := congrArg Finset.card hfree
  rw [Finset.card_union_of_disjoint hdisj, Finset.card_sdiff_of_subset hsub, hw.card_refs,
    hw'.card_refs] at hcard
  have hle := Finset.card_le_card hsub
  rw [hw.card_refs, hw'.card_refs] at hle
  simp only [freeCount]
  omega

end Growth

/-! ## `bmap` -/

section Bmap

variable {d : Disk} {ip : Inode} {k : Nat} {ib : Bool}

/-- `balloc` for a file: a zero block that is not one of its own. -/
theorem balloc_fresh (hd : Image d) (h : Wf d ip.toDinode k ib) (hfree : 0 < freeCount d) :
    ∃ b d', balloc d = some (b, d') ∧ b < 2 ^ 24 ∧ d b = 0 ∧ inUse d b = false ∧
      BitSet d d' b true ∧ Wf d' ip.toDinode k ib ∧ Taken d' b ∧
      (∀ c, IsRef d' ip.toDinode k ib c ↔ IsRef d ip.toDinode k ib c) ∧
      ¬ IsRef d ip.toDinode k ib b := by
  obtain ⟨b, d', hb, hdata, hfreeb, hset⟩ := balloc_spec hd hfree
  have hsb := hset.same.sb
  have hind : ib = true → d' ip.ind = d ip.ind := fun hib => hset.data _ (h.ind hib).1.1
  have hwf : Wf d' ip.toDinode k ib := h.frame hsb hind fun c hc => by
    rw [hset.bits]
    split
    · rfl
    · exact (h.isRef_taken hc).2
  have hblk : ∀ bn, bn < k → ip.blk d' bn = ip.blk d bn := fun bn hbn =>
    blk_congr rfl (h.sumWord_frame hind (.inl hbn))
  refine ⟨b, d', hb, hdata.2.trans_le hd.small, hd.zero b hdata.1 hdata.2 hfreeb, hfreeb, hset,
    hwf, ⟨(isData_eq hsb b).mpr hdata, ?_⟩, fun c => ?_, fun hr => ?_⟩
  · rw [hset.bits, if_pos rfl]
  · refine or_congr (exists_congr fun bn => and_congr_right fun hbn => ?_) Iff.rfl
    rw [hblk bn hbn]
  · have := (h.isRef_taken hr).2
    simp [hfreeb] at this

/-- Writing a data block moves no bit. -/
theorem inUse_update_data {b c : Nat} (hb : IsData d b) (x : Block) (hc : c < sbSize d) :
    inUse (Function.update d b x) c = inUse d c := by
  have hpos := hb.pos
  have hsb : Function.update d b x 1 = d 1 := Function.update_of_ne (by omega) _ _
  rw [inUse, bblock_eq hsb, Function.update_of_ne (hb.ne_bblock hc), inUse]

theorem sameLow_update {b : Nat} (hb : IsData d b) (x : Block) :
    SameLow d (Function.update d b x) := by
  refine ⟨fun c hc => Function.update_of_ne ?_ _ _⟩
  have h1 := hb.1
  have h2 : bitmapStart d ≤ dataStart d := Nat.le_add_right _ _
  omega

/-- One block gained: `balloc` first, then a link that touches at most a block
of the file. -/
theorem Ext.of_link {d₁ d' : Disk} {ip' : Inode} {b k' : Nat} {ib' : Bool}
    (h : Wf d ip.toDinode k ib) (hset : BitSet d d₁ b true) (hfree : inUse d b = false)
    (hsame : SameLow d₁ d') (hle : k ≤ k') (hleInd : ib = true → ib' = true)
    (hrest : ip' = { ip with addrs := ip'.addrs })
    (hblk : ∀ bn, bn < k → ip'.blk d' bn = ip.blk d bn) (hind : ib = true → ip'.ind = ip.ind)
    (hdata : ∀ c, dataStart d ≤ c → ¬ IsRef d' ip'.toDinode k' ib' c → d' c = d₁ c)
    (hbits : ∀ c, c < sbSize d → inUse d' c = inUse d₁ c)
    (href : ∀ c, IsRef d' ip'.toDinode k' ib' c ↔ IsRef d ip.toDinode k ib c ∨ c = b) :
    Ext d ip k ib d' ip' k' ib' where
  same := hset.same.trans hsame
  le := hle
  leInd := hleInd
  rest := hrest
  blk := hblk
  ind := hind
  data c hc hno := (hdata c hc hno).trans (hset.data c hc)
  used c hc := by
    rw [hbits c hc, hset.bits, href]
    by_cases hcb : c = b
    · simp [hcb]
    · rw [if_neg hcb]
      simp only [hcb, or_false]
      exact ⟨.inl, fun hu => hu.elim id fun hr => (h.isRef_taken hr).2⟩
  fresh c _ hr := ((href c).mp hr).imp_right fun hcb => by rw [hcb, hfree]

theorem isRef_succ {d' : Disk} {ip ip' : Dinode} {b : Nat}
    (hblk : ∀ bn, bn < k → ip'.blk d' bn = ip.blk d bn) (hind : ib = true → ip'.ind = ip.ind)
    (hnew : ip'.blk d' k = b) (c : Nat) :
    IsRef d' ip' (k + 1) ib c ↔ IsRef d ip k ib c ∨ c = b := by
  simp only [IsRef]
  constructor
  · rintro (⟨bn, hbn, rfl⟩ | ⟨hib, rfl⟩)
    · rcases Nat.lt_succ_iff_lt_or_eq.mp hbn with hlt | rfl
      · exact .inl (.inl ⟨bn, hlt, hblk bn hlt⟩)
      · exact .inr hnew
    · exact .inl (.inr ⟨hib, hind hib⟩)
  · rintro ((⟨bn, hbn, rfl⟩ | ⟨hib, rfl⟩) | rfl)
    · exact .inl ⟨bn, by omega, (hblk bn hbn).symm⟩
    · exact .inr ⟨hib, (hind hib).symm⟩
    · exact .inl ⟨k, by omega, hnew.symm⟩

/-- The inode has pointers to its first `k` blocks. -/
structure Mapped (d : Disk) (ip : Dinode) (k : Nat) : Prop where
  bound : k ≤ maxfile
  ptr : ∀ bn, bn < k → ip.sumWord d bn ≠ 0
  ind : ndirect < k → ip.addr ndirect ≠ 0

theorem Wf.mapped {ip : Dinode} (h : Wf d ip k ib) : Mapped d ip k where
  bound := h.bound
  ptr bn hbn := h.sumWord_ne_zero hbn
  ind hk := by
    obtain rfl := (h.low_or_ind hk).resolve_left (Nat.lt_irrefl _)
    exact h.ind_ne_zero

/-- A block that the file has. -/
theorem Mapped.bmap (h : Mapped d ip.toDinode k) {bn : Nat} (hbn : bn < k) :
    CheckedFs.bmap d ip bn = some (ip.blk d bn, d, ip) := by
  have hne := h.ptr bn hbn
  by_cases hdir : bn < ndirect
  · rw [sumWord_direct _ hdir] at hne
    rw [CheckedFs.bmap, if_pos hdir, if_neg hne, Dinode.blk, sumWord_direct _ hdir]
  · have hm : maxfile = ndirect + nindirect := rfl
    have hbound := h.bound
    rw [sumWord_indirect _ (by omega)] at hne
    rw [CheckedFs.bmap, if_neg hdir]
    simp only [show bn - ndirect < nindirect by omega, if_true, if_neg (h.ind (by omega)),
      Option.bind_some]
    rw [Dinode.ind] at hne
    rw [if_neg hne, Dinode.blk, sumWord_indirect _ (by omega), Dinode.ind]

theorem bmap_old (h : Wf d ip.toDinode k ib) {bn : Nat} (hbn : bn < k) :
    bmap d ip bn = some (ip.blk d bn, d, ip) := h.mapped.bmap hbn

/-- What `bmap` of the next block does. -/
structure Grown (d : Disk) (ip : Inode) (k : Nat) (ib : Bool) (d' : Disk) (ip' : Inode)
    (ib' : Bool) : Prop where
  wf : Wf d' ip'.toDinode (k + 1) ib'
  ext : Ext d ip k ib d' ip' (k + 1) ib'
  words : ∀ bn, bn < k → ip'.sumWord d' bn = ip.sumWord d bn
  data : ∀ c, dataStart d ≤ c → (ib' = true → c ≠ ip'.ind) → d' c = d c
  zero : d' (ip'.blk d' k) = 0

/-- The next direct block. -/
theorem bmap_direct (hd : Image d) (h : Wf d ip.toDinode k ib) (hk : k < ndirect)
    (hfree : 0 < freeCount d) :
    ∃ d' ip', bmap d ip k = some (ip'.blk d' k, d', ip') ∧ Grown d ip k ib d' ip' ib := by
  obtain ⟨b, d₁, hal, hb24, hzero, hfreeb, hset, hwf, htaken, href, hno⟩ := balloc_fresh hd h hfree
  have hk' : k < 12 := hk
  have hm : maxfile = 140 := rfl
  have h0 : ip.addr k = 0 := by
    rw [← sumWord_direct d hk]
    exact h.fresh k le_rfl (by omega) (.inl hk)
  have hblkno : (ip.blockno (BitVec.ofNat 32 b)).toNat = b := blockno_ofNat _ hb24
  have hwf' := hwf.link_direct hk htaken ((href b).not.mpr hno) hblkno
  have hind : ib = true → d₁ ip.ind = d ip.ind := fun hib => hset.data _ (h.ind hib).1.1
  have hwords : ∀ bn, bn < k → (ip.setAddr k (BitVec.ofNat 32 b)).sumWord d₁ bn
      = ip.sumWord d bn := fun bn hbn => by
    rw [sumWord_setAddr hk, if_neg (by omega)]
    exact h.sumWord_frame hind (.inl hbn)
  have hblkk : (ip.setAddr k (BitVec.ofNat 32 b)).blk d₁ k = b := by
    rw [Dinode.blk, sumWord_setAddr hk, if_pos rfl]
    exact hblkno
  have hindeq : (ip.setAddr k (BitVec.ofNat 32 b)).ind = ip.ind := by
    rw [Dinode.ind, setAddr_addr_ne ip _ (by omega) (show ndirect < 13 by decide)
      (show ndirect ≠ k by omega), Dinode.ind]
  have hblk : ∀ bn, bn < k → (ip.setAddr k (BitVec.ofNat 32 b)).blk d₁ bn = ip.blk d bn :=
    fun bn hbn => blk_congr rfl (hwords bn hbn)
  refine ⟨d₁, ip.setAddr k (BitVec.ofNat 32 b), ?_, hwf', ?_, hwords, fun c hc _ => hset.data c hc, ?_⟩
  · rw [bmap, if_pos hk, if_pos h0, hal, hblkk, Option.map_some]
    simp only [hblkno]
  · exact Ext.of_link h hset hfreeb (SameLow.refl d₁) (by omega) id rfl hblk (fun _ => hindeq)
      (fun _ _ _ => rfl) (fun _ _ => rfl) (isRef_succ hblk (fun _ => hindeq) hblkk)
  · have hb := (isData_eq hset.same.sb b).mp htaken.1
    rw [hblkk, hset.data b hb.1, hzero]

/-- The next indirect block, when the indirect block is there. -/
theorem bmap_indirect (hd : Image d) (h : Wf d ip.toDinode k true) (hk : ndirect ≤ k)
    (hk' : k < maxfile) (hfree : 0 < freeCount d) :
    ∃ d' ip', bmap d ip k = some (ip'.blk d' k, d', ip') ∧ Grown d ip k true d' ip' true := by
  obtain ⟨b, d₁, hal, hb24, hzero, hfreeb, hset, hwf, htaken, href, hno⟩ := balloc_fresh hd h hfree
  have hm : maxfile = ndirect + nindirect := rfl
  have hindD := (h.ind rfl).1
  have hindD₁ := (hwf.ind rfl).1
  have hindeq : d₁ ip.ind = d ip.ind := hset.data _ hindD.1
  have h0 : word (d ip.ind) (k - ndirect) = 0 := by
    rw [← sumWord_indirect d hk]
    exact h.fresh k le_rfl hk' (.inr rfl)
  have hblkno : (ip.blockno (BitVec.ofNat 32 b)).toNat = b := blockno_ofNat _ hb24
  have hbits : ∀ c, c < sbSize d₁ → inUse (Function.update d₁ ip.ind
      (setWord (d₁ ip.ind) (k - ndirect) (BitVec.ofNat 32 b))) c = inUse d₁ c := fun c hc =>
    inUse_update_data hindD₁ _ hc
  have hwf' := hwf.link_indirect hk hk' htaken ((href b).not.mpr hno) hblkno hbits
  have hwords : ∀ bn, bn < k → ip.sumWord (Function.update d₁ ip.ind
      (setWord (d₁ ip.ind) (k - ndirect) (BitVec.ofNat 32 b))) bn = ip.sumWord d bn :=
    fun bn hbn => by
      rw [sumWord_setWord hk hk', if_neg (by omega)]
      exact h.sumWord_frame (fun _ => hindeq) (.inl hbn)
  have hblkk : ip.blk (Function.update d₁ ip.ind
      (setWord (d₁ ip.ind) (k - ndirect) (BitVec.ofNat 32 b))) k = b := by
    rw [Dinode.blk, sumWord_setWord hk hk', if_pos rfl]
    exact hblkno
  have hblk : ∀ bn, bn < k → ip.blk (Function.update d₁ ip.ind
      (setWord (d₁ ip.ind) (k - ndirect) (BitVec.ofNat 32 b))) bn = ip.blk d bn :=
    fun bn hbn => blk_congr rfl (hwords bn hbn)
  refine ⟨_, ip, ?_, hwf', ?_, hwords, fun c hc hne => ?_, ?_⟩
  · have hne := h.ind_ne_zero
    rw [bmap, if_neg (by omega)]
    simp only [show k - ndirect < nindirect by omega, if_true, if_neg hne, Option.bind_some]
    have h0' : word (d (ip.addr ndirect).toNat) (k - ndirect) = 0 := h0
    rw [if_pos h0', hal, hblkk, Option.map_some, hindeq]
    simp only [hblkno, Dinode.ind]
  · refine Ext.of_link h hset hfreeb (sameLow_update hindD₁ _) (by omega) id rfl hblk
      (fun _ => rfl) (fun c _ hnr => ?_) (fun c hc => ?_) (isRef_succ hblk (fun _ => rfl) hblkk)
    · exact Function.update_of_ne (fun he => hnr (.inr ⟨rfl, he⟩)) _ _
    · exact hbits c (by rwa [sbSize_eq hset.same.sb])
  · rw [Function.update_of_ne (hne rfl), hset.data c hc]
  · have hb := (isData_eq hset.same.sb b).mp htaken.1
    have hne : b ≠ ip.ind := fun he => hno (.inr ⟨rfl, he⟩)
    rw [hblkk, Function.update_of_ne hne, hset.data b hb.1, hzero]

/-- The indirect block itself. -/
theorem load_ind (hd : Image d) (h : Wf d ip.toDinode ndirect false) (hfree : 0 < freeCount d) :
    ∃ d' ip', (balloc d).map (fun r => (r.2, ip.setAddr ndirect (BitVec.ofNat 32 r.1)))
        = some (d', ip') ∧ ip'.addr ndirect ≠ 0 ∧ Wf d' ip'.toDinode ndirect true ∧
      Ext d ip ndirect false d' ip' ndirect true ∧
      (∀ bn, bn < ndirect → ip'.sumWord d' bn = ip.sumWord d bn) ∧
      ∀ c, dataStart d ≤ c → d' c = d c := by
  obtain ⟨b, d₁, hal, hb24, hzero, hfreeb, hset, hwf, htaken, href, hno⟩ := balloc_fresh hd h hfree
  have hb := (isData_eq hset.same.sb b).mp htaken.1
  have hnat : (BitVec.ofNat 32 b).toNat = b := toNat_ofNat_block hb24
  have hwf' := hwf.link_ind htaken ((href b).not.mpr hno) hnat
    (by rw [hset.data b hb.1, hzero])
  have hwords : ∀ bn, bn < ndirect → (ip.setAddr ndirect (BitVec.ofNat 32 b)).sumWord d₁ bn
      = ip.sumWord d bn := fun bn hbn => by
    have hbn' : bn < 12 := hbn
    rw [sumWord_direct _ hbn, sumWord_direct _ hbn, setAddr_addr_ne ip _
      (show ndirect < 13 by decide) (by omega) (show bn ≠ ndirect by omega)]
  have hblk : ∀ bn, bn < ndirect → (ip.setAddr ndirect (BitVec.ofNat 32 b)).blk d₁ bn
      = ip.blk d bn := fun bn hbn => blk_congr rfl (hwords bn hbn)
  have hind : (ip.setAddr ndirect (BitVec.ofNat 32 b)).ind = b := by
    rw [Dinode.ind, addr_setAddr ip _ (show ndirect < 13 by decide) (show ndirect < 13 by decide),
      if_pos rfl, hnat]
  refine ⟨d₁, _, by rw [hal]; rfl, hwf'.ind_ne_zero, hwf', ?_, hwords, hset.data⟩
  refine Ext.of_link h hset hfreeb (SameLow.refl d₁) le_rfl (fun _ => rfl) rfl hblk
    (fun he => by cases he) (fun _ _ _ => rfl) (fun _ _ => rfl) fun c => ?_
  simp only [IsRef, hind]
  constructor
  · rintro (⟨bn, hbn, rfl⟩ | ⟨-, rfl⟩)
    · exact .inl (.inl ⟨bn, hbn, hblk bn hbn⟩)
    · exact .inr rfl
  · rintro ((⟨bn, hbn, rfl⟩ | ⟨he, -⟩) | rfl)
    · exact .inl ⟨bn, hbn, (hblk bn hbn).symm⟩
    · cases he
    · exact .inr ⟨trivial, rfl⟩

/-- `bmap` of the next block, with a free block for it, and one more for the
indirect block where that is missing. -/
theorem bmap_next (hd : Image d) (h : Wf d ip.toDinode k (decide (ndirect < k)))
    (hk : k < maxfile) (hfree : (if k = ndirect then 2 else 1) ≤ freeCount d) :
    ∃ d' ip', bmap d ip k = some (ip'.blk d' k, d', ip') ∧
      Grown d ip k (decide (ndirect < k)) d' ip' (decide (ndirect < k + 1)) := by
  rcases Nat.lt_trichotomy k ndirect with hlt | rfl | hgt
  · have h1 : decide (ndirect < k) = false := by simp; omega
    have h2 : decide (ndirect < k + 1) = false := by simp; omega
    rw [h1] at h
    rw [h1, h2]
    exact bmap_direct hd h hlt (by split at hfree <;> omega)
  · rw [if_pos rfl] at hfree
    have h1 : decide (ndirect < ndirect) = false := by decide
    have h2 : decide (ndirect < ndirect + 1) = true := by decide
    rw [h1] at h
    rw [h1, h2]
    obtain ⟨d₁, ip₁, hload, hne, hwf₁, hext₁, hwords₁, hdata₁⟩ := load_ind hd h (by omega)
    have hcount := hext₁.freeCount_eq h hwf₁
    simp only [Bool.toNat_true, Bool.toNat_false] at hcount
    obtain ⟨d₂, ip₂, hbmap, hgrown⟩ :=
      bmap_indirect (hext₁.image hd) hwf₁ le_rfl hk (by omega)
    have h0 : ip.addr ndirect = 0 := h.noInd rfl
    refine ⟨d₂, ip₂, ?_, hgrown.wf, hext₁.trans hgrown.ext, fun bn hbn => ?_, fun c hc hno => ?_,
      hgrown.zero⟩
    · rw [bmap, if_neg (by omega)] at hbmap ⊢
      simp only [if_neg hne, if_pos h0, Option.bind_some] at hbmap ⊢
      rw [hload]
      exact hbmap
    · rw [hgrown.words bn hbn, hwords₁ bn hbn]
    · rw [hgrown.data c (by rwa [dataStart_eq hext₁.same.sb]) hno, hdata₁ c hc]
  · have h1 : decide (ndirect < k) = true := by simp; omega
    have h2 : decide (ndirect < k + 1) = true := by simp; omega
    rw [h1] at h
    rw [h1, h2]
    exact bmap_indirect hd h (by omega) hk (by split at hfree <;> omega)

end Bmap

end Cs537.CheckedFs
