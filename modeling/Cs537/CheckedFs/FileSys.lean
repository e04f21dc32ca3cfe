/-
# `Cs537.CheckedFs.FileSys` — the blocks of all files

The bookkeeping of a disk: which data blocks the bitmap marks, and which ones
the pointers of the inodes in use lead to.  `Accounted` says that these are
the same, without repetition.  `FileSys` says the same with the block trees of
`Cs537.CheckedFs.Tree`, file by file; a step that changes one inode keeps it
by one rule (`FileSys.replace`).
-/
import Cs537.CheckedFs.Truncate
import Mathlib.Data.List.Nodup
import Mathlib.Data.List.Pairwise

namespace Cs537.CheckedFs

/-! ## References -/

/-- The block numbers that the pointers of an inode hold, checksum bytes of
checked files removed, and the number of its indirect block. -/
def Dinode.refs (ip : Dinode) (d : Disk) : List Nat :=
  (((List.range ndirect).filter fun i => ip.addr i ≠ 0).map fun i =>
      (ip.blockno (ip.addr i)).toNat) ++
    if ip.addr ndirect ≠ 0 then
      (((List.range nindirect).filter fun j => word (d ip.ind) j ≠ 0).map fun j =>
        (ip.blockno (word (d ip.ind) j)).toNat) ++ [ip.ind]
    else []

/-- The references of inode `i`, if it is in use. -/
def inodeRefs (d : Disk) (i : Nat) : List Nat :=
  if (dinode d i).type ≠ 0 then (dinode d i).refs d else []

def allRefs (d : Disk) : List Nat := (List.range (sbNinodes d)).flatMap (inodeRefs d)

/-- The data blocks in use are those referenced, each once. -/
structure Accounted (d : Disk) : Prop where
  once : (allRefs d).Nodup
  used : ∀ b, (IsData d b ∧ inUse d b = true) ↔ b ∈ allRefs d

/-- A consistent image. -/
structure Consistent (d : Disk) : Prop where
  image : Image d
  blocks : ∀ i, i < sbNinodes d → (dinode d i).type ≠ 0 → Blocks d (dinode d i)
  accounted : Accounted d

/-- `Consistent`, file by file. -/
structure FileSys (d : Disk) : Prop where
  image : Image d
  blocks : ∀ i, i < sbNinodes d → (dinode d i).type ≠ 0 → Blocks d (dinode d i)
  apart : ∀ i j b, i < sbNinodes d → j < sbNinodes d → (dinode d i).type ≠ 0 →
    (dinode d j).type ≠ 0 → Refs d (dinode d i) b → Refs d (dinode d j) b → i = j
  used : ∀ b, IsData d b → inUse d b = true →
    ∃ i, i < sbNinodes d ∧ (dinode d i).type ≠ 0 ∧ Refs d (dinode d i) b

section

variable {d : Disk} {ip : Dinode} {k : Nat} {ib : Bool}

theorem Wf.ind_ne_zero_iff (h : Wf d ip k ib) : ip.addr ndirect ≠ 0 ↔ ib = true := by
  cases ib with
  | true => exact iff_of_true h.ind_ne_zero rfl
  | false => exact iff_of_false (fun hne => hne (h.noInd rfl)) (by decide)

theorem Wf.mem_directRefs (h : Wf d ip k ib) {b : Nat} :
    (b ∈ ((List.range ndirect).filter fun i => ip.addr i ≠ 0).map fun i =>
      (ip.blockno (ip.addr i)).toNat) ↔ ∃ bn, bn < k ∧ bn < ndirect ∧ b = ip.blk d bn := by
  simp only [List.mem_map, List.mem_filter, List.mem_range, decide_eq_true_eq]
  constructor
  · rintro ⟨i, ⟨hi, hne⟩, rfl⟩
    obtain ⟨hik, -, hib⟩ := h.direct_blk hi hne
    exact ⟨i, hik, hi, hib⟩
  · rintro ⟨bn, hk, hbn, rfl⟩
    have hne := (h.addr_ne_zero hbn).mpr hk
    exact ⟨bn, ⟨hbn, hne⟩, (h.direct_blk hbn hne).2.2⟩

theorem Wf.mem_indirectRefs (h : Wf d ip k true) {b : Nat} :
    (b ∈ ((List.range nindirect).filter fun j => word (d ip.ind) j ≠ 0).map fun j =>
      (ip.blockno (word (d ip.ind) j)).toNat) ↔ ∃ bn, bn < k ∧ ndirect ≤ bn ∧ b = ip.blk d bn := by
  have hbound := h.bound
  have hm : maxfile = ndirect + nindirect := rfl
  simp only [List.mem_map, List.mem_filter, List.mem_range, decide_eq_true_eq]
  constructor
  · rintro ⟨j, ⟨hj, hne⟩, rfl⟩
    obtain ⟨hjk, -, hjb⟩ := h.indirect_blk hj hne
    exact ⟨ndirect + j, hjk, Nat.le_add_right _ _, hjb⟩
  · rintro ⟨bn, hk, hbn, rfl⟩
    have hj : ndirect + (bn - ndirect) = bn := by omega
    have hjn : bn - ndirect < nindirect := by omega
    have hne := (h.word_ne_zero hjn).mpr (by omega)
    exact ⟨bn - ndirect, ⟨hjn, hne⟩, by rw [(h.indirect_blk hjn hne).2.2, hj]⟩

theorem Wf.mem_refs (h : Wf d ip k ib) {b : Nat} : b ∈ ip.refs d ↔ IsRef d ip k ib b := by
  rw [Dinode.refs, List.mem_append, h.mem_directRefs]
  cases ib with
  | false =>
      have hle := h.direct rfl
      rw [if_neg (h.ind_ne_zero_iff.not.mpr (by decide))]
      simp only [List.not_mem_nil, or_false, IsRef, Bool.false_eq_true, false_and]
      refine exists_congr fun bn => ⟨fun hb => ⟨hb.1, hb.2.2⟩, fun hb => ⟨hb.1, ?_, hb.2⟩⟩
      have := hb.1
      omega
  | true =>
      rw [if_pos h.ind_ne_zero, List.mem_append, List.mem_singleton, h.mem_indirectRefs]
      constructor
      · rintro (⟨bn, hk, -, he⟩ | ⟨bn, hk, -, he⟩ | he)
        · exact .inl ⟨bn, hk, he⟩
        · exact .inl ⟨bn, hk, he⟩
        · exact .inr ⟨rfl, he⟩
      · rintro (⟨bn, hk, he⟩ | ⟨-, he⟩)
        · rcases Nat.lt_or_ge bn ndirect with hlt | hge
          · exact .inl ⟨bn, hk, hlt, he⟩
          · exact .inr (.inl ⟨bn, hk, hge, he⟩)
        · exact .inr (.inr he)

theorem Wf.nodup_refs (h : Wf d ip k ib) : (ip.refs d).Nodup := by
  rw [Dinode.refs]
  cases ib with
  | false =>
      rw [if_neg (h.ind_ne_zero_iff.not.mpr (by decide)), List.append_nil]
      exact nodup_directBlocks h
  | true =>
      rw [if_pos h.ind_ne_zero, List.nodup_append', List.nodup_append']
      refine ⟨nodup_directBlocks h, ⟨nodup_indirectBlocks h, List.nodup_singleton _, ?_⟩, ?_⟩
      · rw [List.disjoint_singleton, h.mem_indirectRefs]
        rintro ⟨bn, hk, -, he⟩
        exact h.apart bn hk rfl he.symm
      · intro b hb hb'
        obtain ⟨bn, hk, hbn, rfl⟩ := h.mem_directRefs.mp hb
        rcases List.mem_append.mp hb' with hb' | hb'
        · obtain ⟨bn', hk', hbn', he⟩ := h.mem_indirectRefs.mp hb'
          have := h.inj bn bn' hk hk' he
          omega
        · exact h.apart bn hk rfl (List.mem_singleton.mp hb')

theorem mem_inodeRefs {i : Nat} (hblocks : (dinode d i).type ≠ 0 → Blocks d (dinode d i)) {b : Nat} :
    b ∈ inodeRefs d i ↔ (dinode d i).type ≠ 0 ∧ Refs d (dinode d i) b := by
  rw [inodeRefs]
  by_cases ht : (dinode d i).type = 0
  · simp [ht]
  · rw [if_pos ht, (hblocks ht).wf.mem_refs]
    exact ⟨fun hr => ⟨ht, hr⟩, fun hr => hr.2⟩

theorem mem_allRefs (hblocks : ∀ i, i < sbNinodes d → (dinode d i).type ≠ 0 → Blocks d (dinode d i))
    {b : Nat} : b ∈ allRefs d ↔
      ∃ i, i < sbNinodes d ∧ (dinode d i).type ≠ 0 ∧ Refs d (dinode d i) b := by
  simp only [allRefs, List.mem_flatMap, List.mem_range]
  exact exists_congr fun i => and_congr_right fun hi => mem_inodeRefs (hblocks i hi)

theorem FileSys.consistent (h : FileSys d) : Consistent d := by
  refine ⟨h.image, h.blocks, ?_, fun b => ?_⟩
  · refine List.nodup_flatMap.mpr ⟨fun i hi => ?_, List.nodup_range.pairwise_of_forall_ne
      fun i hi j hj hne b hb hb' => ?_⟩
    · rw [inodeRefs]
      split
      · rename_i ht
        exact (h.blocks i (List.mem_range.mp hi) ht).wf.nodup_refs
      · exact List.nodup_nil
    · rw [List.mem_range] at hi hj
      rw [mem_inodeRefs (h.blocks i hi)] at hb
      rw [mem_inodeRefs (h.blocks j hj)] at hb'
      exact hne (h.apart i j b hi hj hb.1 hb'.1 hb.2 hb'.2)
  · rw [mem_allRefs h.blocks]
    constructor
    · rintro ⟨hb, hu⟩
      exact h.used b hb hu
    · rintro ⟨i, hi, ht, hr⟩
      exact (h.blocks i hi ht).wf.isRef_taken hr

theorem Consistent.fileSys (h : Consistent d) : FileSys d := by
  obtain ⟨hnd, hpair⟩ := List.nodup_flatMap.mp h.accounted.once
  refine ⟨h.image, h.blocks, fun i j b hi hj hti htj hri hrj => ?_, fun b hb hu => ?_⟩
  · by_contra hne
    have hsymm : Std.Symm (Function.onFun List.Disjoint (inodeRefs d)) := ⟨fun _ _ hd => hd.symm⟩
    refine hpair.forall (List.mem_range.mpr hi) (List.mem_range.mpr hj) hne
      ((mem_inodeRefs (h.blocks i hi)).mpr ⟨hti, hri⟩) ?_
    exact (mem_inodeRefs (h.blocks j hj)).mpr ⟨htj, hrj⟩
  · exact (mem_allRefs h.blocks).mp ((h.accounted.used b).mp ⟨hb, hu⟩)

/-! ## Changing one inode -/

/-- Other files keep their blocks. -/
theorem Blocks.frame {d' : Disk} (h : Blocks d ip) (hsb : d' 1 = d 1)
    (hkeep : ∀ b, Refs d ip b → d' b = d b ∧ inUse d' b = true) :
    Blocks d' ip ∧ ∀ b, Refs d' ip b ↔ Refs d ip b := by
  have hind : decide (ndirect < nblk ip.size.toNat) = true → d' ip.ind = d ip.ind := fun hib =>
    (hkeep _ (.inr ⟨hib, rfl⟩)).1
  refine ⟨⟨h.le, h.wf.frame hsb hind fun b hb => (hkeep b hb).2⟩, fun b => ?_⟩
  refine or_congr (exists_congr fun bn => and_congr_right fun hbn => ?_) Iff.rfl
  rw [blk_congr rfl (h.wf.sumWord_frame hind (.inl hbn))]

/-- The rule for a step that changes inode `i` and blocks that no other file
has. -/
theorem FileSys.replace {d' : Disk} {i : Nat} (h : FileSys d) (himage : Image d')
    (hsb : d' 1 = d 1)
    (hothers : ∀ j, j ≠ i → j < sbNinodes d → dinode d' j = dinode d j)
    (hblocks : (dinode d' i).type ≠ 0 → Blocks d' (dinode d' i))
    (hkeep : ∀ j b, j ≠ i → j < sbNinodes d → (dinode d j).type ≠ 0 → Refs d (dinode d j) b →
      d' b = d b ∧ inUse d' b = true ∧ ¬ ((dinode d' i).type ≠ 0 ∧ Refs d' (dinode d' i) b))
    (hused : ∀ b, IsData d b → inUse d' b = true →
      (∃ j, j ≠ i ∧ j < sbNinodes d ∧ (dinode d j).type ≠ 0 ∧ Refs d (dinode d j) b) ∨
        i < sbNinodes d ∧ (dinode d' i).type ≠ 0 ∧ Refs d' (dinode d' i) b) : FileSys d' := by
  have hn : sbNinodes d' = sbNinodes d := sbNinodes_eq hsb
  have hframe : ∀ j, j ≠ i → j < sbNinodes d → (dinode d j).type ≠ 0 →
      Blocks d' (dinode d j) ∧ ∀ b, Refs d' (dinode d j) b ↔ Refs d (dinode d j) b :=
    fun j hj hjn ht => (h.blocks j hjn ht).frame hsb fun b hb =>
      ⟨(hkeep j b hj hjn ht hb).1, (hkeep j b hj hjn ht hb).2.1⟩
  refine ⟨himage, fun j hj ht => ?_, fun j l b hj hl htj htl hrj hrl => ?_, fun b hb hu => ?_⟩
  · by_cases hji : j = i
    · subst hji
      exact hblocks ht
    · rw [hn] at hj
      rw [hothers j hji hj] at ht ⊢
      exact (hframe j hji hj ht).1
  · rw [hn] at hj hl
    by_cases hji : j = i
    · by_cases hli : l = i
      · rw [hji, hli]
      · subst hji
        rw [hothers l hli hl] at htl hrl
        have hold := ((hframe l hli hl htl).2 b).mp hrl
        exact absurd ⟨htj, hrj⟩ (hkeep l b hli hl htl hold).2.2
    · rw [hothers j hji hj] at htj hrj
      have hold := ((hframe j hji hj htj).2 b).mp hrj
      by_cases hli : l = i
      · subst hli
        exact absurd ⟨htl, hrl⟩ (hkeep j b hji hj htj hold).2.2
      · rw [hothers l hli hl] at htl hrl
        exact h.apart j l b hj hl htj htl hold (((hframe l hli hl htl).2 b).mp hrl)
  · rcases hused b ((isData_eq hsb b).mp hb) hu with ⟨j, hji, hj, ht, hr⟩ | ⟨hi, ht, hr⟩
    · refine ⟨j, by rwa [hn], ?_, ?_⟩
      · rwa [hothers j hji hj]
      · rw [hothers j hji hj]
        exact ((hframe j hji hj ht).2 b).mpr hr
    · exact ⟨i, by rwa [hn], ht, hr⟩

/-- Another inode with the same blocks in the place of inode `i`. -/
theorem FileSys.setDinode {i : Nat} (h : FileSys d) (hi : i < sbNinodes d)
    (hb : ip.type ≠ 0 → Blocks d ip)
    (hrefs : ∀ b, (ip.type ≠ 0 ∧ Refs d ip b) ↔ (dinode d i).type ≠ 0 ∧ Refs d (dinode d i) b) :
    FileSys (setDinode d i ip) := by
  have hhigh := sameHigh_setDinode hi ip
  have hsame : SameData d ip (CheckedFs.setDinode d i ip) ip := ⟨hhigh, rfl, rfl⟩
  have hself : dinode (CheckedFs.setDinode d i ip) i = ip := by rw [dinode_setDinode, if_pos rfl]
  have hrefs' : ∀ b, (ip.type ≠ 0 ∧ Refs (CheckedFs.setDinode d i ip) ip b) ↔
      (dinode d i).type ≠ 0 ∧ Refs d (dinode d i) b := fun b => by
    rw [← hrefs b]
    exact and_congr_right fun ht => hsame.isRef (hb ht).wf
  refine h.replace (i := i) (hhigh.image h.image) hhigh.sb (fun j hj _ => ?_) (fun ht => ?_)
    (fun j b hj hjn ht hr => ⟨?_, ?_, ?_⟩) fun b hbd hu => ?_
  · rw [dinode_setDinode, if_neg hj]
  · rw [hself] at ht ⊢
    exact ⟨(hb ht).le, hsame.wf (hb ht).wf⟩
  · exact hhigh.data ((h.blocks j hjn ht).wf.isRef_taken hr).1
  · rw [hhigh.inUse]
    exact ((h.blocks j hjn ht).wf.isRef_taken hr).2
  · rw [hself, hrefs' b]
    exact fun hown => hj (h.apart j i b hjn hi ht hown.1 hr hown.2)
  · rw [hhigh.inUse] at hu
    obtain ⟨j, hjn, ht, hr⟩ := h.used b hbd hu
    by_cases hj : j = i
    · subst hj
      rw [hself, hrefs' b]
      exact .inr ⟨hi, ht, hr⟩
    · exact .inl ⟨j, hj, hjn, ht, hr⟩

/-- An empty inode refers to no block. -/
theorem not_refs_empty (ht : ip.size = 0) (b : Nat) : ¬ Refs d ip b := by
  have h0 : nblk ip.size.toNat = 0 := by rw [ht]; rfl
  rw [Refs, h0]
  rintro (⟨bn, hbn, -⟩ | ⟨hib, -⟩)
  · exact absurd hbn (Nat.not_lt_zero bn)
  · exact absurd hib (by decide)

/-- Freeing the blocks of inode `i` and marking it free. -/
theorem free_inode {i : Nat} {l : List Nat} {d₁ d' : Disk} (h : FileSys d) (dip dip' : Dinode)
    (hi : i < sbNinodes d) (hf : Freed d l d₁)
    (hmem : ∀ b, b ∈ l ↔ Refs d (dinode d i) b)
    (ht : (dinode d i).type ≠ 0)
    (hd' : d' = setDinode (setDinode d₁ i dip) i dip') (ht' : dip'.type = 0) :
    FileSys d' ∧ d' 1 = d 1 ∧
      ∀ j, j ≠ i → j < sbNinodes d → dinode d' j = dinode d j := by
  have hn : i < sbNinodes d₁ := by
    rw [sbNinodes_eq hf.same.sb]
    exact hi
  have h₁ := sameHigh_setDinode hn dip
  have h₂ : SameHigh (setDinode d₁ i dip) d' := by
    rw [hd']
    exact sameHigh_setDinode (by rwa [sbNinodes_eq h₁.sb]) dip'
  have hself : (dinode d' i).type = 0 := by
    rw [hd', dinode_setDinode, if_pos rfl]
    exact ht'
  have hdata : ∀ b, IsData d b → d' b = d₁ b := fun b hb => by
    have hb₁ := (isData_eq hf.same.sb b).mpr hb
    rw [h₂.data ((isData_eq h₁.sb b).mpr hb₁), h₁.data hb₁]
  have huse : ∀ b, inUse d' b = inUse d₁ b := fun b => by rw [h₂.inUse, h₁.inUse]
  have hsb : d' 1 = d 1 := by rw [h₂.sb, h₁.sb, hf.same.sb]
  have hothers : ∀ j, j ≠ i → j < sbNinodes d → dinode d' j = dinode d j :=
    fun j hj hjn => by
      rw [hd', dinode_setDinode, if_neg hj, dinode_setDinode, if_neg hj, hf.same.dinode hjn]
  refine ⟨h.replace (i := i) (h₂.image (h₁.image (hf.image h.image))) hsb hothers
    (fun hne => absurd hself hne) (fun j b hj hjn htj hr => ?_) fun b hb hu => .inl ?_, hsb, hothers⟩
  · have htaken := (h.blocks j hjn htj).wf.isRef_taken hr
    have hno : b ∉ l := fun hb =>
      hj (h.apart j i b hjn hi htj ht hr ((hmem b).mp hb))
    refine ⟨?_, ?_, fun hown => hown.1 hself⟩
    · rw [hdata b htaken.1, hf.data b htaken.1.1 hno]
    · rw [huse]
      exact (hf.taken htaken hno).2
  · rw [huse, hf.bits b hb.2] at hu
    obtain ⟨j, hjn, htj, hr⟩ := h.used b hb hu.1
    refine ⟨j, fun hj => ?_, hjn, htj, hr⟩
    subst hj
    exact hu.2 ((hmem b).mpr hr)

end

end Cs537.CheckedFs
