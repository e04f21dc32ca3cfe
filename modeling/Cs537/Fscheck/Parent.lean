/-
# `Cs537.Fscheck.Parent` — the check of the parent

A directory is to have an entry in its parent.  The program looks for the number
in its first entry, in the direct blocks of the parent, in the indirect block of
the parent read as entries, and, if the parent has one, in the blocks that the
indirect block of the child lists (`dinp` for `prnt`).  It misses entries whose
names begin with a dot and those in the parent's indirect blocks.

The check is right just when it finds a proper entry in a direct block, or what
it finds wrongly is there just when what it misses is (`parent_check`).
-/
import Cs537.Fscheck.Counts

namespace Cs537.Fscheck

open Cs537.Lib

variable {img : Image} {s : Tables} {i o : Nat}

/-- The parent has an entry for directory `i`, in a direct or an indirect block. -/
def HasEntry (img : Image) (i : Nat) : Prop :=
  ∃ o ∈ dirEntries img (parentOf img i), inum img o = i ∧ ¬ Self img o

/-- The number in the first entry of directory `i`. -/
def ownNumber (img : Image) (i : Nat) : Nat := inum img (first img i)

/-- A proper entry in a direct block, which the program finds. -/
def Found (img : Image) (i : Nat) : Prop :=
  ∃ o ∈ places (directBlocks img (parentOf img i)), inum img o = i ∧ ownNumber img i = i ∧
    ¬ isDot img o

/-- An entry that the program misses: its name begins with a dot, it is in an
indirect block, or the program looks for another number. -/
def Missed (img : Image) (i : Nat) : Prop :=
  (∃ o ∈ places (directBlocks img (parentOf img i)), inum img o = i ∧ ¬ Self img o ∧
      (isDot img o ∨ ownNumber img i ≠ i)) ∨
    ∃ o ∈ places (indirectBlocks img (parentOf img i)), inum img o = i ∧ ¬ Self img o

/-- What the program takes for an entry: one for another number, or a place in
the parent's indirect block or in a block that the child's indirect block lists. -/
def Mistaken (img : Image) (i : Nat) : Prop :=
  (∃ o ∈ places (directBlocks img (parentOf img i)), inum img o = ownNumber img i ∧
      ownNumber img i ≠ i ∧ ¬ isDot img o) ∨
    ∃ o ∈ strays img (parentOf img i) ++
        if addrs img (parentOf img i) NDIRECT ≠ 0 then entries (indirect img i) else [],
      inum img o = ownNumber img i ∧ ¬ isDot img o

instance (img : Image) (i : Nat) : Decidable (HasEntry img i) :=
  inferInstanceAs (Decidable (∃ o ∈ _, _))

/-- The iteration for inode `i` comes to the check of the parent. -/
structure AtParent (img : Image) (s : Tables) (i : Nat) : Prop where
  dir : type img i = T_DIR
  notRoot : i ≠ 1
  addressed : Addressed img s i
  format : FormatOk img i
  counted : ∃ dir, (usedDirents img i).foldlM (countEntry img) s.uind_dir = .ok dir

theorem parentMismatch_iff (h : AtParent img s i) :
    checkInode img s i = .error (.error .parentMismatch) ↔ ¬ ParentOk img i := by
  obtain ⟨u, hu⟩ := h.addressed
  obtain ⟨dir, hdir⟩ := h.counted
  have hroot : i = ROOTINO → RootOk img i := fun hi => absurd hi h.notRoot
  rw [checkInode, check_bind (.inr (.inr (.inr h.dir))), bind_of_ok hu,
    check_bind fun _ => h.format, check_bind hroot, bind_of_ok hdir, check_bind_error]
  constructor
  · rintro (⟨hparent, -⟩ | ⟨-, he⟩)
    · exact fun hp => hparent fun _ _ => hp
    · cases he
  · exact fun hp => .inl ⟨fun hc => hp (hc h.dir h.notRoot), rfl⟩

/-- The blocks that are looked at start below 2^32: the first one of the
directory, and those of its parent. -/
structure LowParent (img : Image) (i : Nat) : Prop where
  own : addrs img i 0 * BSIZE < 2 ^ 32
  parent : LowBlocks img (parentOf img i)

theorem parentEntries_low (h : LowBlocks img o) : parentEntries img i o =
    places (directBlocks img o) ++ (strays img o ++
      if addrs img o NDIRECT ≠ 0 then entries (indirect img i) else []) := by
  have hdirect : entries (direct img o) = places (directBlocks img o) ++ strays img o := by
    rw [entries_places fun a ha => h a (List.mem_append_left _ ha), direct_split, places_append,
      strays]
  rw [parentEntries, entries, List.filter_append, List.flatMap_append, ← entries, hdirect,
    ← List.append_assoc]
  refine congrArg (places (directBlocks img o) ++ strays img o ++ ·) ?_
  split <;> rfl

/-- The program's check, by what it finds. -/
theorem parentOk_iff (hi : 0 < ninodes img) (h : LowParent img i) :
    ParentOk img i ↔ Found img i ∨ Mistaken img i := by
  have hown : inum img (place (addrs img i 0)) = ownNumber img i := by
    rw [place_eq h.own]
    rfl
  have hparent : inum img (place (addrs img i 0) + 16) = parentOf img i := by
    rw [place_eq h.own]
    rfl
  rw [ParentOk, hown, hparent, parentEntries_low h.parent]
  simp only [skipped_iff hi, List.mem_append (s := places _)]
  constructor
  · rintro ⟨o, ho | ho, hdot, hnum⟩
    · by_cases hi : ownNumber img i = i
      · exact .inl ⟨o, ho, hnum.trans hi, hi, hdot⟩
      · exact .inr (.inl ⟨o, ho, hnum, hi, hdot⟩)
    · exact .inr (.inr ⟨o, ho, hnum, hdot⟩)
  · rintro (⟨o, ho, hnum, hi, hdot⟩ | ⟨o, ho, hnum, -, hdot⟩ | ⟨o, ho, hnum, hdot⟩)
    · exact ⟨o, .inl ho, hdot, hnum.trans hi.symm⟩
    · exact ⟨o, .inl ho, hdot, hnum⟩
    · exact ⟨o, .inr ho, hdot, hnum⟩

theorem hasEntry_iff : HasEntry img i ↔ Found img i ∨ Missed img i := by
  rw [HasEntry, dirEntries]
  simp only [List.mem_append]
  constructor
  · rintro ⟨o, ho | ho, hnum, hself⟩
    · by_cases hmiss : isDot img o ∨ ownNumber img i ≠ i
      · exact .inr (.inl ⟨o, ho, hnum, hself, hmiss⟩)
      · obtain ⟨hdot, hown⟩ := not_or.mp hmiss
        exact .inl ⟨o, ho, hnum, not_ne_iff.mp hown, hdot⟩
    · exact .inr (.inr ⟨o, ho, hnum, hself⟩)
  · rintro (⟨o, ho, hnum, -, hdot⟩ | ⟨o, ho, hnum, hself, -⟩ | ⟨o, ho, hnum, hself⟩)
    · exact ⟨o, .inl ho, hnum, fun hs => hdot (isDot_of_self hs)⟩
    · exact ⟨o, .inl ho, hnum, hself⟩
    · exact ⟨o, .inr ho, hnum, hself⟩

theorem or_iff_or {F X M : Prop} : (F ∨ X ↔ F ∨ M) ↔ F ∨ (M ↔ X) := by
  by_cases hF : F
  · simp [hF]
  · simp only [hF, false_or]
    exact iff_comm

/-- At a directory whose parent is checked, a mismatch is reported exactly when
the parent has no entry for it, just when the program finds a proper entry, or
it misses one just when it mistakes something for one. -/
theorem parent_check (img : Image) (s : Tables) (i : Nat) (hi : i < ninodes img)
    (h : AtParent img s i) (hlow : LowParent img i) :
    (checkInode img s i = .error (.error .parentMismatch) ↔ ¬ HasEntry img i) ↔
      Found img i ∨ (Missed img i ↔ Mistaken img i) := by
  have hpos : 0 < ninodes img := Nat.lt_of_le_of_lt (Nat.zero_le i) hi
  rw [parentMismatch_iff h, not_iff_not, parentOk_iff hpos hlow, hasEntry_iff]
  exact or_iff_or

/-- A root in block 5, with the entry `d` of the directory 2, in block 6. -/
def smallTree : Image := image
  [(4, 512, 16), (4, 516, 11), (4, 520, 8), (4, 2048, 96), (2, 1088, T_DIR), (4, 1100, 5),
    (2, 2560, 1), (1, 2562, 46), (2, 2576, 1), (2, 2578, 46 + 256 * 46), (2, 2592, 2), (1, 2594, 100),
    (2, 1152, T_DIR), (4, 1164, 6), (2, 3072, 2), (1, 3074, 46), (2, 3088, 1), (2, 3090, 46 + 256 * 46)]

theorem parent_check_smallTree :
    (checkInode smallTree blank 2 = .error (.error .parentMismatch) ↔ ¬ HasEntry smallTree 2) ↔
      Found smallTree 2 ∨ (Missed smallTree 2 ↔ Mistaken smallTree 2) :=
  parent_check smallTree blank 2 (by decide +kernel)
    ⟨by decide +kernel, by decide, exists_ok (by decide +kernel), by decide +kernel,
      exists_ok (by decide +kernel)⟩
    ⟨by decide +kernel, by decide +kernel⟩

/-! ## A large parent -/

/-- A root with the blocks 6 to 17, the indirect block 18, and in that the block
19, which has the entry `d` of the directory 2, in block 20.  The rest
of these blocks, and block 0, is empty. -/
def largeRoot : Image := fun a =>
  if a < 512 ∨ 3104 ≤ a ∧ a < 9216 ∨ 9220 ≤ a ∧ a < 9728 then 0 else a |> image (
  [(4, 512, 30), (4, 516, 24), (4, 520, 20), (4, 2560, 2 ^ 21 - 2 ^ 6), (2, 1088, T_DIR), (2, 1094, 1)] ++
    (List.range 13).map (fun j => (4, 1100 + 4 * j, 6 + j)) ++
    [(2, 3072, 1), (1, 3074, 46), (2, 3088, 1), (2, 3090, 46 + 256 * 46), (4, 9216, 19), (2, 9728, 2),
      (1, 9730, 100), (2, 1152, T_DIR), (2, 1158, 1), (4, 1164, 20), (2, 10240, 2), (1, 10242, 46),
      (2, 10256, 1), (2, 10258, 46 + 256 * 46)])

/-- The parent of 2 has an entry for it, and a mismatch is reported. -/
theorem largeRoot_mismatch : type largeRoot 2 = T_DIR ∧ HasEntry largeRoot 2 ∧
    fscheck largeRoot blank = .error (.error .parentMismatch) := by
  refine ⟨by decide +kernel, by decide +kernel, by decide +kernel⟩

end Cs537.Fscheck
