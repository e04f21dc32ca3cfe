/-
# `Cs537.Fscheck.Counts` — the counts of the directory entries

`uind_dir[k]` is meant to be the number of entries with inode number `k` in the
blocks of the directories, `.` and `..` apart.  The program misses the entries
whose names begin with a dot; it reads the indirect block of a directory as a
block of entries, too; and it has not cleared `uind_dir[k]` from `nblocks` on.
The counts are right just when these add up to nothing (`dir_counts`).
-/
import Cs537.Fscheck.Names

namespace Cs537.Fscheck

open Cs537.Lib

variable {img : Image} {junk s t : Tables} {i k n o : Nat}

/-! ## The entries of a directory -/

/-- The places of the entries in the blocks of a list. -/
def places (l : List Nat) : List Nat :=
  (nonzero l).flatMap fun b => (List.range DPB).map fun n => b * BSIZE + 16 * n

def directBlocks (img : Image) (i : Nat) : List Nat := (List.range NDIRECT).map (addrs img i)

/-- The entries of the indirect block. -/
def indirectBlocks (img : Image) (i : Nat) : List Nat :=
  if addrs img i NDIRECT ≠ 0 then
    (List.range NINDIRECT).map fun j => img.get 4 (addrs img i NDIRECT * BSIZE + 4 * j)
  else []

/-- The entries in the data blocks of directory `i`. -/
def dirEntries (img : Image) (i : Nat) : List Nat :=
  places (directBlocks img i) ++ places (indirectBlocks img i)

/-- The places in the indirect block of directory `i`, read as entries. -/
def strays (img : Image) (i : Nat) : List Nat := places [addrs img i NDIRECT]

/-- The directories. -/
def dirs (img : Image) : List Nat := (List.range (ninodes img)).filter fun i => type img i = T_DIR

/-- The blocks of an inode start below 2^32. -/
def LowBlocks (img : Image) (i : Nat) : Prop := ∀ a ∈ refs img i, a * BSIZE < 2 ^ 32

instance (img : Image) (i : Nat) : Decidable (LowBlocks img i) :=
  inferInstanceAs (Decidable (∀ a ∈ _, _))

theorem places_append (l l' : List Nat) : places (l ++ l') = places l ++ places l' := by
  rw [places, nonzero_append, List.flatMap_append, places, places]

theorem entries_places {l : List Nat} (h : ∀ a ∈ l, a * BSIZE < 2 ^ 32) : entries l = places l := by
  rw [entries, places]
  refine List.flatMap_congr fun b hb => ?_
  rw [slots, place_eq (h b (mem_nonzero.mp hb).1)]

theorem indirect_low (h : LowBlocks img i) :
    (if addrs img i NDIRECT ≠ 0 then indirect img i else []) = indirectBlocks img i := by
  have hind : addrs img i NDIRECT * BSIZE < 2 ^ 32 := h _ (by
    refine List.mem_append_left _ (List.mem_map.mpr ⟨NDIRECT, ?_, rfl⟩)
    exact List.mem_range.mpr (Nat.lt_succ_self _))
  rw [indirectBlocks]
  refine if_congr Iff.rfl (List.map_congr_left fun j _ => ?_) rfl
  rw [ndaddr, place_eq hind]

theorem direct_split (img : Image) (i : Nat) :
    direct img i = directBlocks img i ++ [addrs img i NDIRECT] := by
  rw [direct, List.range_succ, List.map_append, directBlocks]
  rfl

theorem refs_low (h : LowBlocks img i) :
    refs img i = directBlocks img i ++ [addrs img i NDIRECT] ++ indirectBlocks img i := by
  rw [refs, indirect_low h, direct_split]

/-- What the scan of a directory reads. -/
theorem dirents_low (h : LowBlocks img i) : dirents img i =
    places (directBlocks img i) ++ strays img i ++ places (indirectBlocks img i) := by
  rw [dirents, entries_places h, refs_low h, places_append, places_append, strays]

/-! ## Counting -/

theorem countP_flatMap_add {α β : Type*} {p : β → Bool} {l : List α} {f g h : α → List β}
    (hl : ∀ a ∈ l, (f a).countP p = (g a).countP p + (h a).countP p) :
    (l.flatMap f).countP p = (l.flatMap g).countP p + (l.flatMap h).countP p := by
  induction l with
  | nil => rfl
  | cons a l ih =>
      have ha := hl a (List.mem_cons_self ..)
      have hrest := ih fun b hb => hl b (List.mem_cons_of_mem a hb)
      simp only [List.flatMap_cons, List.countP_append]
      omega

theorem countP_split {α : Type*} (p q : α → Bool) (l : List α) :
    l.countP p = l.countP (fun a => p a && q a) + l.countP fun a => p a && !q a := by
  induction l with
  | nil => rfl
  | cons a l ih =>
      simp only [List.countP_cons, ih]
      cases p a <;> cases q a <;> simp <;> omega

/-- The entries with the number `k` that are not `.` or `..`. -/
def entryCount (img : Image) (k : Nat) : Nat :=
  ((dirs img).flatMap (dirEntries img)).countP fun o => inum img o = k ∧ ¬ Self img o

/-- Those of them whose names begin with a dot. -/
def missedCount (img : Image) (k : Nat) : Nat :=
  ((dirs img).flatMap (dirEntries img)).countP fun o => inum img o = k ∧ ¬ Self img o ∧ isDot img o

/-- The places in indirect blocks that look like an entry with the number `k`. -/
def strayCount (img : Image) (k : Nat) : Nat :=
  ((dirs img).flatMap (strays img)).countP fun o => inum img o = k ∧ ¬ isDot img o

theorem direntsBelow_dirs : direntsBelow img (ninodes img) = (dirs img).flatMap (dirents img) := by
  rw [direntsBelow, dirs, List.range_eq_range']
  generalize List.range' 0 (ninodes img) = l
  induction l with
  | nil => rfl
  | cons i l ih =>
      rw [List.flatMap_cons, ih, usedDirents]
      by_cases h : type img i = T_DIR
      · rw [if_pos h, List.filter_cons_of_pos (by simpa using h), List.flatMap_cons]
      · rw [if_neg h, List.filter_cons_of_neg (by simpa using h), List.nil_append]

theorem count_inums {l : List Nat} (h : 0 < ninodes img) :
    (inums img l).count k = l.countP fun o => inum img o = k ∧ ¬ isDot img o := by
  rw [inums, List.count, List.countP_map, List.countP_filter]
  refine List.countP_congr fun o _ => ?_
  simp [skipped_iff h]

/-- What the program counts. -/
theorem uind_dir_count (junk : Tables) (h : 0 < ninodes img) (hlow : ∀ i ∈ dirs img, LowBlocks img i) :
    (tablesAt img junk (ninodes img)).uind_dir k + missedCount img k =
      (cleared img junk).uind_dir k + entryCount img k + strayCount img k := by
  have hread : ((dirs img).flatMap (dirents img)).countP (fun o => inum img o = k ∧ ¬ isDot img o) =
      ((dirs img).flatMap (dirEntries img)).countP (fun o => inum img o = k ∧ ¬ isDot img o) +
        strayCount img k :=
    countP_flatMap_add fun i hi => by
      rw [dirents_low (hlow i hi), dirEntries]
      simp only [List.countP_append]
      omega
  have hentry : entryCount img k = missedCount img k +
      ((dirs img).flatMap (dirEntries img)).countP (fun o => inum img o = k ∧ ¬ isDot img o) := by
    rw [entryCount, missedCount, countP_split _ fun o => decide (isDot img o)]
    refine congrArg₂ (· + ·) ?_ ?_
    · refine List.countP_congr fun o _ => ?_
      simp [and_assoc]
    · refine List.countP_congr fun o _ => ?_
      simp only [Bool.and_eq_true, decide_eq_true_eq, Bool.not_eq_true', decide_eq_false_iff_not]
      constructor
      · rintro ⟨⟨hk, -⟩, hd⟩
        exact ⟨hk, hd⟩
      · rintro ⟨hk, hd⟩
        exact ⟨⟨hk, fun hs => hd (isDot_of_self hs)⟩, hd⟩
  rw [uind_dir_tablesAt, direntsBelow_dirs, count_inums h, hread, hentry]
  omega

/-! ## The counts -/

/-- When the pass over the inodes succeeds, the counts are those of the entries
just when what is counted too much is what is missed. -/
theorem dir_counts (img : Image) (junk t : Tables)
    (hpass : (List.range' 0 (ninodes img)).foldlM (checkInode img) (cleared img junk) = .ok t)
    (hlow : ∀ i ∈ dirs img, LowBlocks img i) :
    (∀ k, 1 ≤ k → k < ninodes img → t.uind_dir k = entryCount img k) ↔
      ∀ k, 1 ≤ k → k < ninodes img →
        (cleared img junk).uind_dir k + strayCount img k = missedCount img k := by
  obtain ⟨-, rfl⟩ := inodes_ok_iff.mp hpass
  refine forall_congr' fun k => forall_congr' fun hk => forall_congr' fun hlt => ?_
  have hcount := uind_dir_count junk (k := k) (by omega) hlow
  omega

theorem dir_counts_root : ∃ t, (List.range' 0 (ninodes (rootImage dot))).foldlM
      (checkInode (rootImage dot)) (cleared (rootImage dot) blank) = .ok t ∧
    ((∀ k, 1 ≤ k → k < ninodes (rootImage dot) → t.uind_dir k = entryCount (rootImage dot) k) ↔
      ∀ k, 1 ≤ k → k < ninodes (rootImage dot) → (cleared (rootImage dot) blank).uind_dir k +
        strayCount (rootImage dot) k = missedCount (rootImage dot) k) :=
  ⟨_, rfl, dir_counts (rootImage dot) blank _ rfl (by decide +kernel)⟩

/-- That image with a file `.x`, inode 2. -/
def hiddenFile : Image :=
  Mem.put 4 (Mem.put 2 (Mem.put 2 (Mem.put 2 (rootImage dot) 1152 T_FILE) 1158 1) 2592 2)
    2594 (46 + 256 * 120)

/-- Its entry is not counted, and the file is reported. -/
theorem hiddenFile_missed : ((List.range' 0 (ninodes hiddenFile)).foldlM (checkInode hiddenFile)
      (cleared hiddenFile blank)).toOption.map (fun t => t.uind_dir 2) = some 0 ∧
    entryCount hiddenFile 2 = 1 ∧ fscheck hiddenFile blank = .error (.error .inodeNotFound) := by
  refine ⟨by decide +kernel, by decide +kernel, ?_⟩
  rfl

end Cs537.Fscheck
