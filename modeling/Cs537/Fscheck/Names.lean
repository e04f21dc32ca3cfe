/-
# `Cs537.Fscheck.Names` — which entries are `.` and `..`

The program compares a name with `"."` for one byte and with `"..\0"` for two:
it takes every name that begins with a dot for `.`, and every name that begins
with two for `..`.  The directory format is so checked too weakly, and the
scans pass by entries like `.profile`.  At a directory without such names the
checks are what they are meant to be, and only there (`checkInode_names`).
-/
import Cs537.Fscheck.Blocks

namespace Cs537.Fscheck

open Cs537.Lib

variable {img : Image} {s t : Tables} {i k n o : Nat}

/-! ## Names -/

def DIRSIZ : Nat := 14

/-- The name of the entry at `o`, a string of at most `DIRSIZ` bytes. -/
def dname (img : Image) (o : Nat) : List UInt8 :=
  ((List.range DIRSIZ).map fun j => img (o + 2 + j)).takeWhile (· ≠ 0)

def dot : List UInt8 := [46]
def dotdot : List UInt8 := [46, 46]

/-- The entry is `.` or `..`. -/
def Self (img : Image) (o : Nat) : Prop := dname img o = dot ∨ dname img o = dotdot

instance (img : Image) (o : Nat) : Decidable (Self img o) := inferInstanceAs (Decidable (_ ∨ _))

theorem dname_split (img : Image) (o : Nat) : ∃ l, dname img o =
    (img (o + 2) :: img (o + 3) :: img (o + 4) :: l).takeWhile (· ≠ 0) :=
  ⟨(List.range' 3 11).map fun j => img (o + 2 + j), rfl⟩

theorem dname_dot : dname img o = dot ↔ img (o + 2) = 46 ∧ img (o + 3) = 0 := by
  obtain ⟨l, hl⟩ := dname_split img o
  rw [hl, dot]
  by_cases h2 : img (o + 2) = 0
  · rw [List.takeWhile_cons_of_neg (by simpa using h2), h2]
    exact iff_of_false nofun fun h => absurd h.1 (by decide)
  rw [List.takeWhile_cons_of_pos (by simpa using h2)]
  by_cases h3 : img (o + 3) = 0
  · rw [List.takeWhile_cons_of_neg (by simpa using h3)]
    simp [h3]
  · rw [List.takeWhile_cons_of_pos (by simpa using h3)]
    simp [h3]

theorem dname_dotdot :
    dname img o = dotdot ↔ img (o + 2) = 46 ∧ img (o + 3) = 46 ∧ img (o + 4) = 0 := by
  obtain ⟨l, hl⟩ := dname_split img o
  rw [hl, dotdot]
  by_cases h2 : img (o + 2) = 0
  · rw [List.takeWhile_cons_of_neg (by simpa using h2), h2]
    exact iff_of_false nofun fun h => absurd h.1 (by decide)
  rw [List.takeWhile_cons_of_pos (by simpa using h2)]
  by_cases h3 : img (o + 3) = 0
  · rw [List.takeWhile_cons_of_neg (by simpa using h3), h3]
    simp
  rw [List.takeWhile_cons_of_pos (by simpa using h3)]
  by_cases h4 : img (o + 4) = 0
  · rw [List.takeWhile_cons_of_neg (by simpa using h4)]
    simp [h4]
  · rw [List.takeWhile_cons_of_pos (by simpa using h4)]
    simp [h4]

theorem isDot_of_self (h : Self img o) : isDot img o := by
  rcases h with h | h
  · exact (dname_dot.mp h).1
  · exact (dname_dotdot.mp h).1

/-- With an inode there is, the scans pass by the names with a dot. -/
theorem skipped_iff (h : 0 < ninodes img) : Skipped img o ↔ isDot img o := by
  rw [Skipped, isDotDot]
  constructor
  · rintro (⟨h1, h2⟩ | h | ⟨h, -⟩)
    · omega
    · exact h
    · exact h
  · exact fun h => .inr (.inl h)

/-! ## The two names -/

/-- The places of the first two entries of directory `i`. -/
def first (img : Image) (i : Nat) : Nat := addrs img i 0 * BSIZE
def second (img : Image) (i : Nat) : Nat := addrs img i 0 * BSIZE + 16

/-- The parent of directory `i`. -/
def parentOf (img : Image) (i : Nat) : Nat := inum img (second img i)

/-- The iteration for inode `i` comes to the check of the format. -/
def Addressed (img : Image) (s : Tables) (i : Nat) : Prop :=
  ∃ u, (usedRefs img i).foldlM (checkAddr img) s.u_blocks = .ok u

theorem exists_ok {σ : Type} {x : Except Stop σ} (h : x.toBool = true) : ∃ u, x = .ok u := by
  cases x with
  | error e => cases h
  | ok u => exact ⟨u, rfl⟩

theorem dirFormat_iff (hdir : type img i = T_DIR) (h : Addressed img s i) :
    checkInode img s i = .error (.error .dirFormat) ↔ ¬ FormatOk img i := by
  obtain ⟨u, hu⟩ := h
  rw [checkInode, check_bind (.inr (.inr (.inr hdir))), bind_of_ok hu, check_bind_error]
  constructor
  · rintro (⟨hformat, -⟩ | ⟨-, he⟩)
    · exact fun hf => hformat fun _ => hf
    -- what comes after has other messages
    rcases check_bind_error.mp he with ⟨-, he⟩ | ⟨-, he⟩
    · cases he
    rcases bind_error_iff.mp he with he | ⟨_, -, he⟩
    · exact (countEntry_error he).elim
    rcases check_bind_error.mp he with ⟨-, he⟩ | ⟨-, he⟩
    · cases he
    · cases he
  · exact fun hf => .inl ⟨fun hp => hf (hp hdir), rfl⟩

theorem place_eq {a : Nat} (h : a * BSIZE < 2 ^ 32) : place a = a * BSIZE := Nat.mod_eq_of_lt h

/-- Where no name only begins like `.` or `..`. -/
structure PlainNames (img : Image) (i : Nat) : Prop where
  format : isDot img (first img i) → isDotDot img (second img i) →
    dname img (first img i) = dot ∧ dname img (second img i) = dotdot
  counted : ∀ o ∈ usedDirents img i, isDot img o → Self img o
  searched : ∀ o ∈ parentEntries img i (parentOf img i), isDot img o → Self img o

/-- At a directory that the program comes to, the format check and the two scans
go by `.` and `..` just when its names are plain. -/
theorem checkInode_names (img : Image) (s : Tables) (i : Nat) (hi : i < ninodes img)
    (hdir : type img i = T_DIR) (haddr : Addressed img s i) (hlow : addrs img i 0 * BSIZE < 2 ^ 32) :
    ((checkInode img s i = .error (.error .dirFormat) ↔
          dname img (first img i) ≠ dot ∨ dname img (second img i) ≠ dotdot) ∧
        (∀ o ∈ usedDirents img i, Skipped img o ↔ Self img o) ∧
        ∀ o ∈ parentEntries img i (parentOf img i), Skipped img o ↔ Self img o) ↔
      PlainNames img i := by
  have hformat : FormatOk img i ↔ isDot img (first img i) ∧ isDotDot img (second img i) := by
    rw [FormatOk, place_eq hlow]
    rfl
  have hexact : dname img (first img i) = dot ∧ dname img (second img i) = dotdot →
      FormatOk img i := fun h =>
    hformat.mpr ⟨(dname_dot.mp h.1).1, (dname_dotdot.mp h.2).1, (dname_dotdot.mp h.2).2.1⟩
  have hskip : ∀ o, (Skipped img o ↔ Self img o) ↔ (isDot img o → Self img o) := fun o => by
    rw [skipped_iff (Nat.lt_of_le_of_lt (Nat.zero_le i) hi)]
    exact ⟨fun h => h.mp, fun h => ⟨h, isDot_of_self⟩⟩
  simp only [hskip, dirFormat_iff hdir haddr]
  constructor
  · rintro ⟨hf, hcounted, hsearched⟩
    refine ⟨fun h1 h2 => ?_, hcounted, hsearched⟩
    by_contra hne
    exact hf.mpr (not_and_or.mp hne) (hformat.mpr ⟨h1, h2⟩)
  · intro h
    refine ⟨⟨fun hf => ?_, fun hne hf => ?_⟩, h.counted, h.searched⟩
    · exact not_and_or.mp fun he => hf (hexact he)
    · obtain ⟨h1, h2⟩ := hformat.mp hf
      exact not_and_or.mpr hne (h.format h1 h2)

/-! ## A wrong name -/

/-- An image with a root in block 5, with the names `a` and `..` first. -/
def rootImage (a : List UInt8) : Image :=
  let sb := Mem.put 4 (Mem.put 4 (Mem.put 4 (fun _ => 0) 512 16) 516 11) 520 8
  let ino := Mem.put 4 (Mem.put 2 (Mem.put 2 sb 1088 T_DIR) 1094 1) 1100 5
  let bits := Mem.put 1 ino 2048 32
  let entry := Mem.copy (Mem.put 2 bits 2560 1) 2562 14 fun j => a.getD j 0
  Mem.put 2 (Mem.put 2 entry 2576 1) 2578 (46 + 256 * 46)

theorem checkInode_names_root :
    ((checkInode (rootImage dot) blank 1 = .error (.error .dirFormat) ↔
          dname (rootImage dot) (first (rootImage dot) 1) ≠ dot ∨
            dname (rootImage dot) (second (rootImage dot) 1) ≠ dotdot) ∧
        (∀ o ∈ usedDirents (rootImage dot) 1, Skipped (rootImage dot) o ↔ Self (rootImage dot) o) ∧
        ∀ o ∈ parentEntries (rootImage dot) 1 (parentOf (rootImage dot) 1),
          Skipped (rootImage dot) o ↔ Self (rootImage dot) o) ↔
      PlainNames (rootImage dot) 1 :=
  checkInode_names (rootImage dot) blank 1 (by decide +kernel) (by decide +kernel)
    (exists_ok (by decide +kernel)) (by decide +kernel)

/-- A root whose first entry is `.x` is accepted. -/
theorem rootImage_accepted : type (rootImage [46, 120]) 1 = T_DIR ∧
    dname (rootImage [46, 120]) (first (rootImage [46, 120]) 1) = [46, 120] ∧
    fscheck (rootImage [46, 120]) blank = .ok () := by
  refine ⟨by decide +kernel, by decide +kernel, ?_⟩
  rfl

end Cs537.Fscheck
