/-
# `Cs537.Fscheck.Bounds` — the indices of the checker

`Uses img junk x k`: the program uses the index `k` into the array `x`; the
`inodes` are those that it comes to through a directory entry.  What keeps an
index inside is one of the checks before it, or is missing: the arrays of the
inodes are cleared for `nblocks` elements; the number in an entry is tested with
`&&` for `||`, that is, not at all; an address is tested against `size`, which
can be more than `b_start + nblocks`.

So the indices are inside their arrays just where the image sees to it, at each
place that the program comes to (`uses_inside_iff`).
-/
import Cs537.Fscheck.Counts

namespace Cs537.Fscheck

open Cs537.Lib

variable {img : Image} {junk s t : Tables} {i k n o : Nat} {l : List Nat}

/-! ## Uses -/

inductive Arr where
  | u_blocks
  | uind_table
  | uind_dir
  | inodes

def Arr.length (img : Image) : Arr → Nat
  | .u_blocks => nblocks img
  | .uind_table | .uind_dir | .inodes => ninodes img

/-- The pass over the inodes comes to inode `i`. -/
def AtInode (img : Image) (junk s : Tables) (i : Nat) : Prop :=
  nblocks img < 2 ^ 31 ∧
    Reaches (checkInode img) (List.range' 0 (min (ninodes img) (2 ^ 31))) (cleared img junk) s i

/-- There it comes to the counts. -/
structure AtCounts (img : Image) (s : Tables) (i : Nat) : Prop where
  typeOk : TypeOk img i
  addressed : Addressed img s i
  format : type img i = T_DIR → FormatOk img i
  root : i = ROOTINO → RootOk img i

/-- The pass has succeeded. -/
def AfterPass (img : Image) (junk t : Tables) : Prop :=
  nblocks img < 2 ^ 31 ∧ forInt 0 (ninodes img) (checkInode img) (cleared img junk) = .ok t

inductive Uses (img : Image) (junk : Tables) : Arr → Nat → Prop
  | clearBlock {k : Nat} : k < nblocks img → Uses img junk .u_blocks k
  | clearDir {k : Nat} : k < nblocks img → Uses img junk .uind_dir k
  | clearTable {k : Nat} : k < nblocks img → Uses img junk .uind_table k
  | address {s : Tables} {u : Nat → Nat} {i a : Nat} : AtInode img junk s i → TypeOk img i →
      Reaches (checkAddr img) (usedRefs img i) s.u_blocks u a → a ≠ 0 →
      ¬ (a < b_start img ∨ a ≥ size img) → bit img a = true → Uses img junk .u_blocks (a - b_start img)
  | inode {s : Tables} {i : Nat} : AtInode img junk s i → AtCounts img s i → type img i ≠ 0 →
      Uses img junk .uind_table i
  | entry {s : Tables} {d : Nat → Nat} {i o : Nat} : AtInode img junk s i → AtCounts img s i →
      Reaches (countEntry img) (usedDirents img i) s.uind_dir d o → ¬ Skipped img o →
      Uses img junk .uind_dir (inum img o)
  | parent {s : Tables} {d : Nat → Nat} {i : Nat} : AtInode img junk s i → AtCounts img s i →
      (usedDirents img i).foldlM (countEntry img) s.uind_dir = .ok d → type img i = T_DIR → i ≠ 1 →
      Uses img junk .inodes (inum img (place (addrs img i 0) + 16))
  | bit {t : Tables} {l : Nat} : AfterPass img junk t → b_start img ≤ l →
      l < (b_start img + nblocks img) % 2 ^ 32 → Uses img junk .u_blocks (l - b_start img)
  | linkTable {t : Tables} {l : Nat} : AfterPass img junk t → l < ninodes img →
      Uses img junk .uind_table l
  | linkDir {t : Tables} {l : Nat} : AfterPass img junk t → l < ninodes img → Uses img junk .uind_dir l

/-! ## What the image sees to -/

/-- The addresses in a list are good, and different. -/
def GoodRefs (img : Image) (l : List Nat) : Prop :=
  (∀ a ∈ nonzero l, Good img a) ∧ (nonzero l).Nodup

/-- The inodes below `i` pass all checks. -/
structure CleanBelow (img : Image) (i : Nat) : Prop where
  refs : GoodRefs img (refsBelow img i)
  sane : ∀ j < i, Sane img j

/-- At inode `i` the indices are inside. -/
structure InodeInside (img : Image) (i : Nat) : Prop where
  /-- an address that is below `size` and marked is one of the `nblocks` -/
  address : ∀ pre a post, usedRefs img i = pre ++ a :: post → GoodRefs img (refsBelow img i ++ pre) →
    a ≠ 0 → b_start img ≤ a → a < size img → bit img a = true → a < b_start img + nblocks img
  /-- with good addresses and names, an entry that is counted has the number of an inode -/
  entry : GoodRefs img (refsBelow img (i + 1)) → (type img i = T_DIR → FormatOk img i) →
    (i = ROOTINO → RootOk img i) → ∀ o ∈ usedDirents img i, ¬ Skipped img o → inum img o < ninodes img
  /-- and the parent is an inode -/
  parent : GoodRefs img (refsBelow img (i + 1)) → (type img i = T_DIR → FormatOk img i) →
    (i = ROOTINO → RootOk img i) → (∀ o ∈ usedDirents img i, ¬ Skipped img o →
    inum img o < ninodes img) → type img i = T_DIR → i ≠ 1 →
    inum img (place (addrs img i 0) + 16) < ninodes img

structure Inside (img : Image) : Prop where
  clear : nblocks img ≤ ninodes img
  inode : nblocks img < 2 ^ 31 → ∀ i, i < min (ninodes img) (2 ^ 31) → CleanBelow img i →
    TypeOk img i → InodeInside img i

/-! ## Where the program comes to -/

theorem goodRefs_iff : GoodRefs img l ↔ Along (NewGood img) (mark img) (fun _ => 0) l := by
  rw [GoodRefs, along_checkAddr]
  exact and_congr_left' (forall_congr' fun a => forall_congr' fun _ =>
    (and_iff_left Nat.zero_ne_one).symm)

/-- In the state at `i`, a first part of its addresses passes if they are good
with the ones before. -/
theorem goodRefs_append (junk : Tables) : GoodRefs img (refsBelow img i ++ l) ↔
    GoodRefs img (refsBelow img i) ∧
      Along (NewGood img) (mark img) (tablesAt img junk i).u_blocks l := by
  rw [goodRefs_iff, goodRefs_iff, along_append, u_blocks_tablesAt]

theorem refsBelow_succ : refsBelow img (i + 1) = refsBelow img i ++ usedRefs img i := by
  rw [refsBelow, List.range'_concat, List.flatMap_append, List.flatMap_singleton, Nat.zero_add,
    Nat.one_mul]
  rfl

theorem atInode_iff : AtInode img junk s i ↔ nblocks img < 2 ^ 31 ∧ i < min (ninodes img) (2 ^ 31) ∧
    CleanBelow img i ∧ s = tablesAt img junk i := by
  rw [AtInode, reaches_range'_iff, Nat.sub_zero, inodes_ok_iff]
  constructor
  · rintro ⟨hn, -, hi, ⟨hgood, hnd, hsane⟩, hs⟩
    exact ⟨hn, by omega, ⟨⟨hgood, hnd⟩, hsane⟩, hs⟩
  · rintro ⟨hn, hi, ⟨⟨hgood, hnd⟩, hsane⟩, hs⟩
    exact ⟨hn, Nat.zero_le i, by omega, ⟨hgood, hnd, hsane⟩, hs⟩

theorem addressed_iff (h : CleanBelow img i) :
    Addressed img (tablesAt img junk i) i ↔ GoodRefs img (refsBelow img (i + 1)) := by
  rw [refsBelow_succ, goodRefs_append junk, Addressed]
  constructor
  · rintro ⟨u, hu⟩
    exact ⟨h.refs, ((foldlM_ok_iff guards_checkAddr).mp hu).1⟩
  · rintro ⟨-, hal⟩
    exact ⟨_, (foldlM_ok_iff guards_checkAddr).mpr ⟨hal, rfl⟩⟩

theorem counted_iff {d : Nat → Nat} : (∃ d', l.foldlM (countEntry img) d = .ok d') ↔
    ∀ o ∈ l, ¬ Skipped img o → inum img o < ninodes img := by
  simp only [foldlM_ok_iff guards_countEntry, along_const]
  exact ⟨fun h => h.choose_spec.1, fun h => ⟨_, h, rfl⟩⟩

/-- The first entry with a number that is too large is come to. -/
theorem first_outside {d : Nat → Nat} (h : ¬ ∀ o ∈ l, ¬ Skipped img o → inum img o < ninodes img) :
    ∃ d' o, Reaches (countEntry img) l d d' o ∧ ¬ Skipped img o ∧ ¬ inum img o < ninodes img := by
  cases hrun : l.foldlM (countEntry img) d with
  | ok d' => exact absurd (counted_iff.mp ⟨d', hrun⟩) h
  | error e =>
      obtain ⟨o, d', ⟨pre, post, hl, hpre⟩, ho⟩ := foldlM_error hrun
      refine ⟨d', o, ⟨pre, post, hl, hpre⟩, fun hs => ?_, fun hlt => ?_⟩
      · rw [countEntry, if_pos hs] at ho
        cases ho
      · rw [countEntry] at ho
        split at ho
        · cases ho
        · rw [if_neg (by omega)] at ho
          cases ho

/-! ## All indices -/

/-- All indices are inside their arrays just where the image sees to it. -/
theorem uses_inside_iff (img : Image) (junk : Tables) :
    (∀ x k, Uses img junk x k → k < x.length img) ↔ Inside img := by
  constructor
  · intro h
    refine ⟨?_, fun hn i hi hclean htype => ?_⟩
    · by_contra hlt
      exact Nat.lt_irrefl _ (h .uind_dir (ninodes img) (.clearDir (by omega)))
    · have hat : AtInode img junk (tablesAt img junk i) i := atInode_iff.mpr ⟨hn, hi, hclean, rfl⟩
      have hcounts : GoodRefs img (refsBelow img (i + 1)) → (type img i = T_DIR → FormatOk img i) →
          (i = ROOTINO → RootOk img i) → AtCounts img (tablesAt img junk i) i :=
        fun hgood hformat hroot => ⟨htype, (addressed_iff hclean).mpr hgood, hformat, hroot⟩
      refine ⟨fun pre a post hsplit hgood h0 hstart hsize hbit => ?_,
        fun hgood hformat hroot => ?_, fun hgood hformat hroot hin hdir hi => ?_⟩
      · have hpre := (goodRefs_append junk).mp hgood
        have huse := h _ _ (.address hat htype ⟨pre, post, hsplit,
          (foldlM_ok_iff guards_checkAddr).mpr ⟨hpre.2, rfl⟩⟩ h0 (by omega) hbit)
        have hlen : Arr.length img .u_blocks = nblocks img := rfl
        omega
      · by_contra hout
        obtain ⟨d, o, hreach, hskip, hlt⟩ :=
          first_outside (d := (tablesAt img junk i).uind_dir) hout
        exact hlt (h _ _ (.entry hat (hcounts hgood hformat hroot) hreach hskip))
      · obtain ⟨d, hd⟩ := counted_iff (d := (tablesAt img junk i).uind_dir).mpr hin
        exact h _ _ (.parent hat (hcounts hgood hformat hroot) hd hdir hi)
  · intro h x k huse
    cases huse with
    | clearBlock hk => exact hk
    | clearDir hk | clearTable hk => exact Nat.lt_of_lt_of_le hk h.clear
    | address hat htype hreach h0 hrange hbit =>
        obtain ⟨hn, hi, hclean, rfl⟩ := atInode_iff.mp hat
        obtain ⟨pre, post, hsplit, hpre⟩ := hreach
        have hgood := (goodRefs_append junk).mpr
          ⟨hclean.refs, ((foldlM_ok_iff guards_checkAddr).mp hpre).1⟩
        have hlt := (h.inode hn _ hi hclean htype).address pre _ post hsplit hgood h0 (by omega)
          (by omega) hbit
        show _ < nblocks img
        omega
    | inode hat _ _ =>
        obtain ⟨-, hi, -⟩ := atInode_iff.mp hat
        show _ < ninodes img
        omega
    | entry hat hcounts hreach hskip =>
        obtain ⟨hn, hi, hclean, rfl⟩ := atInode_iff.mp hat
        obtain ⟨pre, post, hsplit, -⟩ := hreach
        exact (h.inode hn _ hi hclean hcounts.typeOk).entry
          ((addressed_iff hclean).mp hcounts.addressed) hcounts.format hcounts.root _
          (by rw [hsplit]; exact List.mem_append_right _ (List.mem_cons_self ..)) hskip
    | parent hat hcounts hd hdir hi1 =>
        obtain ⟨hn, hi, hclean, rfl⟩ := atInode_iff.mp hat
        exact (h.inode hn _ hi hclean hcounts.typeOk).parent
          ((addressed_iff hclean).mp hcounts.addressed) hcounts.format hcounts.root
          (counted_iff.mp ⟨_, hd⟩) hdir hi1
    | bit _ hstart hl =>
        have := Nat.mod_le (b_start img + nblocks img) (2 ^ 32)
        show _ < nblocks img
        omega
    | linkTable _ hl | linkDir _ hl => exact hl

/-- An image with the superblock that `mkfs` writes: 1024 blocks, 995 of them for
data, and 200 inodes. -/
def mkfsImage : Image := image [(4, 512, 1024), (4, 516, 995), (4, 520, 200)]

/-- The loop that clears `uind_dir` goes past its end. -/
theorem mkfsImage_outside :
    nblocks mkfsImage + (ninodes mkfsImage / IPB + 3 + size mkfsImage / 4096 + 1) = size mkfsImage ∧
      Uses mkfsImage blank .uind_dir 994 ∧ ¬ 994 < Arr.length mkfsImage .uind_dir :=
  ⟨by decide +kernel, .clearDir (by decide +kernel), by decide +kernel⟩

end Cs537.Fscheck
