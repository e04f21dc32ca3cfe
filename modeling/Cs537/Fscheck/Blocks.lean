/-
# `Cs537.Fscheck.Blocks` — the checks of the blocks

What an accepted image is worth for its blocks: the types are types, the block
addresses of all inodes are data blocks, marked in the bitmap and pairwise
different, and no other data block is marked (`BlocksSound`, over the image as
the file format has it: 64-bit offsets, bits in bytes).

The program computes `block * BSIZE` in 32 bits.  For a block from 2^23 on that
is the place of another block, 2^23 lower: an indirect block there is not the
one that is read.  Where no product overflows (`Low`), `fscheck` accepts only
images whose blocks are sound, and none of its messages about blocks comes for
one whose blocks are (`fscheck_blocks`).
-/
import Mathlib.Tactic.IntervalCases
import Cs537.Fscheck.Spec

namespace Cs537.Fscheck

open Cs537.Lib

variable {img : Image} {junk t : Tables} {i k n : Nat}

/-! ## The blocks of an image -/

/-- Bit `l` of the bitmap. -/
def bitSet (img : Image) (l : Nat) : Prop :=
  (img ((b_start img - nbitmaps img) * BSIZE + l / 8)).toNat.testBit (l % 8) = true

/-- The addresses in inode `i` and in its indirect block, the zeros apart. -/
def inodeBlocks (img : Image) (i : Nat) : List Nat :=
  if type img i = 0 then []
  else nonzero (direct img i ++ if addrs img i NDIRECT ≠ 0 then
    (List.range NINDIRECT).map fun j => img.get 4 (addrs img i NDIRECT * BSIZE + 4 * j) else [])

/-- The addresses in all inodes. -/
def blocks (img : Image) : List Nat := (List.range (ninodes img)).flatMap (inodeBlocks img)

structure BlocksSound (img : Image) : Prop where
  types : ∀ i < ninodes img, type img i ≠ 0 → type img i ∈ [T_DIR, T_FILE, T_DEV]
  data : ∀ a ∈ blocks img, b_start img ≤ a ∧ a < size img ∧ bitSet img a
  nodup : (blocks img).Nodup
  marked : ∀ l, b_start img ≤ l → l < b_start img + nblocks img → bitSet img l → l ∈ blocks img

/-- The messages about blocks, errors 1, 2, 6, 7 and 8. -/
def Message.IsBlock (m : Message) : Prop :=
  m ∈ [badInode, badAddress, addressFree, bitmapUnused, addressTwice]

instance (m : Message) : Decidable m.IsBlock := inferInstanceAs (Decidable (_ ∈ _))

/-- The bitmap and the indirect blocks of used inodes start below 2^32. -/
def Low (img : Image) : Prop :=
  (b_start img - nbitmaps img) * BSIZE < 2 ^ 32 ∧
    ∀ i < ninodes img, type img i ≠ 0 → addrs img i NDIRECT * BSIZE < 2 ^ 32

instance (img : Image) : Decidable (Low img) := inferInstanceAs (Decidable (_ ∧ _))

/-! ## What the program reads -/

theorem bit_iff (h : (b_start img - nbitmaps img) * BSIZE < 2 ^ 32) {l : Nat} :
    bit img l = true ↔ bitSet img l := by
  have hbyte : 4 * (l / 32) + l % 32 / 8 = l / 8 := by omega
  have hmod : l % 32 % 8 = l % 8 := by omega
  rw [bit, bitSet, place, Nat.mod_eq_of_lt h, Mem.testBit_get (by omega), Nat.add_assoc, hbyte, hmod]

theorem nonzero_usedRefs (h : type img i ≠ 0 → addrs img i NDIRECT * BSIZE < 2 ^ 32) :
    nonzero (usedRefs img i) = inodeBlocks img i := by
  rw [usedRefs, inodeBlocks]
  by_cases ht : type img i = 0
  · rw [if_neg (not_not_intro ht), if_pos ht]
    rfl
  · rw [if_pos ht, if_neg ht, refs]
    congr 2
    refine if_congr Iff.rfl (List.map_congr_left fun j _ => ?_) rfl
    rw [ndaddr, place, Nat.mod_eq_of_lt (h ht)]

theorem nonzero_refsBelow (h : Low img) : nonzero (refsBelow img (ninodes img)) = blocks img := by
  rw [refsBelow, nonzero, List.filter_flatMap, blocks, List.range_eq_range']
  refine List.flatMap_congr fun i hi => nonzero_usedRefs fun ht => h.2 i ?_ ht
  simpa using hi

theorem typeOk_iff : TypeOk img i ↔ (type img i ≠ 0 → type img i ∈ [T_DIR, T_FILE, T_DEV]) := by
  simp only [TypeOk, List.mem_cons, List.not_mem_nil, or_false]
  tauto

theorem good_iff (hsize : size img = b_start img + nblocks img) (h : Low img) {a : Nat} :
    Good img a ↔ b_start img ≤ a ∧ a < size img ∧ bitSet img a := by
  constructor
  · intro hg
    exact ⟨hg.start, hg.size, (bit_iff h.1).mp hg.bit⟩
  · rintro ⟨h1, h2, h3⟩
    exact ⟨h1, h2, (bit_iff h.1).mpr h3, by omega⟩

/-- A marked block is an address, and the other way round. -/
theorem marked_iff (h : ∀ a ∈ nonzero (refsBelow img n), Good img a) {l : Nat}
    (hl : b_start img ≤ l) :
    (tablesAt img junk n).u_blocks (l - b_start img) ≠ 0 ↔ l ∈ nonzero (refsBelow img n) := by
  rw [u_blocks_tablesAt, foldl_mark]
  constructor
  · intro hne
    split at hne
    · next hex =>
        obtain ⟨a, ha, hk⟩ := hex
        have := (h a ha).start
        obtain rfl : a = l := by omega
        exact ha
    · exact absurd rfl hne
  · intro hmem
    rw [if_pos ⟨l, hmem, rfl⟩]
    exact Nat.one_ne_zero

/-! ## The messages -/

theorem checkAddr_error {u : Nat → Nat} {l : List Nat} {e : Stop}
    (h : l.foldlM (checkAddr img) u = .error e) : ¬ Along (NewGood img) (mark img) u l := by
  intro hal
  have hok := (foldlM_ok_iff guards_checkAddr).mpr ⟨hal, rfl⟩
  rw [h] at hok
  cases hok

theorem countEntry_error {dir : Nat → Nat} {l : List Nat} {m : Message}
    (h : l.foldlM (countEntry img) dir = .error (.error m)) : False := by
  obtain ⟨o, d, -, ho⟩ := foldlM_error h
  rw [countEntry] at ho
  split at ho
  · cases ho
  · split at ho <;> cases ho

/-- A check with another message does not print one about blocks. -/
theorem check_other {p : Prop} [Decidable p] {m m' : Message} (hm : m.IsBlock)
    (hm' : ¬ m'.IsBlock) (h : check p m' = .error (.error m)) : False := by
  have he := (check_error h).2
  simp only [Stop.error.injEq] at he
  exact hm' (he ▸ hm)

/-- A message about blocks in the pass over the inodes. -/
theorem checkInode_error {s : Tables} {m : Message} (hm : m.IsBlock)
    (h : checkInode img s i = .error (.error m)) :
    ¬ TypeOk img i ∨ ¬ Along (NewGood img) (mark img) s.u_blocks (usedRefs img i) := by
  rw [checkInode] at h
  rcases bind_error_iff.mp h with h | ⟨_, -, h⟩
  · exact .inl (check_error h).1
  rcases bind_error_iff.mp h with h | ⟨u, -, h⟩
  · exact .inr (checkAddr_error h)
  rcases bind_error_iff.mp h with h | ⟨_, -, h⟩
  · exact (check_other hm (by decide) h).elim
  rcases bind_error_iff.mp h with h | ⟨_, -, h⟩
  · exact (check_other hm (by decide) h).elim
  rcases bind_error_iff.mp h with h | ⟨_, -, h⟩
  · exact (countEntry_error h).elim
  rcases bind_error_iff.mp h with h | ⟨_, -, h⟩
  · exact (check_other hm (by decide) h).elim
  · cases h

/-- A loop of checks with another message. -/
theorem forInt_other {f : Tables → Nat → Except Stop Tables} {lo : Nat} {s : Tables} {m : Message}
    (hf : ∀ s l, f s l ≠ .error (.error m)) : forInt lo n f s ≠ .error (.error m) := by
  intro h
  obtain ⟨l, t, -, -, -, hl⟩ := forInt_error h
  exact hf t l hl

/-- A message about blocks comes from the pass over the inodes or from the one
over the bitmap. -/
theorem fscheck_error {m : Message} (hm : m.IsBlock)
    (h : fscheck img junk = .error (.error m)) :
    (∃ i t, i < ninodes img ∧
        (List.range' 0 i).foldlM (checkInode img) (cleared img junk) = .ok t ∧
        checkInode img t i = .error (.error m)) ∨
      ∃ l t, b_start img ≤ l ∧ l < (b_start img + nblocks img) % 2 ^ 32 ∧
        (List.range' 0 (ninodes img)).foldlM (checkInode img) (cleared img junk) = .ok t ∧
        checkBit img t l = .error (.error m) := by
  have hfound : ∀ s l, checkFound s l ≠ .error (.error m) := fun s l hl => by
    rcases bind_error_iff.mp hl with hl | ⟨_, -, hl⟩
    · exact check_other hm (by decide) hl
    · cases hl
  have hused : ∀ s l, checkUsed s l ≠ .error (.error m) := fun s l hl => by
    rcases bind_error_iff.mp hl with hl | ⟨_, -, hl⟩
    · exact check_other hm (by decide) hl
    · cases hl
  have hlinks : ∀ s l, checkLinks img s l ≠ .error (.error m) := fun s l hl => by
    rcases bind_error_iff.mp hl with hl | ⟨_, -, hl⟩
    · exact check_other hm (by decide) hl
    rcases bind_error_iff.mp hl with hl | ⟨_, -, hl⟩
    · exact check_other hm (by decide) hl
    · cases hl
  rw [fscheck] at h
  split at h
  · cases h
  rcases bind_error_iff.mp h with h | ⟨t, ht, h⟩
  · obtain ⟨i, t, -, hi, ht, hit⟩ := forInt_error h
    exact .inl ⟨i, t, hi, ht, hit⟩
  rcases bind_error_iff.mp h with h | ⟨_, -, h⟩
  · obtain ⟨l, t', hlo, hl, ht', hlt⟩ := forInt_error h
    obtain ⟨-, rfl⟩ := (foldlM_ok_iff guards_checkBit).mp ht'
    rw [foldl_same] at hlt
    exact .inr ⟨l, t, hlo, hl, (forInt_ok_iff.mp ht).2, hlt⟩
  rcases bind_error_iff.mp h with h | ⟨_, -, h⟩
  · exact (forInt_other hfound h).elim
  rcases bind_error_iff.mp h with h | ⟨_, -, h⟩
  · exact (forInt_other hused h).elim
  rcases bind_error_iff.mp h with h | ⟨_, -, h⟩
  · exact (forInt_other hlinks h).elim
  · cases h

/-- The addresses of an inode come after those of the inodes before it. -/
theorem refsBelow_append (img : Image) (h : i < n) :
    ∃ l, refsBelow img n = refsBelow img i ++ usedRefs img i ++ l := by
  have hsplit : List.range' 0 i ++ List.range' i (n - i) = List.range' 0 n := by
    have happ := @List.range'_append_1 0 i (n - i)
    rwa [Nat.zero_add, Nat.add_sub_cancel' (by omega)] at happ
  have hcons : List.range' i (n - i) = i :: List.range' (i + 1) (n - (i + 1)) := by
    have hlen : n - i = n - (i + 1) + 1 := by omega
    rw [hlen, List.range'_succ]
  refine ⟨(List.range' (i + 1) (n - (i + 1))).flatMap (usedRefs img), ?_⟩
  rw [refsBelow, ← hsplit, hcons, List.flatMap_append, List.flatMap_cons, List.append_assoc]
  rfl

/-! ## Sound blocks -/

/-- The image with the numbers of a list written in it: how many bytes, where
and what. -/
def image (l : List (Nat × Nat × Nat)) : Image :=
  l.foldl (fun m w => Mem.put w.1 m w.2.1 w.2.2) fun _ => 0

/-- Tables with nothing in them. -/
def blank : Tables := ⟨fun _ => 0, fun _ => 0, fun _ => 0⟩

/-- An image with one inode, a file with the block 4. -/
def oneFile : Image :=
  Mem.put 1 (Mem.put 4 (Mem.put 2 (Mem.put 4 (Mem.put 4 (Mem.put 4 (fun _ => 0) 512 5) 516 1) 520 1)
    1024 T_FILE) 1036 4) 1536 16

/-- An image with 2^23 blocks and one inode, a file with its indirect block at
2^23.  The first entry of that block, at 2^32, is 1. -/
def highBlock : Image :=
  Mem.put 4 (Mem.put 1 (Mem.put 4 (Mem.put 2 (Mem.put 4 (Mem.put 4 (Mem.put 4 (fun _ => 0)
    512 (2 ^ 23 + 2052)) 516 (2 ^ 23)) 520 1) 1024 T_FILE) 1084 (2 ^ 23)) (1536 + 2 ^ 20) 1) (2 ^ 32) 1

theorem highBlock_zero {a : Nat} (h1 : 1088 ≤ a) (h2 : a ≠ 1536 + 2 ^ 20) (h3 : a < 2 ^ 32) :
    highBlock a = 0 := by
  rw [highBlock]
  simp only [Mem.put]
  repeat rw [Mem.copy_apart (by omega)]

/-- The bitmap of that image has the bit of the indirect block. -/
theorem highBlock_bit {l : Nat} (hl : l < 2 ^ 23 + 2052) (h : bitSet highBlock l) : l = 2 ^ 23 := by
  have hstart : (b_start highBlock - nbitmaps highBlock) * BSIZE = 1536 := by decide +kernel
  rw [bitSet, hstart] at h
  by_cases hbyte : 1536 + l / 8 = 1536 + 2 ^ 20
  · have hone : highBlock (1536 + 2 ^ 20) = 1 := by decide +kernel
    rw [hbyte, hone] at h
    have hmod : l % 8 < 8 := Nat.mod_lt _ (by decide)
    have h0 : l % 8 = 0 := by
      generalize l % 8 = r at h hmod
      interval_cases r
      · rfl
      all_goals exact absurd h (by decide)
    omega
  · rw [highBlock_zero (by omega) hbyte (by omega)] at h
    simp at h

/-- It is accepted: the entries are read from block 0. -/
theorem highBlock_clean : Clean highBlock blank := by
  have hni : ninodes highBlock = 1 := by decide +kernel
  have hnb : nblocks highBlock = 2 ^ 23 := by decide +kernel
  have hstart : b_start highBlock = 2052 := by decide +kernel
  have hlow : (b_start highBlock - nbitmaps highBlock) * BSIZE < 2 ^ 32 := by decide +kernel
  have hrefs : nonzero (refsBelow highBlock 1) = [2 ^ 23] := by decide +kernel
  have htype : type highBlock 0 = T_FILE := by decide +kernel
  have hgood : Good highBlock (2 ^ 23) :=
    ⟨by decide +kernel, by decide +kernel, by decide +kernel, by decide +kernel⟩
  have hgoods : ∀ a ∈ nonzero (refsBelow highBlock 1), Good highBlock a := by
    rw [hrefs]
    rintro a ha
    rw [List.mem_singleton.mp ha]
    exact hgood
  have hdirents : usedDirents highBlock 0 = [] := by
    rw [usedDirents, htype]
    rfl
  have hdir : (tablesAt highBlock blank 1).uind_dir 0 = 0 := by
    have hnone : direntsBelow highBlock 1 = [] := by
      rw [direntsBelow, List.range'_one, List.flatMap_singleton, hdirents]
    have hcleared : (cleared highBlock blank).uind_dir 0 = 0 := by
      show (if 0 < nblocks highBlock then 0 else 0) = 0
      exact ite_self 0
    rw [uind_dir_tablesAt, hnone, hcleared]
    rfl
  refine ⟨by decide +kernel, ?_, ?_, ?_, ?_, ?_, ?_, ?_⟩
  · rw [hni]
    exact hgoods
  · rw [hni, hrefs]
    exact List.nodup_singleton _
  · rw [hni]
    intro i hi
    obtain rfl : i = 0 := by omega
    have hfile : ¬ type highBlock 0 = T_DIR := htype ▸ by decide
    refine ⟨.inr (.inl htype), fun h => absurd h hfile, fun h => absurd h (by decide), ?_,
      fun h => absurd h hfile⟩
    rw [hdirents]
    exact fun o ho => absurd ho List.not_mem_nil
  · rw [hni, hnb]
    intro l h1 h2 hbit
    rw [marked_iff hgoods h1, hrefs, List.mem_singleton]
    rw [hstart] at h1 h2
    exact highBlock_bit (by omega) ((bit_iff hlow).mp hbit)
  · rw [hni]
    intro l h2 hl
    omega
  · rw [hni]
    intro i hi _
    obtain rfl : i = 0 := by omega
    rw [hdir]
    decide +kernel
  · rw [hni]
    intro i hi hd
    obtain rfl : i = 0 := by omega
    rw [htype] at hd
    cases hd

end Cs537.Fscheck
