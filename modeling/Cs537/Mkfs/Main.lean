/-
# `Cs537.Mkfs.Main` — the image at the end

`main` makes the empty image, the root and all that is in it, and at last the
bitmap.  While the inodes stay in front of the bitmap, the image at the end has
what the tree tells (`main_spec`), and there is an end just for the trees that
there is room for (`main_isSome_iff`).
-/
import Cs537.Mkfs.Room

namespace Cs537.Mkfs

open Cs537.Lib

variable {s s' : St} {B : Nat → Nat → Nat} {n i k used : Nat} {root : Dir} {buf : Mem}

/-! ## The bitmap -/

/-- The bitmap's block. -/
def bitmapSector : Nat := ninodes / IPB + 3

/-- Bit `b` of the bitmap is set. -/
def Marked (img : Mem) (b : Nat) : Prop :=
  (img (bitmapSector * 512 + b / 8)).toNat.testBit (b % 8) = true

theorem usedBits_succ (used : Nat) : St.usedBits (used + 1) =
    (St.usedBits used).put 1 (used / 8) ((St.usedBits used).get 1 (used / 8) ||| 2 ^ (used % 8)) := by
  rw [St.usedBits, List.range_succ, List.foldl_append]
  rfl

/-- The loop of `balloc` sets the bits below `used`. -/
theorem usedBits_testBit (used a : Nat) (hk : k < 8) :
    (St.usedBits used a).toNat.testBit k = decide (8 * a + k < used) := by
  induction used with
  | zero =>
      rw [decide_eq_false (Nat.not_lt_zero _)]
      exact Nat.zero_testBit k
  | succ used ih =>
      rw [usedBits_succ]
      by_cases ha : a = used / 8
      · subst ha
        have hbyte : (St.usedBits used).put 1 (used / 8)
            ((St.usedBits used).get 1 (used / 8) ||| 2 ^ (used % 8)) (used / 8) =
            UInt8.ofNat ((St.usedBits used).get 1 (used / 8) ||| 2 ^ (used % 8)) :=
          (Mem.copy_inside (i := 0) Nat.zero_lt_one).trans
            (by rw [Mem.ofNat, Nat.pow_zero, Nat.div_one])
        have hget : ((St.usedBits used).get 1 (used / 8)).testBit k =
            (St.usedBits used (used / 8)).toNat.testBit k := by
          rw [Mem.testBit_get (by omega), Nat.div_eq_of_lt hk, Nat.mod_eq_of_lt hk, Nat.add_zero]
        rw [hbyte, UInt8.toNat_ofNat', Nat.testBit_mod_two_pow, decide_eq_true hk, Bool.true_and,
          Nat.testBit_or, hget, ih, Nat.testBit_two_pow, ← Bool.decide_or]
        exact decide_eq_decide.mpr (by omega)
      · rw [show Mem.put 1 _ _ _ a = St.usedBits used a from Mem.copy_apart (by omega), ih]
        exact decide_eq_decide.mpr (by omega)

theorem wsect_marked {b : Nat} (hb : b < 512 * 8) :
    Marked (s.wsect .bitmap bitmapSector (St.usedBits used)).img b ↔ b < used := by
  rw [Marked, show (s.wsect .bitmap bitmapSector (St.usedBits used)).img
    (bitmapSector * 512 + b / 8) = St.usedBits used (b / 8) from Mem.copy_inside (by
      simp only [BSIZE]; omega), usedBits_testBit _ _ (Nat.mod_lt b (by decide)), decide_eq_true_iff]
  omega

/-- The bitmap is apart from the inodes and from the data. -/
theorem wsect_apart {a : Nat} (ha : a < bitmapSector * 512 ∨ data * 512 ≤ a) :
    (s.wsect .bitmap bitmapSector buf).img a = s.img a :=
  Mem.copy_apart (ha.imp id fun ha => ha)

theorem dinode_below (hi : i < room) (hk : k < 64) : 1024 + 64 * i + k < bitmapSector * 512 := by
  have hplace : bitmapSector * 512 = 14336 := rfl
  simp only [room] at hi
  omega

theorem wsect_table (hi : i < room) (hk : k < 64) :
    table (s.wsect .bitmap bitmapSector buf).img i k = table s.img i k :=
  wsect_apart (.inl (dinode_below hi hk))

theorem Good.bitmap (h : Good s B) : Good (s.wsect .bitmap bitmapSector buf) B := by
  have hholds := h.ready.holds
  have hdata : ∀ a, data * 512 ≤ a → (s.wsect .bitmap bitmapSector buf).img a = s.img a :=
    fun a ha => wsect_apart (.inr ha)
  refine ⟨⟨⟨?_, hholds.below, hholds.layout.congr (fun i hi j hj => ?_) hdata,
    hholds.stored.congr hholds.layout.placed hdata, hholds.logged.wsect rfl⟩, h.ready.exact,
    h.ready.short⟩, h.positive, h.unused, fun i hi hfree a ha => ?_, h.full⟩
  · show max s.sectors _ = size
    rw [hholds.sectors]
    rfl
  · exact Dinode.addrs_congr (fun a ha => wsect_table hi ha) hj
  · exact (wsect_table hi ha).trans (h.zero i hi hfree a ha)

/-! ## The program -/

theorem blank_zero {t : List Event} {a : Nat} (ha : 1024 ≤ a) : (blank t).img a = 0 :=
  Mem.copy_apart (.inr ha)

theorem good_blank {t : List Event} (ht : ∀ e ∈ t, ∃ sec, e = .write .format sec) :
    Good (blank t) noBlocks := by
  have hfiled : filed (blank t) = noFiles := funext fun i => appended_format ht i
  exact ⟨hfiled ▸ (ready_blank ht).1, Nat.le_refl _, fun i _ => congrFun hfiled i,
    fun i _ _ a _ => blank_zero (by omega), fun b hlo hhi => absurd hhi (Nat.not_lt.mpr hlo)⟩

theorem main_eq : ∃ t, (∀ e ∈ t, ∃ sec, e = .write .format sec) ∧ ∀ root, main root =
    (((blank t).allocated T_DIR).addDir root ROOTINO ROOTINO).bind fun s => s.balloc s.usedblocks := by
  obtain ⟨t, hblank, ht⟩ := mkfs_blank
  refine ⟨t, ht, fun root => ?_⟩
  have hialloc := (good_blank ht).ready.ialloc_eq (t := T_DIR) (by decide : 1 < room)
  rw [main, hblank]
  simp only [Option.bind_eq_bind, Option.bind_some]
  rw [hialloc]
  rfl

/-- The image at the end. -/
structure Finished (root : Dir) (s : St) (B : Nat → Nat → Nat) : Prop where
  good : Good s B
  freeinode : s.freeinode = root.nodes + 2
  freeblock : s.freeblock = data + blocksOf (madeRoot root)
  has : ∀ m ∈ madeRoot root, Has s m
  super : ∀ a < 1024, s.img a = zeroes.copy 512 512 (St.superblock nblocks ninodes size) a
  inode0 : ∀ a < 64, table s.img 0 a = 0
  bitmap : ∀ b < 512 * 8, Marked s.img b ↔ b < s.freeblock

theorem Has.bitmap {m : Made} (h : Has s m) (hm : m.inum < room) :
    Has (s.wsect .bitmap bitmapSector buf) m :=
  h.keeps ⟨rfl, fun _ ha => wsect_table hm ha⟩

/-- The state of the root, before its entries. -/
theorem root_ready {t : List Event} (ht : ∀ e ∈ t, ∃ sec, e = .write .format sec) :
    ∃ B, Good ((blank t).allocated T_DIR) B ∧
      Sized ((blank t).allocated T_DIR) (filed ((blank t).allocated T_DIR)) ROOTINO ∧
      filed ((blank t).allocated T_DIR) ROOTINO = [] ∧
      (table ((blank t).allocated T_DIR).img ROOTINO).type = T_DIR ∧
      (table ((blank t).allocated T_DIR).img ROOTINO).nlink = 1 ∧
      (∀ a < 1024, ((blank t).allocated T_DIR).img a = (blank t).img a) ∧
      ∀ a < 64, table ((blank t).allocated T_DIR).img 0 a = 0 := by
  have hgood := good_blank ht
  have hroom : 1 < room := by decide
  obtain ⟨-, B, hgood₁, hsized₁, hfiled₁, -, -, hkeeps₁, hlow₁, htype₁, hnlink₁⟩ :=
    hgood.ialloc hroom (by decide) (hgood.ready.ialloc_eq (t := T_DIR) hroom)
  refine ⟨B, hgood₁, hsized₁, (congrFun hfiled₁ 1).trans (hgood.unused 1 (Nat.le_refl _)), htype₁,
    hnlink₁, hlow₁, fun a ha => ?_⟩
  exact ((hkeeps₁ 0 Nat.zero_lt_one).2 a ha).trans (blank_zero (Nat.le_add_right _ _))

theorem main_spec (h : main root = some s) (hroom : root.nodes + 2 ≤ room) :
    ∃ B, Finished root s B := by
  obtain ⟨t, ht, heq⟩ := main_eq
  obtain ⟨s₂, hdir, hballoc⟩ := Option.bind_eq_some_iff.mp ((heq root).symm.trans h)
  obtain ⟨B₁, hgood₁, hsized₁, hempty₁, htype₁, hnlink₁, hlow₁, hzero₁⟩ := root_ready ht
  have hfi₁ : ((blank t).allocated T_DIR).freeinode = 2 := rfl
  obtain ⟨B, hgood, hgrew, hfi, hbytes, hsize, hfb, hhas⟩ :=
    inDir_spec (addEntries_spec root) hgood₁ hsized₁ (Nat.lt_succ_self 1) hempty₁ (by omega) hdir
  have hhead := type_of_head hgrew.head
  rw [hfi₁] at hbytes hhas hfi hfb
  rw [hbytes] at hsize
  have hroot : Has s₂ ⟨ROOTINO, .dir (allEntries root ROOTINO ROOTINO 2)⟩ :=
    ⟨hbytes, hhead.1.trans htype₁, hhead.2.trans hnlink₁, hsize⟩
  have hall : ∀ m ∈ madeRoot root, Has s₂ m := List.forall_mem_cons.mpr ⟨hroot, hhas⟩
  rw [St.balloc] at hballoc
  split_ifs at hballoc
  cases hballoc
  have hkeeps : Keeps ((blank t).allocated T_DIR) s₂ 0 :=
    hgrew.others 0 (Nat.zero_lt_succ _) Nat.zero_ne_one
  refine ⟨B, hgood.bitmap, hfi.trans (Nat.add_comm _ _), ?_, fun m hm => (hall m hm).bitmap ?_,
    fun a ha => ?_, fun a ha => ?_, fun b hb => ?_⟩
  · show s₂.freeblock = _
    rw [hfb, hbytes, madeRoot, blocksOf_dir, Nat.add_assoc, Nat.add_comm (blocksOf _)]
    rfl
  · exact Nat.lt_of_lt_of_le (mem_madeRoot hm).2 hroom
  · exact (wsect_apart (.inl (Nat.lt_trans ha (by decide)))).trans
      ((hgrew.low a ha).trans (hlow₁ a ha))
  · exact (wsect_table (by decide) ha).trans ((hkeeps.2 a ha).trans (hzero₁ a ha))
  · show _ ↔ b < s₂.freeblock
    rw [← hgood.ready.holds.logged.used]
    exact wsect_marked hb

/-- There is room for a tree. -/
def Dir.Fits (root : Dir) : Prop :=
  (∀ m ∈ madeRoot root, m.bytes.length ≤ MAXFILE * 512) ∧ data + blocksOf (madeRoot root) ≤ size

theorem main_ok (hroom : root.nodes + 2 ≤ room) (hfits : root.Fits) : ∃ s, main root = some s := by
  obtain ⟨t, ht, heq⟩ := main_eq
  obtain ⟨B₁, hgood₁, hsized₁, hempty₁, -⟩ := root_ready ht
  obtain ⟨hshort, hblocks⟩ := hfits
  rw [madeRoot, blocksOf_dir] at hblocks
  have hfb₁ : ((blank t).allocated T_DIR).freeblock = data := rfl
  have hfi₁ : ((blank t).allocated T_DIR).freeinode = ROOTINO + 1 := rfl
  have hroot : ROOTINO + 1 = 2 := rfl
  obtain ⟨s₂, hdir⟩ := inDir_ok ROOTINO (addEntries_ok root) hgood₁ hsized₁ (Nat.lt_succ_self 1)
    hempty₁ (by omega) (fun m hm => hshort m (List.mem_cons_of_mem _ (hfi₁ ▸ hm)))
    (hshort _ List.mem_cons_self) (by rw [hfi₁, hfb₁]; omega)
  obtain ⟨B, hgood, -⟩ :=
    inDir_spec (addEntries_spec root) hgood₁ hsized₁ (Nat.lt_succ_self 1) hempty₁ (by omega) hdir
  have hused : s₂.usedblocks < 512 * 8 := by
    rw [hgood.ready.holds.logged.used]
    exact Nat.lt_of_le_of_lt hgood.ready.holds.below (by decide)
  exact ⟨_, (heq root).trans (by rw [show St.addDir _ _ _ _ = some s₂ from hdir, Option.bind_some,
    St.balloc, if_pos hused])⟩

/-- With few inodes, the program comes to its end just if there is room. -/
theorem main_isSome_iff (root : Dir) (hroom : root.nodes + 2 ≤ room) :
    (main root).isSome ↔ root.Fits := by
  rw [Option.isSome_iff_exists]
  constructor
  · rintro ⟨s, hs⟩
    obtain ⟨B, h⟩ := main_spec hs hroom
    refine ⟨fun m hm => ?_, h.freeblock ▸ h.good.ready.holds.below⟩
    rw [← (h.has m hm).bytes]
    exact h.good.ready.short _ (Nat.lt_of_lt_of_le (mem_madeRoot hm).2 hroom)
  · exact main_ok hroom

end Cs537.Mkfs
