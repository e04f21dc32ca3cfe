/-
# `Cs537.Mkfs.Checked` — the checker on the image of `mkfs`

`fscheck` takes the image that `mkfs` has made of a tree just if the entries that
it counts are those of the inodes that it goes over (`main_fscheck`).  With less
files and directories than `ninodes` this means that no name begins with a dot:
the checker passes such entries by, as it does with `.` and `..`.
-/
import Cs537.Mkfs.Entries
import Cs537.Mkfs.Regions

namespace Cs537.Mkfs

open Cs537.Lib

variable {root : Dir} {s : St} {B : Nat → Nat → Nat} {i k l : Nat} {m : Made} {junk : Fscheck.Tables}

/-! ## The superblock -/

namespace Finished

theorem field (h : Finished root s B) {o : Nat} (ho : o + 4 ≤ 512) :
    s.img.get 4 (512 + o) = (St.superblock nblocks ninodes size).get 4 o :=
  (Mem.get_congr fun t ht => h.super _ (by omega)).trans (Mem.get_copy_inside ho)

theorem fscheck_size (h : Finished root s B) : Fscheck.size s.img = size := by
  have hfield := h.field (o := 0) (by decide)
  exact hfield.trans (St.superblock_size (by decide))

theorem fscheck_nblocks (h : Finished root s B) : Fscheck.nblocks s.img = nblocks := by
  have hfield := h.field (o := 4) (by decide)
  exact hfield.trans (St.superblock_nblocks (by decide))

theorem fscheck_ninodes (h : Finished root s B) : Fscheck.ninodes s.img = ninodes := by
  have hfield := h.field (o := 8) (by decide)
  exact hfield.trans (St.superblock_ninodes (by decide))

theorem fscheck_nbitmaps (h : Finished root s B) : Fscheck.nbitmaps s.img = 1 := by
  rw [Fscheck.nbitmaps, h.fscheck_nblocks]
  rfl

theorem fscheck_b_start (h : Finished root s B) : Fscheck.b_start s.img = data := by
  rw [Fscheck.b_start, Fscheck.nind_blocks, h.fscheck_ninodes, h.fscheck_nbitmaps]
  rfl

/-! ## The inodes -/

/-- An inode that was not handed out. -/
theorem blank (h : Finished root s B) (hi : i < room) (hfree : i = 0 ∨ root.nodes + 2 ≤ i) :
    ∀ a < 64, table s.img i a = 0 := by
  rcases hfree with rfl | hfree
  · exact h.inode0
  · exact h.good.zero i hi (h.freeinode ▸ hfree)

theorem blank_get (h : Finished root s B) (hi : i < room) (hfree : i = 0 ∨ root.nodes + 2 ≤ i)
    {o : Nat} (ho : o + k ≤ 64) : (table s.img i).get k o = 0 :=
  Mem.get_zero fun t ht => h.blank hi hfree _ (by omega)

theorem blank_type (h : Finished root s B) (hi : i < room) (hfree : i = 0 ∨ root.nodes + 2 ≤ i) :
    Fscheck.type s.img i = 0 :=
  (fscheck_type _ _).trans (h.blank_get hi hfree (by decide))

theorem made_type (h : Finished root s B) (hm : m ∈ madeRoot root) :
    Fscheck.type s.img m.inum = m.type := (fscheck_type _ _).trans (h.has m hm).type

theorem made_nlink (h : Finished root s B) (hm : m ∈ madeRoot root) :
    Fscheck.nlink s.img m.inum = 1 := (fscheck_nlink _ _).trans (h.has m hm).nlink

end Finished

/-- An inode is made, or it is zero. -/
theorem made_or_blank (root : Dir) (i : Nat) :
    (∃ m ∈ madeRoot root, m.inum = i) ∨ i = 0 ∨ root.nodes + 2 ≤ i := by
  by_cases hin : 1 ≤ i ∧ i < root.nodes + 2
  · exact .inl (exists_made hin.1 hin.2)
  · exact .inr (by omega)

theorem made_type_ne_zero (m : Made) : m.type ≠ 0 := by
  cases m with
  | mk inum kind => cases kind <;> exact Nat.succ_ne_zero _

namespace Finished

/-- A used inode is one that was made. -/
theorem used_iff (h : Finished root s B) (hi : i < room) :
    Fscheck.type s.img i ≠ 0 ↔ 1 ≤ i ∧ i < root.nodes + 2 := by
  rcases made_or_blank root i with ⟨m, hm, rfl⟩ | hfree
  · rw [h.made_type hm]
    exact iff_of_true (made_type_ne_zero m) (mem_madeRoot hm)
  · exact iff_of_false (not_not.mpr (h.blank_type hi hfree)) (by omega)

/-! ## The blocks -/

/-- The addresses in an inode, as the checker and as `refs` has them. -/
theorem inodeBlocks (h : Finished root s B) (hi : i < room) :
    Fscheck.inodeBlocks s.img i = refs s.img i := by
  have haddrs : Fscheck.addrs s.img i = (table s.img i).addrs := funext fun j => fscheck_addrs _ _ j
  rcases made_or_blank root i with ⟨m, hm, rfl⟩ | hfree
  · rw [Fscheck.inodeBlocks, if_neg (h.made_type hm ▸ made_type_ne_zero m), Fscheck.direct, haddrs]
    rfl
  · have hzero : ∀ j ≤ NDIRECT, (table s.img i).addrs j = 0 := fun j hj =>
      h.blank_get hi hfree (by simp only [NDIRECT] at hj; omega)
    rw [Fscheck.inodeBlocks, if_pos (h.blank_type hi hfree), refs,
      if_neg (not_not.mpr (hzero _ (Nat.le_refl _))), List.append_nil]
    refine (List.filter_eq_nil_iff.mpr fun a ha => ?_).symm
    obtain ⟨j, hj, rfl⟩ := List.mem_map.mp ha
    rw [hzero j (Nat.le_of_lt_succ (List.mem_range.mp hj))]
    decide

theorem below (h : Finished root s B) {j : Nat} (hi : i < room) (hj : j ≤ MAXFILE) : B i j < size := by
  by_cases hne : B i j = 0
  · rw [hne]
    decide
  · exact Nat.lt_of_lt_of_le (h.good.ready.holds.layout.placed.range i hi j hj hne).2
      h.good.ready.holds.below

theorem low (h : Finished root s B) : Fscheck.Low s.img := by
  refine ⟨?_, fun i hi _ => ?_⟩
  · rw [h.fscheck_b_start, h.fscheck_nbitmaps]
    decide
  · have hi' : i < room := Nat.lt_of_lt_of_le (h.fscheck_ninodes ▸ hi) ninodes_le
    have hind : Fscheck.addrs s.img i Fscheck.NDIRECT = B i MAXFILE :=
      (fscheck_addrs _ _ _).trans (h.good.ready.holds.layout.indirect i hi')
    rw [hind]
    exact Nat.lt_of_lt_of_le (Nat.mul_lt_mul_of_pos_right (h.below hi' (Nat.le_refl _)) (by decide))
      (by decide)

theorem blocks (h : Finished root s B) : Fscheck.nonzero (Fscheck.refsBelow s.img ninodes) =
    (List.range ninodes).flatMap (refs s.img) := by
  have heq := Fscheck.nonzero_refsBelow h.low
  rw [Fscheck.blocks, h.fscheck_ninodes] at heq
  rw [heq]
  exact List.flatMap_congr fun i hi =>
    h.inodeBlocks (Nat.lt_of_lt_of_le (List.mem_range.mp hi) ninodes_le)

theorem bitSet_iff (h : Finished root s B) (hl : l < 512 * 8) :
    Fscheck.bitSet s.img l ↔ l < s.freeblock := by
  rw [← h.bitmap l hl, Fscheck.bitSet, h.fscheck_b_start, h.fscheck_nbitmaps]
  rfl

theorem bit_iff (h : Finished root s B) (hl : l < size) :
    Fscheck.bit s.img l = true ↔ l < s.freeblock :=
  (Fscheck.bit_iff h.low.1).trans (h.bitSet_iff (Nat.lt_trans hl (by decide)))

theorem good_refs (h : Finished root s B) :
    ∀ a ∈ (List.range ninodes).flatMap (refs s.img), Fscheck.Good s.img a := by
  intro a ha
  obtain ⟨i, hi, ha⟩ := List.mem_flatMap.mp ha
  have hi' : i < room := Nat.lt_of_lt_of_le (List.mem_range.mp hi) ninodes_le
  obtain ⟨j, hj, hne, rfl⟩ := h.good.ready.mem_refs hi' ha
  obtain ⟨hlow, hhigh⟩ := h.good.ready.holds.layout.placed.range i hi' j hj hne
  have hsize := h.below hi' hj
  refine ⟨h.fscheck_b_start ▸ hlow, h.fscheck_size ▸ hsize, (h.bit_iff hsize).mpr hhigh, ?_⟩
  rw [h.fscheck_b_start, h.fscheck_nblocks, nblocks]
  rw [size] at hsize
  rw [data] at *
  omega

end Finished

/-- The inodes that the checker does not come to have no blocks. -/
def Dir.Spare (root : Dir) : Prop := ∀ m ∈ madeRoot root, ninodes ≤ m.inum → m.bytes = []

namespace Finished

/-- No other block is marked just if the inodes from `ninodes` on have none. -/
theorem marked_iff (h : Finished root s B) (hroom : root.nodes + 2 ≤ room) :
    (∀ l, data ≤ l → l < size → Fscheck.bit s.img l = true →
      l ∈ (List.range ninodes).flatMap (refs s.img)) ↔ root.Spare := by
  have hready := h.good.ready
  have hfb := hready.holds.below
  constructor
  · intro hmarked m hm hspare
    by_contra hne
    -- its first block is marked, and no inode below `ninodes` has it
    have hinum : m.inum < room := Nat.lt_of_lt_of_le (mem_madeRoot hm).2 hroom
    have hfirst : B m.inum 0 ≠ 0 := by
      refine (hready.exact _ hinum 0 (Nat.zero_le _)).mpr ?_
      rw [(h.has m hm).bytes]
      exact List.length_pos_iff.mpr hne
    obtain ⟨hlow, hhigh⟩ := hready.holds.layout.placed.range _ hinum 0 (Nat.zero_le _) hfirst
    have hsize : B m.inum 0 < size := Nat.lt_of_lt_of_le hhigh hfb
    obtain ⟨i, hi, hmem⟩ := List.mem_flatMap.mp (hmarked _ hlow hsize ((h.bit_iff hsize).mpr hhigh))
    rw [List.mem_range] at hi
    have hi' : i < room := Nat.lt_of_lt_of_le hi ninodes_le
    obtain ⟨j, hj, -, heq⟩ := hready.mem_refs hi' hmem
    have hsame := (hready.holds.layout.placed.inj _ hinum 0 (Nat.zero_le _) i hi' j hj hfirst heq).1
    omega
  · intro hspare l hlow hsize hbit
    obtain ⟨i, hi, j, hj, rfl⟩ := h.good.full l hlow ((h.bit_iff hsize).mp hbit)
    have hne : B i j ≠ 0 := Nat.ne_of_gt (Nat.lt_of_lt_of_le (by decide) hlow)
    refine List.mem_flatMap.mpr ⟨i, List.mem_range.mpr ?_, hready.refs_mem hi hj hne⟩
    by_contra hge
    have hempty : filed s i = [] := by
      rcases made_or_blank root i with ⟨m, hm, rfl⟩ | rfl | hfree
      · exact (h.has m hm).bytes.trans (hspare m hm (Nat.le_of_not_lt hge))
      · exact absurd (by decide) hge
      · exact h.good.unused i (h.freeinode ▸ hfree)
    have hneeded := (hready.exact i hi j hj).mp hne
    rw [hempty] at hneeded
    exact Nat.not_lt_zero _ hneeded

end Finished

/-! ## The entries -/

theorem kind_of_dir (hdir : m.type = T_DIR) : ∃ es, m.kind = .dir es := by
  cases hk : m.kind with
  | file bytes =>
      rw [Made.type, hk] at hdir
      exact absurd hdir.symm T_DIR_ne
  | dir es => exact ⟨es, rfl⟩

theorem refs_empty (h : m.bytes = []) : m.refs = [] := by
  cases hk : m.kind with
  | file bytes => rw [Made.refs, hk]
  | dir es =>
      rw [Made.bytes, hk] at h
      have hbytes : entryBytes es = [] := h
      have hlen := length_entryBytes es
      rw [hbytes, List.length_nil] at hlen
      rw [Made.refs, hk, List.eq_nil_of_length_eq_zero (by omega : es.length = 0)]
      rfl

/-- The entries of the directories that are made, as `Lists`. -/
theorem Finished.lists (h : Finished root s B) (hroom : root.nodes + 2 ≤ room)
    (hm : m ∈ madeRoot root) {es : List (Nat × List UInt8)} (hes : m.kind = .dir es) :
    Lists (filed s) m.inum es := by
  obtain ⟨hlen, hnum⟩ := madeRoot_bounded root m hm es hes
  have hroom' : room = 208 := rfl
  refine ⟨Nat.lt_of_lt_of_le (mem_madeRoot hm).2 hroom, ?_, by omega, fun e he => ?_⟩
  · rw [(h.has m hm).bytes, Made.bytes, hes]
  · have hlt := hnum e he
    rw [ROOTINO] at hlt
    omega

namespace Finished

/-- The numbers that the checker counts for an inode that is made. -/
theorem count_made (h : Finished root s B) (hroom : root.nodes + 2 ≤ room) (hm : m ∈ madeRoot root)
    (hk : k ≠ 0) : (Fscheck.inums s.img (Fscheck.usedDirents s.img m.inum)).count k =
      m.refs.count k := by
  cases hkind : m.kind with
  | file bytes =>
      have htype : Fscheck.type s.img m.inum ≠ Fscheck.T_DIR := by
        rw [h.made_type hm, Made.type, hkind]
        exact T_DIR_ne.symm
      rw [Fscheck.usedDirents, if_neg htype, Made.refs, hkind]
      rfl
  | dir es =>
      have htype : Fscheck.type s.img m.inum = Fscheck.T_DIR := by
        rw [h.made_type hm, Made.type, hkind]
        rfl
      have hn : 0 < Fscheck.ninodes s.img := h.fscheck_ninodes ▸ by decide
      rw [Fscheck.usedDirents, if_pos htype, Made.refs, hkind,
        (h.lists hroom hm hkind).inums h.good.ready hn, List.count_append, List.count_replicate,
        if_neg (by simpa using hk.symm), Nat.add_zero]

/-- In all, the checker counts the named inodes. -/
theorem counted (h : Finished root s B) (hroom : root.nodes + 2 ≤ room) (hspare : root.Spare)
    (hk : k ≠ 0) : (Fscheck.inums s.img (Fscheck.direntsBelow s.img ninodes)).count k =
      (named root (ROOTINO + 1)).count k := by
  let c : Nat → Nat := fun i => (Fscheck.inums s.img (Fscheck.usedDirents s.img i)).count k
  have hmade : ∀ m ∈ madeRoot root, c m.inum = m.refs.count k := fun m hm =>
    h.count_made hroom hm hk
  have hfree : ∀ i < room, i = 0 ∨ root.nodes + 2 ≤ i → c i = 0 := fun i hi hfree => by
    show (Fscheck.inums s.img (Fscheck.usedDirents s.img i)).count k = 0
    rw [Fscheck.usedDirents, h.blank_type hi hfree]
    rfl
  have hlast : ∀ i < room, ninodes ≤ i → c i = 0 := fun i hi hlast => by
    rcases made_or_blank root i with ⟨m, hm, rfl⟩ | hblank
    · rw [hmade m hm, refs_empty (hspare m hm hlast), List.count_nil]
    · exact hfree i hi hblank
  have hbelow : (Fscheck.inums s.img (Fscheck.direntsBelow s.img ninodes)).count k =
      ((List.range ninodes).map c).sum := by
    rw [Fscheck.direntsBelow, Fscheck.inums, List.filter_flatMap, List.map_flatMap,
      List.count_flatMap, List.range_eq_range']
    rfl
  calc (Fscheck.inums s.img (Fscheck.direntsBelow s.img ninodes)).count k
      = ((List.range ninodes).map c).sum := hbelow
    _ = ((List.range room).map c).sum := by
        rw [List.range_eq_range']
        exact (sum_support ((Nat.zero_add _).trans_le ninodes_le)
          fun i hi hout => hlast i hi (by omega)).symm
    _ = ((List.range' 1 (root.nodes + 1)).map c).sum :=
        sum_support (by omega) fun i hi hout => hfree i hi (by omega)
    _ = (((madeRoot root).map Made.inum).map c).sum := by rw [madeRoot_inums]
    _ = ((madeRoot root).map fun m => m.refs.count k).sum := by
        rw [List.map_map]
        exact congrArg List.sum (List.map_congr_left hmade)
    _ = ((madeRoot root).flatMap Made.refs).count k := by
        rw [List.count_flatMap]
        rfl
    _ = (named root (ROOTINO + 1)).count k := count_madeRoot root k

end Finished

theorem mem_inums {img : Fscheck.Image} {l : List Nat} {x : Nat} :
    x ∈ Fscheck.inums img l ↔ ∃ o ∈ l, ¬ Fscheck.Skipped img o ∧ Fscheck.inum img o = x := by
  simp only [Fscheck.inums, List.mem_map, List.mem_filter, decide_eq_true_eq, and_assoc]

namespace Finished

theorem mem_inums_made (h : Finished root s B) (hroom : root.nodes + 2 ≤ room)
    (hm : m ∈ madeRoot root) (hk : k ≠ 0) :
    k ∈ Fscheck.inums s.img (Fscheck.usedDirents s.img m.inum) ↔ k ∈ m.refs := by
  rw [← List.count_pos_iff, ← List.count_pos_iff, h.count_made hroom hm hk]

/-! ## The directories -/

/-- The first block of a directory. -/
theorem first_place (h : Finished root s B) (hi : i < room) :
    Fscheck.place (Fscheck.addrs s.img i 0) = B i 0 * 512 := by
  have haddr : Fscheck.addrs s.img i 0 = B i 0 :=
    (fscheck_addrs _ _ _).trans (h.good.ready.holds.layout.direct i hi 0 (by decide))
  rw [haddr, fscheck_place (h.below hi (Nat.zero_le _))]

/-- A directory begins with its own entry and its parent's. -/
theorem starts (h : Finished root s B) (hroom : root.nodes + 2 ≤ room) (hm : m ∈ madeRoot root)
    {parent : Nat} (hstarts : Starts m parent) : Fscheck.FormatOk s.img m.inum ∧
      Fscheck.inum s.img (Fscheck.place (Fscheck.addrs s.img m.inum 0)) = m.inum ∧
      Fscheck.inum s.img (Fscheck.place (Fscheck.addrs s.img m.inum 0) + 16) = parent := by
  obtain ⟨es, hes⟩ := hstarts
  have hlists := h.lists hroom hm hes
  have hready := h.good.ready
  have hplaces : 1 < places ((m.inum, dot) :: (parent, dotdot) :: es).length := by
    simp only [places, List.length_cons]
    omega
  have hfirst := h.first_place hlists.inode
  rw [Fscheck.FormatOk, hfirst, ← entryPlace_one, ← entryPlace_zero]
  have hzero : 0 < places ((m.inum, dot) :: (parent, dotdot) :: es).length := Nat.lt_of_succ_lt hplaces
  refine ⟨⟨hlists.byte hready hzero (by decide : 2 < 16), ?_, ?_⟩, hlists.inum hready hzero,
    hlists.inum hready hplaces⟩
  · exact hlists.byte hready hplaces (by decide : 2 < 16)
  · exact hlists.byte hready hplaces (by decide : 3 < 16)

/-- The entries that the checker looks for a child in. -/
theorem parentEntries (h : Finished root s B) (hroom : root.nodes + 2 ≤ room)
    (hm : m ∈ madeRoot root) (hdir : m.type = T_DIR) :
    Fscheck.parentEntries s.img i m.inum = Fscheck.usedDirents s.img m.inum := by
  obtain ⟨es, hes⟩ := kind_of_dir hdir
  have hlists := h.lists hroom hm hes
  have hlast := h.good.ready.no_indirect hlists.inode hlists.direct
  have htype : Fscheck.type s.img m.inum = Fscheck.T_DIR := (h.made_type hm).trans hdir
  rw [Fscheck.usedDirents, if_pos htype, Fscheck.dirents, Fscheck.refs,
    Fscheck.parentEntries, if_neg (not_not.mpr hlast), if_neg (not_not.mpr hlast)]

end Finished

/-! ## What is accepted -/

/-- The inodes that the checker goes over are the ones that are named, and the
others have no blocks. -/
structure Dir.Accepted (root : Dir) : Prop where
  spare : root.Spare
  named : ∀ x, ROOTINO < x → x < root.nodes + 2 → (x ∈ named root (ROOTINO + 1) ↔ x < ninodes)

theorem mem_named_root {x : Nat} (h : x ∈ named root (ROOTINO + 1)) :
    ROOTINO < x ∧ x < root.nodes + 2 := by
  obtain ⟨hlow, hhigh⟩ := mem_named h
  rw [ROOTINO] at *
  omega

theorem type_root (hm : m ∈ madeRoot root) (hroot : m.inum = ROOTINO) : m.type = T_DIR := by
  rcases List.mem_cons.mp hm with rfl | hm
  · rfl
  · have hlow := (mem_made hm).1
    omega

/-- An entry that is counted is that of a named inode. -/
theorem named_of_refs (hm : m ∈ madeRoot root) {x : Nat} (hx : x ∈ m.refs) :
    x ∈ named root (ROOTINO + 1) := by
  rw [← List.count_pos_iff, ← count_madeRoot, List.count_pos_iff]
  exact List.mem_flatMap.mpr ⟨m, hm, hx⟩

theorem refs_of_named {x : Nat} (hx : x ∈ named root (ROOTINO + 1)) :
    ∃ m ∈ madeRoot root, x ∈ m.refs := by
  rw [← List.count_pos_iff, ← count_madeRoot, List.count_pos_iff] at hx
  exact List.mem_flatMap.mp hx

namespace Finished

theorem uind_table (h : Finished root s B) (hl : l < ninodes) :
    (Fscheck.tablesAt s.img junk ninodes).uind_table l ≠ 0 ↔ 1 ≤ l ∧ l < root.nodes + 2 := by
  have hcleared : (Fscheck.cleared s.img junk).uind_table l = 0 :=
    if_pos (h.fscheck_nblocks ▸ Nat.lt_trans hl (by decide))
  rw [← h.used_iff (Nat.lt_of_lt_of_le hl ninodes_le), Fscheck.uind_table_tablesAt, hcleared,
    Nat.zero_add]
  by_cases ht : Fscheck.type s.img l ≠ 0
  · rw [if_pos ⟨hl, ht⟩]
    exact iff_of_true Nat.one_ne_zero ht
  · rw [if_neg fun hand => ht hand.2]
    exact iff_of_false (not_not.mpr rfl) ht

theorem uind_dir (h : Finished root s B) (hroom : root.nodes + 2 ≤ room) (hspare : root.Spare)
    (hne : l ≠ 0) (hl : l < ninodes) : (Fscheck.tablesAt s.img junk ninodes).uind_dir l =
      (named root (ROOTINO + 1)).count l := by
  have hcleared : (Fscheck.cleared s.img junk).uind_dir l = 0 :=
    if_pos (h.fscheck_nblocks ▸ Nat.lt_trans hl (by decide))
  rw [Fscheck.uind_dir_tablesAt, hcleared, Nat.zero_add, h.counted hroom hspare hne]

theorem inside (h : Finished root s B) (hroom : root.nodes + 2 ≤ room) (hacc : root.Accepted)
    (hm : m ∈ madeRoot root) : ∀ o ∈ Fscheck.usedDirents s.img m.inum, ¬ Fscheck.Skipped s.img o →
      Fscheck.inum s.img o < ninodes := by
  intro o ho hskip
  by_cases hzero : Fscheck.inum s.img o = 0
  · rw [hzero]
    decide
  · have hmem := named_of_refs hm
      ((h.mem_inums_made hroom hm hzero).mp (mem_inums.mpr ⟨o, ho, hskip, rfl⟩))
    obtain ⟨hlow, hhigh⟩ := mem_named_root hmem
    exact (hacc.named _ hlow hhigh).mp hmem

theorem parent (h : Finished root s B) (hroom : root.nodes + 2 ≤ room) (hm : m ∈ madeRoot root)
    (hdir : m.type = T_DIR) (hnamed : m.inum ∈ named root (ROOTINO + 1)) :
    Fscheck.ParentOk s.img m.inum := by
  obtain ⟨parent, hstarts, -, hparent⟩ := madeRoot_parent root m hm hdir
  obtain ⟨p, hp, rfl, hpdir, hmem⟩ := hparent hnamed
  obtain ⟨-, hself, hup⟩ := h.starts hroom hm hstarts
  have hne : m.inum ≠ 0 := Nat.ne_of_gt (mem_madeRoot hm).1
  rw [Fscheck.ParentOk, hself, hup, h.parentEntries hroom hp hpdir]
  exact mem_inums.mp ((h.mem_inums_made hroom hp hne).mpr hmem)

theorem rootOk (h : Finished root s B) (hroom : root.nodes + 2 ≤ room) (hm : m ∈ madeRoot root)
    (hroot : m.inum = ROOTINO) : Fscheck.RootOk s.img m.inum := by
  obtain ⟨parent, hstarts, hparent, -⟩ := madeRoot_parent root m hm (type_root hm hroot)
  obtain ⟨-, hself, hup⟩ := h.starts hroom hm hstarts
  obtain ⟨es, hes⟩ := hstarts
  have hlists := h.lists hroom hm hes
  have hplaces : 0 < places ((m.inum, dot) :: (parent, dotdot) :: es).length := by
    simp only [places, List.length_cons]
    omega
  have haddr : Fscheck.addrs s.img m.inum 0 = B m.inum 0 :=
    (fscheck_addrs _ _ _).trans (h.good.ready.holds.layout.direct _ hlists.inode 0 (by decide))
  exact ⟨haddr ▸ (hlists.block h.good.ready hplaces).1, hself.trans hroot, hup.trans (hparent hroot)⟩

/-- Each inode passes the checks of the inode alone. -/
theorem sane (h : Finished root s B) (hroom : root.nodes + 2 ≤ room) (hacc : root.Accepted)
    (hi : i < ninodes) : Fscheck.Sane s.img i := by
  have hi' : i < room := Nat.lt_of_lt_of_le hi ninodes_le
  rcases made_or_blank root i with ⟨m, hm, rfl⟩ | hfree
  · have htype := h.made_type hm
    refine ⟨?_, fun hdir => ?_, fun hroot => ?_, ?_, fun hdir hne => ?_⟩
    · rw [Fscheck.TypeOk, htype]
      cases hk : m.kind with
      | file bytes => exact .inr (.inl (by rw [Made.type, hk]; rfl))
      | dir es => exact .inr (.inr (.inr (by rw [Made.type, hk]; rfl)))
    · obtain ⟨parent, hstarts, -, -⟩ := madeRoot_parent root m hm (htype ▸ hdir)
      exact (h.starts hroom hm hstarts).1
    · exact h.rootOk hroom hm hroot
    · rw [h.fscheck_ninodes]
      exact h.inside hroom hacc hm
    · have hlow := (mem_madeRoot hm).1
      have hnamed :=
        (hacc.named m.inum (Nat.lt_of_le_of_ne hlow (Ne.symm hne)) (mem_madeRoot hm).2).mpr hi
      exact h.parent hroom hm (htype ▸ hdir) hnamed
  · have htype := h.blank_type hi' hfree
    have hdir : ¬ Fscheck.type s.img i = Fscheck.T_DIR := htype ▸ by decide
    refine ⟨.inl htype, fun h => absurd h hdir, fun hroot => ?_, ?_, fun h => absurd h hdir⟩
    · have hone : i = 1 := hroot
      omega
    · rw [Fscheck.usedDirents, if_neg hdir]
      exact fun o ho => absurd ho List.not_mem_nil

/-- The number of links of a file or directory, as it is counted. -/
theorem count_named (h : Finished root s B) (hroom : root.nodes + 2 ≤ room) (hacc : root.Accepted)
    (hi : i < ninodes) (hone : i ≠ 1) (hused : Fscheck.type s.img i ≠ 0) :
    (Fscheck.tablesAt s.img junk ninodes).uind_dir i = 1 := by
  obtain ⟨hlow, hhigh⟩ := (h.used_iff (Nat.lt_of_lt_of_le hi ninodes_le)).mp hused
  rw [h.uind_dir hroom hacc.spare (Nat.ne_of_gt hlow) hi]
  exact List.count_eq_one_of_mem (named_nodup root _)
    ((hacc.named i (Nat.lt_of_le_of_ne hlow (Ne.symm hone)) hhigh).mpr hi)

theorem clean (h : Finished root s B) (hroom : root.nodes + 2 ≤ room) (hacc : root.Accepted) :
    Fscheck.Clean s.img junk := by
  have hlast : data + nblocks = size := rfl
  have hmod : (data + nblocks) % 2 ^ 32 = size := rfl
  have hgood : ∀ a ∈ Fscheck.nonzero (Fscheck.refsBelow s.img ninodes), Fscheck.Good s.img a := by
    rw [h.blocks]
    exact h.good_refs
  refine ⟨?_, ?_, ?_, ?_, ?_, ?_, ?_, ?_⟩ <;>
    simp only [h.fscheck_ninodes, h.fscheck_nblocks, h.fscheck_b_start, hmod]
  · decide
  · exact hgood
  · rw [h.blocks]
    exact h.good.ready.refs_nodup ninodes_le
  · exact fun i hi => h.sane hroom hacc hi
  · intro l hlow hhigh hbit
    have hstart : Fscheck.b_start s.img ≤ l := h.fscheck_b_start ▸ hlow
    rw [← h.fscheck_b_start]
    exact (Fscheck.marked_iff hgood hstart).mpr
      (h.blocks ▸ (h.marked_iff hroom).mpr hacc.spare l hlow hhigh hbit)
  · intro l hlow hl
    rw [h.uind_table hl, h.uind_dir hroom hacc.spare (by omega) hl, ← Nat.pos_iff_ne_zero,
      List.count_pos_iff]
    constructor
    · rintro ⟨-, hhigh⟩
      exact (hacc.named l hlow hhigh).mpr hl
    · intro hmem
      obtain ⟨hlow, hhigh⟩ := mem_named_root hmem
      exact ⟨Nat.le_of_lt hlow, hhigh⟩
  · intro i hi hfile
    have hused : Fscheck.type s.img i ≠ 0 := hfile ▸ by decide
    obtain ⟨hlow, hhigh⟩ := (h.used_iff (Nat.lt_of_lt_of_le hi ninodes_le)).mp hused
    obtain ⟨m, hm, rfl⟩ := exists_made hlow hhigh
    have hone : m.inum ≠ 1 := fun hroot => by
      have hdir := type_root hm hroot
      rw [← h.made_type hm, hfile] at hdir
      cases hdir
    rw [h.count_named hroom hacc hi hone hused, Fscheck.links, h.made_nlink hm]
    rfl
  · intro i hi hdir hone
    exact h.count_named hroom hacc hi hone (hdir ▸ by decide)

/-- What the checker takes. -/
theorem accepted (h : Finished root s B) (hroom : root.nodes + 2 ≤ room)
    (hclean : Fscheck.Clean s.img junk) : root.Accepted := by
  have hmod : (data + nblocks) % 2 ^ 32 = size := rfl
  have hgood := hclean.good
  have hmarked := hclean.marked
  have hfound := hclean.found
  have hsane := hclean.sane
  simp only [h.fscheck_ninodes, h.fscheck_nblocks, h.fscheck_b_start, hmod]
    at hgood hmarked hfound hsane
  have hspare : root.Spare := (h.marked_iff hroom).mp fun l hlow hhigh hbit => by
    have hstart : Fscheck.b_start s.img ≤ l := h.fscheck_b_start ▸ hlow
    have hne := hmarked l hlow hhigh hbit
    rw [← h.fscheck_b_start] at hne
    rw [← h.blocks]
    exact (Fscheck.marked_iff hgood hstart).mp hne
  refine ⟨hspare, fun x hlow hhigh => ⟨fun hmem => ?_, fun hx => ?_⟩⟩
  · -- the directory with the entry has blocks, so the pass comes to it and reads the number
    have hne : x ≠ 0 := Nat.ne_of_gt (Nat.lt_of_le_of_lt (Nat.zero_le _) hlow)
    obtain ⟨m, hm, hrefs⟩ := refs_of_named hmem
    have hinum : m.inum < ninodes := by
      by_contra hge
      rw [refs_empty (hspare m hm (Nat.le_of_not_lt hge))] at hrefs
      cases hrefs
    obtain ⟨o, ho, hskip, rfl⟩ := mem_inums.mp ((h.mem_inums_made hroom hm hne).mpr hrefs)
    exact h.fscheck_ninodes ▸ (hsane m.inum hinum).inside o ho hskip
  · -- check 9
    have hused := (hfound x hlow hx).mp ((h.uind_table hx).mpr ⟨Nat.le_of_lt hlow, hhigh⟩)
    rwa [h.uind_dir hroom hspare (Nat.ne_of_gt (Nat.lt_of_le_of_lt (Nat.zero_le _) hlow)) hx,
      ← Nat.pos_iff_ne_zero, List.count_pos_iff] at hused

end Finished

/-- With less files and directories than inodes. -/
theorem accepted_iff_plain (hfew : root.nodes + 1 < ninodes) : root.Accepted ↔ root.Plain := by
  constructor
  · intro hacc
    by_contra hplain
    obtain ⟨x, hlow, hhigh, hx⟩ := named_missing (k := ROOTINO + 1) hplain
    rw [ROOTINO] at *
    exact hx ((hacc.named x hlow (by omega)).mpr (by omega))
  · intro hplain
    refine ⟨fun m hm hge => ?_, fun x hlow hhigh => ?_⟩
    · have := (mem_madeRoot hm).2
      omega
    · rw [named_plain hplain, List.mem_range'_1]
      rw [ROOTINO] at *
      omega

theorem Finished.fscheck_iff (h : Finished root s B) (hroom : root.nodes + 2 ≤ room) :
    Fscheck.fscheck s.img junk = .ok () ↔ root.Accepted :=
  Fscheck.fscheck_ok_iff.trans ⟨h.accepted hroom, h.clean hroom⟩

/-! ## The two programs -/

/-- The checker takes the image of `mkfs` just if it counts an entry for every
inode that it goes over and for no other, and these have no blocks: with less
than `ninodes` files and directories, if no name begins with a dot. -/
theorem main_fscheck (root : Dir) (s : St) (junk : Fscheck.Tables) (h : main root = some s) :
    (root.nodes + 2 ≤ room → (Fscheck.fscheck s.img junk = .ok () ↔ root.Accepted)) ∧
      (root.nodes + 1 < ninodes → (Fscheck.fscheck s.img junk = .ok () ↔ root.Plain)) := by
  have hiff : root.nodes + 2 ≤ room → (Fscheck.fscheck s.img junk = .ok () ↔ root.Accepted) :=
    fun hroom => by
      obtain ⟨B, hB⟩ := main_spec h hroom
      exact hB.fscheck_iff hroom
  exact ⟨hiff, fun hfew => (hiff (Nat.le_trans hfew ninodes_le)).trans (accepted_iff_plain hfew)⟩

theorem main_fscheck_oneFile : ∃ s, main (emptyFiles 1) = some s ∧
    ∀ junk, Fscheck.fscheck s.img junk = .ok () := by
  obtain ⟨s, hs⟩ := emptyFiles_main 1 (by decide)
  exact ⟨s, hs, fun junk => ((main_fscheck (emptyFiles 1) s junk hs).2 (by decide)).mpr (by decide)⟩

/-- A directory with an empty file `.x`. -/
def hiddenFile : Dir := .file [46, 120] [] .nil

/-- Its image is not taken. -/
theorem hiddenFile_refused : ∃ s, main hiddenFile = some s ∧
    ∀ junk, Fscheck.fscheck s.img junk ≠ .ok () := by
  have hroom : hiddenFile.nodes + 2 ≤ room := by decide
  obtain ⟨s, hs⟩ := main_ok hroom ⟨by decide, by decide⟩
  obtain ⟨B, hB⟩ := main_spec hs hroom
  refine ⟨s, hs, fun junk hok => ?_⟩
  have hplain : ¬ hiddenFile.Plain := by decide
  exact hplain ((accepted_iff_plain (by decide)).mp ((hB.fscheck_iff hroom).mp hok))

end Cs537.Mkfs
