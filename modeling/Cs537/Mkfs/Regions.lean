/-
# `Cs537.Mkfs.Regions` — where `mkfs` writes

`InRegions s`: the numbers handed out are those of inodes, the inodes are
written to the blocks for them, the data to the blocks after the bitmap, the
bitmap marks what is used, and everything appended to a file is still there.
`ialloc` does not look whether there is another inode.  When `mkfs` exits with
success the property holds if the tree has less than `ninodes` files and
directories, the root among them, and otherwise not (`main_regions`).
-/
import Cs537.Mkfs.Main

namespace Cs537.Mkfs

open Cs537.Lib

variable {s : St} {B : Nat → Nat → Nat} {root : Dir} {i : Nat}

structure InRegions (s : St) : Prop where
  inodes : ∀ i, .ialloc i ∈ s.trace → i < ninodes
  inodeBlocks : ∀ sec, .write .inode sec ∈ s.trace → 2 ≤ sec ∧ sec < 2 + (ninodes / IPB + 1)
  dataBlocks : ∀ sec, .write .data sec ∈ s.trace ∨ .write .indirect sec ∈ s.trace →
    data ≤ sec ∧ sec < size
  bitmap : ∀ b < 512 * 8, Marked s.img b ↔ b < data ∨ .block b ∈ s.trace
  kept : ∀ i, .ialloc i ∈ s.trace → appended i s.trace <+: contents s.img i
  files : ∀ i, .ialloc i ∈ s.trace → (table s.img i).type = T_FILE →
    contents s.img i = appended i s.trace

/-- Every number below the last one is handed out, whatever there is room for. -/
theorem main_handed (h : main root = some s) (hi : 1 ≤ i) (hlast : i ≤ root.nodes + 1) :
    .ialloc i ∈ s.trace := by
  obtain ⟨t, ht, heq⟩ := main_eq
  obtain ⟨s₂, hdir, hballoc⟩ := Option.bind_eq_some_iff.mp ((heq root).symm.trans h)
  have hroom : 1 < room := by decide
  obtain ⟨-, hfirst⟩ := Counted.ialloc ((good_blank ht).ready.ialloc_eq (t := T_DIR) hroom)
  have hrest := hfirst.trans (Counted.inDir (fun h => Counted.addEntries h) hdir)
  have hmem := hrest.handed i hi (by
    show i < 1 + (1 + root.nodes)
    omega)
  rw [St.balloc] at hballoc
  split_ifs at hballoc
  cases hballoc
  exact List.mem_cons_of_mem _ hmem

theorem made_size_le : ∀ m : Made, m.bytes.length ≤ m.size
  | ⟨_, .file _⟩ => Nat.le_refl _
  | ⟨_, .dir es⟩ => by
      show (entryBytes es).length ≤ roundUp (entryBytes es).length
      rw [roundUp]
      omega

theorem T_DIR_ne : T_DIR ≠ T_FILE := by decide

theorem made_size_file : ∀ m : Made, m.type = T_FILE → m.size = m.bytes.length
  | ⟨_, .file _⟩, _ => rfl
  | ⟨_, .dir _⟩, h => absurd h T_DIR_ne

/-- The inodes handed out are those of the tree. -/
theorem Finished.made (h : Finished root s B) (hi : .ialloc i ∈ s.trace) :
    ∃ m ∈ madeRoot root, m.inum = i := by
  have hnum := (h.good.ready.holds.logged.inodes i).mp hi
  rw [h.freeinode] at hnum
  exact exists_made (by omega) (by omega)

theorem Finished.inRegions (h : Finished root s B) (hroom : root.nodes + 2 ≤ room)
    (hfew : root.nodes + 1 < ninodes) : InRegions s := by
  have hlogged := h.good.ready.holds.logged
  have hbelow := h.good.ready.holds.below
  refine ⟨fun i hi => ?_, fun sec hw => hlogged.writes _ _ hw, fun sec hw => ?_, fun b hb => ?_,
    fun i hi => ?_, fun i hi htype => ?_⟩
  · have hnum := (hlogged.inodes i).mp hi
    rw [h.freeinode] at hnum
    omega
  · exact hw.elim (hlogged.writes _ _) (hlogged.writes _ _)
  · have hlow := h.good.ready.holds.low
    rw [h.bitmap b hb, hlogged.blocks]
    omega
  · obtain ⟨m, hm, rfl⟩ := h.made hi
    have hnum := (hlogged.inodes _).mp hi
    have hhas := h.has m hm
    refine h.good.ready.prefix_contents (by rw [h.freeinode] at hnum; omega) ?_
    rw [hhas.bytes, hhas.size]
    exact made_size_le m
  · obtain ⟨m, hm, rfl⟩ := h.made hi
    have hnum := (hlogged.inodes _).mp hi
    have hhas := h.has m hm
    refine h.good.ready.contents (by rw [h.freeinode] at hnum; omega) ?_
    rw [Sized, hhas.size, hhas.bytes, made_size_file m (hhas.type.symm.trans htype)]

/-- When `mkfs` exits with success, it has stayed in its regions just if the tree
has less than `ninodes` files and directories. -/
theorem main_regions (root : Dir) (s : St) (h : main root = some s) :
    InRegions s ↔ root.nodes + 1 < ninodes := by
  constructor
  · intro hin
    exact hin.inodes _ (main_handed h (Nat.le_add_left _ _) (Nat.le_refl _))
  · intro hfew
    have hroom : root.nodes + 2 ≤ room := Nat.le_trans hfew ninodes_le
    obtain ⟨B, hB⟩ := main_spec h hroom
    exact hB.inRegions hroom hfew

/-! ## A directory of empty files -/

/-- Empty files with names of three digits. -/
def emptyFiles : Nat → Dir
  | 0 => .nil
  | k + 1 => .file [UInt8.ofNat (48 + k / 100), UInt8.ofNat (48 + k / 10 % 10),
      UInt8.ofNat (48 + k % 10)] [] (emptyFiles k)

section

variable (k cur n : Nat)

theorem not_passed (a b c : UInt8) : ¬ Passed [a, b, c] := by
  rintro (h | h) <;> cases h

theorem emptyFiles_nodes : (emptyFiles k).nodes = k := by
  induction k with
  | zero => rfl
  | succ k ih => rw [emptyFiles, Dir.nodes, if_neg (not_passed _ _ _), ih, Nat.add_comm]

theorem emptyFiles_listing : (listing (emptyFiles k) n).length = k := by
  induction k generalizing n with
  | zero => rfl
  | succ k ih => rw [emptyFiles, listing, if_neg (not_passed _ _ _), List.length_cons, ih]

theorem emptyFiles_made : ∀ m ∈ made (emptyFiles k) cur n, m.bytes = [] := by
  induction k generalizing n with
  | zero => exact fun m hm => absurd hm List.not_mem_nil
  | succ k ih =>
      rw [emptyFiles, made, if_neg (not_passed _ _ _)]
      exact List.forall_mem_cons.mpr ⟨rfl, ih _⟩

theorem blocksOf_empty {l : List Made} (h : ∀ m ∈ l, m.bytes = []) : blocksOf l = 0 := by
  induction l with
  | nil => rfl
  | cons m l ih =>
      rw [blocksOf, List.map_cons, List.sum_cons, h m List.mem_cons_self, List.length_nil,
        blocksFor_zero, Nat.zero_add]
      exact ih fun x hx => h x (List.mem_cons_of_mem _ hx)

/-- There is room for 206 of them. -/
theorem emptyFiles_main (hk : k + 2 ≤ room) : ∃ s, main (emptyFiles k) = some s := by
  have hbytes : (entryBytes (allEntries (emptyFiles k) ROOTINO ROOTINO (ROOTINO + 1))).length =
      16 * (k + 2) := by
    rw [length_entryBytes, allEntries, List.length_cons, List.length_cons, emptyFiles_listing]
  have hmade := emptyFiles_made k ROOTINO (ROOTINO + 1)
  have hlen : 16 * (k + 2) ≤ 3328 := by
    simp only [room] at hk
    omega
  refine main_ok (by rw [emptyFiles_nodes]; exact hk) ⟨fun m hm => ?_, ?_⟩
  · rcases List.mem_cons.mp hm with rfl | hm
    · exact Nat.le_trans (Nat.le_of_eq hbytes) (Nat.le_trans hlen (by decide))
    · rw [hmade m hm]
      exact Nat.zero_le _
  · rw [madeRoot, blocksOf_dir, hbytes, blocksOf_empty hmade, Nat.add_zero]
    have hblocks : blocksFor 3328 = 7 := rfl
    have := blocksFor_mono hlen
    simp only [data, size]
    omega

end

theorem main_regions_oneFile :
    ∃ s, main (emptyFiles 1) = some s ∧ (InRegions s ↔ (emptyFiles 1).nodes + 1 < ninodes) := by
  obtain ⟨s, hs⟩ := emptyFiles_main 1 (by decide)
  exact ⟨s, hs, main_regions (emptyFiles 1) s hs⟩

/-- With 199 empty files the last one gets the number 200. -/
theorem fullRoot_outside :
    ∃ s, main (emptyFiles 199) = some s ∧ .ialloc 200 ∈ s.trace ∧ ¬ InRegions s := by
  obtain ⟨s, hs⟩ := emptyFiles_main 199 (by decide)
  have hlast : .ialloc 200 ∈ s.trace :=
    main_handed hs (by decide) (by rw [emptyFiles_nodes])
  exact ⟨s, hs, hlast, fun h => absurd (h.inodes 200 hlast) (by decide)⟩

end Cs537.Mkfs
