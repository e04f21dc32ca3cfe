/-
# `Cs537.Mkfs.Blocks` — which block has what

`B i j` is the block that inode `i` has for its bytes from `512 * j` on, and
`B i MAXFILE` its indirect block; 0 is none.  `Layout img T fb B`: the addresses
in the inodes `T` and in the indirect blocks of `img` are those of `B`, the
blocks are below `fb` and no two of them the same, and from `fb` on the image is
zero.  `Stored img B f`: the blocks of inode `i` have the bytes `f i`, and zeros
after them.

The steps of `iappend` keep both: an address for a block (`link_direct`,
`link_indirect`, `link_entry`), and bytes in a block (`write`).
-/
import Mathlib.Data.List.GetD
import Mathlib.Logic.Function.Basic
import Cs537.Mkfs.Image

namespace Cs537.Mkfs

open Cs537.Lib

/-- The inodes that fit in front of the bitmap. -/
def room : Nat := 208

/-- The first data block. -/
def data : Nat := 29

variable {img buf : Mem} {T : Nat → Dinode} {B : Nat → Nat → Nat} {f : Nat → List UInt8}
  {fb n i j k v b b' : Nat} {d : Dinode}

/-! ## Fields of an inode -/

namespace Dinode

theorem addrs_setAddrs_self (h : v < 2 ^ 32) : (d.setAddrs j v).addrs j = v :=
  Mem.get_put_self (by omega)

theorem addrs_setAddrs_ne (h : k ≠ j) : (d.setAddrs j v).addrs k = d.addrs k :=
  Mem.get_put_apart (by omega)

@[simp] theorem addrs_setSize : (d.setSize v).addrs j = d.addrs j :=
  Mem.get_put_apart (by omega)

theorem size_setSize (h : v < 2 ^ 32) : (d.setSize v).size = v :=
  Mem.get_put_self (by omega)

end Dinode

/-! ## Blocks of the image -/

theorem next_block {a : Nat} (ha : (fb + 1) * 512 ≤ a) : fb * 512 ≤ a :=
  Nat.le_trans (Nat.mul_le_mul_right 512 (Nat.le_succ fb)) ha

theorem copy_block_self (hk : k < 512) : img.copy (b * 512) 512 buf (b * 512 + k) = buf k :=
  Mem.copy_inside hk

theorem copy_block_ne (h : b' ≠ b) (hk : k < 512) :
    img.copy (b * 512) 512 buf (b' * 512 + k) = img (b' * 512 + k) :=
  Mem.copy_apart (by omega)

theorem get_block_self (hj : j < 128) :
    (img.copy (b * 512) 512 buf).get 4 (b * 512 + 4 * j) = buf.get 4 (4 * j) :=
  Mem.get_copy_inside (by omega)

theorem get_block_ne (h : b' ≠ b) (hj : j < 128) :
    (img.copy (b * 512) 512 buf).get 4 (b' * 512 + 4 * j) = img.get 4 (b' * 512 + 4 * j) :=
  Mem.get_copy_apart (by omega)

/-! ## Blocks handed out -/

/-- Block `b` for slot `j` of inode `n`. -/
def assign (B : Nat → Nat → Nat) (n j b : Nat) : Nat → Nat → Nat :=
  fun i k => if i = n ∧ k = j then b else B i k

@[simp] theorem assign_self : assign B n j b n j = b := if_pos ⟨rfl, rfl⟩

theorem assign_ne (h : ¬ (i = n ∧ k = j)) : assign B n j b i k = B i k := if_neg h

theorem assign_inode (h : i ≠ n) : assign B n j b i = B i :=
  funext fun _ => assign_ne fun hik => h hik.1

/-- No block is there twice, and all are in `[data, fb)`. -/
structure Placed (fb : Nat) (B : Nat → Nat → Nat) : Prop where
  low : data ≤ fb
  range : ∀ i < room, ∀ j ≤ MAXFILE, B i j ≠ 0 → data ≤ B i j ∧ B i j < fb
  inj : ∀ i < room, ∀ j ≤ MAXFILE, ∀ i' < room, ∀ j' ≤ MAXFILE,
    B i j ≠ 0 → B i j = B i' j' → i = i' ∧ j = j'

theorem Placed.assign (h : Placed fb B) (h0 : B n j = 0) :
    Placed (fb + 1) (assign B n j fb) := by
  have hlow := h.low
  refine ⟨by omega, fun i hi k hk hne => ?_, fun i hi k hk i' hi' k' hk' hne heq => ?_⟩
  · by_cases hik : i = n ∧ k = j
    · obtain ⟨rfl, rfl⟩ := hik
      rw [assign_self]
      omega
    · rw [assign_ne hik] at hne ⊢
      have := h.range i hi k hk hne
      omega
  · by_cases hik : i = n ∧ k = j
    · obtain ⟨rfl, rfl⟩ := hik
      by_cases hik' : i' = i ∧ k' = k
      · exact ⟨hik'.1.symm, hik'.2.symm⟩
      · -- an old block is below `fb`
        rw [assign_self, assign_ne hik'] at heq
        have := h.range i' hi' k' hk' (by rw [← heq]; exact Nat.ne_of_gt (by rw [data] at hlow; omega))
        omega
    · rw [assign_ne hik] at hne heq
      have hold := h.range i hi k hk hne
      by_cases hik' : i' = n ∧ k' = j
      · obtain ⟨rfl, rfl⟩ := hik'
        rw [assign_self] at heq
        omega
      · rw [assign_ne hik'] at heq
        exact h.inj i hi k hk i' hi' k' hk' hne heq

/-- Two slots with different blocks. -/
theorem Placed.ne (h : Placed fb B) (hi : i < room) (hj : j ≤ MAXFILE) (hn : n < room)
    (hk : k ≤ MAXFILE) (hne : B i j ≠ 0) (hslot : j ≠ k) : B i j ≠ B n k :=
  fun heq => hslot (h.inj i hi j hj n hn k hk hne heq).2

/-! ## The layout -/

structure Layout (img : Mem) (T : Nat → Dinode) (fb : Nat) (B : Nat → Nat → Nat) : Prop where
  placed : Placed fb B
  direct : ∀ i < room, ∀ j < NDIRECT, (T i).addrs j = B i j
  indirect : ∀ i < room, (T i).addrs NDIRECT = B i MAXFILE
  entry : ∀ i < room, B i MAXFILE ≠ 0 → ∀ j < 128,
    img.get 4 (B i MAXFILE * 512 + 4 * j) = B i (NDIRECT + j)
  noEntry : ∀ i < room, B i MAXFILE = 0 → ∀ j < 128, B i (NDIRECT + j) = 0
  fresh : ∀ a, fb * 512 ≤ a → img a = 0

namespace Layout

/-- A block for `addrs[j]`, one of the direct ones. -/
theorem link_direct (h : Layout img T fb B) (hfb : fb < 2 ^ 32) (hj : j < NDIRECT)
    (h0 : B n j = 0) :
    Layout img (Function.update T n ((T n).setAddrs j fb)) (fb + 1) (assign B n j fb) := by
  have hslot : ∀ i k, k = MAXFILE ∨ NDIRECT ≤ k → assign B n j fb i k = B i k := fun i k hk =>
    assign_ne fun hik => by simp only [MAXFILE, NDIRECT] at *; omega
  refine ⟨h.placed.assign h0, fun i hi k hk => ?_, fun i hi => ?_, fun i hi => ?_, fun i hi => ?_,
    fun a ha => h.fresh a (next_block ha)⟩
  · by_cases hin : i = n
    · subst hin
      rw [Function.update_self]
      by_cases hkj : k = j
      · rw [hkj, assign_self, Dinode.addrs_setAddrs_self hfb]
      · rw [assign_ne fun hik => hkj hik.2, Dinode.addrs_setAddrs_ne hkj, h.direct i hi k hk]
    · rw [Function.update_of_ne hin, assign_inode hin, h.direct i hi k hk]
  · rw [hslot i _ (.inl rfl), ← h.indirect i hi]
    by_cases hin : i = n
    · rw [hin, Function.update_self, Dinode.addrs_setAddrs_ne (by omega)]
    · rw [Function.update_of_ne hin]
  · rw [hslot i _ (.inl rfl)]
    intro hne k hk
    rw [hslot i _ (.inr (Nat.le_add_right _ _)), h.entry i hi hne k hk]
  · rw [hslot i _ (.inl rfl)]
    intro hz k hk
    rw [hslot i _ (.inr (Nat.le_add_right _ _)), h.noEntry i hi hz k hk]

/-- An indirect block; its entries are zero. -/
theorem link_indirect (h : Layout img T fb B) (hfb : fb < 2 ^ 32) (h0 : B n MAXFILE = 0) :
    Layout img (Function.update T n ((T n).setAddrs NDIRECT fb)) (fb + 1)
      (assign B n MAXFILE fb) := by
  have hslot : ∀ i k, k ≠ MAXFILE → assign B n MAXFILE fb i k = B i k := fun i k hk =>
    assign_ne fun hik => hk hik.2
  refine ⟨h.placed.assign h0, fun i hi k hk => ?_, fun i hi => ?_, fun i hi => ?_, fun i hi => ?_,
    fun a ha => h.fresh a (next_block ha)⟩
  · rw [hslot i k (by simp only [MAXFILE, NDIRECT] at *; omega), ← h.direct i hi k hk]
    by_cases hin : i = n
    · rw [hin, Function.update_self, Dinode.addrs_setAddrs_ne (by omega)]
    · rw [Function.update_of_ne hin]
  · by_cases hin : i = n
    · rw [hin, Function.update_self, assign_self, Dinode.addrs_setAddrs_self hfb]
    · rw [Function.update_of_ne hin, assign_inode hin, h.indirect i hi]
  · intro hne k hk
    rw [hslot i (NDIRECT + k) (by simp only [MAXFILE, NDIRECT]; omega)]
    by_cases hin : i = n
    · subst hin
      rw [assign_self, h.noEntry i hi h0 k hk]
      exact Mem.get_zero fun _ _ => h.fresh _ (by omega)
    · rw [assign_inode hin] at hne ⊢
      exact h.entry i hi hne k hk
  · intro hz k hk
    rw [hslot i (NDIRECT + k) (by simp only [MAXFILE, NDIRECT]; omega)]
    by_cases hin : i = n
    · rw [hin] at hi ⊢
      exact h.noEntry n hi h0 k hk
    · rw [assign_inode hin] at hz
      exact h.noEntry i hi hz k hk

/-- A block for an entry of the indirect block, which is written. -/
theorem link_entry (h : Layout img T fb B) (hfb : fb < 2 ^ 32) (hn : n < room) (hj : j < 128)
    (hind : B n MAXFILE ≠ 0) (h0 : B n (NDIRECT + j) = 0) :
    Layout (img.copy (B n MAXFILE * 512) 512
        ((img.ptr (B n MAXFILE * 512)).put 4 (4 * j) fb)) T (fb + 1)
      (assign B n (NDIRECT + j) fb) := by
  have hslot : ∀ i k, k < NDIRECT ∨ k = MAXFILE → assign B n (NDIRECT + j) fb i k = B i k :=
    fun i k hk => assign_ne fun hik => by simp only [MAXFILE, NDIRECT] at *; omega
  have hrange := h.placed.range n hn MAXFILE (Nat.le_refl _) hind
  refine ⟨h.placed.assign h0, fun i hi k hk => ?_, fun i hi => ?_, fun i hi => ?_, fun i hi => ?_,
    fun a ha => ?_⟩
  · rw [hslot i k (.inl hk), h.direct i hi k hk]
  · rw [hslot i _ (.inr rfl), h.indirect i hi]
  · rw [hslot i _ (.inr rfl)]
    intro hne k hk
    by_cases hin : i = n
    · subst hin
      rw [get_block_self hk]
      by_cases hkj : k = j
      · rw [hkj, assign_self, Mem.get_put_self (by omega)]
      · rw [assign_ne fun hik => hkj (by omega), Mem.get_put_apart (by omega), Mem.get_ptr,
          h.entry i hi hne k hk]
    · have hb : B i MAXFILE ≠ B n MAXFILE := fun heq =>
        hin (h.placed.inj i hi _ (Nat.le_refl _) n hn _ (Nat.le_refl _) hne heq).1
      rw [get_block_ne hb hk, assign_inode hin, h.entry i hi hne k hk]
  · rw [hslot i _ (.inr rfl)]
    intro hz k hk
    have hin : i ≠ n := fun hin => hind (hin ▸ hz)
    rw [assign_inode hin, h.noEntry i hi hz k hk]
  · rw [Mem.copy_apart (by omega)]
    exact h.fresh a (next_block ha)

/-- A block of data is written. -/
theorem write (h : Layout img T fb B) (hn : n < room) (hj : j < MAXFILE) (hne : B n j ≠ 0) :
    Layout (img.copy (B n j * 512) 512 buf) T fb B := by
  have hrange := h.placed.range n hn j (Nat.le_of_lt hj) hne
  refine ⟨h.placed, h.direct, h.indirect, fun i hi hi0 k hk => ?_, h.noEntry, fun a ha => ?_⟩
  · have hb : B i MAXFILE ≠ B n j :=
      h.placed.ne hi (Nat.le_refl _) hn (Nat.le_of_lt hj) hi0 (Nat.ne_of_gt hj)
    rw [get_block_ne hb hk, h.entry i hi hi0 k hk]
  · rw [Mem.copy_apart (by omega)]
    exact h.fresh a ha

end Layout

/-! ## The bytes -/

/-- The blocks of inode `i` have the bytes `f i`, and then zeros. -/
def Stored (img : Mem) (B : Nat → Nat → Nat) (f : Nat → List UInt8) : Prop :=
  ∀ i < room, ∀ j < MAXFILE, B i j ≠ 0 → ∀ k < 512,
    img (B i j * 512 + k) = (f i).getD (512 * j + k) 0

namespace Stored

/-- A block for bytes that are not there yet. -/
theorem link (h : Stored img B f) (hfresh : ∀ a, fb * 512 ≤ a → img a = 0)
    (hlen : (f n).length ≤ 512 * j) : Stored img (assign B n j fb) f := by
  intro i hi k hk hne l hl
  by_cases hik : i = n ∧ k = j
  · obtain ⟨rfl, rfl⟩ := hik
    rw [assign_self, hfresh _ (by omega), List.getD_eq_default _ _ (by omega)]
  · rw [assign_ne hik] at hne ⊢
    exact h i hi k hk hne l hl

theorem link_indirect (h : Stored img B f) : Stored img (assign B n MAXFILE fb) f := by
  intro i hi k hk hne l hl
  have hik : ¬ (i = n ∧ k = MAXFILE) := fun hik => Nat.ne_of_lt hk hik.2
  rw [assign_ne hik] at hne ⊢
  exact h i hi k hk hne l hl

/-- The indirect block of an inode is written. -/
theorem write_indirect (buf : Mem) (h : Stored img B f) (hp : Placed fb B) (hn : n < room) :
    Stored (img.copy (B n MAXFILE * 512) 512 buf) B f := by
  intro i hi k hk hne l hl
  have hb : B i k ≠ B n MAXFILE :=
    hp.ne hi (Nat.le_of_lt hk) hn (Nat.le_refl _) hne (Nat.ne_of_lt hk)
  rw [copy_block_ne hb hl]
  exact h i hi k hk hne l hl

/-- The bytes `p` are put at the end of the file, inside one block. -/
theorem write (h : Stored img B f) (hp : Placed fb B) {p : List UInt8} (hn : n < room)
    (hj : j < MAXFILE) (hne : B n j ≠ 0) (hlow : 512 * j ≤ (f n).length)
    (hhigh : (f n).length + p.length ≤ 512 * j + 512)
    (hnext : ∀ k < MAXFILE, j < k → B n k = 0) :
    Stored (img.copy (B n j * 512) 512 ((img.ptr (B n j * 512)).copy ((f n).length - 512 * j)
        p.length (St.bytesAt p))) B (Function.update f n (f n ++ p)) := by
  intro i hi k hk hik l hl
  by_cases hin : i = n
  · subst hin
    rw [Function.update_self]
    by_cases hkj : k = j
    · subst hkj
      rw [copy_block_self hl]
      by_cases hlt : 512 * k + l < (f i).length
      · rw [Mem.copy_apart (by omega), Mem.ptr, h i hi k hk hik l hl, List.getD_append _ _ _ _ hlt]
      · rw [List.getD_append_right _ _ _ _ (by omega)]
        by_cases hin : 512 * k + l < (f i).length + p.length
        · obtain ⟨m, rfl⟩ : ∃ m, l = (f i).length - 512 * k + m :=
            ⟨_, (Nat.add_sub_of_le (by omega)).symm⟩
          rw [Mem.copy_inside (by omega), St.bytesAt]
          congr 1
          omega
        · rw [Mem.copy_apart (by omega), Mem.ptr, h i hi k hk hik l hl,
            List.getD_eq_default _ _ (by omega), List.getD_eq_default _ _ (by omega)]
    · have hb : B i k ≠ B i j := hp.ne hi (Nat.le_of_lt hk) hn (Nat.le_of_lt hj) hik hkj
      have hkj' : k < j := by
        by_contra hlt
        exact hik (hnext k hk (by omega))
      rw [copy_block_ne hb hl, h i hi k hk hik l hl, List.getD_append _ _ _ _ (by omega)]
  · have hb : B i k ≠ B n j := fun heq =>
      hin (hp.inj i hi k (Nat.le_of_lt hk) n hn j (Nat.le_of_lt hj) hik heq).1
    rw [copy_block_ne hb hl, Function.update_of_ne hin]
    exact h i hi k hk hik l hl

end Stored

end Cs537.Mkfs
