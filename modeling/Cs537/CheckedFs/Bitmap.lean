/-
# `Cs537.CheckedFs.Bitmap` — the block allocator

A consistent image: every block before the data blocks is marked in use, and
a free block is all zero, as `mkfs` and `bfree` leave it.  On such an image,
as long as some block below `sb.size` is free, `balloc` finds a free data
block and changes nothing but its bit.  (With none left it would go on to the
bits past `sb.size` in the last bitmap block.)
-/
import Cs537.CheckedFs.Fs
import Mathlib.Data.Finset.Card
import Mathlib.Data.Nat.Basic

namespace Cs537.CheckedFs

open Cs537.Lib.BitField

/-- The first bitmap block, and the first data block, as `mkfs` counts them. -/
def bitmapStart (d : Disk) : Nat := sbNinodes d / ipb + 3
def dataStart (d : Disk) : Nat := bitmapStart d + (sbSize d / bpb + 1)

/-- The bit of block `b` in the bitmap. -/
def inUse (d : Disk) (b : Nat) : Bool := bit (d (bblock d b)) (b % bpb)

structure Image (d : Disk) : Prop where
  small : sbSize d ≤ 2 ^ 24
  reserved : ∀ b, b < dataStart d → b < sbSize d → inUse d b = true
  zero : ∀ b, dataStart d ≤ b → b < sbSize d → inUse d b = false → d b = 0

/-- `b` is a data block. -/
def IsData (d : Disk) (b : Nat) : Prop := dataStart d ≤ b ∧ b < sbSize d

/-- How many blocks are free. -/
def freeCount (d : Disk) : Nat := ((Finset.range (sbSize d)).filter fun b => inUse d b = false).card

/-! ## Frames -/

/-- The superblock and the inodes are the same. -/
structure SameLow (d d' : Disk) : Prop where
  low : ∀ b, b < bitmapStart d → d' b = d b

theorem SameLow.refl (d : Disk) : SameLow d d := ⟨fun _ _ => rfl⟩

theorem one_lt_bitmapStart (d : Disk) : 1 < bitmapStart d := by
  simp only [bitmapStart, ipb]
  omega

section Same

variable {d d' : Disk}

theorem sbSize_eq (h : d' 1 = d 1) : sbSize d' = sbSize d := by rw [sbSize, h, sbSize]

theorem sbNinodes_eq (h : d' 1 = d 1) : sbNinodes d' = sbNinodes d := by
  rw [sbNinodes, h, sbNinodes]

theorem bitmapStart_eq (h : d' 1 = d 1) : bitmapStart d' = bitmapStart d := by
  rw [bitmapStart, sbNinodes_eq h, bitmapStart]

theorem dataStart_eq (h : d' 1 = d 1) : dataStart d' = dataStart d := by
  rw [dataStart, bitmapStart_eq h, sbSize_eq h, dataStart]

theorem bblock_eq (h : d' 1 = d 1) (b : Nat) : bblock d' b = bblock d b := by
  rw [bblock, sbNinodes_eq h, bblock]

theorem isData_eq (h : d' 1 = d 1) (b : Nat) : IsData d' b ↔ IsData d b := by
  rw [IsData, dataStart_eq h, sbSize_eq h, IsData]

theorem SameLow.sb (h : SameLow d d') : d' 1 = d 1 := h.low 1 (one_lt_bitmapStart d)

theorem SameLow.trans {d'' : Disk} (h : SameLow d d') (h' : SameLow d' d'') : SameLow d d'' :=
  ⟨fun b hb => (h'.low b (by rwa [bitmapStart_eq h.sb])).trans (h.low b hb)⟩

end Same

theorem bblock_range {d : Disk} {b : Nat} (hb : b < sbSize d) :
    bitmapStart d ≤ bblock d b ∧ bblock d b < dataStart d := by
  simp only [bblock, bitmapStart, dataStart, bpb]
  omega

theorem IsData.ne_bblock {d : Disk} {b c : Nat} (h : IsData d b) (hc : c < sbSize d) :
    bblock d c ≠ b := by
  have h1 := h.1
  have h2 := (bblock_range hc).2
  omega

/-- Writing a bit of the bitmap. -/
theorem inUse_setBit {d : Disk} (b : Nat) (v : Bool) (c : Nat) :
    inUse (Function.update d (bblock d b) (setBit (d (bblock d b)) (b % bpb) v)) c
      = if c = b then v else inUse d c := by
  have h1 : 1 < bblock d b := by
    simp only [bblock, ipb, bpb]
    omega
  have hsb : Function.update d (bblock d b) (setBit (d (bblock d b)) (b % bpb) v) 1 = d 1 :=
    Function.update_of_ne (by omega) _ _
  have hlt : b % bpb < 4096 := Nat.mod_lt _ (by decide)
  rw [inUse, bblock_eq hsb]
  by_cases hbb : bblock d c = bblock d b
  · rw [hbb, Function.update_self, bit, setBit, getLsbD_setBit _ _ hlt]
    by_cases hc : c = b
    · subst hc
      rw [if_pos rfl, if_pos rfl]
    · have hmod : c % bpb ≠ b % bpb := fun he => hc (by simp only [bblock, bpb] at *; omega)
      rw [if_neg hmod, if_neg hc, inUse, hbb, bit]
  · have hc : c ≠ b := fun he => hbb (by rw [he])
    rw [Function.update_of_ne hbb, if_neg hc, inUse]

/-- Only the bitmap changed, and in it the bit of `b`. -/
structure BitSet (d d' : Disk) (b : Nat) (v : Bool) : Prop where
  same : SameLow d d'
  data : ∀ c, dataStart d ≤ c → d' c = d c
  bits : ∀ c, inUse d' c = if c = b then v else inUse d c

theorem bitSet_setBit {d : Disk} {b : Nat} (hb : b < sbSize d) (v : Bool) :
    BitSet d (Function.update d (bblock d b) (setBit (d (bblock d b)) (b % bpb) v)) b v := by
  obtain ⟨h1, h2⟩ := bblock_range hb
  refine ⟨⟨fun c hc => ?_⟩, fun c hc => ?_, inUse_setBit b v⟩
  · exact Function.update_of_ne (by omega) _ _
  · exact Function.update_of_ne (by omega) _ _

/-! ## `balloc` -/

theorem findSome?_range {α : Type} {n : Nat} {f : Nat → Option α} {x : α}
    (h : (List.range n).findSome? f = some x) : ∃ c < n, f c = some x ∧ ∀ c' < c, f c' = none := by
  obtain ⟨l₁, c, l₂, hl, hfc, hnone⟩ := List.findSome?_eq_some_iff.mp h
  have hlen : l₁.length < n := by
    have := congrArg List.length hl
    simp only [List.length_range, List.length_append, List.length_cons] at this
    omega
  have hget : ∀ j (hj : j < l₁.length), l₁[j] = j := fun j hj => by
    have hj' := congrArg (fun l => l[j]?) hl
    simp only [List.getElem?_append_left hj, List.getElem?_range (show j < n by omega),
      List.getElem?_eq_getElem hj, Option.some.injEq] at hj'
    exact hj'.symm
  have hc : c = l₁.length := by
    have hj' := congrArg (fun l => l[l₁.length]?) hl
    simp only [List.getElem?_range hlen, List.getElem?_append_right (Nat.le_refl _), Nat.sub_self,
      List.getElem?_cons_zero, Option.some.injEq] at hj'
    exact hj'.symm
  refine ⟨c, by omega, hfc, fun c' hc' => hnone c' ?_⟩
  have hlt : c' < l₁.length := by omega
  exact hget c' hlt ▸ List.getElem_mem hlt

theorem bblock_chunk (d : Disk) {c bi : Nat} (hbi : bi < bpb) :
    bblock d (c * bpb + bi) = bblock d (c * bpb) ∧ (c * bpb + bi) % bpb = bi := by
  simp only [bblock, bpb] at *
  constructor <;> omega

/-- With a free block below `sb.size`, `balloc` takes one. -/
theorem balloc_spec {d : Disk} (hd : Image d) (hfree : 0 < freeCount d) :
    ∃ b d', balloc d = some (b, d') ∧ IsData d b ∧ inUse d b = false ∧ BitSet d d' b true := by
  obtain ⟨x, hx⟩ := Finset.card_pos.mp hfree
  obtain ⟨hx, hxfree⟩ := Finset.mem_filter.mp hx
  rw [Finset.mem_range] at hx
  have hdm : x / bpb * bpb + x % bpb = x := Nat.div_add_mod' x bpb
  -- the bitmap block of `x` has a clear bit, so the scan ends there or before
  have hchunk : x / bpb < (sbSize d + bpb - 1) / bpb := by
    simp only [bpb]
    omega
  have hmodlt : x % bpb < bpb := Nat.mod_lt _ (by decide)
  have hclear : bit (d (bblock d (x / bpb * bpb))) (x % bpb) = false := by
    rw [← (bblock_chunk d hmodlt).1, hdm]
    exact hxfree
  have hsome : (balloc d).isSome := by
    rw [balloc, List.findSome?_isSome_iff]
    refine ⟨x / bpb, List.mem_range.mpr hchunk, ?_⟩
    rw [Option.isSome_map, List.find?_isSome]
    exact ⟨x % bpb, List.mem_range.mpr hmodlt, by simp [hclear]⟩
  obtain ⟨⟨b, d'⟩, hb⟩ := Option.isSome_iff_exists.mp hsome
  obtain ⟨c, hc, hfc, hbefore⟩ := findSome?_range hb
  obtain ⟨bi, hbi, heq⟩ := Option.map_eq_some_iff.mp hfc
  obtain ⟨rfl, rfl⟩ := Prod.mk.inj heq
  obtain ⟨hbit, hbilt, hmin⟩ := List.find?_range_eq_some.mp hbi
  rw [List.mem_range] at hbilt
  obtain ⟨hbb, hmod⟩ := bblock_chunk d (c := c) hbilt
  have hfreeb : inUse d (c * bpb + bi) = false := by
    rw [inUse, hbb, hmod]
    simpa using hbit
  -- the block found is not past `x`
  have hle : c * bpb + bi ≤ x := by
    rcases Nat.lt_trichotomy c (x / bpb) with hlt | rfl | hgt
    · have : (c + 1) * bpb ≤ x / bpb * bpb := Nat.mul_le_mul_right _ hlt
      rw [Nat.add_mul, Nat.one_mul] at this
      omega
    · by_contra hge
      have := hmin (x % bpb) (by omega)
      simp [hclear] at this
    · have hnone := hbefore _ hgt
      rw [Option.map_eq_none_iff, List.find?_eq_none] at hnone
      exact absurd (by simp [hclear]) (hnone (x % bpb) (List.mem_range.mpr hmodlt))
  have hlt : c * bpb + bi < sbSize d := by omega
  refine ⟨_, _, hb, ⟨?_, hlt⟩, hfreeb, ?_⟩
  · by_contra hlow
    have := hd.reserved (c * bpb + bi) (by omega) hlt
    simp [hfreeb] at this
  · have hset := bitSet_setBit hlt true
    rwa [hbb, hmod] at hset

/-! ## `bfree` -/

/-- `bfree` of a data block in use. -/
theorem bfree_spec {d : Disk} {b : Nat} (hb : IsData d b) (huse : inUse d b = true) :
    ∃ d', bfree d b = some d' ∧ SameLow d d' ∧ d' b = 0 ∧
      (∀ c, dataStart d ≤ c → c ≠ b → d' c = d c) ∧
      ∀ c, c < sbSize d → inUse d' c = if c = b then false else inUse d c := by
  have hbs : bitmapStart d ≤ dataStart d := Nat.le_add_right _ _
  have hb1 := hb.1
  have hlow : SameLow d (bzero d b) := ⟨fun c hc => Function.update_of_ne (by omega) _ _⟩
  have hbits : ∀ c, c < sbSize d → inUse (bzero d b) c = inUse d c := fun c hc => by
    rw [inUse, bblock_eq hlow.sb, bzero, Function.update_of_ne (hb.ne_bblock hc), inUse]
  have hset := bitSet_setBit (d := bzero d b) (b := b) (by rw [sbSize_eq hlow.sb]; exact hb.2) false
  refine ⟨_, if_pos ((hbits b hb.2).trans huse), hlow.trans hset.same, ?_, fun c hc hne => ?_,
    fun c hc => ?_⟩
  · rw [hset.data b (by rwa [dataStart_eq hlow.sb])]
    exact Function.update_self ..
  · rw [hset.data c (by rwa [dataStart_eq hlow.sb])]
    exact Function.update_of_ne hne _ _
  · rw [hset.bits c, hbits c hc]

end Cs537.CheckedFs
