/-
# `Cs537.CheckedFs.Block` — blocks and words of the checked file system (p5/xv6)

A disk block is 512 bytes, seen as bytes (file data), as 32-bit words (an
indirect block, the superblock), as bits (the bitmap) or as eight `dinode`s.
All of these are fields of one bit vector.

A data pointer of a checked file is a word of two parts: the block number in
the low 24 bits, and in the top byte the XOR of the bytes of the block.
-/
import Cs537.Lib.BitField

namespace Cs537.CheckedFs

open Cs537.Lib.BitField

/-- `BSIZE`. -/
def bsize : Nat := 512

abbrev Byte := BitVec 8
abbrev Block := BitVec 4096
abbrev Disk := Nat → Block

/-! ## Views -/

def byteAt (b : Block) (i : Nat) : Byte := field b (8 * i) 8

/-- `((uint*)data)[j]`. -/
def word (b : Block) (j : Nat) : BitVec 32 := field b (32 * j) 32

def setWord (b : Block) (j : Nat) (w : BitVec 32) : Block := setField b (32 * j) w

/-- `memmove(data + s, src, m)`. -/
def copyIn (b : Block) (s : Nat) (src : Nat → Byte) : Nat → Block
  | 0 => b
  | m + 1 => setField (copyIn b s src m) (8 * (s + m)) (src m)

/-- `for(i = 0; i < BSIZE; i++) sum ^= data[i]`. -/
def xorBytes (b : Block) : Byte := (List.range bsize).foldl (fun sum i => sum ^^^ byteAt b i) 0

theorem byteAt_copyIn (b : Block) (s : Nat) (src : Nat → Byte) :
    ∀ {m : Nat}, s + m ≤ bsize → ∀ i, byteAt (copyIn b s src m) i =
      if s ≤ i ∧ i < s + m then src (i - s) else byteAt b i
  | 0, _, i => by
      rw [if_neg (by omega)]
      rfl
  | m + 1, h, i => by
      have h' : 8 * (s + m) + 8 ≤ 4096 := by
        simp only [bsize] at h
        omega
      by_cases hi : i = s + m
      · subst hi
        rw [if_pos (by omega), copyIn, byteAt, field_setField_same _ _ _ h',
          Nat.add_sub_cancel_left]
      · rw [copyIn, byteAt, field_setField_apart _ _ _ _ _ h' (by omega)]
        have ih := byteAt_copyIn b s src (m := m) (by omega) i
        rw [byteAt] at ih
        rw [ih]
        by_cases hin : s ≤ i ∧ i < s + m
        · rw [if_pos hin, if_pos (by omega)]
        · rw [if_neg hin, if_neg (by omega)]

theorem word_zero (j : Nat) : word 0 j = 0 := field_zero _ _

theorem word_setWord {j : Nat} (b : Block) (w : BitVec 32) (hj : j < 128) (j' : Nat) :
    word (setWord b j w) j' = if j' = j then w else word b j' := by
  have h : 32 * j + 32 ≤ 4096 := by omega
  by_cases he : j' = j
  · subst he
    rw [if_pos rfl, word, setWord, field_setField_same _ _ _ h]
  · rw [if_neg he, word, setWord, field_setField_apart _ _ _ _ _ h (by omega), word]

theorem getLsbD_setBit {i : Nat} (b : Block) (v : Bool) (hi : i < 4096) (i' : Nat) :
    (setField b i (BitVec.ofBool v)).getLsbD i' = if i' = i then v else b.getLsbD i' := by
  rw [getLsbD_setField _ _ _ (by omega)]
  by_cases he : i' = i
  · subst he
    simp
  · rw [if_neg he, if_neg (by omega)]

/-! ## Tagged pointers -/

/-- `w & 0x00ffffff`. -/
def mask24 (w : BitVec 32) : BitVec 32 := w &&& 0x00ffffff#32

/-- `(w & 0xff000000) >> 24`. -/
def tag (w : BitVec 32) : Byte := ((w &&& 0xff000000#32) >>> 24).setWidth 8

/-- `w &= 0x00ffffff; w |= sum << 24`. -/
def retag (w : BitVec 32) (sum : Byte) : BitVec 32 :=
  (w &&& 0x00ffffff#32) ||| (sum.setWidth 32 <<< 24)

theorem getLsbD_low (i : Nat) : (0x00ffffff#32).getLsbD i = decide (i < 24) := by
  by_cases hi : i < 32
  · have h : ∀ j : Fin 32, (0x00ffffff#32).getLsbD j.val = decide (j.val < 24) := by decide
    exact h ⟨i, hi⟩
  · rw [BitVec.getLsbD_of_ge _ _ (by omega)]
    simp only [false_eq_decide_iff]
    omega

theorem getLsbD_high (i : Nat) : (0xff000000#32).getLsbD i = decide (24 ≤ i ∧ i < 32) := by
  by_cases hi : i < 32
  · have h : ∀ j : Fin 32, (0xff000000#32).getLsbD j.val = decide (24 ≤ j.val ∧ j.val < 32) := by
      decide
    exact h ⟨i, hi⟩
  · rw [BitVec.getLsbD_of_ge _ _ (by omega)]
    simp only [false_eq_decide_iff]
    omega

@[simp] theorem getLsbD_mask24 (w : BitVec 32) (i : Nat) :
    (mask24 w).getLsbD i = (w.getLsbD i && decide (i < 24)) := by
  rw [mask24, BitVec.getLsbD_and, getLsbD_low]

@[simp] theorem getLsbD_tag (w : BitVec 32) (i : Nat) :
    (tag w).getLsbD i = (decide (i < 8) && w.getLsbD (24 + i)) := by
  rw [tag, BitVec.getLsbD_setWidth, BitVec.getLsbD_ushiftRight, BitVec.getLsbD_and, getLsbD_high]
  by_cases hi : i < 8
  · have h1 : 24 ≤ 24 + i ∧ 24 + i < 32 := by omega
    simp [hi, h1]
  · simp [hi]

@[simp] theorem getLsbD_retag (w : BitVec 32) (s : Byte) (i : Nat) :
    (retag w s).getLsbD i = if i < 24 then w.getLsbD i else s.getLsbD (i - 24) := by
  rw [retag, BitVec.getLsbD_or, BitVec.getLsbD_and, getLsbD_low, BitVec.getLsbD_shiftLeft,
    BitVec.getLsbD_setWidth]
  by_cases hi : i < 24
  · simp [hi]
  · by_cases hi' : i < 32
    · simp [hi, hi', show i - 24 < 32 by omega]
    · have h1 : s.getLsbD (i - 24) = false := BitVec.getLsbD_of_ge _ _ (by omega)
      simp [hi, hi', h1]

theorem mask24_retag (w : BitVec 32) (s : Byte) : mask24 (retag w s) = mask24 w := by
  apply BitVec.eq_of_getLsbD_eq
  intro i _
  by_cases hi : i < 24 <;> simp [hi]

theorem tag_retag (w : BitVec 32) (s : Byte) : tag (retag w s) = s := by
  apply BitVec.eq_of_getLsbD_eq
  intro i hi
  rw [getLsbD_tag, getLsbD_retag, if_neg (by omega), Nat.add_sub_cancel_left]
  simp only [hi, decide_true, Bool.true_and]

/-- A pointer is determined by its two parts. -/
theorem eq_of_mask24_tag {v w : BitVec 32} (hm : mask24 v = mask24 w) (ht : tag v = tag w) :
    v = w := by
  apply BitVec.eq_of_getLsbD_eq
  intro i hi
  by_cases h24 : i < 24
  · have h := congrArg (fun x => x.getLsbD i) hm
    simpa [h24] using h
  · have h : (tag v).getLsbD (i - 24) = (tag w).getLsbD (i - 24) := by rw [ht]
    rw [getLsbD_tag, getLsbD_tag, show 24 + (i - 24) = i by omega] at h
    simpa only [show i - 24 < 8 by omega, decide_true, Bool.true_and] using h

theorem mask24_toNat (w : BitVec 32) : (mask24 w).toNat = w.toNat % 2 ^ 24 := by
  rw [mask24, BitVec.toNat_and]
  exact Nat.and_two_pow_sub_one_eq_mod w.toNat 24

theorem mask24_toNat_lt (w : BitVec 32) : (mask24 w).toNat < 2 ^ 24 := by
  rw [mask24_toNat]
  exact Nat.mod_lt _ (by decide)

/-- A word below `2 ^ 24` is its own block number, with the tag 0. -/
theorem tag_eq_zero_iff (w : BitVec 32) : tag w = 0 ↔ w.toNat < 2 ^ 24 := by
  constructor
  · intro h
    have hw : w = mask24 w := by
      refine eq_of_mask24_tag ?_ (h.trans ?_)
      · apply BitVec.eq_of_getLsbD_eq
        intro i _
        by_cases hi : i < 24 <;> simp [hi]
      · apply BitVec.eq_of_getLsbD_eq
        intro i hi
        simp
    rw [hw]
    exact mask24_toNat_lt w
  · intro h
    apply BitVec.eq_of_getLsbD_eq
    intro i hi
    have hbit : w.getLsbD (24 + i) = false := by
      rw [BitVec.getLsbD, Nat.testBit_lt_two_pow (h.trans_le (Nat.pow_le_pow_right (by decide)
        (by omega)))]
    simp [hbit]

theorem mask24_of_lt {w : BitVec 32} (h : w.toNat < 2 ^ 24) : mask24 w = w := by
  apply BitVec.eq_of_toNat_eq
  rw [mask24_toNat, Nat.mod_eq_of_lt h]

end Cs537.CheckedFs
