/-
# `Cs537.CheckedFs.Balloc` — `balloc` on any bitmap

The scan takes the first clear bit of the bitmap blocks that hold a bit below
`sb.size` (`balloc_cases`).  The last of them goes on past `sb.size`: with no
free block below, a clear bit there is taken for one.  So `balloc` does what it
is for just when there is a free block, or those bits are all set
(`balloc_exact`).

The counter, an `int`, is a natural number here; C does not define the scan
beyond 2^31 blocks.
-/
import Cs537.CheckedFs.Bitmap

namespace Cs537.CheckedFs

open Cs537.Lib.BitField

variable {d : Disk} {b : Nat}

/-- The blocks that have a bit in the bitmap blocks that `balloc` reads. -/
def scanned (d : Disk) : Nat := (sbSize d + bpb - 1) / bpb * bpb

theorem sbSize_le_scanned (d : Disk) : sbSize d ≤ scanned d := by
  simp only [scanned, bpb]
  omega

/-- `d'` is `d` with the bit of block `b` set. -/
def Marks (d d' : Disk) (b : Nat) : Prop :=
  ∀ n i, (d' n).getLsbD i = if n = bblock d b ∧ i = b % bpb then true else (d n).getLsbD i

/-- What `balloc` is for: it takes a free block below `sb.size` and sets its
bit, or there is none. -/
def Allocates (d : Disk) : Prop :=
  (∃ b d', balloc d = some (b, d') ∧ b < sbSize d ∧ inUse d b = false ∧ Marks d d' b) ∨
    (balloc d = none ∧ ∀ b < sbSize d, inUse d b = true)

theorem marks_setBit (d : Disk) (b : Nat) :
    Marks d (Function.update d (bblock d b) (setBit (d (bblock d b)) (b % bpb) true)) b := by
  have hlt : b % bpb < 4096 := Nat.mod_lt _ (by decide)
  intro n i
  by_cases hn : n = bblock d b
  · subst hn
    rw [Function.update_self, setBit, getLsbD_setBit _ _ hlt]
    exact if_congr (by simp) rfl rfl
  · rw [Function.update_of_ne hn, if_neg fun h => hn h.1]

/-- The bits of one bitmap block. -/
theorem find_clear_none {c : Nat}
    (h : ((List.range bpb).find? fun bi => !bit (d (bblock d (c * bpb))) bi) = none) {b : Nat}
    (hb : b / bpb = c) : inUse d b = true := by
  subst hb
  have hlt : b % bpb < bpb := Nat.mod_lt _ (by decide)
  have hset := List.find?_eq_none.mp h (b % bpb) (List.mem_range.mpr hlt)
  rw [inUse, ← Nat.div_add_mod' b bpb, (bblock_chunk d hlt).1, (bblock_chunk d hlt).2]
  simpa using hset

theorem balloc_cases (d : Disk) :
    (∃ b d', balloc d = some (b, d') ∧ b < scanned d ∧ inUse d b = false ∧ Marks d d' b ∧
        ∀ c < b, inUse d c = true) ∨
      (balloc d = none ∧ ∀ b < scanned d, inUse d b = true) := by
  cases hb : balloc d with
  | none =>
      refine .inr ⟨rfl, fun b hlt => ?_⟩
      rw [balloc, List.findSome?_eq_none_iff] at hb
      have hc : b / bpb < (sbSize d + bpb - 1) / bpb := by
        rw [Nat.div_lt_iff_lt_mul (by decide)]
        exact hlt
      exact find_clear_none (Option.map_eq_none_iff.mp (hb _ (List.mem_range.mpr hc))) rfl
  | some r =>
      obtain ⟨c, hc, hfc, hbefore⟩ := findSome?_range hb
      obtain ⟨bi, hbi, rfl⟩ := Option.map_eq_some_iff.mp hfc
      obtain ⟨hclear, hlt, hmin⟩ := List.find?_range_eq_some.mp hbi
      rw [List.mem_range] at hlt
      obtain ⟨hbb, hmod⟩ := bblock_chunk d (c := c) hlt
      have hmarks := marks_setBit d (c * bpb + bi)
      rw [hbb, hmod] at hmarks
      refine .inl ⟨_, _, rfl, ?_, ?_, hmarks, fun x hx => ?_⟩
      · have hle : (c + 1) * bpb ≤ scanned d := Nat.mul_le_mul_right _ hc
        rw [Nat.add_mul, Nat.one_mul] at hle
        omega
      · rw [inUse, hbb, hmod]
        simpa using hclear
      · -- a block before it is in an earlier bitmap block, or earlier in this one
        have hle : x / bpb ≤ c := by
          rw [← Nat.lt_succ_iff, Nat.div_lt_iff_lt_mul (by decide), Nat.succ_mul]
          omega
        rcases Nat.lt_or_eq_of_le hle with hlt' | heq
        · exact find_clear_none (Option.map_eq_none_iff.mp (hbefore _ hlt')) rfl
        · subst heq
          have hxlt : x % bpb < bpb := Nat.mod_lt _ (by decide)
          have hset := hmin (x % bpb) (by have := Nat.div_add_mod' x bpb; omega)
          rw [inUse, ← Nat.div_add_mod' x bpb, (bblock_chunk d hxlt).1, (bblock_chunk d hxlt).2]
          simpa using hset

/-- `balloc` does what it is for just when some block is free, or the bits past
`sb.size` that it reads are set. -/
theorem balloc_exact (d : Disk) :
    Allocates d ↔ (∃ b < sbSize d, inUse d b = false) ∨
      ∀ b, sbSize d ≤ b → b < scanned d → inUse d b = true := by
  have hscan := sbSize_le_scanned d
  constructor
  · rintro (⟨b, d', -, hb, hfree, -⟩ | ⟨hnone, -⟩)
    · exact .inl ⟨b, hb, hfree⟩
    · rcases balloc_cases d with ⟨b, d', hsome, -⟩ | ⟨-, hall⟩
      · cases hnone.symm.trans hsome
      · exact .inr fun b _ hb => hall b hb
  · intro h
    rcases balloc_cases d with ⟨b, d', hsome, hb, hfree, hmarks, hbefore⟩ | ⟨hnone, hall⟩
    · refine .inl ⟨b, d', hsome, ?_, hfree, hmarks⟩
      by_contra hge
      rcases h with ⟨c, hc, hcfree⟩ | hset
      · have := hbefore c (by omega)
        rw [hcfree] at this
        cases this
      · have := hset b (by omega) hb
        rw [hfree] at this
        cases this
    · exact .inr ⟨hnone, fun b hb => hall b (by omega)⟩

/-- A disk of 64 blocks, all in use. -/
def fullDisk : Disk := fun b =>
  if b = 1 then setWord (setWord 0 0 64) 2 8 else if b = 4 then BitVec.ofNat 4096 (2 ^ 64 - 1) else 0

/-- There `balloc` returns block 64. -/
theorem fullDisk_past : sbSize fullDisk = 64 ∧ (balloc fullDisk).map Prod.fst = some 64 ∧
    ¬ Allocates fullDisk := by
  have hsize : sbSize fullDisk = 64 := by decide +kernel
  have htaken : (balloc fullDisk).map Prod.fst = some 64 := by decide +kernel
  refine ⟨hsize, htaken, ?_⟩
  rintro (⟨b, d', hb, hlt, -⟩ | ⟨hnone, -⟩)
  · rw [hb] at htaken
    have : b = 64 := Option.some.inj htaken
    omega
  · rw [hnone] at htaken
    cases htaken

end Cs537.CheckedFs
