/-
# `Cs537.Names.Entries` — the entries of a directory (p5/xv6)

`dirlookup` finds an entry with the name (`dirlookup_some`), or there is none
(`dirlookup_none`); `dirlink` adds one target (`targets_dirlink`), and clearing an entry
takes one away (`targets_set`).  Names stay distinct, and `.` and `..` where they are.
-/
import Cs537.Names.System

namespace Cs537.Names

variable {l : List Dirent} {de e : Dirent} {name : Name} {n : Inum} {k : Nat}

/-- The inodes that the entries name. -/
def targets (l : List Dirent) : List Inum := l.filterMap Dirent.inum

/-- No name is there twice. -/
def Distinct (l : List Dirent) : Prop :=
  l.Pairwise fun e f => e.inum.isSome → f.inum.isSome → e.name ≠ f.name

/-! ## `dirlookup` -/

theorem dirlookup_some (h : dirlookup name l = some (k, n)) : l[k]? = some ⟨some n, name⟩ := by
  induction l generalizing k with
  | nil => cases h
  | cons de l ih =>
      obtain ⟨inum, s⟩ := de
      have hrest : (dirlookup name l).map (fun r => (r.1 + 1, r.2)) = some (k, n) →
          (⟨inum, s⟩ :: l)[k]? = some ⟨some n, name⟩ := by
        intro hmap
        obtain ⟨⟨k', n'⟩, hk, he⟩ := Option.map_eq_some_iff.mp hmap
        obtain ⟨rfl, rfl⟩ := Prod.mk.inj he
        exact ih hk
      cases inum with
      | none => exact hrest h
      | some m =>
          rw [dirlookup] at h
          dsimp only at h
          split at h
          · rename_i hs
            obtain ⟨rfl, rfl⟩ := Prod.mk.inj (Option.some.inj h)
            rw [← hs]
            rfl
          · exact hrest h

theorem dirlookup_none (h : dirlookup name l = none) : ∀ e ∈ l, e.inum.isSome → e.name ≠ name := by
  induction l with
  | nil =>
      intro e he
      cases he
  | cons de l ih =>
      obtain ⟨inum, s⟩ := de
      intro e he hsome
      cases inum with
      | none =>
          have hl : dirlookup name l = none := Option.map_eq_none_iff.mp h
          rcases List.mem_cons.mp he with rfl | he
          · cases hsome
          · exact ih hl e he hsome
      | some m =>
          rw [dirlookup] at h
          dsimp only at h
          split at h
          · cases h
          · rename_i hs
            rcases List.mem_cons.mp he with rfl | he
            · exact hs
            · exact ih (Option.map_eq_none_iff.mp h) e he hsome

/-! ## `dirlink` -/

theorem mem_dirlink (h : e ∈ dirlink de l) : e = de ∨ e ∈ l := by
  induction l with
  | nil => exact .inl (List.mem_singleton.mp h)
  | cons f l ih =>
      unfold dirlink at h
      split at h
      · rcases List.mem_cons.mp h with he | h
        · exact .inl he
        · exact .inr (List.mem_cons_of_mem f h)
      · rcases List.mem_cons.mp h with he | h
        · exact .inr (he ▸ List.mem_cons_self)
        · exact (ih h).imp_right (List.mem_cons_of_mem f)

theorem targets_dirlink : (targets (dirlink ⟨some n, name⟩ l)).Perm (n :: targets l) := by
  induction l with
  | nil => exact List.Perm.refl _
  | cons e l ih =>
      obtain ⟨inum, s⟩ := e
      cases inum with
      | none => exact List.Perm.refl _
      | some m => exact (ih.cons m).trans (List.Perm.swap n m _)

theorem distinct_dirlink (h : Distinct l) (hnone : dirlookup name l = none) :
    Distinct (dirlink ⟨some n, name⟩ l) := by
  have hfresh := dirlookup_none hnone
  clear hnone
  induction l with
  | nil => exact List.pairwise_singleton _ _
  | cons e l ih =>
      obtain ⟨he, hl⟩ := List.pairwise_cons.mp h
      unfold dirlink
      split
      · refine List.pairwise_cons.mpr ⟨?_, hl⟩
        intro f hf _ hsome
        exact (hfresh f (List.mem_cons_of_mem e hf) hsome).symm
      · refine List.pairwise_cons.mpr ⟨?_, ih hl fun f hf => hfresh f (List.mem_cons_of_mem e hf)⟩
        intro f hf hesome hfsome
        rcases mem_dirlink hf with rfl | hf
        · exact hfresh e List.mem_cons_self hesome
        · exact he f hf hesome hfsome

/-! ## Clearing an entry -/

theorem targets_set (h : l[k]? = some ⟨some n, name⟩) :
    (targets l).Perm (n :: targets (l.set k ⟨none, []⟩)) := by
  induction l generalizing k with
  | nil => cases h
  | cons e l ih =>
      cases k with
      | zero =>
          obtain rfl := Option.some.inj h
          exact List.Perm.refl _
      | succ k =>
          have hrest := ih (k := k) h
          obtain ⟨inum, s⟩ := e
          cases inum with
          | none => exact hrest
          | some m => exact (hrest.cons m).trans (List.Perm.swap n m _)

theorem distinct_set (h : Distinct l) : Distinct (l.set k ⟨none, []⟩) := by
  induction l generalizing k with
  | nil => exact h
  | cons e l ih =>
      obtain ⟨he, hl⟩ := List.pairwise_cons.mp h
      cases k with
      | zero =>
          refine List.pairwise_cons.mpr ⟨?_, hl⟩
          intro f _ hnone
          cases hnone
      | succ k =>
          refine List.pairwise_cons.mpr ⟨?_, ih hl⟩
          intro f hf hesome hfsome
          rcases List.mem_or_eq_of_mem_set hf with hf | rfl
          · exact he f hf hesome hfsome
          · cases hfsome

end Cs537.Names
