/-
# `Cs537.CheckedFs.Icache` — the inode cache

What `iget`, `ilock` and `iput` do to the slots.  A slot with references is
the only one for its inode: `iget` takes that slot if there is one, and an
empty slot otherwise.
-/
import Cs537.CheckedFs.Fs

namespace Cs537.CheckedFs

def firstSlot : Slot := ⟨0, by decide⟩
def secondSlot : Slot := ⟨1, by decide⟩

section

variable {fs fs' : Fs} {i j : Slot} {ip : Inode} {inum : Nat}

@[simp] theorem setInode_disk : (fs.setInode i ip).disk = fs.disk := rfl

@[simp] theorem setInode_self : (fs.setInode i ip).icache i = ip := Function.update_self ..

theorem setInode_of_ne (h : j ≠ i) : (fs.setInode i ip).icache j = fs.icache j :=
  Function.update_of_ne h ..

@[simp] theorem setInode_setInode {ip' : Inode} :
    (fs.setInode i ip).setInode i ip' = fs.setInode i ip' := by
  simp only [Fs.setInode, Function.update_idem]

/-- Slot `i` holds references to `inum`. -/
def Caches (fs : Fs) (i : Slot) (inum : Nat) : Prop :=
  0 < (fs.icache i).ref ∧ (fs.icache i).inum = inum

instance (fs : Fs) (i : Slot) (inum : Nat) : Decidable (Caches fs i inum) :=
  inferInstanceAs (Decidable (_ ∧ _))

theorem iget_cases (h : iget fs inum = some (i, fs')) :
    (Caches fs i inum ∧ fs' = fs.setInode i { fs.icache i with ref := (fs.icache i).ref + 1 }) ∨
      ((∀ j, ¬ Caches fs j inum) ∧ (fs.icache i).ref = 0 ∧
        fs' = fs.setInode i { fs.icache i with inum := inum, ref := 1, valid := false }) := by
  rw [iget, igetSlot] at h
  cases hc : (List.finRange ninode).find? fun i =>
      decide (0 < (fs.icache i).ref ∧ (fs.icache i).inum = inum) with
  | some j =>
      simp only [hc, Option.some.injEq, Prod.mk.injEq] at h
      obtain ⟨rfl, rfl⟩ := h
      have hj := List.find?_some hc
      exact .inl ⟨of_decide_eq_true hj, rfl⟩
  | none =>
      have hno : ∀ j, ¬ Caches fs j inum := fun j hj => by
        have := List.find?_eq_none.mp hc j (List.mem_finRange j)
        simp only [decide_eq_true_eq] at this
        exact this hj
      cases he : (List.finRange ninode).find? fun i => decide ((fs.icache i).ref = 0) with
      | some j =>
          simp only [hc, he, Option.map_some, Option.some.injEq, Prod.mk.injEq] at h
          obtain ⟨rfl, rfl⟩ := h
          have hj := List.find?_some he
          exact .inr ⟨hno, of_decide_eq_true hj, rfl⟩
      | none =>
          simp only [hc, he, Option.map_none] at h
          cases h

/-- An inode without a slot gets an empty one, if there is any. -/
theorem iget_empty (hno : ∀ j, ¬ Caches fs j inum) (he : (fs.icache j).ref = 0) :
    ∃ i, iget fs inum =
      some (i, fs.setInode i { fs.icache i with inum := inum, ref := 1, valid := false }) := by
  have hc : ((List.finRange ninode).find? fun i =>
      decide (0 < (fs.icache i).ref ∧ (fs.icache i).inum = inum)) = none := by
    rw [List.find?_eq_none]
    intro j _ hj
    exact hno j (of_decide_eq_true hj)
  have hsome : ((List.finRange ninode).find? fun i => decide ((fs.icache i).ref = 0)).isSome := by
    rw [List.find?_isSome]
    exact ⟨j, List.mem_finRange j, decide_eq_true he⟩
  obtain ⟨i, hi⟩ := Option.isSome_iff_exists.mp hsome
  refine ⟨i, ?_⟩
  rw [iget, igetSlot, hc]
  simp only [hi, Option.map_some]

theorem ilock_cases (h : ilock fs i = some fs') :
    1 ≤ (fs.icache i).ref ∧
      (((fs.icache i).valid = true ∧ fs' = fs) ∨
        ((fs.icache i).valid = false ∧ (dinode fs.disk (fs.icache i).inum).type ≠ 0 ∧
          fs' = fs.setInode i { fs.icache i with
            toDinode := dinode fs.disk (fs.icache i).inum, valid := true })) := by
  rw [ilock] at h
  by_cases href : (fs.icache i).ref < 1
  · simp only [href, if_true] at h
    cases h
  · simp only [href, if_false] at h
    refine ⟨by omega, ?_⟩
    cases hv : (fs.icache i).valid with
    | true =>
        simp only [hv, if_true, Option.some.injEq] at h
        exact .inl ⟨rfl, h.symm⟩
    | false =>
        simp only [hv, Bool.false_eq_true, if_false] at h
        split at h
        · cases h
        · rename_i ht
          exact .inr ⟨rfl, ht, (Option.some.inj h).symm⟩

theorem ilock_load (href : 1 ≤ (fs.icache i).ref) (hv : (fs.icache i).valid = false)
    (ht : (dinode fs.disk (fs.icache i).inum).type ≠ 0) :
    ilock fs i = some (fs.setInode i { fs.icache i with
      toDinode := dinode fs.disk (fs.icache i).inum, valid := true }) := by
  have href' : ¬ (fs.icache i).ref < 1 := by omega
  rw [ilock]
  simp only [href', hv, ht, Bool.false_eq_true, if_false]

/-- `iput` of a slot that is not the last reference to an inode without links. -/
theorem iput_keep (fs : Fs) (i : Slot) (h : ¬ ((fs.icache i).ref = 1 ∧ (fs.icache i).valid = true ∧
    (fs.icache i).nlink = 0)) :
    iput fs i = some (fs.setInode i { fs.icache i with ref := (fs.icache i).ref - 1 }) := by
  rw [iput]
  simp only [h, if_false]

theorem ialloc_cases {type : BitVec 16} (h : ialloc fs type = some (i, fs')) :
    ∃ inum, inum < sbNinodes fs.disk ∧ (dinode fs.disk inum).type = 0 ∧
      iget { fs with disk := setDinode fs.disk inum ⟨type, 0, 0, 0, 0, fun _ => 0⟩ } inum
        = some (i, fs') := by
  rw [ialloc] at h
  split at h
  · cases h
  · rename_i inum hfind
    have hfree := List.find?_some hfind
    have hmem := List.mem_of_find?_eq_some hfind
    rw [List.mem_range'_1] at hmem
    exact ⟨inum, by omega, of_decide_eq_true hfree, h⟩

end

end Cs537.CheckedFs
