/-
# `Cs537.SharedMem.Checked` — the pages on the free list (p3/xv6)

`kfree` panics on an address that is not aligned, or not between `end` and
`PHYSTOP`, and nothing else puts a page on the free list.  So it accepts every
page that comes from there, in every run (`freeOk_run`): a call that fails, and
gives back what it took, does not panic over it.
-/
import Cs537.SharedMem.System

namespace Cs537.SharedMem

open Cs537.Lib

section

variable {k k' : Kernel} {pd pd' : Pgdir} {vs : List Nat}

/-- `kfree` accepts every page on the free list. -/
def FreeOk (k : Kernel) : Prop := ∀ v ∈ k.freelist, v % pgsize = 0 ∧ k.kend ≤ v ∧ v < phystop

theorem FreeOk.took {pre : List Nat} (h : FreeOk k) (ht : Took k pre k') : FreeOk k' := by
  rw [Took] at ht
  intro v hv
  rw [ht] at h
  exact h v (List.mem_append_right pre hv)

theorem kalloc_freeOk {r : Option Nat} (h : FreeOk k) (hk : kalloc k = (r, k')) : FreeOk k' := by
  cases r with
  | none => exact (kalloc_none hk).1 ▸ h
  | some pg => exact h.took (kalloc_some hk)

theorem setupkvm_freeOk {r : Option Pgdir} (h : FreeOk k) (hk : setupkvm k = (r, k')) : FreeOk k' := by
  cases r with
  | none =>
      obtain ⟨pre, ht⟩ := setupkvm_none hk
      exact h.took ht
  | some pd => exact h.took (setupkvm_some hk).1

/-! ## Giving back -/

theorem kfree_freeOk {v : Nat} (h : FreeOk k) (hk : kfree k v = some k') : FreeOk k' := by
  rw [kfree] at hk
  split at hk
  · cases hk
  · rename_i hv
    obtain rfl := Option.some.inj hk
    intro w hw
    rcases List.mem_cons.mp hw with rfl | hw
    · simp only
      omega
    · exact h w hw

theorem kfreeAll_freeOk (h : FreeOk k) (hk : kfreeAll vs k = some k') : FreeOk k' := by
  induction vs generalizing k with
  | nil => exact Option.some.inj hk ▸ h
  | cons v vs ih =>
      obtain ⟨k₁, hfree, hk⟩ := Option.bind_eq_some_iff.mp hk
      exact ih (kfree_freeOk h hfree) hk

theorem deallocuvmLoop_freeOk (h : FreeOk k) (hk : deallocuvmLoop vs k pd = some (k', pd')) :
    FreeOk k' := by
  induction vs generalizing k pd with
  | nil => exact (Prod.mk.inj (Option.some.inj hk)).1 ▸ h
  | cons v vs ih =>
      rw [deallocuvmLoop] at hk
      split at hk
      · split at hk
        · cases hk
        · obtain ⟨k₁, hfree, hk⟩ := Option.bind_eq_some_iff.mp hk
          exact ih (kfree_freeOk h hfree) hk
      · exact ih h hk

theorem deallocuvm_freeOk {oldsz newsz r : Nat} (h : FreeOk k)
    (hk : deallocuvm k pd oldsz newsz = some (r, k', pd')) : FreeOk k' := by
  rw [deallocuvm] at hk
  split at hk
  · cases hk
    exact h
  · obtain ⟨⟨k₁, pd₁⟩, hloop, heq⟩ := Option.map_eq_some_iff.mp hk
    cases heq
    exact deallocuvmLoop_freeOk h hloop

theorem checkifshared_freeOk {v pa : Nat} (h : FreeOk k) (hk : checkifshared k pd v pa = some (k', pd')) :
    FreeOk k' := by
  rw [checkifshared] at hk
  split at hk
  · cases hk
    exact h
  · obtain ⟨⟨k₁, pd₁⟩, hfreed, heq⟩ := Option.map_eq_some_iff.mp hk
    have h₁ : FreeOk k₁ := by
      split at hfreed
      · split at hfreed
        · cases hfreed
        · obtain ⟨k₂, hfree, heq⟩ := Option.map_eq_some_iff.mp hfreed
          cases heq
          exact kfree_freeOk h hfree
      · cases hfreed
        exact h
    simp only at heq
    split at heq
    · cases heq
      exact h₁
    · cases heq
      exact h₁

theorem deallocshmLoop_freeOk (h : FreeOk k) (hk : deallocshmLoop vs k pd = some (k', pd')) :
    FreeOk k' := by
  induction vs generalizing k pd with
  | nil => exact (Prod.mk.inj (Option.some.inj hk)).1 ▸ h
  | cons v vs ih =>
      rw [deallocshmLoop] at hk
      split at hk
      · obtain ⟨⟨k₁, pd₁⟩, hcheck, hk⟩ := Option.bind_eq_some_iff.mp hk
        exact ih (checkifshared_freeOk h hcheck) hk
      · exact ih h hk

theorem freevm_freeOk {sz : Nat} (h : FreeOk k) (hk : freevm k pd sz = some k') : FreeOk k' := by
  simp only [freevm, Option.bind_eq_bind, Option.bind_eq_some_iff] at hk
  obtain ⟨⟨r, k₁, pd₁⟩, hlow, ⟨k₂, pd₂⟩, hshm, k₃, htables, hdir⟩ := hk
  have h₂ : FreeOk k₂ := by
    rw [deallocshm] at hshm
    split at hshm
    · cases hshm
      exact deallocuvm_freeOk h hlow
    · exact deallocshmLoop_freeOk (deallocuvm_freeOk h hlow) hshm
  exact kfree_freeOk (kfreeAll_freeOk h₂ htables) hdir

/-! ## Growing and copying -/

theorem allocuvmLoop_freeOk {e : AllocEnd} (h : FreeOk k) (hk : allocuvmLoop vs k pd = (e, k', pd')) :
    FreeOk k' := by
  induction vs generalizing k pd with
  | nil =>
      cases hk
      exact h
  | cons v vs ih =>
      rw [allocuvmLoop] at hk
      split at hk
      · rename_i hnone
        cases hk
        exact kalloc_freeOk h hnone
      · rename_i hsome
        split at hk
        · cases hk
          exact kalloc_freeOk h hsome
        · exact ih (kalloc_freeOk h hsome) hk

theorem allocuvm_freeOk {oldsz newsz r : Nat} (h : FreeOk k)
    (hk : allocuvm k pd oldsz newsz = some (r, k', pd')) : FreeOk k' := by
  rw [allocuvm] at hk
  split at hk
  · cases hk
    exact h
  · split at hk
    · cases hk
      exact h
    · split at hk
      · rename_i hloop
        cases hk
        exact allocuvmLoop_freeOk h hloop
      · rename_i hloop
        obtain ⟨⟨r', k₁, pd₁⟩, hd, heq⟩ := Option.map_eq_some_iff.mp hk
        cases heq
        exact deallocuvm_freeOk (allocuvmLoop_freeOk h hloop) hd
      · rename_i hloop
        cases hk
        exact allocuvmLoop_freeOk h hloop

theorem copyuvmLoop_freeOk {e : CopyEnd} {src : Pgdir} (h : FreeOk k)
    (hk : copyuvmLoop src vs k pd = some (e, k', pd')) : FreeOk k' := by
  induction vs generalizing k pd with
  | nil =>
      cases hk
      exact h
  | cons v vs ih =>
      rw [copyuvmLoop] at hk
      split at hk
      · split at hk
        · rename_i hnone
          cases hk
          exact kalloc_freeOk h hnone
        · rename_i hsome
          split at hk
          · cases hk
            exact kalloc_freeOk h hsome
          · exact ih (kalloc_freeOk h hsome) hk
      · cases hk

theorem copyuvm_freeOk {r : Option Pgdir} {src : Pgdir} {sz : Nat} (h : FreeOk k)
    (hk : copyuvm k src sz = some (r, k')) : FreeOk k' := by
  rw [copyuvm] at hk
  split at hk
  · rename_i hnone
    cases hk
    exact setupkvm_freeOk h hnone
  · rename_i hsome
    have h₁ := setupkvm_freeOk h hsome
    split at hk
    · cases hk
    · rename_i hloop
      cases hk
      exact copyuvmLoop_freeOk h₁ hloop
    · rename_i hloop
      obtain ⟨k₁, hfree, heq⟩ := Option.map_eq_some_iff.mp hk
      cases heq
      exact freevm_freeOk (copyuvmLoop_freeOk h₁ hloop) hfree

theorem execLoad_freeOk {phs : List Phdr} {sz sz' : Nat} {ok : Bool} (h : FreeOk k)
    (hk : execLoad phs k pd sz = some (ok, k', pd', sz')) : FreeOk k' := by
  induction phs generalizing k pd sz with
  | nil =>
      cases hk
      exact h
  | cons ph phs ih =>
      rw [execLoad] at hk
      split at hk
      · cases hk
        exact h
      · split at hk
        · exact ih h hk
        · split at hk
          · cases hk
            exact h
          · split at hk
            · cases hk
            · rename_i halloc
              have h₁ := allocuvm_freeOk h halloc
              split at hk
              · cases hk
                exact h₁
              · split at hk
                · cases hk
                · split at hk
                  · cases hk
                    exact h₁
                  · exact ih h₁ hk

theorem execBuild_freeOk {f : ExecFile} {sz : Nat} {ok : Bool} (h : FreeOk k)
    (hk : execBuild f k pd = some (ok, k', pd', sz)) : FreeOk k' := by
  rw [execBuild] at hk
  split at hk
  · cases hk
  · rename_i hload
    cases hk
    exact execLoad_freeOk h hload
  · rename_i hload
    have h₁ := execLoad_freeOk h hload
    simp only at hk
    split at hk
    · cases hk
    · rename_i halloc
      have h₂ := allocuvm_freeOk h₁ halloc
      split at hk
      · cases hk
        exact h₂
      · cases hk
        exact h₂

/-! ## The calls -/

variable {p : Slot} {r : Int}

theorem shmAlloc_freeOk {i : Key} {n j : Nat} (h : FreeOk k) (hk : shmAlloc i n j k = some k') :
    FreeOk k' := by
  induction n generalizing k j with
  | zero => exact Option.some.inj hk ▸ h
  | succ n ih =>
      rw [shmAlloc] at hk
      split at hk
      · cases hk
      · rename_i hsome
        have h₁ := kalloc_freeOk h hsome
        refine ih ?_ hk
        exact h₁

theorem shmgetat_freeOk {key n : Int} (h : FreeOk k) (hk : shmgetat k p key n = some (r, k')) :
    FreeOk k' := by
  rw [shmgetat] at hk
  split at hk
  · cases hk
    exact h
  · split at hk
    · cases hk
      exact h
    · split at hk
      · cases hk
      · obtain ⟨k₁, halloc, heq⟩ := Option.map_eq_some_iff.mp hk
        have h₁ : FreeOk k₁ := by
          split at halloc
          · exact shmAlloc_freeOk h halloc
          · cases halloc
            exact h
        simp only [shmEnter] at heq
        split at heq
        · cases heq
          exact h₁
        · cases heq
          exact h₁

theorem allocproc_freeOk {np : Option Slot} (h : FreeOk k) (hk : allocproc k = (np, k')) : FreeOk k' := by
  cases np with
  | none =>
      obtain rfl | ⟨np, q, -, -, rfl⟩ := allocproc_none hk
      · exact h
      · exact h
  | some np =>
      obtain ⟨-, stack, q, hfl, hk', -⟩ := allocproc_some hk
      intro v hv
      rw [hk']
      exact h v (hfl ▸ List.mem_cons_of_mem stack hv)

theorem fork_freeOk (h : FreeOk k) (hk : fork k p = some (r, k')) : FreeOk k' := by
  rw [fork] at hk
  split at hk
  · rename_i hnone
    cases hk
    exact allocproc_freeOk h hnone
  · rename_i k₁ hsome
    have h₁ := allocproc_freeOk h hsome
    simp only [Option.bind_eq_bind, Option.bind_eq_some_iff] at hk
    obtain ⟨pd, -, ⟨copy, k₂⟩, hcopy, hk⟩ := hk
    have h₂ := copyuvm_freeOk h₁ hcopy
    cases copy with
    | none =>
        simp only [Option.bind_eq_some_iff] at hk
        obtain ⟨stack, -, k₃, hfree, heq⟩ := hk
        cases heq
        have h₃ := kfree_freeOk h₂ hfree
        exact h₃
    | some d =>
        simp only at hk
        split at hk
        · cases hk
          exact h₂
        · cases hk
          exact h₂

theorem exec_freeOk {f : ExecFile} (h : FreeOk k) (hk : exec k p f = some (r, k')) : FreeOk k' := by
  rw [exec] at hk
  split at hk
  · cases hk
    exact h
  · split at hk
    · rename_i hnone
      cases hk
      exact setupkvm_freeOk h hnone
    · rename_i hsome
      have h₁ := setupkvm_freeOk h hsome
      split at hk
      · cases hk
      · rename_i hbuild
        obtain ⟨k₃, hfree, heq⟩ := Option.map_eq_some_iff.mp hk
        cases heq
        exact freevm_freeOk (execBuild_freeOk h₁ hbuild) hfree
      · rename_i hbuild
        have h₂ := execBuild_freeOk h₁ hbuild
        simp only [Option.bind_eq_bind, Option.bind_eq_some_iff] at hk
        obtain ⟨old, -, k₃, hfree, heq⟩ := hk
        cases heq
        refine freevm_freeOk ?_ hfree
        exact h₂

theorem wait_freeOk (h : FreeOk k) (hk : wait k p = some (r, k')) : FreeOk k' := by
  rw [wait] at hk
  split at hk
  · cases hk
    exact h
  · simp only [Option.bind_eq_bind, Option.bind_eq_some_iff] at hk
    obtain ⟨stack, -, k₁, hstack, pd, -, k₂, hfree, heq⟩ := hk
    cases heq
    have h₂ := freevm_freeOk (kfree_freeOk h hstack) hfree
    exact h₂

theorem exit_freeOk (h : FreeOk k) (hk : exit k p = some k') : FreeOk k' := by
  rw [exit] at hk
  split at hk
  · cases hk
  · cases hk
    exact h

theorem call_freeOk {c : Call} (h : FreeOk k) (hk : call k p c = some (r, k')) : FreeOk k' := by
  cases c with
  | shmgetat key n => exact shmgetat_freeOk h hk
  | fork => exact fork_freeOk h hk
  | exec f => exact exec_freeOk h hk
  | exit =>
      obtain ⟨k₁, hexit, heq⟩ := Option.map_eq_some_iff.mp hk
      cases heq
      exact exit_freeOk h hexit
  | wait => exact wait_freeOk h hk

end

/-! ## Runs -/

theorem step_freeOk {s t : Sys} {e : Slot × Call} (h : FreeOk s.k) (hstep : step s e = some t) :
    FreeOk t.k := by
  rw [step] at hstep
  split at hstep
  · obtain ⟨⟨r, k'⟩, hcall, rfl⟩ := Option.map_eq_some_iff.mp hstep
    exact call_freeOk h hcall
  · cases hstep

/-- The pages that `kinit` frees pass. -/
theorem kinitPages_freeOk (kend : Nat) : FreeOk (bootKernel kend (kinitPages kend).reverse) := by
  intro v hv
  obtain ⟨w, hw, rfl⟩ := List.mem_map.mp (List.mem_reverse.mp hv)
  rw [List.mem_range'_1] at hw
  simp only [bootKernel, npages, pgsize, phystop] at *
  omega

theorem userinit_freeOk {k k' : Kernel} (h : FreeOk k) (hk : userinit k = some k') : FreeOk k' := by
  rw [userinit] at hk
  split at hk
  · cases hk
  · rename_i hproc
    have h₁ := allocproc_freeOk h hproc
    split at hk
    · cases hk
    · rename_i hkvm
      have h₂ := setupkvm_freeOk h₁ hkvm
      split at hk
      · cases hk
      · rename_i hmem
        obtain ⟨pd, -, heq⟩ := Option.bind_eq_some_iff.mp hk
        cases heq
        have h₃ := kalloc_freeOk h₂ hmem
        exact h₃

/-- The run lemma. -/
theorem freeOk_run {kend : Nat} {fl : List Nat} {s t : Sys} {es : List (Slot × Call)}
    (hboot : bootSys kend fl = some s) (hfl : FreeOk (bootKernel kend fl)) (hrun : run step s es = some t) :
    FreeOk t.k := by
  obtain ⟨k, hk, hs⟩ := Option.map_eq_some_iff.mp hboot
  have hstart : FreeOk s.k := by
    rw [← hs]
    exact userinit_freeOk hfl hk
  have hstates : AllStates step (fun u => FreeOk u.k) s es :=
    allStates_of_step (fun _ _ _ h hstep => step_freeOk h hstep) hstart
  exact hstates.last hrun

end Cs537.SharedMem
