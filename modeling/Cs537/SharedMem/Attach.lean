/-
# `Cs537.SharedMem.Attach` — a `shmgetat` that fails (p3/xv6)

`shmgetat` raises `ref_count` and maps the pages one by one, downwards, each at
the next page that is not mapped.  The search goes past the bottom of the
address space when there is none, and ends at a missing page table: then the
call returns -1 and what was done so far stays.  On any directory this happens
just when the pages not mapped are fewer than those asked for (`shmMap_room`), so
a failure is without a trace just when it comes from the check of the arguments
(`shmgetat_iff`).
-/
import Cs537.SharedMem.Sharing

namespace Cs537.SharedMem

open Cs537.Lib

section

variable {k k' : Kernel} {pd : Pgdir} {p : Slot} {v w : Nat}

/-! ## The search, on any directory -/

/-- Every user page above `v` is mapped. -/
def MappedAbove (pd : Pgdir) (v : Nat) : Prop := ∀ w, v < w → w < userPages → (pd.upte w).isSome

/-- Without a page that is not mapped, the search ends at a missing page table. -/
theorem findFree_full (hfull : ∀ w < userPages, (pd.upte w).isSome) (fuel va : Nat) :
    findFree pd fuel va = none := by
  induction fuel generalizing va with
  | zero => rfl
  | succ fuel ih =>
      rw [findFree]
      split
      · rfl
      · rename_i hw
        rw [walkpgdir] at hw
        split at hw
        · rename_i hva
          have hp : va / pgsize < userPages := by
            simp only [usertop, pgsize, userPages] at *
            omega
          have hsome := hfull _ hp
          rw [Option.some.inj hw] at hsome
          cases hsome
        · split at hw
          · cases hw
          · cases hw
      · exact ih _

/-- Otherwise it finds the highest one. -/
theorem findFree_highest (hw : pd.upte w = none) (hwv : w ≤ v) (hv : v < userPages)
    (habove : MappedAbove pd w) {fuel : Nat} (hfuel : v < w + fuel) :
    findFree pd fuel (v * pgsize) = some (w * pgsize) := by
  induction fuel generalizing v with
  | zero => omega
  | succ fuel ih =>
      rw [findFree, walkpgdir_page pd hv]
      rcases Nat.eq_or_lt_of_le hwv with rfl | hlt
      · rw [hw]
      · obtain ⟨pa, hpa⟩ := Option.isSome_iff_exists.mp (habove v hlt hv)
        simp only [hpa]
        rw [prevPage_page (by omega) hv]
        exact ih (by omega) (by omega) (by omega)

/-- The highest page that is not mapped. -/
theorem highest_unmapped (habove : MappedAbove pd v) (hex : ∃ w < userPages, pd.upte w = none) :
    ∃ w ≤ v, w < userPages ∧ pd.upte w = none ∧ MappedAbove pd w := by
  obtain ⟨u, hu, hnone⟩ := hex
  induction v with
  | zero =>
      have hzero : u = 0 := by
        by_contra hne
        have hsome := habove u (Nat.pos_of_ne_zero hne) hu
        rw [hnone] at hsome
        cases hsome
      exact ⟨0, Nat.le_refl 0, hzero ▸ hu, hzero ▸ hnone, habove⟩
  | succ v ih =>
      by_cases hlast : v + 1 < userPages ∧ pd.upte (v + 1) = none
      · exact ⟨v + 1, Nat.le_refl _, hlast.1, hlast.2, habove⟩
      · have habove' : MappedAbove pd v := fun w hvw hw => by
          rcases Nat.eq_or_lt_of_le hvw with rfl | hlt
          · exact Option.isSome_iff_ne_none.mpr fun h => hlast ⟨hw, h⟩
          · exact habove w hlt hw
        obtain ⟨w, hwv, hrest⟩ := ih habove'
        exact ⟨w, Nat.le_succ_of_le hwv, hrest⟩

theorem userRoom_pos : 0 < userRoom pd ↔ ∃ w < userPages, pd.upte w = none := by
  rw [userRoom, Finset.card_pos]
  constructor
  · rintro ⟨w, hw⟩
    rw [Finset.mem_filter, Finset.mem_range] at hw
    exact ⟨w, hw⟩
  · rintro ⟨w, hw, hnone⟩
    exact ⟨w, Finset.mem_filter.mpr ⟨Finset.mem_range.mpr hw, hnone⟩⟩

/-- Mapping a page takes it from the room. -/
theorem userRoom_update (pa : Nat) (hw : w < userPages) (hnone : pd.upte w = none) :
    userRoom { pd with upte := Function.update pd.upte w (some pa) } + 1 = userRoom pd := by
  have hmem : w ∈ (Finset.range userPages).filter fun v => pd.upte v = none :=
    Finset.mem_filter.mpr ⟨Finset.mem_range.mpr hw, hnone⟩
  have herase : ((Finset.range userPages).filter fun v => Function.update pd.upte w (some pa) v = none) =
      ((Finset.range userPages).filter fun v => pd.upte v = none).erase w := by
    ext u
    by_cases hu : u = w
    · subst hu
      simp
    · simp [hu]
  rw [userRoom, herase]
  exact Finset.card_erase_add_one hmem

/-- The mapping loop of `shmgetat` gets through just when there is room. -/
theorem shmMap_room (ms : List Nat) (hv : v < userPages) (habove : MappedAbove pd v) :
    (shmMap ms pd (v * pgsize)).1.isSome ↔ ms.length ≤ userRoom pd := by
  induction ms generalizing pd v with
  | nil => exact iff_of_true rfl (Nat.zero_le _)
  | cons m ms ih =>
      by_cases hroom : 0 < userRoom pd
      · obtain ⟨w, hwv, hw, hnone, habove'⟩ := highest_unmapped habove (userRoom_pos.mp hroom)
        have hfind : findFree pd turn (v * pgsize) = some (w * pgsize) :=
          findFree_highest hnone hwv hv habove' (by simp only [turn, userPages] at *; omega)
        have habove₁ : MappedAbove { pd with upte := Function.update pd.upte w (some m) } w :=
          fun u hwu hu => by simpa [Nat.ne_of_gt hwu] using habove' u hwu hu
        have hcount := userRoom_update m hw hnone
        rw [shmMap, hfind]
        simp only [mappages_page m hw hnone]
        rw [ih hw habove₁, List.length_cons]
        omega
      · have hfull : ∀ w < userPages, (pd.upte w).isSome := fun w hw => by
          by_contra hno
          exact hroom (userRoom_pos.mpr ⟨w, hw, Option.not_isSome_iff_eq_none.mp hno⟩)
        rw [shmMap, findFree_full hfull, List.length_cons]
        simp only [Option.isSome_none, Bool.false_eq_true, false_iff]
        omega

/-! ## The call -/

/-- `shm_pa`, what `shmgetat` looks at of process `p`, and the free list are as before. -/
structure Untouched (k k' : Kernel) (p : Slot) : Prop where
  shm : k'.shmPa = k.shmPa
  pgdir : (k'.proc p).pgdir = (k.proc p).pgdir
  shmVa : (k'.proc p).shmVa = (k.proc p).shmVa
  shmSz : (k'.proc p).shmSz = (k.proc p).shmSz
  free : k'.freelist = k.freelist

theorem Untouched.refl (k : Kernel) (p : Slot) : Untouched k k p := ⟨rfl, rfl, rfl, rfl, rfl⟩

/-- Once the key has its pages: the call fails just when there is no room, and
then the count stays raised. -/
theorem shmEnter_cases {i : Key} {n : Nat} {r : Int} (hn : n ≤ 4)
    (h : shmEnter k p pd i n = (r, k')) :
    n ≤ userRoom pd ∧ r ≠ -1 ∨
      userRoom pd < n ∧ r = -1 ∧ (k'.shmPa i).refCount = (k.shmPa i).refCount + 1 := by
  have habove : MappedAbove pd (userPages - 1) := fun w h1 h2 => by omega
  have htop : usertop - pgsize = (userPages - 1) * pgsize := rfl
  have hroom := shmMap_room
    (pagePtrs { k.shmPa i with refCount := (k.shmPa i).refCount + 1, numPages := n } n) (by decide) habove
  rw [length_pagePtrs hn, ← htop] at hroom
  rw [shmEnter] at h
  simp only at h
  split at h
  · rename_i pd' hmap
    rw [hmap] at hroom
    obtain ⟨rfl, rfl⟩ := Prod.mk.inj h
    refine .inr ⟨Nat.lt_of_not_le fun hle => ?_, rfl, ?_⟩
    · cases hroom.mpr hle
    · simp
  · rename_i vaddr pd' hmap
    rw [hmap] at hroom
    obtain ⟨rfl, -⟩ := Prod.mk.inj h
    exact .inl ⟨hroom.mp rfl, by omega⟩

/-- Nothing to attach. -/
theorem shmgetat_idle {key num r : Int} (hat : attachEvent k p (.shmgetat key num) = none)
    (h : shmgetat k p key num = some (r, k')) : k' = k := by
  rw [shmgetat] at h
  split at h
  · exact (Prod.mk.inj (Option.some.inj h)).2.symm
  · rename_i i n hargs
    have hva : (k.proc p).shmVa i ≠ usertop := by
      rw [attachEvent, hargs] at hat
      intro hva
      simp [Option.filter, hva] at hat
    rw [if_pos hva] at h
    exact (Prod.mk.inj (Option.some.inj h)).2.symm

/-- A key to attach. -/
theorem shmgetat_attach {key num r : Int} {i : Key} {n : Nat}
    (hat : attachEvent k p (.shmgetat key num) = some (i, n)) (h : shmgetat k p key num = some (r, k')) :
    ∃ pd, (k.proc p).pgdir = some pd ∧ (n ≤ userRoom pd ∧ r ≠ -1 ∨
      userRoom pd < n ∧ r = -1 ∧ (k'.shmPa i).refCount = (k.shmPa i).refCount + 1) := by
  rw [attachEvent] at hat
  obtain ⟨hargs, hva⟩ := Option.filter_eq_some_iff.mp hat
  have hn := (shmArgs_some hargs).2
  rw [shmgetat, hargs] at h
  simp only [of_decide_eq_true hva, ne_eq, not_true_eq_false, if_false] at h
  split at h
  · cases h
  · rename_i pd hpd
    obtain ⟨k₁, hprep, henter⟩ := Option.map_eq_some_iff.mp h
    obtain ⟨-, -, href, -, -⟩ := shmPrepare_spec hn hprep
    rw [← href]
    exact ⟨pd, hpd, shmEnter_cases hn henter⟩

/-- A `shmgetat` that returns -1 leaves no trace just when there is room for the
pages, or nothing to attach: the arguments are illegal, or the process is
attached to the key. -/
theorem shmgetat_iff {key num r : Int} (h : shmgetat k p key num = some (r, k')) :
    (r = -1 → Untouched k k' p) ↔
      ∀ a ∈ attachEvent k p (.shmgetat key num), ∀ pd ∈ (k.proc p).pgdir, a.2 ≤ userRoom pd := by
  rcases hat : attachEvent k p (.shmgetat key num) with _ | ⟨i, n⟩
  · obtain rfl := shmgetat_idle hat h
    exact iff_of_true (fun _ => Untouched.refl k' p) nofun
  · obtain ⟨pd, hpd, hcases⟩ := shmgetat_attach hat h
    rw [hpd]
    simp only [Option.mem_def, Option.some.injEq, forall_eq']
    rcases hcases with ⟨hroom, hr⟩ | ⟨hroom, hr, hcount⟩
    · exact iff_of_true (fun he => absurd he hr) hroom
    · refine iff_of_false (fun hun => ?_) (Nat.not_le.mpr hroom)
      have hsame : (k'.shmPa i).refCount = (k.shmPa i).refCount := by rw [(hun hr).shm]
      omega

end

theorem shmgetat_iff_booted : shmgetat booted.k 0 8 1 = some (-1, booted.k) ∧
    Untouched booted.k booted.k 0 := by
  have hget : shmgetat booted.k 0 8 1 = some (-1, booted.k) := rfl
  have hnone : attachEvent booted.k 0 (.shmgetat 8 1) = none := rfl
  exact ⟨hget, (shmgetat_iff hget).mpr (by rw [hnone]; exact nofun) rfl⟩

/-- A program that leaves one user page free. -/
def bigFile : ExecFile := ⟨true, [⟨true, true, 0, 158 * 4096, 0, true⟩], true⟩

def bigRun : List (Slot × Call) := [(0, .exec bigFile)]

theorem attach_traced : ¬ ∀ es s, run step booted es = some s → ∀ p key num k',
    shmgetat s.k p key num = some (-1, k') → Untouched s.k k' p := by
  intro h
  have hok : AllSteps step StepOk booted bigRun := by
    rw [booted_eq]
    decide +kernel
  have hrun : (run step booted bigRun).map (fun s => decide (Live s.k 0 ∧ npages (s.k.proc 0).sz = 159 ∧
      attachEvent s.k 0 (.shmgetat 0 2) = some (0, 2) ∧ (shmgetat s.k 0 0 2).isSome)) = some true := by
    rw [booted_eq]
    decide +kernel
  obtain ⟨s, hs, heq⟩ := Option.map_eq_some_iff.mp hrun
  obtain ⟨hlive, hsize, hat, hsome⟩ := of_decide_eq_true heq
  obtain ⟨⟨r, k'⟩, hget⟩ := Option.isSome_iff_exists.mp hsome
  have hinv := (sysInv_run bootSys_eq freeAtBoot_nodup zero_notMem_freeAtBoot hok).last hs
  obtain ⟨pd, lo, hspace⟩ := hinv.inv.space 0 hlive.real
  have hroom := hspace.shaped.room_eq hspace.high
  have hhigh := hspace.high
  obtain ⟨pd', hpd', hcases⟩ := shmgetat_attach hat hget
  obtain rfl := Option.some.inj (hspace.pgdir.symm.trans hpd')
  rcases hcases with ⟨hle, -⟩ | ⟨-, rfl, hcount⟩
  · rw [hroom, hsize] at hle
    simp only [userPages] at hhigh
    omega
  · rw [(h bigRun s hs 0 0 2 k' hget).shm] at hcount
    omega

end Cs537.SharedMem
