/-
# `Cs537.SharedMem.Layout` — the address space of a process

Every page table of a running process has the same shape: its own pages from
0 up to `sz`, shared pages from some page `lo` up to `USERTOP`, and nothing in
between (`Shaped`).  The downward searches of `shmgetat` and `fork` rest on
that shape alone:

* `findFree` finds page `lo - 1` from anywhere above it;
* the mapping loop of `shmgetat` puts its pages at `lo - 1`, `lo - 2`, …;
* the copy loop of `fork` copies exactly the shared pages.

The last section is the same kind of statement for `allocproc` and for the
part of `exec` before its commit.
-/
import Cs537.SharedMem.Paging
import Mathlib.Data.Finset.Card
import Mathlib.Order.Interval.Finset.Nat

namespace Cs537.SharedMem

/-- The user pages mapped are those below `h` and those from `lo` on. -/
def Shaped (pd : Pgdir) (h lo : Nat) : Prop :=
  ∀ v, (pd.upte v).isSome ↔ v < h ∨ (lo ≤ v ∧ v < userPages)

theorem Shaped.mapped {pd : Pgdir} {h lo v : Nat} (hs : Shaped pd h lo) (hlo : lo ≤ v)
    (hv : v < userPages) : ∃ pa, pd.upte v = some pa :=
  Option.isSome_iff_exists.mp ((hs v).mpr (.inr ⟨hlo, hv⟩))

theorem Shaped.unmapped {pd : Pgdir} {h lo v : Nat} (hs : Shaped pd h lo) (hh : h ≤ v)
    (hlo : v < lo) : pd.upte v = none := by
  have := (hs v).not.mpr (by omega)
  simpa using this

theorem Built.shaped {pd : Pgdir} {n : Nat} (hb : Built pd n) : Shaped pd n userPages := by
  intro v
  rw [hb v]
  omega

/-- How many user pages are not mapped. -/
def userRoom (pd : Pgdir) : Nat :=
  ((Finset.range userPages).filter fun v => pd.upte v = none).card

theorem Shaped.room_eq {pd : Pgdir} {h lo : Nat} (hs : Shaped pd h lo) (hlo : lo ≤ userPages) :
    userRoom pd = lo - h := by
  have heq : ((Finset.range userPages).filter fun v => pd.upte v = none) = Finset.Ico h lo := by
    ext v
    simp only [Finset.mem_filter, Finset.mem_range, Finset.mem_Ico]
    have := hs v
    rw [← Option.not_isSome_iff_eq_none, this]
    omega
  rw [userRoom, heq, Nat.card_Ico]

/-! ## The downward searches -/

theorem prevPage_page {v : Nat} (hv : 0 < v) (hv' : v < userPages) :
    prevPage (v * pgsize) = (v - 1) * pgsize := by
  simp only [prevPage, pgsize, userPages] at *
  omega

/-- From any page down to which everything above `lo` is mapped, the search
ends at `lo - 1`. -/
theorem findFree_spec {pd : Pgdir} {h lo : Nat} (hs : Shaped pd h lo) (hroom : h < lo) :
    ∀ {fuel v : Nat}, lo ≤ v + 1 → v < userPages → v + 2 ≤ lo + fuel →
      findFree pd fuel (v * pgsize) = some ((lo - 1) * pgsize)
  | 0, v, h1, _, h2 => by omega
  | fuel + 1, v, h1, hv, h2 => by
      simp only [findFree, walkpgdir_page pd hv]
      rcases Nat.eq_or_lt_of_le h1 with heq | hlt
      · have hn : pd.upte v = none := hs.unmapped (by omega) (by omega)
        simp only [hn, heq, Nat.add_sub_cancel]
      · obtain ⟨pa, hpa⟩ := hs.mapped (show lo ≤ v by omega) hv
        simp only [hpa, prevPage_page (show 0 < v by omega) hv]
        exact findFree_spec hs hroom (by omega) (by omega) (by omega)

theorem Shaped.update {pd : Pgdir} {h lo : Nat} (hs : Shaped pd h lo) (pa : Nat) (hroom : h < lo)
    (hlo : lo ≤ userPages) :
    Shaped { pd with upte := Function.update pd.upte (lo - 1) (some pa) } h (lo - 1) := by
  intro v
  by_cases hv : v = lo - 1
  · subst hv
    simp only [Function.update_self, Option.isSome_some, true_iff]
    omega
  · simp only [Function.update_of_ne hv]
    rw [hs v]
    omega

/-- The mapping loop of `shmgetat`, when there is room: page `i` of the list
ends up at user page `lo - 1 - i`. -/
theorem shmMap_spec : ∀ {ms : List Nat} {pd : Pgdir} {h lo v : Nat}, Shaped pd h lo →
    h + ms.length ≤ lo → lo ≤ userPages → lo ≤ v + 1 → v < userPages →
    ∃ pd', shmMap ms pd (v * pgsize)
        = (some (if ms = [] then v * pgsize else (lo - ms.length) * pgsize), pd') ∧
      pd'.dir = pd.dir ∧ pd'.tables = pd.tables ∧ Shaped pd' h (lo - ms.length) ∧
      (∀ i, ∀ hi : i < ms.length, pd'.upte (lo - 1 - i) = some ms[i]) ∧
      ∀ w, w < lo - ms.length ∨ lo ≤ w → pd'.upte w = pd.upte w
  | [], pd, h, lo, v, hs, _, _, _, _ => ⟨pd, by simp [shmMap], rfl, rfl, hs, by simp, by simp⟩
  | m :: ms, pd, h, lo, v, hs, hlen, hlo, hv, hv' => by
      simp only [List.length_cons] at hlen
      have hroom : h < lo := by omega
      have hfind : findFree pd turn (v * pgsize) = some ((lo - 1) * pgsize) :=
        findFree_spec hs hroom hv hv' (by simp only [turn, userPages] at *; omega)
      have hmap := mappages_page m (show lo - 1 < userPages by omega)
        (hs.unmapped (show h ≤ lo - 1 by omega) (by omega))
      obtain ⟨pd', h1, h2, h3, h4, h5, h6⟩ :=
        shmMap_spec (hs.update m hroom hlo)
          (show h + ms.length ≤ lo - 1 by omega) (by omega) (show lo - 1 ≤ lo - 1 + 1 by omega)
          (by omega)
      refine ⟨pd', ?_, h2, h3, ?_, fun i hi => ?_, fun w hw => ?_⟩
      · simp only [shmMap, hfind, hmap, h1, List.length_cons]
        simp only [reduceCtorEq, if_false, Prod.mk.injEq, Option.some.injEq, and_true]
        split
        · rename_i hnil
          simp [hnil]
        · congr 1
          omega
      · rw [List.length_cons, show lo - (ms.length + 1) = lo - 1 - ms.length by omega]
        exact h4
      · cases i with
        | zero =>
            rw [h6 _ (by omega)]
            simp
        | succ i =>
            have := h5 i (by simpa using hi)
            rw [show lo - 1 - (i + 1) = lo - 1 - 1 - i by omega, this]
            simp
      · simp only [List.length_cons] at hw
        rw [h6 w (by omega)]
        simp [show w ≠ lo - 1 by omega]

/-- The copy loop of `fork`, when some user page of the parent is free: the
child gets the parent's shared pages. -/
theorem forkCopy_spec {src : Pgdir} {h lo : Nat} (hs : Shaped src h lo) (hroom : h < lo) :
    ∀ (fuel : Nat) {v : Nat} {d : Pgdir}, lo ≤ v + 1 → v < userPages → v + 2 ≤ lo + fuel →
      (∀ w, lo ≤ w → w ≤ v → d.upte w = none) →
      ∃ d', forkCopy src fuel (v * pgsize) d = (some d', d') ∧
        d'.dir = d.dir ∧ d'.tables = d.tables ∧
        (∀ w, lo ≤ w → w ≤ v → d'.upte w = src.upte w) ∧
        ∀ w, w < lo ∨ v < w → d'.upte w = d.upte w
  | 0, v, d, h1, _, h2, _ => by omega
  | fuel + 1, v, d, h1, hv, h2, hd => by
      simp only [forkCopy, walkpgdir_page src hv]
      rcases Nat.eq_or_lt_of_le h1 with heq | hlt
      · have hn : src.upte v = none := hs.unmapped (by omega) (by omega)
        simp only [hn]
        exact ⟨d, rfl, rfl, rfl, fun w hw hw' => by omega, fun _ _ => rfl⟩
      · obtain ⟨pa, hpa⟩ := hs.mapped (show lo ≤ v by omega) hv
        simp only [hpa, prevPage_page (show 0 < v by omega) hv,
          mappages_page _ hv (hd v (by omega) le_rfl), Option.getD_some]
        obtain ⟨d', h3, h4, h5, h6, h7⟩ :=
          forkCopy_spec hs hroom fuel
            (d := { d with upte := Function.update d.upte v (some pa) })
            (show lo ≤ v - 1 + 1 by omega) (by omega) (show v - 1 + 2 ≤ lo + fuel by omega)
            (fun w hw hw' => by simp [show w ≠ v by omega, hd w hw (by omega)])
        refine ⟨d', h3, h4, h5, fun w hw hw' => ?_, fun w hw => ?_⟩
        · by_cases hwv : w = v
          · subst hwv
            rw [h7 w (by omega)]
            simp [hpa]
          · exact h6 w hw (by omega)
        · rw [h7 w (by omega)]
          simp [show w ≠ v by omega]

/-- With every user page of the parent mapped, the loop runs below address 0
and ends at a missing page table. -/
theorem forkCopy_full {src : Pgdir} (hfull : ∀ v < userPages, (src.upte v).isSome) :
    ∀ (fuel va : Nat) (d : Pgdir), (forkCopy src fuel va d).1 = none
  | 0, _, _ => rfl
  | fuel + 1, va, d => by
      simp only [forkCopy]
      split
      · rfl
      · rename_i hw
        simp only [walkpgdir] at hw
        split at hw
        · rename_i hva
          have hp : va / pgsize < userPages := by
            simp only [usertop, pgsize, userPages] at *
            omega
          have hn : src.upte (va / pgsize) = none := by simpa using hw
          have := hfull _ hp
          simp [hn] at this
        · split at hw <;> simp at hw
      · exact forkCopy_full hfull _ _ _

/-- What the child's directory is after the copy loop, from any parent. -/
theorem forkCopy_dir {src : Pgdir} : ∀ {fuel va : Nat} {d d' : Pgdir} {r : Option Pgdir},
    forkCopy src fuel va d = (r, d') → d'.dir = d.dir ∧ d'.tables = d.tables
  | 0, _, _, _, _, h => by
      simp only [forkCopy, Prod.mk.injEq] at h
      simp [← h.2]
  | fuel + 1, va, d, d', r, h => by
      simp only [forkCopy] at h
      split at h
      · simp only [Prod.mk.injEq] at h
        simp [← h.2]
      · simp only [Prod.mk.injEq] at h
        simp [← h.2]
      · rename_i pa _
        have hm : ((mappages d va pa).getD d).dir = d.dir ∧
            ((mappages d va pa).getD d).tables = d.tables := by
          simp only [mappages]
          split <;> simp
        obtain ⟨h1, h2⟩ := forkCopy_dir h
        exact ⟨h1.trans hm.1, h2.trans hm.2⟩

/-! ## Slots, and the new image of `exec` -/

theorem freeSlot_unused {k : Kernel} {p : Slot} (h : freeSlot k = some p) :
    (k.proc p).state = .unused := by
  simpa using List.find?_some h

@[simp] theorem setProc_self (k : Kernel) (p : Slot) (q : Proc) : (setProc k p q).proc p = q := by
  simp [setProc]

theorem setProc_of_ne (k : Kernel) {p r : Slot} (q : Proc) (h : r ≠ p) :
    (setProc k p q).proc r = k.proc r := by simp [setProc, h]

@[simp] theorem setProc_freelist (k : Kernel) (p : Slot) (q : Proc) :
    (setProc k p q).freelist = k.freelist := rfl

@[simp] theorem setProc_shmPa (k : Kernel) (p : Slot) (q : Proc) :
    (setProc k p q).shmPa = k.shmPa := rfl

/-- A fresh slot: embryo, with a stack and no shared pages. -/
theorem allocproc_some {k k' : Kernel} {np : Slot} (h : allocproc k = (some np, k')) :
    freeSlot k = some np ∧ ∃ stack q, k.freelist = stack :: k'.freelist ∧
      k' = { setProc k np q with freelist := k'.freelist, nextpid := k.nextpid + 1 } ∧
      q.state = .embryo ∧ q.kstack = some stack ∧ q.pgdir = (k.proc np).pgdir ∧
      q.shmVa = fun _ => usertop := by
  simp only [allocproc] at h
  split at h
  · cases h
  · rename_i p hp
    split at h
    · cases h
    · rename_i stack k₁ hk
      simp only [Prod.mk.injEq, Option.some.injEq] at h
      obtain ⟨rfl, rfl⟩ := h
      have ht := kalloc_some hk
      simp only [Took] at ht
      refine ⟨hp, stack,
        { k.proc p with
          state := .embryo, pid := k.nextpid, kstack := some stack
          shmSz := usertop, shmVa := fun _ => usertop }, ?_, ?_, rfl, rfl, rfl, rfl⟩
      · have := congrArg Kernel.freelist ht
        simpa using this
      · have h1 := congrArg Kernel.kend ht
        have h2 := congrArg Kernel.shmPa ht
        have h3 := congrArg Kernel.proc ht
        have h4 := congrArg Kernel.nextpid ht
        simp only [setProc] at h1 h2 h3 h4 ⊢
        simp only [← h1, ← h2, ← h3, ← h4, Function.update_idem]

theorem allocproc_none {k k' : Kernel} (h : allocproc k = (none, k')) :
    k' = k ∨ ∃ np q, freeSlot k = some np ∧ q.state = .unused ∧
      k' = { setProc k np q with nextpid := k.nextpid + 1 } := by
  simp only [allocproc] at h
  split at h
  · simp only [Prod.mk.injEq, true_and] at h
    exact .inl h.symm
  · rename_i p hp
    split at h
    · rename_i k₁ hk
      obtain ⟨rfl, -⟩ := kalloc_none hk
      simp only [Prod.mk.injEq, true_and] at h
      refine .inr ⟨p, { k.proc p with state := .unused, pid := k.nextpid, kstack := none },
        hp, rfl, ?_⟩
      rw [← h]
      simp [setProc, Function.update_idem]
    · cases h

/-- The load loop of `exec` maps the pages below some `n`, which is `sz`
unless `allocuvm` has just failed (`sz = 0`). -/
theorem execLoad_spec : ∀ {phs : List Phdr} {k k' : Kernel} {pd pd' : Pgdir} {sz sz' : Nat}
    {ok : Bool}, Built pd (npages sz) → sz ≤ usertop →
    execLoad phs k pd sz = some (ok, k', pd', sz') →
    ∃ n, n ≤ userPages ∧ Built pd' n ∧
      Moved k k' (lowPages pd (npages sz)) (lowPages pd' n) ∧ pd'.dir = pd.dir ∧
      pd'.tables = pd.tables ∧ sz' ≤ usertop ∧ (n = npages sz' ∨ ok = false ∧ sz' = 0)
  | [], k, k', pd, pd', sz, sz', ok, hb, hsz, h => by
      simp only [execLoad, Option.some.injEq, Prod.mk.injEq] at h
      obtain ⟨rfl, rfl, rfl, rfl⟩ := h
      exact ⟨_, npages_le_userPages hsz, hb, Moved.refl _ _, rfl, rfl, hsz, .inl rfl⟩
  | ph :: phs, k, k', pd, pd', sz, sz', ok, hb, hsz, h => by
      have here : ∀ {b : Bool}, some (b, k, pd, sz) = some (ok, k', pd', sz') →
          ∃ n, n ≤ userPages ∧ Built pd' n ∧
            Moved k k' (lowPages pd (npages sz)) (lowPages pd' n) ∧ pd'.dir = pd.dir ∧
            pd'.tables = pd.tables ∧ sz' ≤ usertop ∧
              (n = npages sz' ∨ ok = false ∧ sz' = 0) := by
        intro b hh
        simp only [Option.some.injEq, Prod.mk.injEq] at hh
        obtain ⟨rfl, rfl, rfl, rfl⟩ := hh
        exact ⟨_, npages_le_userPages hsz, hb, Moved.refl _ _, rfl, rfl, hsz, .inl rfl⟩
      simp only [execLoad] at h
      split at h
      · exact here h
      · split at h
        · exact execLoad_spec hb hsz h
        · split at h
          · exact here h
          · split at h
            · cases h
            · rename_i r k₁ pd₁ hal
              obtain ⟨n, h1, h2, h3, h4, h5, h6⟩ := allocuvm_spec hb hsz hal
              split at h
              · rename_i hr
                simp only [Option.some.injEq, Prod.mk.injEq] at h
                obtain ⟨rfl, rfl, rfl, rfl⟩ := h
                exact ⟨n, h1, h2, h3, h4, h5, by omega, .inr ⟨rfl, hr⟩⟩
              · rename_i hr
                obtain ⟨rfl, hru⟩ := h6 hr
                split at h
                · cases h
                · split at h
                  · simp only [Option.some.injEq, Prod.mk.injEq] at h
                    obtain ⟨rfl, rfl, rfl, rfl⟩ := h
                    exact ⟨_, h1, h2, h3, h4, h5, hru, .inl rfl⟩
                  · obtain ⟨n', g1, g2, g3, g4, g5, g6, g7⟩ := execLoad_spec h2 hru h
                    exact ⟨n', g1, g2, h3.trans g3, g4.trans h4, g5.trans h5, g6, g7⟩

theorem execBuild_spec {f : ExecFile} {k k' : Kernel} {pd pd' : Pgdir} {sz : Nat} {ok : Bool}
    (hb : Built pd 0) (h : execBuild f k pd = some (ok, k', pd', sz)) :
    ∃ n, n ≤ userPages ∧ Built pd' n ∧ Moved k k' [] (lowPages pd' n) ∧ pd'.dir = pd.dir ∧
      pd'.tables = pd.tables ∧ sz ≤ usertop ∧ (n = npages sz ∨ ok = false ∧ sz = 0) := by
  have h0 : (0 : Nat) ≤ usertop := Nat.zero_le _
  have hb₀ : Built pd (npages 0) := hb
  simp only [execBuild] at h
  split at h
  · cases h
  · rename_i k₁ pd₁ sz₁ hl
    simp only [Option.some.injEq, Prod.mk.injEq] at h
    obtain ⟨rfl, rfl, rfl, rfl⟩ := h
    exact execLoad_spec hb₀ h0 hl
  · rename_i k₁ pd₁ sz₁ hl
    obtain ⟨n, h1, h2, h3, h4, h5, h6, h7⟩ := execLoad_spec hb₀ h0 hl
    obtain rfl : n = npages sz₁ := by simpa using h7
    split at h
    · cases h
    · rename_i r k₂ pd₂ hal
      have hup : npages sz₁ * pgsize ≤ usertop := by
        simp only [userPages, usertop, pgsize] at *
        omega
      rw [← npages_mul (npages sz₁)] at h2 h3
      obtain ⟨m, g1, g2, g3, g4, g5, g6⟩ := allocuvm_spec h2 hup hal
      split at h
      · rename_i hr
        simp only [Option.some.injEq, Prod.mk.injEq] at h
        obtain ⟨rfl, rfl, rfl, rfl⟩ := h
        exact ⟨m, g1, g2, h3.trans g3, g4.trans h4, g5.trans h5, by omega, .inr ⟨rfl, hr⟩⟩
      · rename_i hr
        obtain ⟨rfl, hru⟩ := g6 hr
        simp only [Option.some.injEq, Prod.mk.injEq] at h
        obtain ⟨rfl, rfl, rfl, rfl⟩ := h
        exact ⟨_, g1, g2, h3.trans g3, g4.trans h4, g5.trans h5, hru, .inl rfl⟩

end Cs537.SharedMem
