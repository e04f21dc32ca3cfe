/-
# `Cs537.SharedMem.Sharing` — shared memory over whole runs

The invariant of `Cs537.SharedMem.Inv` holds after boot and is kept by every
step that meets `StepOk`; four properties of the states of a run follow.

    Counted    in runs that meet `StepOk`
    Isolated   in runs that meet `StepOk`
    Coherent   in those just when every step meets `SameCount`
    Returned   in those just when every step meets `FullDetach`

Each is followed by a run of the kernel in which it fails.
-/
import Cs537.SharedMem.Steps

namespace Cs537.SharedMem

open Cs537.Lib

/-! ## The invariant of a run -/

/-- The invariant, with the pages of the keys in use among those recorded. -/
structure SysInv (s : Sys) : Prop where
  inv : Inv s.k s.asked s.gen
  taken : ∀ i, (s.k.shmPa i).refCount ≠ 0 → ∀ pa ∈ s.gen i, pa ∈ s.taken i

theorem mem_kept {s : Sys} {k : Kernel} {i : Key} {pa : Nat} :
    pa ∈ kept s k i ↔ pa ∈ s.taken i ∧ pa ∉ k.freelist := by simp [kept]

theorem Joined.taken_gen {s t : Sys} {e : Slot × Call} {i : Key} {n : Nat} (hs : SysInv s)
    (heff : Joined s.k t.k e.1 i n) (hg : t.gen = genAfter s.k t.k s.gen i n) {i' : Key} {pa : Nat}
    (hi : (t.k.shmPa i').refCount ≠ 0) (hpa : pa ∈ t.gen i') :
    pa ∈ s.taken i' ∨ i' = i ∧ (s.k.shmPa i).refCount = 0 ∧ pa ∈ t.gen i := by
  by_cases he : i' = i
  · subst he
    by_cases h0 : (s.k.shmPa i').refCount = 0
    · exact .inr ⟨rfl, h0, hpa⟩
    · rw [hg, genAfter_join h0] at hpa
      exact .inl (hs.taken i' h0 pa hpa)
  · rw [heff.shm i' he] at hi
    rw [hg, genAfter_of_ne he] at hpa
    exact .inl (hs.taken i' hi pa hpa)

/-- The step lemma. -/
theorem SysInv.step {s t : Sys} {e : Slot × Call} (hs : SysInv s) (hok : StepOk s e)
    (h : step s e = some t) : SysInv t := by
  have kept_all : Inv t.k t.asked t.gen → t.taken = kept s t.k → t.gen = s.gen →
      (∀ i, (t.k.shmPa i).refCount ≠ 0 → (s.k.shmPa i).refCount ≠ 0) → SysInv t := by
    intro hinv ht hg hlive
    refine ⟨hinv, fun i hi pa hpa => ?_⟩
    rw [ht, mem_kept]
    exact ⟨hs.taken i (hlive i hi) pa (hg ▸ hpa), hinv.not_free hi hpa⟩
  cases step_cases hs.inv hok h with
  | quiet heff ha hg ht _ _ =>
      have hinv : Inv t.k t.asked t.gen := ha ▸ hg ▸ hs.inv.quiet heff
      exact kept_all hinv ht hg fun i hi => heff.shm ▸ hi
  | forked np heff ha hg ht _ _ =>
      have hinv : Inv t.k t.asked t.gen := ha ▸ hg ▸ hs.inv.forked heff
      refine kept_all hinv ht hg fun i hi => ?_
      rw [heff.shm, forkRefs_refCount] at hi
      by_cases hva : (s.k.proc e.1).shmVa i = usertop
      · simpa [hva] using hi
      · exact hs.inv.refCount_ne_zero ⟨heff.live.real.1, hva⟩
  | joined i n heff ha hg ht hat _ =>
      have hinv : Inv t.k t.asked t.gen :=
        ha ▸ hg ▸ hs.inv.joined heff (hok.enough (i, n) hat) (hok.fresh (i, n) hat)
      refine ⟨hinv, fun i' hi pa hpa => (ht i' pa).mpr ⟨hinv.not_free hi hpa, ?_⟩⟩
      exact heff.taken_gen hs hg hi hpa
  | detached d pd heff ha hg ht _ _ =>
      have hinv : Inv t.k t.asked t.gen := ha ▸ hg ▸ hs.inv.detached heff
      exact kept_all hinv ht hg fun i hi h0 =>
        hi ((hs.inv.detached_refCount_eq_zero heff i).mpr (.inl h0))

/-! ## Boot -/

theorem nodup_kinitPages (kend : Nat) : (kinitPages kend).Nodup := by
  refine (List.nodup_range' ..).map fun a b hab => ?_
  exact Nat.eq_of_mul_eq_mul_right (by decide) hab

theorem zero_notMem_kinitPages {kend : Nat} (hend : 0 < kend) : 0 ∉ kinitPages kend := by
  rw [kinitPages, List.mem_map]
  rintro ⟨v, hv, h0⟩
  have hpos : 1 ≤ npages kend := by
    simp only [npages, pgsize]
    omega
  simp only [List.mem_range'_1, pgsize] at hv h0
  omega

/-- What `kinit` leaves on the free list is fit for `bootSys`. -/
theorem kinit_freelist {kend : Nat} {k : Kernel} (h : kinit kend = some k) (hend : 0 < kend) :
    k.freelist = (kinitPages kend).reverse ∧ k.freelist.Nodup ∧ 0 ∉ k.freelist := by
  have hk := kfreeAll_spec h
  have hfl : k.freelist = (kinitPages kend).reverse := by simp [hk, bootKernel]
  rw [hfl, List.nodup_reverse, List.mem_reverse]
  exact ⟨rfl, nodup_kinitPages kend, zero_notMem_kinitPages hend⟩

theorem unshared_boot (kend : Nat) (fl : List Nat) (a : Nat) :
    unshared (bootKernel kend fl) a = fl.count a := by
  have hproc : ∀ p, procPages ((bootKernel kend fl).proc p) = [] := fun _ => procPages_unused rfl
  have huses : uses (fun p => procPages ((bootKernel kend fl).proc p)) a = 0 := by
    simp [uses, hproc]
  simp only [unshared, huses]
  rfl

/-- The first process: one page of memory, attached to nothing. -/
theorem userinit_spec {kend : Nat} {fl : List Nat} {k : Kernel}
    (h : userinit (bootKernel kend fl) = some k) :
    k.shmPa = (bootKernel kend fl).shmPa ∧ (∀ a, unshared k a ≤ fl.count a) ∧
      ∃ p, (k.proc p).state = .runnable ∧ (k.proc p).shmVa = (fun _ => usertop) ∧
        (∀ q, q ≠ p → (k.proc q).state = .unused) ∧
        ∀ ask gen, ∃ pd, Space (k.proc p) ask gen pd userPages := by
  simp only [userinit] at h
  split at h
  · cases h
  rename_i p k₁ hal
  obtain ⟨-, stack, hm⟩ := allocproc_making hal
  split at h
  · cases h
  rename_i pd k₂ hset
  obtain ⟨ht, hup⟩ := setupkvm_some hset
  have hm₂ : Making (bootKernel kend fl) k₂ p stack (pd.dir :: pd.tables) :=
    hm.take (ht.moved []).frame fun a => ((ht.moved []).count a).symm.le
  split at h
  · cases h
  rename_i mem k₃ hmem
  have hmv := (kalloc_some hmem).moved (pd.dir :: pd.tables)
  have hm₃ : Making (bootKernel kend fl) k₃ p stack (pd.dir :: pd.tables ++ [mem]) :=
    hm₂.take hmv.frame fun a => (hmv.count a).symm.le
  have hb : Built pd 0 := fun v => by simp [hup]
  have hmap := mappages_page mem (show 0 < userPages by decide)
    (hb.unmapped (Nat.zero_le 0))
  rw [Nat.zero_mul] at hmap
  simp only [hmap, Option.bind_eq_bind, Option.bind_some, Option.some.injEq] at h
  subst h
  have hself : ∀ z, (setProc k₃ p z).proc p = z := fun z => setProc_self k₃ p z
  refine ⟨hm₃.shm, fun a => ?_, p, by simp, by simp [hm₃.shmVa], fun q hq => ?_, fun ask gen => ?_⟩
  · rw [← unshared_boot kend fl a]
    refine unshared_le_of_slot hm₃.free (fun q hq => hm₃.others_set _ hq) (fun a => ?_) a
    have hcount := hm₃.count a
    have hlow := lowPages_update pd 0 mem
    have hpriv : ∀ d, privPages d pgsize = lowPages d (0 + 1) := fun d => rfl
    have hnil : lowPages pd 0 = [] := rfl
    rw [hself, count_procPages_real (by simp [Real]) rfl, hpriv, hlow, hnil, setProc_freelist]
    simp only [hm₃.kstack, Option.toList, List.count_cons, List.count_append, List.count_nil] at *
    omega
  · rw [hm₃.others_set _ hq]
    rfl
  · have hb₁ : Built _ (npages pgsize) := hb.update mem
    rw [hself]
    exact ⟨_, Space.of_built rfl (show pgsize ≤ usertop by decide) hb₁
      (fun i => by simp [hm₃.shmVa]) ask gen⟩

theorem sysInv_boot {kend : Nat} {fl : List Nat} {s : Sys} (h : bootSys kend fl = some s)
    (hnd : fl.Nodup) (hzero : 0 ∉ fl) : SysInv s := by
  obtain ⟨k, hk, rfl⟩ := Option.map_eq_some_iff.mp h
  obtain ⟨hshm, hpages, p, hrun, hva, hothers, hspace⟩ := userinit_spec hk
  have hdead : ∀ i, (k.shmPa i).refCount = 0 := fun i => by rw [hshm]; rfl
  have hkeys : ∀ a, uses (keyPages k fun _ => []) a = 0 := fun a => by simp [uses, keyPages]
  have hno : ∀ q i, ¬ Attached k q i := fun q i ha => by
    by_cases hq : q = p
    · subst hq
      exact ha.2 (by rw [hva])
    · exact ha.1 (hothers q hq)
  have hown : ∀ a, owners k (fun _ => []) a ≤ fl.count a := fun a => by
    have h1 := hkeys a
    have h2 := hpages a
    simp only [owners_eq]
    omega
  have hown0 : owners k (fun _ => []) 0 = 0 := by
    have h1 := hown 0
    rw [List.count_eq_zero.mpr hzero] at h1
    omega
  refine ⟨⟨fun a => (hown a).trans (List.nodup_iff_count_le_one.mp hnd a), hown0, fun q hr => ?_,
    fun q he => ?_, fun i => ?_, fun i hi => absurd (hdead i) hi,
    fun i _ hi => absurd (hdead i) hi⟩, fun i hi => absurd (hdead i) hi⟩
  · by_cases hq : q = p
    · subst hq
      obtain ⟨pd, hsp⟩ := hspace (fun _ => 0) fun _ => []
      exact ⟨pd, _, hsp⟩
    · exact absurd (hothers q hq) hr.1
  · by_cases hq : q = p
    · subst hq
      simp [hrun] at he
    · simp [hothers q hq] at he
  · simp [hdead i, hno]

/-- A machine with the kernel image below `0x110000`. -/
def freeAtBoot : List Nat := (kinitPages 0x110000).reverse

theorem freeAtBoot_nodup : freeAtBoot.Nodup := List.nodup_reverse.mpr (nodup_kinitPages _)

theorem zero_notMem_freeAtBoot : 0 ∉ freeAtBoot := fun h =>
  zero_notMem_kinitPages (by decide) (List.mem_reverse.mp h)

/-- `n` pages from the page `a` on, highest first; evaluated as far as it is used. -/
def pagesDown : Nat → Nat → List Nat
  | 0, _ => []
  | n + 1, a => (a + n) * pgsize :: pagesDown n a

theorem pagesDown_eq (n a : Nat) : pagesDown n a = ((List.range' a n).map (· * pgsize)).reverse := by
  induction n with
  | zero => rfl
  | succ n ih =>
      rw [pagesDown, ih, List.range'_concat]
      simp

def freeDown : List Nat := pagesDown (phystop / pgsize - npages 0x110000) (npages 0x110000)

theorem freeAtBoot_eq : freeAtBoot = freeDown := (pagesDown_eq _ _).symm

theorem bootsDown : (bootSys 0x110000 freeDown).isSome := by decide +kernel

theorem boots : (bootSys 0x110000 freeAtBoot).isSome := freeAtBoot_eq ▸ bootsDown

/-- That machine after boot. -/
def booted : Sys := (bootSys 0x110000 freeAtBoot).get boots

theorem bootSys_eq : bootSys 0x110000 freeAtBoot = some booted := (Option.some_get boots).symm

/-- The same state, for evaluation. -/
def bootedDown : Sys := (bootSys 0x110000 freeDown).get bootsDown

theorem booted_eq : booted = bootedDown := by
  simp only [booted, bootedDown, freeAtBoot_eq]

/-- The run lemma. -/
theorem sysInv_run {kend : Nat} {fl : List Nat} {s : Sys} {es : List (Slot × Call)}
    (hboot : bootSys kend fl = some s) (hnd : fl.Nodup) (hzero : 0 ∉ fl)
    (hok : AllSteps step StepOk s es) : AllStates step SysInv s es :=
  allStates_of_allSteps (fun _ _ _ hs hC h => hs.step hC h) (sysInv_boot hboot hnd hzero) hok

/-- A file with one loadable segment of one page. -/
def onePage : ExecFile := ⟨true, [⟨true, true, 0, 4096, 0, true⟩], true⟩

/-- Parent and child share two pages, and leave one after the other. -/
def shareBoth : List (Slot × Call) :=
  [(0, .fork), (0, .shmgetat 3 2), (1, .shmgetat 3 2), (1, .exit), (0, .wait), (0, .exec onePage)]

/-- It keeps to every discipline. -/
theorem shareBoth_keeps : AllSteps step StepOk booted shareBoth ∧
    AllSteps step SameCount booted shareBoth ∧ AllSteps step FullDetach booted shareBoth := by
  rw [booted_eq]
  decide +kernel

/-! ## Counts and isolation -/

theorem SysInv.counted {s : Sys} (hs : SysInv s) : Counted s := by
  intro i
  have hi : (0 : Int) ≤ i.val ∧ (i.val : Int) ≤ 7 := by omega
  rw [shmRefcount, dif_pos hi]
  exact hs.inv.counted i

theorem Inv.mem_procPages {k : Kernel} {p : Slot} {pa : Nat} (h : (k.proc p).state ≠ .unused)
    (hpa : (k.proc p).kstack = some pa ∨ ∃ pd, (k.proc p).pgdir = some pd ∧
      (pa = pd.dir ∨ pa ∈ pd.tables ∨
        ((k.proc p).state ≠ .embryo ∧ pa ∈ privPages pd (k.proc p).sz))) :
    pa ∈ procPages (k.proc p) := by
  simp only [procPages, h, if_false, List.mem_append]
  rcases hpa with hst | ⟨pd, hpd, rfl | htab | ⟨hne, hpriv⟩⟩
  · simp [hst]
  · simp [hpd]
  · simp [hpd, htab]
  · simp [hpd, hne, hpriv]

theorem SysInv.isolated {s : Sys} (hs : SysInv s) : Isolated s := by
  intro p hlive pd hpd pa hpa
  obtain ⟨pd', lo, hsp⟩ := hs.inv.space p hlive.real
  obtain rfl : pd' = pd := Option.some.inj (hsp.pgdir.symm.trans hpd)
  obtain ⟨i, j, hi, -, hg⟩ := hsp.mem_sharedPages.mp hpa
  have hr := hs.inv.refCount_ne_zero ⟨hlive.real.1, hi⟩
  have hmem := List.mem_of_getElem? hg
  refine ⟨⟨i, hs.taken i hr pa hmem⟩, ?_, hs.inv.not_free hr hmem, ?_⟩
  · rintro rfl
    have h1 := count_le_uses (keyPages s.k s.gen) i 0
    have h2 := hs.inv.zero
    rw [keyPages_of_ne hr] at h1
    have h3 := one_le_count hmem
    simp only [owners] at h2
    omega
  · rintro ⟨q, hq, hown⟩
    exact hs.inv.not_private hr hmem q (Inv.mem_procPages hq hown)

section Runs

variable {kend : Nat} {fl : List Nat} {s : Sys} {es : List (Slot × Call)}

/-- A child takes one page for key 0 and is reaped.  The page comes back as a
page of the parent's key 1, but key 0 still lists it: when the parent leaves,
key 0 is the first that the search finds, and its count drops to `-1`. -/
def staleRun : List (Slot × Call) :=
  [(0, .fork), (1, .shmgetat 0 1), (1, .exit), (0, .wait), (0, .shmgetat 1 4), (0, .shmgetat 2 4),
    (0, .shmgetat 3 4), (0, .shmgetat 4 4), (0, .exec onePage)]

/-- The parent allocates one page, the child maps two: the second is whatever
`page_ptr[1]` holds, here still 0. -/
def greedyRun : List (Slot × Call) := [(0, .fork), (0, .shmgetat 0 1), (1, .shmgetat 0 2)]

end Runs

/-! ## Coherence -/

/-- Two live processes attached to one key asked for the same count. -/
def Agree (s : Sys) : Prop :=
  ∀ p q i, Live s.k p → Live s.k q → Attached s.k p i → Attached s.k q i →
    s.asked p i = s.asked q i

/-- What a process sees at an offset into its block. -/
theorem Space.translate {q : Proc} {ask : Key → Nat} {gen : Key → List Nat} {pd : Pgdir} {lo : Nat}
    (hs : Space q ask gen pd lo) {i : Key} (hi : q.shmVa i ≠ usertop) {off : Nat}
    (hoff : off < ask i * pgsize) : translate pd (q.shmVa i + off)
      = ((gen i)[ask i - 1 - off / pgsize]?).map fun pa => pa + off % pgsize := by
  have hal := hs.aligned i hi
  have hlt : off / pgsize < ask i := Nat.div_lt_of_lt_mul (by rwa [Nat.mul_comm] at hoff)
  have hdiv : (q.shmVa i + off) / pgsize = blockPage q ask i (ask i - 1 - off / pgsize) := by
    rw [blockPage]
    simp only [pgsize] at *
    omega
  have hmod : (q.shmVa i + off) % pgsize = off % pgsize := by
    simp only [pgsize] at *
    omega
  have hidx : ask i - 1 - off / pgsize < ask i := by
    have := (hs.count i hi).1
    exact (Nat.sub_le _ _).trans_lt (by omega)
  rw [SharedMem.translate, hdiv, hmod, hs.maps i _ hi hidx]

theorem SysInv.coherent_iff {s : Sys} (hs : SysInv s) : Coherent s ↔ Agree s := by
  constructor
  · intro h p q i hp hq hpi hqi
    obtain ⟨pdp, lop, hsp⟩ := hs.inv.space p hp.real
    obtain ⟨pdq, loq, hsq⟩ := hs.inv.space q hq.real
    obtain ⟨hp1, hp2⟩ := hsp.count i hpi.2
    obtain ⟨hq1, hq2⟩ := hsq.count i hqi.2
    have hoff : 0 < min (s.asked p i) (s.asked q i) * pgsize :=
      Nat.mul_pos (by omega) (by decide)
    have heq := h p q i hp hq hpi hqi pdp pdq hsp.pgdir hsq.pgdir 0 hoff
    rw [hsp.translate hpi.2 (Nat.mul_pos hp1 (by decide)),
      hsq.translate hqi.2 (Nat.mul_pos hq1 (by decide))] at heq
    -- offset 0 is the last page that each of them mapped
    have hlp : s.asked p i - 1 < (s.gen i).length := by omega
    have hlq : s.asked q i - 1 < (s.gen i).length := by omega
    simp only [Nat.zero_div, Nat.sub_zero, Nat.zero_mod, Nat.add_zero, Option.map_id',
      List.getElem?_eq_getElem hlp, List.getElem?_eq_getElem hlq, Option.some.injEq] at heq
    have hidx := (hs.inv.gen_nodup (hs.inv.refCount_ne_zero hpi)).getElem_inj_iff.mp heq
    omega
  · intro h p q i hp hq hpi hqi pdp pdq hpdp hpdq off hoff
    obtain ⟨pdp', lop, hsp⟩ := hs.inv.space p hp.real
    obtain ⟨pdq', loq, hsq⟩ := hs.inv.space q hq.real
    obtain rfl : pdp' = pdp := Option.some.inj (hsp.pgdir.symm.trans hpdp)
    obtain rfl : pdq' = pdq := Option.some.inj (hsq.pgdir.symm.trans hpdq)
    have heq := h p q i hp hq hpi hqi
    rw [heq, Nat.min_self] at hoff
    rw [hsp.translate hpi.2 (by rwa [heq]), hsq.translate hqi.2 hoff, heq]

/-- A step that leaves every live process in agreement attached with the count
of the others. -/
theorem Agree.sameCount {s t : Sys} {e : Slot × Call} (hs : SysInv s) (hok : StepOk s e)
    (h : step s e = some t) (hagree : Agree t) : SameCount s e := by
  intro a ha q hq hqa
  cases step_cases hs.inv hok h with
  | quiet _ _ _ _ hat _ => simp [hat] at ha
  | forked _ _ _ _ _ hat _ => simp [hat] at ha
  | detached _ _ _ _ _ _ hat _ => simp [hat] at ha
  | joined i n heff hask _ _ hat _ =>
      obtain rfl : (i, n) = a := by simpa [hat] using ha
      have hne : q ≠ e.1 := fun he => hqa.2 (he ▸ heff.apart)
      have hlive : Live t.k e.1 := by
        have := heff.live
        simpa only [Live, heff.state] using this
      have hliveq : Live t.k q := by simpa only [Live, heff.others q hne] using hq
      have := hagree q e.1 i hliveq hlive ((heff.attached_iff q i).mpr (.inl hqa))
        ((heff.attached_iff e.1 i).mpr (.inr ⟨rfl, rfl⟩))
      simpa [hask, hne] using this

theorem Agree.step {s t : Sys} {e : Slot × Call} (hs : SysInv s) (hagree : Agree s)
    (hok : StepOk s e) (hsame : SameCount s e) (h : step s e = some t) : Agree t := by
  cases step_cases hs.inv hok h with
  | quiet heff ha _ _ _ _ =>
      intro p q i hp hq hpi hqi
      rw [ha]
      exact hagree p q i (heff.live hp) (heff.live hq) ((heff.attached_iff p i).mp hpi)
        ((heff.attached_iff q i).mp hqi)
  | detached d pd heff ha _ _ _ _ =>
      -- whoever is attached afterwards is another process, and as before
      have before : ∀ p i, Live t.k p → Attached t.k p i → Live s.k p ∧ Attached s.k p i := by
        intro p i hp hpi
        obtain ⟨hne, hpi'⟩ := (heff.attached_iff p i).mp hpi
        exact ⟨by simpa only [Live, heff.others p hne] using hp, hpi'⟩
      intro p q i hp hq hpi hqi
      rw [ha]
      exact hagree p q i (before p i hp hpi).1 (before q i hq hqi).1 (before p i hp hpi).2
        (before q i hq hqi).2
  | forked np heff ha _ _ _ _ =>
      -- the child stands for its parent
      have before : ∀ p i, Live t.k p → Attached t.k p i →
          ∃ p', Live s.k p' ∧ Attached s.k p' i ∧ t.asked p i = s.asked p' i := by
        intro p i hp hpi
        by_cases hnp : p = np
        · subst hnp
          rcases (heff.attached_iff p i).mp hpi with hpi' | ⟨-, hpar⟩
          · exact absurd heff.free hpi'.1
          · exact ⟨e.1, heff.live, hpar, by simp [ha]⟩
        · refine ⟨p, by simpa only [Live, heff.others p hnp] using hp, ?_, by simp [ha, hnp]⟩
          simpa [hnp] using (heff.attached_iff p i).mp hpi
      intro p q i hp hq hpi hqi
      obtain ⟨p', hp', hpi', hpa⟩ := before p i hp hpi
      obtain ⟨q', hq', hqi', hqa⟩ := before q i hq hqi
      rw [hpa, hqa]
      exact hagree p' q' i hp' hq' hpi' hqi'
  | joined i n heff ha _ _ hat _ =>
      have live : ∀ p, Live t.k p → Live s.k p := by
        intro p hp
        by_cases hpe : p = e.1
        · exact hpe ▸ heff.live
        · simpa only [Live, heff.others p hpe] using hp
      have count : ∀ p, Live t.k p → Attached t.k p i → t.asked p i = n := by
        intro p hp hpi
        by_cases hpe : p = e.1
        · simp [ha, hpe]
        · have hpi' : Attached s.k p i := by
            simpa [hpe] using (heff.attached_iff p i).mp hpi
          simpa [ha, hpe] using hsame (i, n) hat p (live p hp) hpi'
      intro p q i' hp hq hpi hqi
      by_cases hi : i' = i
      · subst hi
        rw [count p hp hpi, count q hq hqi]
      · have asked : ∀ p, t.asked p i' = s.asked p i' := fun p => by
          by_cases hpe : p = e.1 <;> simp [ha, hpe, hi]
        rw [asked, asked]
        exact hagree p q i' (live p hp) (live q hq)
          (by simpa [hi] using (heff.attached_iff p i').mp hpi)
          (by simpa [hi] using (heff.attached_iff q i').mp hqi)

theorem agree_boot {kend : Nat} {fl : List Nat} {s : Sys} (h : bootSys kend fl = some s) :
    Agree s := by
  obtain ⟨k, -, rfl⟩ := Option.map_eq_some_iff.mp h
  exact fun _ _ _ _ _ _ _ => rfl

section Runs

variable {kend : Nat} {fl : List Nat} {s : Sys} {es : List (Slot × Call)}

/-- The parent maps two pages of key 0, the child one of them: the child's
offset 0 is the parent's second page. -/
def unequalRun : List (Slot × Call) := [(0, .fork), (0, .shmgetat 0 2), (1, .shmgetat 0 1)]

end Runs

/-! ## Return of the pages -/

/-- What was taken and not returned belongs to a key in use. -/
def Tidy (s : Sys) : Prop := ∀ i, ∀ pa ∈ s.taken i, pa ∈ keyPages s.k s.gen i

theorem mem_keyPages {k : Kernel} {gen : Key → List Nat} {i : Key} {pa : Nat} :
    pa ∈ keyPages k gen i ↔ (k.shmPa i).refCount ≠ 0 ∧ pa ∈ gen i := by
  by_cases h0 : (k.shmPa i).refCount = 0 <;> simp [keyPages, h0]

theorem Inv.refCount_eq_zero {k : Kernel} {asked : Slot → Key → Nat} {gen : Key → List Nat}
    (h : Inv k asked gen) {i : Key} (hno : ¬ ∃ p, Attached k p i) : (k.shmPa i).refCount = 0 := by
  rw [h.counted i]
  simpa using hno

theorem SysInv.returned {s : Sys} (hs : SysInv s) (ht : Tidy s) : Returned s := by
  refine ⟨List.nodup_iff_count_le_one.mpr fun a => ?_, fun i => ⟨?_, fun hno => ?_⟩⟩
  · have := hs.inv.once a
    simp only [owners] at this
    omega
  · rintro ⟨p, hp⟩ pa hpa
    have hr := hs.inv.refCount_ne_zero hp
    exact ⟨hs.taken i hr pa hpa, hs.inv.not_free hr hpa⟩
  · refine List.eq_nil_iff_forall_not_mem.mpr fun pa hpa => ?_
    exact (mem_keyPages.mp (ht i pa hpa)).1 (hs.inv.refCount_eq_zero hno)

/-- Which pages of the keys `freevm` returns: those of the last process
attached, as far as both its own count and `num_pages` go. -/
theorem Inv.freed_iff {k k' : Kernel} {asked : Slot → Key → Nat} {gen : Key → List Nat}
    (h : Inv k asked gen) {d : Slot} {pd : Pgdir} (hd : Detached k k' d pd) {i : Key} {j pa : Nat}
    (hi : (k.shmPa i).refCount ≠ 0) (hj : (gen i)[j]? = some pa) :
    pa ∈ k'.freelist ↔ Attached k d i ∧ (k.shmPa i).refCount = 1 ∧ j < asked d i ∧
      j < (k.shmPa i).numPages := by
  obtain ⟨pd', lo, hs⟩ := h.space d hd.real
  obtain rfl : pd' = pd := Option.some.inj (hs.pgdir.symm.trans hd.pgdir)
  have hfree : pa ∈ k'.freelist ↔ pa ∈ (detach k.shmPa (sharedPages pd' (k.proc d).sz)).2 := by
    refine ⟨fun hmem => ?_, hd.freed pa⟩
    have h1 := hd.pages pa
    have h2 := h.not_elsewhere hi (List.mem_of_getElem? hj)
    have h3 := one_le_count hmem
    simp only [unshared] at h1
    exact List.count_pos_iff.mp (by omega)
  rw [hfree, (h.detach_keys hd).2, h.mem_filter_isLast hd.real hs]
  constructor
  · rintro ⟨i', j', hi', hlt, hg, hnum, hr⟩
    obtain ⟨rfl, rfl⟩ := h.gen_inj (by omega) hi hg hj
    exact ⟨⟨hd.real.1, hi'⟩, hr, hlt, hnum⟩
  · rintro ⟨ha, hr, hlt, hnum⟩
    exact ⟨i, j, ha.2, hlt, hj, hnum, hr⟩

theorem Tidy.fullDetach {s t : Sys} {e : Slot × Call} (hs : SysInv s) (hok : StepOk s e)
    (h : step s e = some t) (hret : Returned t) : FullDetach s e := by
  intro d hd i ha hr
  have hne := hs.inv.refCount_ne_zero ha
  obtain ⟨pdd, lo, hsp⟩ := hs.inv.space d (hs.inv.attached_real ha)
  obtain ⟨h1, h2⟩ := hsp.count i ha.2
  have hnum := (hs.inv.key i hne).num
  cases step_cases hs.inv hok h with
  | quiet _ _ _ _ _ hde => simp [hde] at hd
  | forked _ _ _ _ _ _ hde => simp [hde] at hd
  | joined _ _ _ _ _ _ _ hde => simp [hde] at hd
  | detached d' pd heff _ _ htk _ hde =>
      obtain rfl : d' = d := by simpa [hde] using hd
      -- nobody is attached any more, so the page of the last index is free
      have hno : ¬ ∃ p, Attached t.k p i := by
        rintro ⟨p, hp⟩
        have hdead := (hs.inv.detached_refCount_eq_zero heff i).mpr (.inr ⟨ha, hr⟩)
        exact (hs.inv.detached heff).refCount_ne_zero hp hdead
      have hnil := (hret.2 i).2 hno
      have hlast : (s.gen i).length - 1 < (s.gen i).length := by omega
      have hg := List.getElem?_eq_getElem hlast
      have hfree : (s.gen i)[(s.gen i).length - 1] ∈ t.k.freelist := by
        by_contra hnf
        have hmem := mem_kept.mpr ⟨hs.taken i hne _ (List.getElem_mem hlast), hnf⟩
        rw [← htk, hnil] at hmem
        cases hmem
      obtain ⟨-, -, h3, h4⟩ := (hs.inv.freed_iff heff hne hg).mp hfree
      omega

theorem Tidy.step {s t : Sys} {e : Slot × Call} (hs : SysInv s) (ht : Tidy s) (hok : StepOk s e)
    (hfull : FullDetach s e) (h : step s e = some t) : Tidy t := by
  intro i pa hpa
  rw [mem_keyPages]
  cases step_cases hs.inv hok h with
  | quiet heff _ hg htk _ _ =>
      rw [htk, mem_kept] at hpa
      rw [heff.shm, hg]
      exact mem_keyPages.mp (ht i pa hpa.1)
  | forked np heff _ hg htk _ _ =>
      rw [htk, mem_kept] at hpa
      obtain ⟨h1, h2⟩ := mem_keyPages.mp (ht i pa hpa.1)
      refine ⟨?_, hg ▸ h2⟩
      have := hs.inv.counted i
      rw [heff.shm, forkRefs_refCount]
      split <;> omega
  | joined i' n heff _ hg htk _ _ =>
      rcases ((htk i pa).mp hpa).2 with hold | ⟨rfl, h0, hnew⟩
      · obtain ⟨h1, h2⟩ := mem_keyPages.mp (ht i pa hold)
        by_cases hi : i = i'
        · subst hi
          exact ⟨hs.inv.joined_refCount heff, by rwa [hg, genAfter_join h1]⟩
        · rw [heff.shm i hi, hg, genAfter_of_ne hi]
          exact ⟨h1, h2⟩
      · exact ⟨hs.inv.joined_refCount heff, hnew⟩
  | detached d pd heff _ hg htk _ hde =>
      rw [htk, mem_kept] at hpa
      obtain ⟨h1, h2⟩ := mem_keyPages.mp (ht i pa hpa.1)
      refine ⟨fun h0 => ?_, hg ▸ h2⟩
      rcases (hs.inv.detached_refCount_eq_zero heff i).mp h0 with hz | ⟨ha, hr⟩
      · exact h1 hz
      · obtain ⟨h3, h4⟩ := hfull d hde i ha hr
        obtain ⟨j, hj, hval⟩ := List.getElem_of_mem h2
        have hget : (s.gen i)[j]? = some pa := by rw [List.getElem?_eq_getElem hj, hval]
        exact hpa.2 ((hs.inv.freed_iff heff h1 hget).mpr ⟨ha, hr, by omega, by omega⟩)

theorem tidy_boot {kend : Nat} {fl : List Nat} {s : Sys} (h : bootSys kend fl = some s) :
    Tidy s := by
  obtain ⟨k, -, rfl⟩ := Option.map_eq_some_iff.mp h
  exact fun _ _ hpa => absurd hpa List.not_mem_nil

section Runs

variable {kend : Nat} {fl : List Nat} {s : Sys} {es : List (Slot × Call)}

/-- The child, who maps one page of the parent's two, sets `num_pages` to 1;
when the parent leaves last, its second page is not found and not freed. -/
def leakRun : List (Slot × Call) :=
  [(0, .fork), (0, .shmgetat 0 2), (1, .shmgetat 0 1), (1, .exit), (0, .wait), (0, .exec onePage)]

end Runs

end Cs537.SharedMem
