/-
# `Cs537.SharedMem.Effects` — the four things a call can do

Seen from the invariant, a call does one of four things.

    Quiet     no address space changes (pages may be lost on the way)
    Forked    a free slot becomes a copy of the caller
    Joined    the caller maps one more key
    Detached  one address space is torn down, and perhaps replaced

Each is a structure that says what the kernel is like afterwards, and each
keeps the invariant (`Inv.quiet`, `Inv.forked`, `Inv.joined`,
`Inv.detached`).  Which call does which is in `Cs537.SharedMem.Steps`.
-/
import Cs537.SharedMem.Inv
import Mathlib.Tactic.IntervalCases

namespace Cs537.SharedMem

open Cs537.Lib

/-! ## The effects -/

/-- A slot as before, but that the process may have exited. -/
structure Proc.Same (q q' : Proc) : Prop where
  state : q'.state = q.state ∨ q.state = .runnable ∧ q'.state = .zombie
  sz : q'.sz = q.sz
  pgdir : q'.pgdir = q.pgdir
  shmVa : q'.shmVa = q.shmVa

/-- A slot without an address space, before and after. -/
structure Proc.Idle (q q' : Proc) : Prop where
  free : q.state = .unused
  state : q'.state = .unused ∨ q'.state = .embryo ∧ ∀ i, q'.shmVa i = usertop

/-- Pages outside the keys: free, or owned by a process. -/
def unshared (k : Kernel) (a : Nat) : Nat :=
  k.freelist.count a + uses (fun p => procPages (k.proc p)) a

structure Quiet (k k' : Kernel) : Prop where
  shm : k'.shmPa = k.shmPa
  proc : ∀ p, (k.proc p).Same (k'.proc p) ∨ (k.proc p).Idle (k'.proc p)
  pages : ∀ a, unshared k' a ≤ unshared k a

structure Forked (k k' : Kernel) (p np : Slot) : Prop where
  live : Live k p
  free : (k.proc np).state = .unused
  state : (k'.proc np).state = .runnable
  shmVa : (k'.proc np).shmVa = (k.proc p).shmVa
  others : ∀ q, q ≠ np → k'.proc q = k.proc q
  shm : k'.shmPa = forkRefs (k.proc p).shmVa k.shmPa
  pages : ∀ a, unshared k' a ≤ unshared k a
  space : ∀ ask gen pd lo, Space (k.proc p) ask gen pd lo →
    ∃ d, Space (k'.proc np) ask gen d lo

structure Joined (k k' : Kernel) (p : Slot) (i : Key) (n : Nat) : Prop where
  live : Live k p
  apart : (k.proc p).shmVa i = usertop
  pos : 1 ≤ n
  four : n ≤ 4
  state : (k'.proc p).state = (k.proc p).state
  attached : (k'.proc p).shmVa i ≠ usertop
  shmVa : ∀ i', i' ≠ i → (k'.proc p).shmVa i' = (k.proc p).shmVa i'
  others : ∀ q, q ≠ p → k'.proc q = k.proc q
  owned : procPages (k'.proc p) = procPages (k.proc p)
  shm : ∀ i', i' ≠ i → k'.shmPa i' = k.shmPa i'
  refCount : (k'.shmPa i).refCount = (k.shmPa i).refCount + 1
  numPages : (k'.shmPa i).numPages = n
  join : (k.shmPa i).refCount ≠ 0 →
    (k'.shmPa i).pagePtr = (k.shmPa i).pagePtr ∧ k'.freelist = k.freelist
  alloc : (k.shmPa i).refCount = 0 → k.freelist = pagePtrs (k'.shmPa i) n ++ k'.freelist
  space : ∀ ask gen pd lo g, Space (k.proc p) ask gen pd lo →
    pagePtrs (k'.shmPa i) n = g.take n → n ≤ g.length →
    ∃ pd', Space (k'.proc p) (Function.update ask i n) (Function.update gen i g) pd' (lo - n)

structure Detached (k k' : Kernel) (d : Slot) (pd : Pgdir) : Prop where
  real : Real (k.proc d)
  pgdir : (k.proc d).pgdir = some pd
  gone : ∀ i, ¬ Attached k' d i
  embryo : (k'.proc d).state ≠ .embryo
  space : Real (k'.proc d) → ∀ ask gen, ∃ pd' lo, Space (k'.proc d) ask gen pd' lo
  others : ∀ q, q ≠ d → k'.proc q = k.proc q
  shm : k'.shmPa = (detach k.shmPa (sharedPages pd (k.proc d).sz)).1
  pages : ∀ a, unshared k' a ≤
    unshared k a + (detach k.shmPa (sharedPages pd (k.proc d).sz)).2.count a
  freed : ∀ a ∈ (detach k.shmPa (sharedPages pd (k.proc d).sz)).2, a ∈ k'.freelist

/-! ## Frames -/

theorem owners_eq (k : Kernel) (gen : Key → List Nat) (a : Nat) :
    owners k gen a = unshared k a + uses (keyPages k gen) a := rfl

/-- `Space` looks at three fields of the process, and at the keys that it is
attached to. -/
theorem Space.congr {q q' : Proc} {ask ask' : Key → Nat} {gen gen' : Key → List Nat} {pd : Pgdir}
    {lo : Nat} (hs : Space q ask gen pd lo) (hsz : q'.sz = q.sz) (hpd : q'.pgdir = q.pgdir)
    (hva : q'.shmVa = q.shmVa) (hask : ∀ i, q.shmVa i ≠ usertop → ask' i = ask i)
    (hgen : ∀ i, q.shmVa i ≠ usertop → gen' i = gen i) : Space q' ask' gen' pd lo where
  pgdir := hpd.trans hs.pgdir
  size := by rw [hsz]; exact hs.size
  low := by rw [hsz]; exact hs.low
  high := hs.high
  shaped := by rw [hsz]; exact hs.shaped
  aligned := by rw [hva]; exact hs.aligned
  count i hi := by
    rw [hva] at hi
    rw [hask i hi, hgen i hi]
    exact hs.count i hi
  inside i hi := by
    rw [hva] at hi
    rw [hva, hask i hi]
    exact hs.inside i hi
  maps i j hi hj := by
    rw [hva] at hi
    rw [hask i hi] at hj
    rw [blockPage, hva, hask i hi, hgen i hi]
    exact hs.maps i j hi hj
  cover v h1 h2 := by
    obtain ⟨i, j, hi, hj, rfl⟩ := hs.cover v h1 h2
    refine ⟨i, j, by rwa [hva], by rwa [hask i hi], ?_⟩
    rw [blockPage, blockPage, hva, hask i hi]

/-- A process attached to no key. -/
theorem Space.of_built {q : Proc} {pd : Pgdir} (hpd : q.pgdir = some pd) (hsz : q.sz ≤ usertop)
    (hb : Built pd (npages q.sz)) (hva : ∀ i, q.shmVa i = usertop) (ask : Key → Nat)
    (gen : Key → List Nat) : Space q ask gen pd userPages where
  pgdir := hpd
  size := hsz
  low := npages_le_userPages hsz
  high := le_rfl
  shaped := hb.shaped
  aligned i hi := absurd (hva i) hi
  count i hi := absurd (hva i) hi
  inside i hi := absurd (hva i) hi
  maps i _ hi := absurd (hva i) hi
  cover v h1 h2 := absurd h2 (by omega)

theorem Proc.Same.real {q q' : Proc} (h : q.Same q') (hr : Real q') : Real q := by
  rcases h.state with he | ⟨he, -⟩
  · exact ⟨he ▸ hr.1, he ▸ hr.2⟩
  · simp [Real, he]

theorem Proc.Idle.not_real {q q' : Proc} (h : q.Idle q') : ¬ Real q' := by
  rcases h.state with he | ⟨he, -⟩ <;> simp [Real, he]

theorem pagePtrs_eq {m : ShPhyMem} {n : Nat} (hn : n ≤ 4) :
    pagePtrs m n = (List.ofFn m.pagePtr).take n := by
  interval_cases n <;> rfl

theorem length_pagePtrs {m : ShPhyMem} {n : Nat} (hn : n ≤ 4) : (pagePtrs m n).length = n := by
  rw [pagePtrs_eq hn, List.length_take, List.length_ofFn]
  omega

theorem getElem?_pagePtrs {m : ShPhyMem} {n : Nat} (hn : n ≤ 4) {j : Fin 4} (hj : j.val < n) :
    (pagePtrs m n)[j.val]? = some (m.pagePtr j) := by
  rw [pagePtrs_eq hn, List.getElem?_take_of_lt hj, List.getElem?_ofFn]
  simp

/-- A key in use lists at `page_ptr` what it owns. -/
theorem KeyOk.pagePtrs_eq_take {m : ShPhyMem} {g : List Nat} (h : KeyOk m g) {n : Nat}
    (hn : n ≤ g.length) : pagePtrs m n = g.take n := by
  have h4 : n ≤ 4 := hn.trans h.four
  refine List.ext_getElem? fun j => ?_
  by_cases hj : j < n
  · rw [List.getElem?_take_of_lt hj, getElem?_pagePtrs h4 (j := ⟨j, by omega⟩) hj]
    exact (h.ptr ⟨j, by omega⟩ (by simp only; omega)).symm
  · rw [List.getElem?_eq_none (by rw [length_pagePtrs h4]; omega),
      List.getElem?_eq_none (by rw [List.length_take]; omega)]

/-! ## Each effect keeps the invariant -/

section Keep

variable {k k' : Kernel} {asked : Slot → Key → Nat} {gen : Key → List Nat}

theorem Quiet.attached_iff (hq : Quiet k k') (p : Slot) (i : Key) :
    Attached k' p i ↔ Attached k p i := by
  rcases hq.proc p with h | h
  · rcases h.state with he | ⟨he, he'⟩
    · simp [Attached, he, h.shmVa]
    · simp [Attached, he, he', h.shmVa]
  · rcases h.state with he | ⟨he, hva⟩
    · simp [Attached, he, h.free]
    · simp [Attached, h.free, hva]

theorem Quiet.live (hq : Quiet k k') {p : Slot} (hl : Live k' p) : Live k p := by
  rcases hq.proc p with h | h
  · rcases h.state with he | ⟨he, -⟩
    · simpa only [Live, he] using hl
    · exact .inl he
  · exact absurd hl.real h.not_real

theorem Inv.quiet (h : Inv k asked gen) (hq : Quiet k k') : Inv k' asked gen := by
  have hkeys : keyPages k' gen = keyPages k gen := by
    funext i
    simp only [keyPages, hq.shm]
  have hown : ∀ a, owners k' gen a ≤ owners k gen a := fun a => by
    have := hq.pages a
    simp only [owners_eq, hkeys]
    omega
  refine ⟨fun a => (hown a).trans (h.once a), ?_, fun p hr => ?_, fun p he i => ?_, fun i => ?_, ?_, ?_⟩
  · have := hown 0
    have := h.zero
    omega
  · rcases hq.proc p with hs | hs
    · obtain ⟨pd, lo, hsp⟩ := h.space p (hs.real hr)
      exact ⟨pd, lo, hsp.congr hs.sz hs.pgdir hs.shmVa (fun _ _ => rfl) fun _ _ => rfl⟩
    · exact absurd hr hs.not_real
  · rcases hq.proc p with hs | hs
    · rcases hs.state with hst | ⟨-, hst⟩
      · rw [hs.shmVa]
        exact h.embryo p (hst ▸ he) i
      · simp [he] at hst
    · rcases hs.state with hst | ⟨-, hva⟩
      · simp [he] at hst
      · exact hva i
  · rw [hq.shm, h.counted i]
    simp only [hq.attached_iff]
  · rw [hq.shm]
    exact h.key
  · rw [hq.shm]
    exact h.stale

theorem forkRefs_refCount (shmVa : Key → Nat) (shm : Key → ShPhyMem) (i : Key) :
    (forkRefs shmVa shm i).refCount =
      (shm i).refCount + if shmVa i ≠ usertop then 1 else 0 := by
  by_cases hi : shmVa i = usertop <;> simp [forkRefs, hi]

theorem forkRefs_pages (shmVa : Key → Nat) (shm : Key → ShPhyMem) (i : Key) :
    (forkRefs shmVa shm i).numPages = (shm i).numPages ∧
      (forkRefs shmVa shm i).pagePtr = (shm i).pagePtr := by
  by_cases hi : shmVa i = usertop <;> simp [forkRefs, hi]

theorem KeyOk.congr {m m' : ShPhyMem} {g : List Nat} (h : KeyOk m g)
    (hm : m'.numPages = m.numPages ∧ m'.pagePtr = m.pagePtr) : KeyOk m' g :=
  ⟨by rw [hm.1]; exact h.pos, by rw [hm.1]; exact h.num, h.four, by rw [hm.2]; exact h.ptr⟩

theorem Forked.attached_iff {p np : Slot} (hf : Forked k k' p np) (q : Slot) (i : Key) :
    Attached k' q i ↔ Attached k q i ∨ q = np ∧ Attached k p i := by
  have hp : (k.proc p).state ≠ .unused := hf.live.real.1
  by_cases hq : q = np
  · subst hq
    simp [Attached, hf.state, hf.shmVa, hf.free, hp]
  · simp [Attached, hf.others q hq, hq]

theorem Inv.forked (h : Inv k asked gen) {p np : Slot} (hf : Forked k k' p np) :
    Inv k' (Function.update asked np (asked p)) gen := by
  have hp := hf.live.real
  -- the caller is attached to the keys whose count goes up, so they were in use
  have hzero : ∀ i, (k'.shmPa i).refCount = 0 ↔ (k.shmPa i).refCount = 0 := fun i => by
    rw [hf.shm, forkRefs_refCount]
    by_cases hi : (k.proc p).shmVa i = usertop
    · simp [hi]
    · have hne := h.refCount_ne_zero ⟨hp.1, hi⟩
      have := h.counted i
      simp only [hi, ne_eq, not_false_eq_true, if_true]
      omega
  have hpages : ∀ i, (k'.shmPa i).numPages = (k.shmPa i).numPages ∧
      (k'.shmPa i).pagePtr = (k.shmPa i).pagePtr := fun i => by
    rw [hf.shm]
    exact forkRefs_pages _ _ i
  have hkeys : keyPages k' gen = keyPages k gen := by
    funext i
    simp only [keyPages, hzero]
  have hown : ∀ a, owners k' gen a ≤ owners k gen a := fun a => by
    have := hf.pages a
    simp only [owners_eq, hkeys]
    omega
  refine ⟨fun a => (hown a).trans (h.once a), ?_, fun q hr => ?_, fun q he i => ?_, fun i => ?_, ?_, ?_⟩
  · have := hown 0
    have := h.zero
    omega
  · by_cases hq : q = np
    · subst hq
      obtain ⟨pd, lo, hsp⟩ := h.space p hp
      obtain ⟨d, hd⟩ := hf.space _ _ _ _ hsp
      exact ⟨d, lo, by simpa using hd⟩
    · rw [hf.others q hq] at hr ⊢
      simpa only [Function.update_of_ne hq] using h.space q hr
  · by_cases hq : q = np
    · subst hq
      simp [hf.state] at he
    · rw [hf.others q hq] at he ⊢
      exact h.embryo q he i
  · have hnp : ¬ Attached k np i := fun ha => ha.1 hf.free
    have hparent : Attached k p i ↔ (k.proc p).shmVa i ≠ usertop := and_iff_right hp.1
    have hcard := card_join (s := Finset.univ.filter fun q => Attached k q i)
      (t := Finset.univ.filter fun q => Attached k' q i) (i := np)
      (P := (k.proc p).shmVa i ≠ usertop) (by simp [hnp]) fun q => by
        simp [hf.attached_iff, hparent]
    rw [hf.shm, forkRefs_refCount, h.counted i, hcard]
  · intro i hi
    exact (h.key i (by rwa [Ne, ← hzero])).congr (hpages i)
  · intro i i' hi hi' j hj
    rw [(hpages i').1] at hj
    rw [(hpages i').2]
    exact h.stale i i' (by rwa [Ne, ← hzero]) ((hzero i').mp hi') j hj

theorem Detached.attached_iff {d : Slot} {pd : Pgdir} (hd : Detached k k' d pd) (q : Slot)
    (i : Key) : Attached k' q i ↔ q ≠ d ∧ Attached k q i := by
  by_cases hq : q = d
  · subst hq
    simp [hd.gone]
  · simp [Attached, hd.others q hq, hq]

/-- What the keys lose when the address space of `d` goes: a reference, and
the pages of `detach`. -/
theorem Inv.detach_keys (h : Inv k asked gen) {d : Slot} {pd : Pgdir} (hd : Detached k k' d pd) :
    k'.shmPa = decRefs k.shmPa (fun i => decide ((k.proc d).shmVa i ≠ usertop)) ∧
      (detach k.shmPa (sharedPages pd (k.proc d).sz)).2
        = (sharedPages pd (k.proc d).sz).filter (isLast k.shmPa) := by
  obtain ⟨pd', lo, hs⟩ := h.space d hd.real
  obtain rfl : pd' = pd := Option.some.inj (hs.pgdir.symm.trans hd.pgdir)
  have heq := detach_eq (h.sharedPages_firstLast hd.real hs)
  rw [hd.shm, heq]
  simp only [h.any_isFirst hd.real hs, and_self]

theorem decRefs_pages (shm : Key → ShPhyMem) (dec : Key → Bool) (i : Key) :
    (decRefs shm dec i).numPages = (shm i).numPages ∧
      (decRefs shm dec i).pagePtr = (shm i).pagePtr := by
  by_cases hi : dec i = true <;> simp [decRefs, hi]

/-- The count of a key after `d` has gone. -/
theorem Inv.detached_refCount (h : Inv k asked gen) {d : Slot} {pd : Pgdir}
    (hd : Detached k k' d pd) (i : Key) :
    (k'.shmPa i).refCount = (k.shmPa i).refCount - if Attached k d i then 1 else 0 := by
  rw [(h.detach_keys hd).1]
  by_cases hi : (k.proc d).shmVa i = usertop
  · simp [decRefs, hi, Attached]
  · simp [decRefs, hi, Attached, hd.real.1]

/-- A key is out of use afterwards if it was before, or if `d` was the last
process attached to it. -/
theorem Inv.detached_refCount_eq_zero (h : Inv k asked gen) {d : Slot} {pd : Pgdir}
    (hd : Detached k k' d pd) (i : Key) : (k'.shmPa i).refCount = 0 ↔
      (k.shmPa i).refCount = 0 ∨ Attached k d i ∧ (k.shmPa i).refCount = 1 := by
  rw [h.detached_refCount hd]
  by_cases ha : Attached k d i
  · have := h.refCount_ne_zero ha
    simp only [ha, if_true, true_and]
    omega
  · simp [ha]

/-- The pages of `d` that are freed leave the keys. -/
theorem Inv.uses_keys_detached (h : Inv k asked gen) {d : Slot} {pd : Pgdir}
    (hd : Detached k k' d pd) (a : Nat) :
    uses (keyPages k' gen) a + (detach k.shmPa (sharedPages pd (k.proc d).sz)).2.count a
      ≤ uses (keyPages k gen) a := by
  obtain ⟨pd', lo, hs⟩ := h.space d hd.real
  obtain rfl : pd' = pd := Option.some.inj (hs.pgdir.symm.trans hd.pgdir)
  have hle : ∀ j, (keyPages k' gen j).count a ≤ (keyPages k gen j).count a := fun j => by
    by_cases hj : (k'.shmPa j).refCount = 0
    · simp [keyPages, hj]
    · have hj' : (k.shmPa j).refCount ≠ 0 := fun h0 =>
        hj ((h.detached_refCount_eq_zero hd j).mpr (.inl h0))
      rw [keyPages_of_ne hj, keyPages_of_ne hj']
  rw [(h.detach_keys hd).2]
  by_cases ha : a ∈ (sharedPages pd' (k.proc d).sz).filter (isLast k.shmPa)
  · obtain ⟨i, j, hi, -, hg, -, hr⟩ := (h.mem_filter_isLast hd.real hs).mp ha
    have hone : ((sharedPages pd' (k.proc d).sz).filter (isLast k.shmPa)).count a ≤ 1 :=
      List.nodup_iff_count_le_one.mp ((h.sharedPages_nodup hd.real hs).filter _) a
    have hdead := (h.detached_refCount_eq_zero hd i).mpr (.inr ⟨⟨hd.real.1, hi⟩, hr⟩)
    have hmem := one_le_count (List.mem_of_getElem? hg)
    refine uses_add_le i hle ?_
    rw [keyPages_of_ne (k := k) (by omega), keyPages, if_pos hdead, List.count_nil]
    omega
  · rw [List.count_eq_zero.mpr ha]
    exact uses_mono hle

theorem Inv.detached (h : Inv k asked gen) {d : Slot} {pd : Pgdir} (hd : Detached k k' d pd) :
    Inv k' asked gen := by
  have hown : ∀ a, owners k' gen a ≤ owners k gen a := fun a => by
    have h1 := hd.pages a
    have h2 := h.uses_keys_detached hd a
    simp only [owners_eq]
    omega
  have hpages : ∀ i, (k'.shmPa i).numPages = (k.shmPa i).numPages ∧
      (k'.shmPa i).pagePtr = (k.shmPa i).pagePtr := fun i => by
    rw [(h.detach_keys hd).1]
    exact decRefs_pages _ _ i
  have hlive : ∀ i, (k'.shmPa i).refCount ≠ 0 → (k.shmPa i).refCount ≠ 0 := fun i hi h0 =>
    hi ((h.detached_refCount_eq_zero hd i).mpr (.inl h0))
  refine ⟨fun a => (hown a).trans (h.once a), ?_, fun q hr => ?_, fun q he i => ?_, fun i => ?_, ?_, ?_⟩
  · have := hown 0
    have := h.zero
    omega
  · by_cases hq : q = d
    · subst hq
      exact hd.space hr _ _
    · rw [hd.others q hq] at hr ⊢
      exact h.space q hr
  · by_cases hq : q = d
    · subst hq
      exact absurd he hd.embryo
    · rw [hd.others q hq] at he ⊢
      exact h.embryo q he i
  · have hcard := card_join (s := Finset.univ.filter fun q => Attached k' q i)
      (t := Finset.univ.filter fun q => Attached k q i) (P := Attached k d i) (i := d)
      (by simp [hd.attached_iff]) fun q => by
        by_cases hq : q = d
        · simp [hd.attached_iff, hq]
        · simp [hd.attached_iff, hq]
    rw [h.detached_refCount hd, h.counted i, hcard]
    omega
  · exact fun i hi => (h.key i (hlive i hi)).congr (hpages i)
  · intro i i' hi hi' j hj hmem
    rw [(hpages i').1] at hj
    rw [(hpages i').2] at hmem
    by_cases h0 : (k.shmPa i').refCount = 0
    · exact h.stale i i' (hlive i hi) h0 j hj hmem
    · -- the key `i'` has just gone out of use, so its pages are its own
      have hK := h.key i' h0
      have hmem' := List.mem_of_getElem? (hK.ptr j (hj.trans_le hK.num))
      obtain rfl := h.key_unique (hlive i hi) h0 hmem hmem'
      exact hi hi'

theorem Joined.attached_iff {p : Slot} {i : Key} {n : Nat} (hj : Joined k k' p i n) (q : Slot)
    (i' : Key) : Attached k' q i' ↔ Attached k q i' ∨ q = p ∧ i' = i := by
  by_cases hq : q = p
  · subst hq
    by_cases hi : i' = i
    · subst hi
      simp [Attached, hj.state, hj.attached, hj.live.real.1]
    · simp [Attached, hj.state, hj.shmVa i' hi, hi]
  · simp [Attached, hj.others q hq, hq]

/-- The pages of the keys after an attach: those just allocated, if the key
was out of use. -/
def genAfter (k k' : Kernel) (gen : Key → List Nat) (i : Key) (n : Nat) : Key → List Nat :=
  Function.update gen i (if (k.shmPa i).refCount = 0 then pagePtrs (k'.shmPa i) n else gen i)

theorem genAfter_of_ne {i i' : Key} {n : Nat} (hi : i' ≠ i) :
    genAfter k k' gen i n i' = gen i' := Function.update_of_ne hi _ _

theorem genAfter_alloc {i : Key} {n : Nat} (h0 : (k.shmPa i).refCount = 0) :
    genAfter k k' gen i n i = pagePtrs (k'.shmPa i) n := by simp [genAfter, h0]

theorem genAfter_join {i : Key} {n : Nat} (h0 : (k.shmPa i).refCount ≠ 0) :
    genAfter k k' gen i n = gen := by simp [genAfter, h0]

theorem Inv.joined_refCount (h : Inv k asked gen) {p : Slot} {i : Key} {n : Nat}
    (hj : Joined k k' p i n) : (k'.shmPa i).refCount ≠ 0 := by
  have := h.counted i
  rw [hj.refCount]
  omega

/-- The key of an attach, afterwards. -/
theorem Inv.joined_key (h : Inv k asked gen) {p : Slot} {i : Key} {n : Nat}
    (hj : Joined k k' p i n) (enough : (k.shmPa i).refCount ≠ 0 → n ≤ (gen i).length) :
    KeyOk (k'.shmPa i) (genAfter k k' gen i n i) := by
  by_cases h0 : (k.shmPa i).refCount = 0
  · rw [genAfter_alloc h0]
    refine ⟨by rw [hj.numPages]; exact hj.pos, ?_, ?_, fun j hlt => ?_⟩
    · rw [hj.numPages, length_pagePtrs hj.four]
    · rw [length_pagePtrs hj.four]
      exact hj.four
    · rw [length_pagePtrs hj.four] at hlt
      exact getElem?_pagePtrs hj.four hlt
  · rw [genAfter_join h0]
    have hK := h.key i h0
    refine ⟨by rw [hj.numPages]; exact hj.pos, by rw [hj.numPages]; exact enough h0, hK.four, ?_⟩
    rw [(hj.join h0).1]
    exact hK.ptr

/-- An attach moves the pages it allocates from the free list to the key. -/
theorem Inv.owners_joined (h : Inv k asked gen) {p : Slot} {i : Key} {n : Nat}
    (hj : Joined k k' p i n) (a : Nat) :
    owners k' (genAfter k k' gen i n) a = owners k gen a := by
  have hproc : (fun q => procPages (k'.proc q)) = fun q => procPages (k.proc q) := by
    funext q
    by_cases hq : q = p
    · rw [hq]
      exact hj.owned
    · rw [hj.others q hq]
  have hkeys : keyPages k' (genAfter k k' gen i n)
      = Function.update (keyPages k gen) i (genAfter k k' gen i n i) := by
    funext i'
    by_cases hi : i' = i
    · subst hi
      rw [Function.update_self, keyPages_of_ne (h.joined_refCount hj)]
    · rw [Function.update_of_ne hi, keyPages, keyPages, hj.shm i' hi, genAfter_of_ne hi]
  have huses := uses_update (keyPages k gen) i (genAfter k k' gen i n i) a
  simp only [owners, hproc, hkeys]
  by_cases h0 : (k.shmPa i).refCount = 0
  · rw [genAfter_alloc h0] at *
    have hnil : keyPages k gen i = [] := if_pos h0
    rw [hnil, List.count_nil] at huses
    rw [hj.alloc h0, List.count_append]
    omega
  · rw [keyPages_of_ne h0, genAfter_join h0] at huses
    rw [genAfter_join h0, (hj.join h0).2]
    omega

theorem Inv.joined (h : Inv k asked gen) {p : Slot} {i : Key} {n : Nat} (hj : Joined k k' p i n)
    (enough : (k.shmPa i).refCount ≠ 0 → n ≤ (gen i).length)
    (fresh : (k.shmPa i).refCount = 0 → ∀ pa ∈ k.freelist.take n, ∀ i', i' ≠ i →
      ∀ j : Fin 4, j.val < (k.shmPa i').numPages → (k.shmPa i').pagePtr j ≠ pa) :
    Inv k' (Function.update asked p (Function.update (asked p) i n))
      (genAfter k k' gen i n) := by
  have hlive := h.joined_refCount hj
  have hother : ∀ i', i' ≠ i → (k'.shmPa i').refCount = (k.shmPa i').refCount := fun i' hi => by
    rw [hj.shm i' hi]
  refine ⟨fun a => (h.owners_joined hj a).le.trans (h.once a), (h.owners_joined hj 0).trans h.zero,
    fun q hr => ?_, fun q he i' => ?_, fun i' => ?_, fun i' hi' => ?_, fun i₁ i₂ h1 h2 j hlt hmem => ?_⟩
  · by_cases hq : q = p
    · subst hq
      obtain ⟨pd, lo, hs⟩ := h.space q hj.live.real
      have htake : pagePtrs (k'.shmPa i) n = (genAfter k k' gen i n i).take n ∧
          n ≤ (genAfter k k' gen i n i).length := by
        have hK := h.joined_key hj enough
        have hnum := hK.num
        rw [hj.numPages] at hnum
        exact ⟨hK.pagePtrs_eq_take hnum, hnum⟩
      obtain ⟨pd', hs'⟩ := hj.space _ _ _ _ _ hs htake.1 htake.2
      refine ⟨pd', lo - n, ?_⟩
      rw [Function.update_self]
      have hgen : Function.update gen i (genAfter k k' gen i n i) = genAfter k k' gen i n := by
        simp [genAfter]
      rwa [hgen] at hs'
    · rw [hj.others q hq] at hr ⊢
      obtain ⟨pd, lo, hs⟩ := h.space q hr
      refine ⟨pd, lo, hs.congr rfl rfl rfl (fun _ _ => by simp [hq]) fun i' hi' => ?_⟩
      by_cases hi : i' = i
      · subst hi
        rw [genAfter_join (h.refCount_ne_zero ⟨hr.1, hi'⟩)]
      · exact genAfter_of_ne hi
  · by_cases hq : q = p
    · subst hq
      rw [hj.state] at he
      exact absurd he hj.live.real.2
    · rw [hj.others q hq] at he ⊢
      exact h.embryo q he i'
  · by_cases hi : i' = i
    · subst hi
      have hnp : ¬ Attached k p i' := fun ha => ha.2 hj.apart
      have hcard := card_join (s := Finset.univ.filter fun q => Attached k q i')
        (t := Finset.univ.filter fun q => Attached k' q i') (P := True) (i := p) (by simp [hnp])
        fun q => by simp [hj.attached_iff]
      rw [hj.refCount, h.counted i', hcard, if_pos trivial]
    · simp only [hj.attached_iff]
      rw [hother i' hi, h.counted i']
      simp [hi]
  · by_cases hi : i' = i
    · subst hi
      exact h.joined_key hj enough
    · rw [hj.shm i' hi, genAfter_of_ne hi]
      exact h.key i' (hother i' hi ▸ hi')
  · have hi₂ : i₂ ≠ i := fun he => hlive (he ▸ h2)
    rw [hother i₂ hi₂] at h2
    rw [hj.shm i₂ hi₂] at hlt hmem
    by_cases hi₁ : i₁ = i
    · subst hi₁
      by_cases h0 : (k.shmPa i₁).refCount = 0
      · rw [genAfter_alloc h0] at hmem
        refine fresh h0 _ ?_ i₂ hi₂ j hlt rfl
        rw [hj.alloc h0, List.take_append_of_le_length (length_pagePtrs hj.four).ge,
          List.take_of_length_le (length_pagePtrs hj.four).le]
        exact hmem
      · rw [genAfter_join h0] at hmem
        exact h.stale i₁ i₂ h0 h2 j hlt hmem
    · rw [genAfter_of_ne hi₁] at hmem
      exact h.stale i₁ i₂ (hother i₁ hi₁ ▸ h1) h2 j hlt hmem

end Keep

end Cs537.SharedMem
