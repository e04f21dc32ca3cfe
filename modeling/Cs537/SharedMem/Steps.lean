/-
# `Cs537.SharedMem.Steps` — which call has which effect

`exit` is quiet; so is every call that fails before its commit.  `fork` forks,
`shmgetat` joins, and both a `wait` that reaps and an `exec` that succeeds
detach one process (`call_effect`).  Two of these facts need the discipline of
`StepOk`: the pages of a failed `exec` must not be taken for shared ones, and
an attach must find room.
-/
import Cs537.SharedMem.Effects

namespace Cs537.SharedMem

open Cs537.Lib

variable {k k' : Kernel} {asked : Slot → Key → Nat} {gen : Key → List Nat}

/-! ## Counting -/

/-- The balance when only the free list and the slot `p` change. -/
theorem unshared_change {p : Slot} (h : ∀ q, q ≠ p → k'.proc q = k.proc q) (a : Nat) :
    unshared k' a + k.freelist.count a + (procPages (k.proc p)).count a
      = unshared k a + k'.freelist.count a + (procPages (k'.proc p)).count a := by
  have heq : (fun q => procPages (k'.proc q))
      = Function.update (fun q => procPages (k.proc q)) p (procPages (k'.proc p)) := by
    funext q
    by_cases hq : q = p
    · subst hq
      simp
    · simp [h q hq, hq]
  have huses := uses_update (fun q => procPages (k.proc q)) p (procPages (k'.proc p)) a
  simp only [unshared, heq]
  omega

theorem procPages_unused {q : Proc} (h : q.state = .unused) : procPages q = [] := if_pos h

theorem count_procPages_embryo {q : Proc} {stack : Nat} {pd : Pgdir} (hst : q.state = .embryo)
    (hk : q.kstack = some stack) (hpd : q.pgdir = some pd) (a : Nat) :
    (procPages q).count a = [stack].count a + [pd.dir].count a + pd.tables.count a := by
  simp only [procPages, hst, hk, hpd, Option.toList, reduceCtorEq, if_false, if_true,
    List.append_nil, List.count_cons, List.count_append, List.count_nil]
  omega

theorem count_procPages_real {q : Proc} {pd : Pgdir} (hr : Real q) (hpd : q.pgdir = some pd)
    (a : Nat) : (procPages q).count a = q.kstack.toList.count a + [pd.dir].count a
      + pd.tables.count a + (privPages pd q.sz).count a := by
  simp only [procPages, hr.1, hr.2, hpd, if_false, List.count_cons, List.count_append,
    List.count_nil]
  omega

theorem Proc.Same.refl (q : Proc) : q.Same q := ⟨.inl rfl, rfl, rfl, rfl⟩

theorem Quiet.refl (k : Kernel) : Quiet k k :=
  ⟨rfl, fun _ => .inl (.refl _), fun _ => le_rfl⟩

/-- Pages lost from the free list and nothing else. -/
theorem Quiet.of_frame (hframe : k' = { k with freelist := k'.freelist })
    (hle : ∀ a, k'.freelist.count a ≤ k.freelist.count a) : Quiet k k' := by
  have hproc : k'.proc = k.proc := by rw [hframe]
  refine ⟨by rw [hframe], fun p => .inl (by rw [hproc]; exact .refl _), fun a => ?_⟩
  have := hle a
  simp only [unshared, hproc]
  omega

/-! ## `exit` and `wait` -/

/-- The table after `exit`, before and after the caller's own slot is set. -/
theorem exit_spec {p : Slot} (h : exit k p = some k') : ∃ orphan : Slot → Proc,
    k' = { k with proc := Function.update orphan p { orphan p with state := .zombie } } ∧
      ∀ q, (orphan q).state = (k.proc q).state ∧ (orphan q).sz = (k.proc q).sz ∧
        (orphan q).pgdir = (k.proc q).pgdir ∧ (orphan q).kstack = (k.proc q).kstack ∧
        (orphan q).shmVa = (k.proc q).shmVa := by
  simp only [exit] at h
  split at h
  · cases h
  · refine ⟨_, (Option.some.inj h).symm, fun q => ?_⟩
    split <;> exact ⟨rfl, rfl, rfl, rfl, rfl⟩

theorem exit_effect {p : Slot} (hrun : (k.proc p).state = .runnable) (h : exit k p = some k') :
    Quiet k k' := by
  obtain ⟨orphan, rfl, hsame⟩ := exit_spec h
  refine ⟨rfl, fun q => .inl ?_, fun a => ?_⟩
  · obtain ⟨h1, h2, h3, -, h5⟩ := hsame q
    by_cases hq : q = p
    · subst hq
      exact ⟨.inr ⟨hrun, by simp⟩, by simpa, by simpa, by simpa⟩
    · simp only [Function.update_of_ne hq]
      exact ⟨.inl h1, h2, h3, h5⟩
  · refine Nat.add_le_add_left (uses_mono fun q => le_of_eq ?_) _
    obtain ⟨h1, h2, h3, h4, -⟩ := hsame q
    by_cases hq : q = p
    · subst hq
      simp [procPages, h2, h3, h4, hrun]
    · simp only [Function.update_of_ne hq, procPages, h1, h2, h3, h4]

/-- `freevm`, field by field. -/
theorem freevm_counts {pd : Pgdir} {sz : Nat} (hsz : sz ≤ usertop)
    (h : freevm k pd sz = some k') :
    k'.proc = k.proc ∧ k'.shmPa = (detach k.shmPa (sharedPages pd sz)).1 ∧
      (∀ a ∈ (detach k.shmPa (sharedPages pd sz)).2, a ∈ k'.freelist) ∧
      ∀ a, k'.freelist.count a = k.freelist.count a + [pd.dir].count a + pd.tables.count a
        + (privPages pd sz).count a + (detach k.shmPa (sharedPages pd sz)).2.count a := by
  rw [freevm_spec hsz h]
  refine ⟨rfl, rfl, fun a ha => by simp [ha], fun a => ?_⟩
  simp only [List.count_cons, List.count_append, List.count_reverse, List.count_nil]
  omega

/-- Tearing down `d` and leaving `z` in its slot. -/
theorem Detached.of_reap {d : Slot} {pd : Pgdir} {lo stack : Nat} {z : Proc} {ask : Key → Nat}
    (hreal : Real (k.proc d)) (hs : Space (k.proc d) ask gen pd lo)
    (hst : (k.proc d).kstack = some stack)
    (hfree : freevm { k with freelist := stack :: k.freelist } pd (k.proc d).sz = some k')
    (hz : z.state = .unused) : Detached k (setProc k' d z) d pd := by
  obtain ⟨hproc, hshm, hfreed, hcount⟩ := freevm_counts hs.size hfree
  have hothers : ∀ q, q ≠ d → (setProc k' d z).proc q = k.proc q := fun q hq => by
    rw [setProc_of_ne _ _ hq, hproc]
  refine ⟨hreal, hs.pgdir, fun i ha => ha.1 (by simpa using hz), by simp [hz],
    fun hr => absurd hz (by simpa using hr.1), hothers, hshm, fun a => ?_, hfreed⟩
  have hbal := unshared_change hothers a
  have hcount := hcount a
  rw [setProc_self, procPages_unused hz, count_procPages_real hreal hs.pgdir, hst,
    setProc_freelist] at hbal
  simp only [List.count_cons, List.count_nil, Option.toList] at hbal hcount ⊢
  omega

theorem wait_effect (hinv : Inv k asked gen) {p : Slot} {r : Int} (h : wait k p = some (r, k')) :
    match detachEvent k p .wait with
    | none => Quiet k k'
    | some d => ∃ pd, Detached k k' d pd := by
  simp only [wait] at h
  split at h
  · rename_i hnone
    have hevent : detachEvent k p .wait = none := hnone
    simp only [Option.some.injEq, Prod.mk.injEq] at h
    rw [hevent, ← h.2]
    exact Quiet.refl k
  · rename_i d hd
    have hevent : detachEvent k p .wait = some d := hd
    rw [hevent]
    have hfound := List.find?_some hd
    have hz : (k.proc d).state = .zombie := (of_decide_eq_true hfound).2
    have hreal : Real (k.proc d) := by simp [Real, hz]
    obtain ⟨pd, lo, hs⟩ := hinv.space d hreal
    simp only [Option.bind_eq_bind, Option.bind_eq_some_iff, Option.some.injEq,
      Prod.mk.injEq] at h
    obtain ⟨stack, hst, k₁, hk₁, pd', hpd', k₂, hk₂, -, rfl⟩ := h
    obtain rfl := kfree_spec hk₁
    obtain rfl : pd = pd' := Option.some.inj (hs.pgdir.symm.trans hpd')
    exact ⟨pd, Detached.of_reap hreal hs hst hk₂ rfl⟩

/-- The address space of a process is determined by the process. -/
theorem Space.unique {q : Proc} {ask ask' : Key → Nat} {gen' : Key → List Nat} {pd pd' : Pgdir}
    {lo lo' : Nat} (h : Space q ask gen pd lo) (h' : Space q ask' gen' pd' lo') :
    pd' = pd ∧ lo' = lo := by
  obtain rfl : pd' = pd := Option.some.inj (h'.pgdir.symm.trans h.pgdir)
  have h1 := h.low
  have h2 := h.high
  have h3 := h'.low
  have h4 := h'.high
  refine ⟨rfl, ?_⟩
  rcases Nat.lt_trichotomy lo lo' with hlt | heq | hlt
  · have := (h'.shaped lo).mp ((h.shaped lo).mpr (by omega))
    omega
  · exact heq.symm
  · have := (h.shaped lo').mp ((h'.shaped lo').mpr (by omega))
    omega

/-! ## `fork` -/

/-- The child's address space: a copy of the private pages, and the same
shared pages. -/
theorem Space.copied {q child : Proc} {ask : Key → Nat} {src d d' : Pgdir} {lo : Nat}
    (hs : Space q ask gen src lo) (hb : Built d (npages q.sz))
    (hshared : ∀ w, lo ≤ w → w < userPages → d'.upte w = src.upte w)
    (hlow : ∀ w, w < lo ∨ userPages ≤ w → d'.upte w = d.upte w) (hpd : child.pgdir = some d')
    (hsz : child.sz = q.sz) (hva : child.shmVa = q.shmVa) : Space child ask gen d' lo where
  pgdir := hpd
  size := by rw [hsz]; exact hs.size
  low := by rw [hsz]; exact hs.low
  high := hs.high
  shaped v := by
    have h1 := hs.low
    have h2 := hs.high
    rw [hsz]
    by_cases hv : lo ≤ v ∧ v < userPages
    · rw [hshared v hv.1 hv.2]
      exact hs.shaped v
    · rw [hlow v (by omega), hb v]
      omega
  aligned := by rw [hva]; exact hs.aligned
  count := by rw [hva]; exact hs.count
  inside := by rw [hva]; exact hs.inside
  maps i j hi hj := by
    rw [hva] at hi
    have h1 := hs.inside i hi
    have heq : blockPage child ask i j = blockPage q ask i j := by
      rw [blockPage, blockPage, hva]
    have hlt : lo ≤ blockPage q ask i j ∧ blockPage q ask i j < userPages := by
      rw [blockPage]
      omega
    rw [heq, hshared _ hlt.1 hlt.2]
    exact hs.maps i j hi hj
  cover v h1 h2 := by
    obtain ⟨i, j, hi, hj, rfl⟩ := hs.cover v h1 h2
    exact ⟨i, j, by rwa [hva], hj, by rw [blockPage, blockPage, hva]⟩

/-- A copy loop that ends returns the directory it leaves. -/
theorem forkCopy_same {src : Pgdir} : ∀ {fuel va : Nat} {d d₁ d₂ : Pgdir},
    forkCopy src fuel va d = (some d₁, d₂) → d₁ = d₂
  | 0, _, _, _, _, h => by simp [forkCopy] at h
  | fuel + 1, va, d, d₁, d₂, h => by
      simp only [forkCopy] at h
      split at h
      · cases h
      · simp only [Prod.mk.injEq, Option.some.injEq] at h
        exact h.1.symm.trans h.2
      · exact forkCopy_same h

/-- What goes into a free slot comes from the free list. -/
theorem unshared_le_of_slot {np : Slot} (hfree : (k.proc np).state = .unused)
    (hothers : ∀ q, q ≠ np → k'.proc q = k.proc q)
    (hcount : ∀ a, k'.freelist.count a + (procPages (k'.proc np)).count a ≤ k.freelist.count a)
    (a : Nat) : unshared k' a ≤ unshared k a := by
  have hbal := unshared_change hothers a
  have := hcount a
  rw [procPages_unused hfree, List.count_nil] at hbal
  omega

theorem Quiet.of_slot (np : Slot) (hidle : (k.proc np).Idle (k'.proc np))
    (hothers : ∀ q, q ≠ np → k'.proc q = k.proc q) (hshm : k'.shmPa = k.shmPa)
    (hcount : ∀ a, k'.freelist.count a + (procPages (k'.proc np)).count a
      ≤ k.freelist.count a) : Quiet k k' := by
  refine ⟨hshm, fun q => ?_, unshared_le_of_slot hidle.free hothers hcount⟩
  by_cases hq : q = np
  · subst hq
    exact .inr hidle
  · exact .inl (hothers q hq ▸ .refl _)

theorem allocproc_quiet (h : allocproc k = (none, k')) : Quiet k k' := by
  rcases allocproc_none h with rfl | ⟨np, q, hfree, hq, rfl⟩
  · exact Quiet.refl _
  · have hself : (setProc k np q).proc np = q := setProc_self k np q
    refine Quiet.of_slot np ⟨freeSlot_unused hfree, .inl ?_⟩
      (fun r hr => setProc_of_ne _ _ hr) rfl fun a => ?_
    · simpa only [hself] using hq
    · simp only [hself, procPages_unused hq, List.count_nil, setProc_freelist]
      omega

/-- The kernel inside `fork`: the slot `np` is half made, with its stack, and
`rest` has been taken from the free list. -/
structure Making (k k₁ : Kernel) (np : Slot) (stack : Nat) (rest : List Nat) : Prop where
  free : (k.proc np).state = .unused
  others : ∀ r, r ≠ np → k₁.proc r = k.proc r
  shm : k₁.shmPa = k.shmPa
  state : (k₁.proc np).state = .embryo
  kstack : (k₁.proc np).kstack = some stack
  shmVa : (k₁.proc np).shmVa = fun _ => usertop
  count : ∀ a, k₁.freelist.count a + [stack].count a + rest.count a ≤ k.freelist.count a

theorem allocproc_making {np : Slot} (h : allocproc k = (some np, k')) :
    freeSlot k = some np ∧ ∃ stack, Making k k' np stack [] := by
  obtain ⟨hfree, stack, q, hfl, hk', hq, hqs, -, hqva⟩ := allocproc_some h
  have hself : k'.proc np = q := by
    rw [hk']
    exact setProc_self k np q
  refine ⟨hfree, stack, freeSlot_unused hfree, fun r hr => ?_, ?_, ?_, ?_, ?_, fun a => ?_⟩
  · rw [hk']
    exact setProc_of_ne _ _ hr
  · rw [hk']
    rfl
  · rw [hself, hq]
  · rw [hself, hqs]
  · rw [hself, hqva]
  · rw [hfl]
    simp only [List.count_cons, List.count_nil]
    omega

section Making

variable {k₁ k₂ : Kernel} {np : Slot} {stack : Nat} {rest rest' : List Nat}

/-- More pages taken, nothing else changed. -/
theorem Making.take (hm : Making k k₁ np stack rest)
    (hframe : k₂ = { k₁ with freelist := k₂.freelist })
    (hcount : ∀ a, k₂.freelist.count a + rest'.count a ≤ k₁.freelist.count a + rest.count a) :
    Making k k₂ np stack rest' := by
  have hproc : k₂.proc = k₁.proc := by rw [hframe]
  refine ⟨hm.free, ?_, ?_, ?_, ?_, ?_, fun a => ?_⟩
  · rw [hproc]
    exact hm.others
  · rw [hframe]
    exact hm.shm
  · rw [hproc]
    exact hm.state
  · rw [hproc]
    exact hm.kstack
  · rw [hproc]
    exact hm.shmVa
  · have h1 := hm.count a
    have h2 := hcount a
    omega

theorem Making.others_set (hm : Making k k₁ np stack rest) (z : Proc) {r : Slot} (hr : r ≠ np) :
    (setProc k₁ np z).proc r = k.proc r := by
  rw [setProc_of_ne _ _ hr, hm.others r hr]

/-- `copyuvm` failed: the stack goes back, and the slot is free again. -/
theorem Making.abandon (hm : Making k k₁ np stack rest) (hfree : kfree k₁ stack = some k₂)
    {z : Proc} (hz : z.state = .unused) : Quiet k (setProc k₂ np z) := by
  have hk₂ := kfree_spec hfree
  refine Quiet.of_slot np ⟨hm.free, .inl (by simpa using hz)⟩ (fun r hr => ?_) ?_ fun a => ?_
  · rw [setProc_of_ne _ _ hr, hk₂]
    exact hm.others r hr
  · rw [setProc_shmPa, hk₂]
    exact hm.shm
  · have := hm.count a
    rw [setProc_self, procPages_unused hz, setProc_freelist, hk₂]
    simp only [List.count_cons, List.count_nil] at *
    omega

/-- The copy loop of `fork` ran out of page tables: the slot stays half made. -/
theorem Making.stuck {pd : Pgdir} {low : List Nat}
    (hm : Making k k₁ np stack (pd.dir :: pd.tables ++ low)) {d : Pgdir} (hdir : d.dir = pd.dir)
    (htab : d.tables = pd.tables) {z : Proc} (hst : z.state = .embryo)
    (hks : z.kstack = some stack) (hpd : z.pgdir = some d) (hva : z.shmVa = fun _ => usertop) :
    Quiet k (setProc k₁ np z) := by
  refine Quiet.of_slot np ⟨hm.free, .inr ?_⟩ (fun r hr => hm.others_set _ hr) hm.shm
    fun a => ?_
  · simp [hst, hva]
  · have := hm.count a
    rw [setProc_self, count_procPages_embryo hst hks hpd, setProc_freelist, hdir, htab]
    simp only [List.count_cons, List.count_append, List.count_nil] at *
    omega

/-- The commit of `fork`. -/
theorem Making.commit {p : Slot} {pd d d' : Pgdir} {lo : Nat} {child : Proc}
    (hrun : (k.proc p).state = .runnable) {ask : Key → Nat}
    (hs : Space (k.proc p) ask gen pd lo) (hb : Built d (npages (k.proc p).sz))
    (hm : Making k k₁ np stack (d.dir :: d.tables ++ lowPages d (npages (k.proc p).sz)))
    (hcopy : forkCopy pd turn (usertop - pgsize) d = (some d', d'))
    (hpd : child.pgdir = some d') (hsz : child.sz = (k.proc p).sz)
    (hva : child.shmVa = (k.proc p).shmVa) (hst : child.state = .runnable)
    (hks : child.kstack = some stack) :
    Forked k (setProc { k₁ with shmPa := forkRefs (k.proc p).shmVa k₁.shmPa } np child) p np := by
  have hlow := hs.low
  have hhigh := hs.high
  -- a full address space would have run the loop below address 0
  have hroom : npages (k.proc p).sz < lo := by
    by_contra hge
    have hfull : ∀ v < userPages, (pd.upte v).isSome := fun v hv => by
      rw [hs.shaped v]
      omega
    have hnone := forkCopy_full hfull turn (usertop - pgsize) d
    rw [hcopy] at hnone
    cases hnone
  obtain ⟨d₁, hfc, hdir, htab, hsh, hun⟩ := forkCopy_spec hs.shaped hroom turn
    (v := userPages - 1) (d := d) (by omega) (by simp [userPages])
    (by simp only [turn, userPages] at *; omega) (fun w hw _ => hb.unmapped (by omega))
  have hstart : (userPages - 1) * pgsize = usertop - pgsize := rfl
  rw [hstart, hcopy] at hfc
  obtain rfl : d' = d₁ := by simpa using hfc
  refine ⟨.inl hrun, hm.free, by simpa using hst, by simpa using hva,
    fun r hr => ?_, by rw [setProc_shmPa, hm.shm], ?_, fun ask' gen' pd' lo' hs' => ?_⟩
  · rw [setProc_of_ne _ _ hr]
    exact hm.others r hr
  · refine unshared_le_of_slot hm.free (fun r hr => ?_) fun a => ?_
    · rw [setProc_of_ne _ _ hr]
      exact hm.others r hr
    · have := hm.count a
      have hpriv : privPages d' (k.proc p).sz = lowPages d (npages (k.proc p).sz) := by
        refine mappedAt_congr fun v hv => hun v ?_
        have := (mem_pageRange.mp hv).2
        omega
      rw [setProc_self, count_procPages_real (by simp [Real, hst]) hpd, hks, hsz, hpriv,
        hdir, htab, setProc_freelist]
      simp only [Option.toList, List.count_cons, List.count_append, List.count_nil] at *
      omega
  · obtain ⟨rfl, rfl⟩ := hs.unique hs'
    rw [setProc_self]
    exact ⟨d', hs'.copied hb (fun w h1 h2 => hsh w h1 (by omega))
      (fun w hw => hun w (by omega)) hpd hsz hva⟩

end Making

theorem fork_effect (hinv : Inv k asked gen) {p : Slot} {r : Int}
    (hrun : (k.proc p).state = .runnable) (h : fork k p = some (r, k')) :
    (r = -1 ∧ Quiet k k') ∨ ∃ np, freeSlot k = some np ∧ r ≠ -1 ∧ Forked k k' p np := by
  have hreal : Real (k.proc p) := by simp [Real, hrun]
  obtain ⟨pd, lo, hs⟩ := hinv.space p hreal
  simp only [fork] at h
  split at h
  · rename_i k₁ hal
    simp only [Option.some.injEq, Prod.mk.injEq] at h
    obtain ⟨rfl, rfl⟩ := h
    exact .inl ⟨rfl, allocproc_quiet hal⟩
  · rename_i np k₁ hal
    obtain ⟨hslot, stack, hm⟩ := allocproc_making hal
    have hnp : p ≠ np := fun he => by simp [he, hm.free] at hrun
    have hp₁ : k₁.proc p = k.proc p := hm.others p hnp
    simp only [hp₁, hs.pgdir, Option.bind_eq_bind, Option.bind_some,
      Option.bind_eq_some_iff] at h
    obtain ⟨⟨copy, k₂⟩, hcopy, h⟩ := h
    cases copy with
    | none =>
        obtain ⟨hframe, hle⟩ := copyuvm_none hs.size hcopy
        have hm₂ : Making k k₂ np stack [] := hm.take hframe fun a => by have := hle a; omega
        simp only [Option.bind_eq_some_iff, Option.some.injEq, Prod.mk.injEq] at h
        obtain ⟨stack', hstack', k₃, hk₃, rfl, rfl⟩ := h
        obtain rfl : stack = stack' := Option.some.inj (hm₂.kstack.symm.trans hstack')
        exact .inl ⟨rfl, hm₂.abandon hk₃ rfl⟩
    | some d =>
        obtain ⟨hb, hmoved⟩ := copyuvm_some hs.size hcopy
        have hm₂ : Making k k₂ np stack (d.dir :: d.tables ++ lowPages d (npages (k.proc p).sz)) :=
          hm.take hmoved.frame fun a => (hmoved.count a).symm.le
        have hp₂ : k₂.proc p = k.proc p := hm₂.others p hnp
        simp only at h
        split at h
        · rename_i d' hfc
          simp only [Option.some.injEq, Prod.mk.injEq] at h
          obtain ⟨rfl, rfl⟩ := h
          obtain ⟨hdir, htab⟩ := forkCopy_dir hfc
          exact .inl ⟨rfl, hm₂.stuck hdir htab hm₂.state hm₂.kstack rfl hm₂.shmVa⟩
        · rename_i d₁ d₂ hfc
          simp only [Option.some.injEq, Prod.mk.injEq, hp₂] at h
          obtain ⟨rfl, rfl⟩ := h
          obtain rfl : d₁ = d₂ := forkCopy_same hfc
          exact .inr ⟨np, hslot, by omega, hm₂.commit hrun hs hb hfc rfl rfl rfl rfl hm₂.kstack⟩

/-! ## `exec` -/

/-- Pages that no key in use owns, none of them a first page: `deallocshm`
leaves them alone. -/
theorem detach_foreign {shm : Key → ShPhyMem} : ∀ {pas : List Nat},
    (∀ pa ∈ pas, ∀ i j, findShared shm pa = some (i, j) → (shm i).refCount = 0 ∧ j ≠ 0) →
    detach shm pas = (shm, [])
  | [], _ => rfl
  | pa :: pas, h => by
      have ih := detach_foreign fun y hy => h y (List.mem_cons_of_mem _ hy)
      cases hf : findShared shm pa with
      | none => simp [detach, hf, ih]
      | some ij =>
          obtain ⟨hr, hj⟩ := h pa List.mem_cons_self ij.1 ij.2 hf
          simp [detach, hf, ih, hr, hj]

theorem mem_lowPages {pd : Pgdir} {n v pa : Nat} (hb : Built pd n) (h : pd.upte v = some pa) :
    pa ∈ lowPages pd n := by
  have hv : v < n := (hb v).mp (by simp [h])
  exact mem_mappedAt.mpr ⟨v, by simpa using hv, h⟩

/-- The new image of `exec` up to the commit. -/
structure Image (k k₁ : Kernel) (pd : Pgdir) (n : Nat) : Prop where
  frame : k₁ = { k with freelist := k₁.freelist }
  built : Built pd n
  count : ∀ a, k₁.freelist.count a + [pd.dir].count a + pd.tables.count a
    + (lowPages pd n).count a = k.freelist.count a

theorem execBuild_image {f : ExecFile} {k₁ k₂ : Kernel} {pd₁ pd₂ : Pgdir} {sz : Nat} {ok : Bool}
    (hs : setupkvm k = (some pd₁, k₁)) (h : execBuild f k₁ pd₁ = some (ok, k₂, pd₂, sz)) :
    ∃ n, Image k k₂ pd₂ n ∧ sz ≤ usertop ∧ n ≤ userPages ∧
      (n = npages sz ∨ ok = false ∧ sz = 0) := by
  obtain ⟨ht, hup⟩ := setupkvm_some hs
  have hb : Built pd₁ 0 := fun v => by simp [hup]
  obtain ⟨n, hle, hbuilt, hmoved, hdir, htab, hsz, hn⟩ := execBuild_spec hb h
  have hm := ht.moved []
  refine ⟨n, ⟨by rw [hmoved.frame, hm.frame], hbuilt, fun a => ?_⟩, hsz, hle, hn⟩
  have h1 := hm.count a
  have h2 := hmoved.count a
  simp only [hdir, htab, List.nil_append, List.count_cons, List.count_nil] at *
  omega

/-- A failed `exec` tears its image down again; after a failed `allocuvm`
(`sz = 0`) the image's pages are looked up among the shared ones first. -/
theorem Image.abandon (hinv : Inv k asked gen) {k₁ : Kernel} {pd : Pgdir} {n sz : Nat}
    (hi : Image k k₁ pd n) (hsz : sz ≤ usertop)
    (hn : n = npages sz ∨ sz = 0 ∧ ∀ v pa, pd.upte v = some pa →
      ∀ i, findShared k.shmPa pa ≠ some (i, 0))
    (hfree : freevm k₁ pd sz = some k') : Quiet k k' := by
  have hshm : k₁.shmPa = k.shmPa := by rw [hi.frame]
  have hdetach : detach k₁.shmPa (sharedPages pd sz) = (k.shmPa, []) := by
    rw [hshm]
    refine detach_foreign fun pa hpa i j hf => ?_
    obtain ⟨v, hv, hup⟩ := mem_mappedAt.mp hpa
    rcases hn with rfl | ⟨-, hfirst⟩
    · have := (hi.built v).mp (by simp [hup])
      have := (mem_pageRange.mp hv).1
      omega
    · refine ⟨hinv.findShared_foreign (fun i' hi' hmem => ?_) hf, fun hj => ?_⟩
      · have h1 := (hinv.not_elsewhere hi' hmem).1
        have h2 := hi.count pa
        have h3 := one_le_count (mem_lowPages hi.built hup)
        omega
      · exact hfirst v pa hup i (hj ▸ hf)
  have hpriv : ∀ a, (privPages pd sz).count a ≤ (lowPages pd n).count a := fun a => by
    rcases hn with rfl | ⟨rfl, -⟩
    · exact le_rfl
    · simp [privPages, mappedAt, pageRange]
  obtain ⟨hproc, hshm', -, hcount⟩ := freevm_counts hsz hfree
  have hframe := freevm_spec hsz hfree
  refine Quiet.of_frame ?_ fun a => ?_
  · rw [hframe, hdetach, hi.frame]
  · have h1 := hcount a
    have h2 := hi.count a
    have h3 := hpriv a
    rw [hdetach, List.count_nil] at h1
    omega

/-- The commit of `exec`. -/
theorem Image.commit {k₁ : Kernel} {pd old : Pgdir} {lo sz : Nat} {p : Slot} {z : Proc}
    {ask : Key → Nat} (hreal : Real (k.proc p)) (hs : Space (k.proc p) ask gen old lo)
    (hi : Image k k₁ pd (npages sz)) (hsz : sz ≤ usertop)
    (hfree : freevm (setProc k₁ p z) old (k.proc p).sz = some k')
    (hst : z.state = (k.proc p).state) (hks : z.kstack = (k.proc p).kstack)
    (hpd : z.pgdir = some pd) (hzs : z.sz = sz) (hva : z.shmVa = fun _ => usertop) :
    Detached k k' p old := by
  obtain ⟨hproc, hshm, hfreed, hcount⟩ := freevm_counts hs.size hfree
  have hshm₁ : k₁.shmPa = k.shmPa := by rw [hi.frame]
  rw [setProc_shmPa, hshm₁] at hshm hfreed hcount
  have hothers : ∀ q, q ≠ p → k'.proc q = k.proc q := fun q hq => by
    rw [hproc, setProc_of_ne _ _ hq, hi.frame]
  have hself : k'.proc p = z := by rw [hproc, setProc_self]
  have hrz : Real z := ⟨hst ▸ hreal.1, hst ▸ hreal.2⟩
  refine ⟨hreal, hs.pgdir, fun i ha => ha.2 ?_, ?_, fun _ ask' gen' => ?_, hothers, hshm,
    fun a => ?_, hfreed⟩
  · rw [hself, hva]
  · rw [hself]
    exact hrz.2
  · rw [hself]
    refine ⟨pd, userPages, Space.of_built hpd (hzs ▸ hsz) (hzs ▸ hi.built) (fun i => ?_) _ _⟩
    rw [hva]
  · have hbal := unshared_change hothers a
    have h1 := hcount a
    have h2 := hi.count a
    rw [hself, count_procPages_real hrz hpd, count_procPages_real hreal hs.pgdir, hks, hzs,
      privPages_eq pd] at hbal
    rw [setProc_freelist] at h1
    omega

theorem exec_effect (hinv : Inv k asked gen) {p : Slot} {f : ExecFile} {r : Int}
    (hrun : (k.proc p).state = .runnable)
    (hok : ∀ pd ∈ abandoned k (.exec f), ∀ v < userPages, ∀ pa ∈ pd.upte v, ∀ i,
      findShared k.shmPa pa ≠ some (i, 0)) (h : exec k p f = some (r, k')) :
    (r = -1 ∧ Quiet k k') ∨ (r = 0 ∧ ∃ pd, Detached k k' p pd) := by
  have hreal : Real (k.proc p) := by simp [Real, hrun]
  obtain ⟨old, lo, hs⟩ := hinv.space p hreal
  simp only [exec] at h
  split at h
  · simp only [Option.some.injEq, Prod.mk.injEq] at h
    obtain ⟨rfl, rfl⟩ := h
    exact .inl ⟨rfl, Quiet.refl k⟩
  · split at h
    · rename_i k₁ hset
      simp only [Option.some.injEq, Prod.mk.injEq] at h
      obtain ⟨rfl, rfl⟩ := h
      obtain ⟨pre, ht⟩ := setupkvm_none hset
      have hm := ht.moved []
      refine .inl ⟨rfl, Quiet.of_frame hm.frame fun a => ?_⟩
      have := hm.count a
      simp only [List.count_nil] at this
      omega
    · rename_i pd₁ k₁ hset
      split at h
      · cases h
      · rename_i k₂ pd₂ sz hbuild
        simp only [Option.map_eq_some_iff, Prod.mk.injEq] at h
        obtain ⟨k₃, hfree, rfl, rfl⟩ := h
        obtain ⟨n, himg, hsz, hle, hn⟩ := execBuild_image hset hbuild
        refine .inl ⟨rfl, himg.abandon hinv hsz (hn.imp_right ?_) hfree⟩
        rintro ⟨-, rfl⟩
        refine ⟨rfl, fun v pa hv => hok pd₂ (by simp [abandoned, hset, hbuild]) v ?_ pa hv⟩
        have := (himg.built v).mp (by simp [hv])
        omega
      · rename_i k₂ pd₂ sz hbuild
        obtain ⟨n, himg, hsz, -, hn⟩ := execBuild_image hset hbuild
        obtain rfl : n = npages sz := by simpa using hn
        have hp₂ : k₂.proc p = k.proc p := by rw [himg.frame]
        simp only [hp₂, hs.pgdir, Option.bind_eq_bind, Option.bind_some,
          Option.bind_eq_some_iff, Option.some.injEq, Prod.mk.injEq] at h
        obtain ⟨k₃, hfree, rfl, rfl⟩ := h
        exact .inr ⟨rfl, old, himg.commit hreal hs hsz hfree rfl rfl rfl rfl rfl⟩

/-! ## `shmgetat` -/

/-- The allocation loop of `shmgetat`, for the indices from `i` on. -/
theorem shmAlloc_spec {key : Key} : ∀ {n i : Nat} {k k' : Kernel}, i + n ≤ 4 →
    shmAlloc key n i k = some k' →
    ∃ pgs : List Nat, pgs.length = n ∧ k.freelist = pgs ++ k'.freelist ∧ k'.proc = k.proc ∧
      (∀ i', i' ≠ key → k'.shmPa i' = k.shmPa i') ∧
      (k'.shmPa key).refCount = (k.shmPa key).refCount ∧
      (∀ j : Fin 4, j.val < i → (k'.shmPa key).pagePtr j = (k.shmPa key).pagePtr j) ∧
      ∀ t, ∀ j : Fin 4, t < n → j.val = i + t → pgs[t]? = some ((k'.shmPa key).pagePtr j)
  | 0, i, k, k', _, h => by
      simp only [shmAlloc, Option.some.injEq] at h
      subst h
      exact ⟨[], rfl, rfl, rfl, fun _ _ => rfl, rfl, fun _ _ => rfl, fun t j ht => by omega⟩
  | n + 1, i, k, k', hle, h => by
      simp only [shmAlloc] at h
      split at h
      · cases h
      · rename_i pg k₁ hk
        have ht := kalloc_some hk
        have hfl : k.freelist = pg :: k₁.freelist := by rw [ht]; rfl
        have hproc : k₁.proc = k.proc := by rw [ht]
        have hshm : k₁.shmPa = k.shmPa := by rw [ht]
        obtain ⟨pgs, h1, h2, h3, h4, h5, h6, h7⟩ := shmAlloc_spec (by omega) h
        simp only [Function.update_self] at h5 h6
        refine ⟨pg :: pgs, by simp [h1], ?_, h3.trans hproc, fun i' hi => ?_, ?_, fun j hj => ?_,
          fun t j ht hj => ?_⟩
        · rw [hfl, h2]
          rfl
        · refine (h4 i' hi).trans ?_
          simp only [Function.update_of_ne hi, hshm]
        · rw [h5, hshm]
        · rw [h6 j (by omega), hshm, if_neg (by omega)]
        · cases t with
          | zero =>
              have hj' : j.val = i := hj
              rw [h6 j (by omega), if_pos hj']
              rfl
          | succ t => exact h7 t j (by omega) (by omega)

/-- A block of `n` pages added below an address space. -/
theorem Space.extend {q z : Proc} {ask : Key → Nat} {pd pd' : Pgdir} {lo n : Nat} {g : List Nat}
    {i : Key} (hs : Space q ask gen pd lo) (hapart : q.shmVa i = usertop) (hpos : 1 ≤ n)
    (hlen : n ≤ g.length) (hroom : npages q.sz + n ≤ lo)
    (hshaped : Shaped pd' (npages q.sz) (lo - n))
    (hnew : ∀ j, j < n → pd'.upte (lo - 1 - j) = g[j]?)
    (hold : ∀ w, w < lo - n ∨ lo ≤ w → pd'.upte w = pd.upte w) (hpd : z.pgdir = some pd')
    (hsz : z.sz = q.sz) (hva : z.shmVa = Function.update q.shmVa i ((lo - n) * pgsize)) :
    Space z (Function.update ask i n) (Function.update gen i g) pd' (lo - n) := by
  have hhigh := hs.high
  have hdiv : (lo - n) * pgsize / pgsize = lo - n := Nat.mul_div_cancel _ (by decide)
  have hother : ∀ {i'}, i' ≠ i → z.shmVa i' = q.shmVa i' := fun hi => by
    rw [hva, Function.update_of_ne hi]
  have hself : z.shmVa i = (lo - n) * pgsize := by rw [hva, Function.update_self]
  have hattached : z.shmVa i ≠ usertop := by
    rw [hself]
    simp only [usertop, pgsize, userPages] at *
    omega
  have hblock : ∀ j, blockPage z (Function.update ask i n) i j = lo - n + (n - 1 - j) :=
    fun j => by rw [blockPage, hself, hdiv, Function.update_self]
  have hblock' : ∀ {i'}, i' ≠ i → ∀ j,
      blockPage z (Function.update ask i n) i' j = blockPage q ask i' j := fun hi j => by
    rw [blockPage, blockPage, hother hi, Function.update_of_ne hi]
  refine ⟨hpd, by rw [hsz]; exact hs.size, by rw [hsz]; omega, by omega,
    by rw [hsz]; exact hshaped, fun i' hi => ?_, fun i' hi => ?_, fun i' hi => ?_,
    fun i' j hi hj => ?_, fun v h1 h2 => ?_⟩
  · by_cases he : i' = i
    · subst he
      rw [hself, Nat.mul_mod_left]
    · rw [hother he] at hi ⊢
      exact hs.aligned i' hi
  · by_cases he : i' = i
    · subst he
      simpa using ⟨hpos, hlen⟩
    · rw [hother he] at hi
      simpa [he] using hs.count i' hi
  · by_cases he : i' = i
    · subst he
      rw [hself, hdiv, Function.update_self]
      omega
    · rw [hother he] at hi ⊢
      rw [Function.update_of_ne he]
      have := hs.inside i' hi
      omega
  · by_cases he : i' = i
    · subst he
      rw [Function.update_self] at hj ⊢
      rw [hblock, show lo - n + (n - 1 - j) = lo - 1 - j by omega]
      exact hnew j hj
    · rw [hother he] at hi
      rw [Function.update_of_ne he] at hj ⊢
      have h1 := hs.inside i' hi
      rw [hblock' he, hold _ (.inr (by rw [blockPage]; omega))]
      exact hs.maps i' j hi hj
  · by_cases hv : lo ≤ v
    · obtain ⟨i', j, hi, hj, rfl⟩ := hs.cover v hv h2
      have he : i' ≠ i := fun he => hi (he ▸ hapart)
      exact ⟨i', j, by rwa [hother he], by rwa [Function.update_of_ne he], (hblock' he j).symm⟩
    · refine ⟨i, lo - 1 - v, hattached, by rw [Function.update_self]; omega, ?_⟩
      rw [hblock]
      omega

theorem shmArgs_some {key num : Int} {i : Key} {n : Nat} (h : shmArgs key num = some (i, n)) :
    1 ≤ n ∧ n ≤ 4 := by
  simp only [shmArgs] at h
  split at h
  · simp only [Option.some.injEq, Prod.mk.injEq] at h
    omega
  · cases h

/-- The kernel after the allocation, if there was one. -/
theorem shmPrepare_spec {i : Key} {n : Nat} {k₁ : Kernel} (hn : n ≤ 4)
    (h : (if (k.shmPa i).refCount = 0 then shmAlloc i n 0 k else some k) = some k₁) :
    k₁.proc = k.proc ∧ (∀ i', i' ≠ i → k₁.shmPa i' = k.shmPa i') ∧
      (k₁.shmPa i).refCount = (k.shmPa i).refCount ∧
      ((k.shmPa i).refCount = 0 → k.freelist = pagePtrs (k₁.shmPa i) n ++ k₁.freelist) ∧
      ((k.shmPa i).refCount ≠ 0 → k₁ = k) := by
  split at h
  · rename_i h0
    obtain ⟨pgs, h1, h2, h3, h4, h5, -, h7⟩ := shmAlloc_spec (by omega) h
    refine ⟨h3, h4, h5, fun _ => ?_, fun hne => absurd h0 hne⟩
    rw [h2]
    congr 1
    refine List.ext_getElem? fun j => ?_
    by_cases hj : j < n
    · rw [h7 j ⟨j, by omega⟩ hj (by simp), getElem?_pagePtrs hn (j := ⟨j, by omega⟩) hj]
    · rw [List.getElem?_eq_none (by omega),
        List.getElem?_eq_none (by rw [length_pagePtrs hn]; omega)]
  · rename_i h0
    obtain rfl := Option.some.inj h
    exact ⟨rfl, fun _ _ => rfl, rfl, fun he => absurd he h0, fun _ => rfl⟩

theorem shmAttach_effect {p : Slot} {pd : Pgdir} {lo n : Nat} {i : Key} {r : Int}
    {ask : Key → Nat} (hrun : (k.proc p).state = .runnable) (hs : Space (k.proc p) ask gen pd lo)
    (hapart : (k.proc p).shmVa i = usertop) (hpos : 1 ≤ n) (hn : n ≤ 4) (hroom : n ≤ userRoom pd)
    (h : shmAttach k p pd i n = some (r, k')) : Joined k k' p i n := by
  have hlow := hs.low
  have hhigh := hs.high
  rw [hs.shaped.room_eq hhigh] at hroom
  obtain ⟨k₁, hprep, h⟩ := Option.map_eq_some_iff.mp h
  obtain ⟨hproc, hshm, href, halloc, hjoin⟩ := shmPrepare_spec hn hprep
  -- the loop finds room for every page
  have hlen : (pagePtrs (k₁.shmPa i) n).length = n := length_pagePtrs hn
  have hne : pagePtrs (k₁.shmPa i) n ≠ [] := fun he => by rw [he, List.length_nil] at hlen; omega
  obtain ⟨pd', hmap, hdir, htab, hshaped, hnew, hold⟩ :=
    shmMap_spec hs.shaped (v := userPages - 1)
      (show npages (k.proc p).sz + (pagePtrs (k₁.shmPa i) n).length ≤ lo by omega) hhigh (by omega)
      (by simp [userPages])
  have hstart : (userPages - 1) * pgsize = usertop - pgsize := rfl
  rw [if_neg hne, hlen, hstart] at hmap
  rw [hlen] at hshaped hold
  have hptr : ∀ c m, pagePtrs { k₁.shmPa i with refCount := c, numPages := m } n
      = pagePtrs (k₁.shmPa i) n := fun _ _ => rfl
  simp only [shmEnter, hptr, hmap, hproc, Prod.mk.injEq] at h
  obtain ⟨-, rfl⟩ := h
  have hpriv : privPages pd' (k.proc p).sz = privPages pd (k.proc p).sz :=
    mappedAt_congr fun v hv => hold v (by have := (mem_pageRange.mp hv).2; omega)
  have hva : (lo - n) * pgsize ≠ usertop := by
    simp only [usertop, pgsize, userPages] at *
    omega
  refine ⟨.inl hrun, hapart, hpos, hn, ?_, ?_, fun i' hi => ?_, fun q hq => ?_, ?_,
    fun i' hi => ?_, ?_, ?_, fun h0 => ?_, fun h0 => ?_, fun ask' gen' pd₁ lo₁ g hs₁ hg hlg => ?_⟩
  · simp
  · simpa using hva
  · simp [hi]
  · exact setProc_of_ne _ _ hq
  · simp only [setProc_self, procPages, hs.pgdir, hdir, htab, hpriv]
  · simp [hi, hshm i' hi]
  · simp [href]
  · simp
  · obtain rfl := hjoin h0
    simp
  · simpa [hptr] using halloc h0
  · obtain ⟨rfl, rfl⟩ := hs.unique hs₁
    simp only [setProc_shmPa, Function.update_self, hptr] at hg
    rw [setProc_self]
    refine ⟨pd', hs₁.extend hapart hpos hlg (by omega) hshaped (fun j hj => ?_) hold rfl rfl rfl⟩
    rw [hnew j (by omega), ← List.getElem?_eq_getElem, hg, List.getElem?_take_of_lt hj]

theorem shmgetat_effect (hinv : Inv k asked gen) {p : Slot} {key num r : Int}
    (hrun : (k.proc p).state = .runnable)
    (hroom : ∀ a ∈ attachEvent k p (.shmgetat key num), ∀ pd ∈ (k.proc p).pgdir,
      a.2 ≤ userRoom pd)
    (h : shmgetat k p key num = some (r, k')) :
    match attachEvent k p (.shmgetat key num) with
    | none => Quiet k k'
    | some (i, n) => Joined k k' p i n := by
  have hreal : Real (k.proc p) := by simp [Real, hrun]
  obtain ⟨pd, lo, hs⟩ := hinv.space p hreal
  simp only [shmgetat] at h
  split at h
  · rename_i hargs
    simp only [Option.some.injEq, Prod.mk.injEq] at h
    simp only [attachEvent, hargs, Option.filter_none]
    exact h.2 ▸ Quiet.refl k
  · rename_i i n hargs
    split at h
    · rename_i hva
      simp only [Option.some.injEq, Prod.mk.injEq] at h
      simp only [attachEvent, hargs, Option.filter_some, hva, decide_false, Bool.false_eq_true,
        if_false]
      exact h.2 ▸ Quiet.refl k
    · rename_i hva
      have hapart : (k.proc p).shmVa i = usertop := not_not.mp hva
      have hev : attachEvent k p (.shmgetat key num) = some (i, n) := by
        simp [attachEvent, hargs, Option.filter_some, hapart]
      obtain ⟨hpos, hn⟩ := shmArgs_some hargs
      simp only [hs.pgdir] at h
      rw [hev]
      exact shmAttach_effect hrun hs hapart hpos hn (hroom (i, n) hev pd hs.pgdir) h

/-! ## One step of the system -/

/-- What remains of `taken` when the free list is that of `k`. -/
def kept (s : Sys) (k : Kernel) (i : Key) : List Nat := (s.taken i).filter fun pa => pa ∉ k.freelist

/-- What one step does to the kernel and to the history. -/
inductive StepCase (s : Sys) (e : Slot × Call) (t : Sys) : Prop
  | quiet (effect : Quiet s.k t.k) (asked : t.asked = s.asked) (gen : t.gen = s.gen)
      (taken : t.taken = kept s t.k) (attach : attachEvent s.k e.1 e.2 = none)
      (detach : detachEvent s.k e.1 e.2 = none)
  | forked (np : Slot) (effect : Forked s.k t.k e.1 np)
      (asked : t.asked = Function.update s.asked np (s.asked e.1)) (gen : t.gen = s.gen)
      (taken : t.taken = kept s t.k) (attach : attachEvent s.k e.1 e.2 = none)
      (detach : detachEvent s.k e.1 e.2 = none)
  | joined (i : Key) (n : Nat) (effect : Joined s.k t.k e.1 i n)
      (asked : t.asked = Function.update s.asked e.1 (Function.update (s.asked e.1) i n))
      (gen : t.gen = genAfter s.k t.k s.gen i n)
      (taken : ∀ i' pa, pa ∈ t.taken i' ↔ pa ∉ t.k.freelist ∧
        (pa ∈ s.taken i' ∨ i' = i ∧ (s.k.shmPa i).refCount = 0 ∧ pa ∈ t.gen i))
      (attach : attachEvent s.k e.1 e.2 = some (i, n)) (detach : detachEvent s.k e.1 e.2 = none)
  | detached (d : Slot) (pd : Pgdir) (effect : Detached s.k t.k d pd) (asked : t.asked = s.asked)
      (gen : t.gen = s.gen) (taken : t.taken = kept s t.k)
      (attach : attachEvent s.k e.1 e.2 = none) (detach : detachEvent s.k e.1 e.2 = some d)

/-- The history of a call that does not attach and is not a `fork` that
succeeds. -/
theorem record_plain {s : Sys} {p : Slot} {c : Call} {r : Int} (hat : attachEvent s.k p c = none)
    (hfork : c = .fork → r = -1) : record s p c r k = ⟨k, s.asked, s.gen, kept s k⟩ := by
  simp only [record, allocEvent, hat, Option.filter_none, Sys.mk.injEq, true_and]
  refine ⟨?_, rfl⟩
  split
  · cases ‹none = some _›
  · simp [hfork rfl]
  · rfl

theorem record_fork {s : Sys} {p np : Slot} {r : Int} (hslot : freeSlot s.k = some np)
    (hr : r ≠ -1) : record s p .fork r k
      = ⟨k, Function.update s.asked np (s.asked p), s.gen, kept s k⟩ := by
  simp only [record, allocEvent, attachEvent, Option.filter_none, hslot, hr, if_false]
  rfl

theorem record_attach {s : Sys} {p : Slot} {c : Call} {r : Int} {i : Key} {n : Nat}
    (hat : attachEvent s.k p c = some (i, n)) :
    (record s p c r k).asked = Function.update s.asked p (Function.update (s.asked p) i n) ∧
      (record s p c r k).gen = genAfter s.k k s.gen i n ∧
      ∀ i' pa, pa ∈ (record s p c r k).taken i' ↔ pa ∉ k.freelist ∧
        (pa ∈ s.taken i' ∨ i' = i ∧ (s.k.shmPa i).refCount = 0 ∧
          pa ∈ genAfter s.k k s.gen i n i) := by
  by_cases h0 : (s.k.shmPa i).refCount = 0
  · have hal : allocEvent s.k p c = some (i, n) := by simp [allocEvent, hat, h0]
    refine ⟨by simp [record, hat], by simp [record, hal, genAfter, h0], fun i' pa => ?_⟩
    by_cases hi : i' = i
    · subst hi
      simp [record, hal, h0, genAfter_alloc h0, and_comm, or_comm, and_or_left]
    · simp [record, hal, hi, and_comm]
  · have hal : allocEvent s.k p c = none := by simp [allocEvent, hat, h0]
    refine ⟨by simp [record, hat], by simp [record, hal, genAfter_join h0], fun i' pa => ?_⟩
    simp [record, hal, h0, and_comm]

theorem step_cases {s t : Sys} {e : Slot × Call} (hinv : Inv s.k s.asked s.gen)
    (hok : StepOk s e) (h : step s e = some t) : StepCase s e t := by
  obtain ⟨p, c⟩ := e
  simp only [step] at h
  split at h
  · rename_i hrun
    simp only [Option.map_eq_some_iff] at h
    obtain ⟨⟨r, k'⟩, hcall, rfl⟩ := h
    cases c with
    | shmgetat key num =>
        have heff := shmgetat_effect hinv hrun hok.room hcall
        cases hat : attachEvent s.k p (.shmgetat key num) with
        | none =>
            rw [hat] at heff
            rw [record_plain hat nofun]
            exact .quiet heff rfl rfl rfl hat rfl
        | some a =>
            obtain ⟨i, n⟩ := a
            rw [hat] at heff
            obtain ⟨h1, h2, h3⟩ := record_attach (k := k') (r := r) hat
            exact .joined i n heff h1 h2 (h2 ▸ h3) hat rfl
    | fork =>
        rcases fork_effect hinv hrun hcall with ⟨rfl, heff⟩ | ⟨np, hslot, hr, heff⟩
        · rw [record_plain rfl fun _ => rfl]
          exact .quiet heff rfl rfl rfl rfl rfl
        · rw [record_fork hslot hr]
          exact .forked np heff rfl rfl rfl rfl rfl
    | exec f =>
        have hexec : exec s.k p f = some (r, k') := hcall
        have hat : attachEvent s.k p (.exec f) = none := rfl
        rw [record_plain hat nofun]
        rcases exec_effect hinv hrun hok.exec hexec with ⟨rfl, heff⟩ | ⟨rfl, pd, heff⟩
        · exact .quiet heff rfl rfl rfl rfl (by simp [detachEvent, hexec])
        · exact .detached p pd heff rfl rfl rfl rfl (by simp [detachEvent, hexec])
    | exit =>
        obtain ⟨k₁, hexit, heq⟩ := Option.map_eq_some_iff.mp hcall
        obtain ⟨rfl, rfl⟩ := Prod.mk.inj heq
        have hat : attachEvent s.k p .exit = none := rfl
        rw [record_plain hat nofun]
        exact .quiet (exit_effect hrun hexit) rfl rfl rfl rfl rfl
    | wait =>
        have heff := wait_effect hinv hcall
        have hat : attachEvent s.k p .wait = none := rfl
        rw [record_plain hat nofun]
        cases hde : detachEvent s.k p .wait with
        | none =>
            rw [hde] at heff
            exact .quiet heff rfl rfl rfl rfl hde
        | some d =>
            rw [hde] at heff
            obtain ⟨pd, heff⟩ := heff
            exact .detached d pd heff rfl rfl rfl rfl hde
  · cases h

end Cs537.SharedMem
