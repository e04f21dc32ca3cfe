/-
# `Cs537.SharedMem.Inherit` — what a child inherits, and a `fork` that fails (p3/xv6)

`fork` copies the shared pages by walking down from `USERTOP` to the first page
that is not mapped.  Without a gap between the heap and the shared pages there is
no such page: the walk goes through the heap and below address 0, and `fork`
returns -1 with the child half made.  A `setupkvm` that fails keeps what it has
taken.  These are the two ways in which `fork` misses its purpose (`fork_iff`).
-/
import Cs537.SharedMem.Checked
import Cs537.SharedMem.Grow

namespace Cs537.SharedMem

open Cs537.Lib

/-! ## `copyuvm`, as far as the free list goes -/

section

variable {k : Kernel} {src d : Pgdir}

/-- The copy loop, when the pages to copy are mapped. -/
theorem copyuvmLoop_exact {m a : Nat} (hb : Built d a) (hle : a + m ≤ userPages)
    (hsrc : ∀ v, a ≤ v → v < a + m → (src.upte v).isSome) : ∃ k' d',
      copyuvmLoop src (List.range' a m) k d =
          some (if m ≤ k.freelist.length then .copied else .bad, k', d') ∧
        Filled k d (List.range' a (min m k.freelist.length)) k' d' := by
  induction m generalizing a k d with
  | zero => exact ⟨k, d, rfl, by simpa using Filled.refl k d⟩
  | succ m ih =>
      obtain ⟨pa, hpa⟩ := Option.isSome_iff_exists.mp (hsrc a (Nat.le_refl a) (by omega))
      rw [List.range'_succ, copyuvmLoop, walkpgdir_page src (by omega), hpa]
      simp only
      rcases hf : k.freelist with _ | ⟨mem, rest⟩
      · rw [kalloc_nil hf]
        exact ⟨k, d, rfl, Filled.refl k d⟩
      · have hnone : d.upte a = none := hb.unmapped (Nat.le_refl a)
        rw [kalloc_cons hf]
        simp only [mappages_page mem (show a < userPages by omega) hnone]
        obtain ⟨k', d', hloop, hfill⟩ := ih (k := { k with freelist := rest }) (hb.update mem) (by omega)
          fun v h1 h2 => hsrc v (by omega) (by omega)
        refine ⟨k', d', ?_, ?_⟩
        · rw [hloop]
          simp only [List.length_cons, Nat.add_le_add_iff_right]
        · have htook : Took k [mem] { k with freelist := rest } := by
            rw [Took, List.singleton_append, ← hf]
          have hmin : min (m + 1) (mem :: rest).length = min m rest.length + 1 := by
            rw [List.length_cons]
            omega
          rw [hmin, List.range'_succ]
          refine hfill.cons hnone (fun hmem => ?_) htook
          rw [List.mem_range'_1] at hmem
          omega

end

section

variable {k k' : Kernel} {src : Pgdir} {sz : Nat}

theorem copyuvm_short (h : k.freelist.length < kvmPages) :
    copyuvm k src sz = some (none, { k with freelist := [] }) := by
  rw [copyuvm, setupkvm_short h]

variable (hsz : sz ≤ usertop) (hsrc : ∀ v < npages sz, (src.upte v).isSome)

include hsz hsrc

/-- The pages of the directory are there: `copyuvm` copies as many pages as there
are left, and tears the copy down again if these are not all. -/
theorem copyuvm_exact (h : kvmPages ≤ k.freelist.length) : ∃ n d k',
    n = min (npages sz) (k.freelist.length - kvmPages) ∧
      copyuvm k src sz = (if npages sz ≤ k.freelist.length - kvmPages then some (some d, k')
        else (freevm k' d sz).map fun k => (none, k)) ∧
      Built d n ∧ Took k (d.dir :: d.tables ++ lowPages d n) k' := by
  obtain ⟨d₀, hset, hpages, hb⟩ := setupkvm_enough h
  have hle := npages_le_userPages hsz
  obtain ⟨k', d, hloop, hfill⟩ :=
    copyuvmLoop_exact (k := { k with freelist := k.freelist.drop kvmPages })
      (m := npages sz) hb (by omega) fun v _ hv => hsrc v (by omega)
  rw [List.length_drop] at hloop hfill
  have hbuilt := hfill.built hb
  rw [Nat.zero_add] at hbuilt
  have htook : Took k (d.dir :: d.tables) { k with freelist := k.freelist.drop kvmPages } := by
    rw [Took, hfill.dir, hfill.tables, hpages, List.take_append_drop]
  refine ⟨_, d, k', rfl, ?_, hbuilt, htook.trans hfill.took⟩
  rw [copyuvm, hset]
  simp only
  rw [show pageRange 0 sz = List.range' 0 (npages sz) from rfl, hloop]
  by_cases hall : npages sz ≤ k.freelist.length - kvmPages
  · rw [if_pos hall, if_pos hall]
  · rw [if_neg hall, if_neg hall]

/-- The pages of the copy are there too. -/
theorem copyuvm_enough (h : kvmPages + npages sz ≤ k.freelist.length) :
    ∃ d k', copyuvm k src sz = some (some d, k') ∧ Built d (npages sz) ∧
      k' = { k with freelist := k'.freelist } := by
  have hkvm : kvmPages ≤ k.freelist.length := by omega
  obtain ⟨n, d, k', hn, hcopy, hb, htook⟩ := copyuvm_exact hsz hsrc hkvm
  have hall : npages sz ≤ k.freelist.length - kvmPages := by omega
  rw [Nat.min_eq_left hall] at hn
  rw [if_pos hall] at hcopy
  exact ⟨d, k', hcopy, hn ▸ hb, htook.frame⟩

/-- They are not: `freevm` gives everything back. -/
theorem copyuvm_lack (h : kvmPages ≤ k.freelist.length) (hlack : k.freelist.length < kvmPages + npages sz)
    {r : Option Pgdir} (hcopy : copyuvm k src sz = some (r, k')) :
    r = none ∧ k' = { k with freelist := k'.freelist } ∧ k'.freelist.Perm k.freelist := by
  obtain ⟨n, d, k₂, hn, heq, hb, htook⟩ := copyuvm_exact hsz hsrc h
  have hfew : n ≤ npages sz := by omega
  rw [if_neg (by omega), hcopy] at heq
  obtain ⟨k₃, hfree, heq⟩ := Option.map_eq_some_iff.mp heq.symm
  obtain ⟨rfl, rfl⟩ := Prod.mk.inj heq
  obtain rfl := freevm_spec hsz hfree
  rw [hb.sharedPages hfew, privPages_eq, hb.lowPages_of_le hfew]
  refine ⟨rfl, ?_, ?_⟩
  · rw [htook.frame]
    rfl
  · refine .trans ?_ (.of_eq htook.freelist.symm)
    simp only [detach, List.reverse_nil, List.nil_append, List.cons_append, List.append_assoc]
    exact .cons _ ((List.reverse_perm _).append ((List.reverse_perm _).append_right _))

end

/-! ## The parent -/

/-- Process `p` with its heap below its shared pages, which go from `lo` up to
`USERTOP`. -/
structure Parent (k : Kernel) (p : Slot) (pd : Pgdir) (lo : Nat) : Prop where
  state : (k.proc p).state ≠ .unused
  pgdir : (k.proc p).pgdir = some pd
  size : (k.proc p).sz ≤ usertop
  low : npages (k.proc p).sz ≤ lo
  high : lo ≤ userPages
  shaped : Shaped pd (npages (k.proc p).sz) lo

/-- The child maps above `sz` what the parent maps there, and has its addresses. -/
structure Inherits (k k' : Kernel) (p np : Slot) : Prop where
  state : (k'.proc np).state = .runnable
  sz : (k'.proc np).sz = (k.proc p).sz
  shared : ∀ v, npages (k.proc p).sz ≤ v → v < userPages → userPte k' np v = userPte k p v
  shmVa : (k'.proc np).shmVa = (k.proc p).shmVa
  shmSz : (k'.proc np).shmSz = (k.proc p).shmSz

/-- The process table, the counts and the free pages are as before; the fields of
an unused slot mean nothing. -/
structure Unforked (k k' : Kernel) : Prop where
  state : ∀ q, (k'.proc q).state = (k.proc q).state
  proc : ∀ q, (k.proc q).state ≠ .unused → k'.proc q = k.proc q
  refCount : ∀ i, (k'.shmPa i).refCount = (k.shmPa i).refCount
  free : k'.freelist.Perm k.freelist

/-- With a slot and enough pages `fork` succeeds, and otherwise it has no effect. -/
structure ForkRight (k : Kernel) (p : Slot) : Prop where
  success : ∀ np, freeSlot k = some np →
    1 + kvmPages + npages (k.proc p).sz ≤ k.freelist.length →
      ∃ pid k', fork k p = some (pid, k') ∧ pid ≠ -1 ∧ Inherits k k' p np
  failure : ∀ k', fork k p = some (-1, k') → Unforked k k'

section

variable {k k' : Kernel} {p np : Slot} {pd : Pgdir} {lo : Nat}

/-! ## `allocproc` -/

/-- The slot that `allocproc` returns. -/
structure Embryo (k k₁ : Kernel) (np : Slot) (stack : Nat) (rest : List Nat) : Prop where
  alloc : allocproc k = (some np, k₁)
  unused : (k.proc np).state = .unused
  free : k.freelist = stack :: rest
  rest : k₁.freelist = rest
  kend : k₁.kend = k.kend
  shm : k₁.shmPa = k.shmPa
  others : ∀ q, q ≠ np → k₁.proc q = k.proc q
  kstack : (k₁.proc np).kstack = some stack

theorem allocproc_enough {stack : Nat} {rest : List Nat} (hslot : freeSlot k = some np)
    (hf : k.freelist = stack :: rest) : ∃ k₁, Embryo k k₁ np stack rest := by
  rcases hal : allocproc k with ⟨_ | np', k₁⟩
  · rw [allocproc, hslot] at hal
    simp only [kalloc_cons (k := { setProc k np _ with nextpid := k.nextpid + 1 }) hf] at hal
    cases hal
  · obtain ⟨hslot', stack', q, hfl, hk₁, -, hks, -, -⟩ := allocproc_some hal
    obtain rfl := Option.some.inj (hslot.symm.trans hslot')
    obtain ⟨rfl, hrest⟩ := List.cons.inj (hf.symm.trans hfl)
    have hself : k₁.proc np = q := by
      rw [hk₁]
      exact setProc_self k np q
    refine ⟨k₁, hal, freeSlot_unused hslot, hf, hrest.symm, ?_, ?_, fun r hr => ?_, ?_⟩
    · rw [hk₁]
      rfl
    · rw [hk₁]
      rfl
    · rw [hk₁]
      exact setProc_of_ne k q hr
    · rw [hself, hks]

theorem allocproc_fails (h : freeSlot k = none ∨ k.freelist = []) :
    ∃ k₁, allocproc k = (none, k₁) ∧ Unforked k k₁ := by
  rcases hal : allocproc k with ⟨_ | np, k₁⟩
  · refine ⟨k₁, rfl, ?_⟩
    rcases allocproc_none hal with rfl | ⟨np, q, hslot, hq, rfl⟩
    · exact ⟨fun _ => rfl, fun _ _ => rfl, fun _ => rfl, .refl _⟩
    · have hunused := freeSlot_unused hslot
      refine ⟨fun r => ?_, fun r hr => ?_, fun _ => rfl, .refl _⟩
      · by_cases hr : r = np
        · subst hr
          exact (congrArg Proc.state (setProc_self k r q)).trans (hq.trans hunused.symm)
        · exact congrArg Proc.state (setProc_of_ne k q hr)
      · exact setProc_of_ne k q fun he => hr (he ▸ hunused)
  · obtain ⟨hslot, stack, q, hfl, -⟩ := allocproc_some hal
    rcases h with hno | hempty
    · rw [hno] at hslot
      cases hslot
    · rw [hempty] at hfl
      cases hfl

/-! ## The ways through `fork` -/

/-- `allocproc` fails. -/
theorem fork_noProc (h : freeSlot k = none ∨ k.freelist = []) :
    ∃ k₁, fork k p = some (-1, k₁) ∧ Unforked k k₁ := by
  obtain ⟨k₁, hal, hun⟩ := allocproc_fails h
  refine ⟨k₁, ?_, hun⟩
  rw [fork, hal]

section

variable {k₁ : Kernel} {stack : Nat} {rest : List Nat} (he : Embryo k k₁ np stack rest)
  (hp : Parent k p pd lo)

include he

/-- A kernel that differs from the one before in the free list and in the slot of
the child, which is unused again. -/
theorem Embryo.undone (k₂ : Kernel) {q : Proc} (hproc : k₂.proc = k₁.proc)
    (hshm : k₂.shmPa = k₁.shmPa) (hq : q.state = .unused) :
    Unforked k (setProc k₂ np q) ↔ k₂.freelist.Perm k.freelist := by
  refine ⟨fun h => h.free, fun hfree => ⟨fun r => ?_, fun r hr => ?_, fun i => ?_, hfree⟩⟩
  · by_cases hr : r = np
    · subst hr
      rw [setProc_self, hq, he.unused]
    · rw [setProc_of_ne k₂ q hr, hproc, he.others r hr]
  · have hne : r ≠ np := fun h => hr (h ▸ he.unused)
    rw [setProc_of_ne k₂ q hne, hproc, he.others r hne]
  · rw [setProc_shmPa, hshm, he.shm]

include hp

theorem Parent.ne : p ≠ np := fun h => hp.state (h ▸ he.unused)

/-- `copyuvm` fails. -/
theorem Embryo.fork_uncopied {k₂ : Kernel} (hcopy : copyuvm k₁ pd (k.proc p).sz = some (none, k₂))
    (hproc : k₂.proc = k₁.proc) :
    fork k p = (kfree k₂ stack).bind fun k₃ =>
      some (-1, setProc k₃ np { k₃.proc np with pgdir := none, kstack := none, state := .unused }) := by
  have hstack : (k₂.proc np).kstack = some stack := by rw [hproc, he.kstack]
  rw [fork, he.alloc]
  simp only [he.others p (hp.ne he), hp.pgdir, hcopy, hstack, Option.bind_eq_bind, Option.bind_some]

/-- The walk down from `USERTOP` fails. -/
theorem Embryo.fork_stuck {k₂ : Kernel} {d d' : Pgdir}
    (hcopy : copyuvm k₁ pd (k.proc p).sz = some (some d, k₂))
    (hwalk : forkCopy pd turn (usertop - pgsize) d = (none, d')) :
    fork k p = some (-1, setProc k₂ np { k₂.proc np with pgdir := some d' }) := by
  rw [fork, he.alloc]
  simp only [he.others p (hp.ne he), hp.pgdir, hcopy, hwalk, Option.bind_eq_bind, Option.bind_some]

/-- Nothing fails. -/
theorem Embryo.fork_done {k₂ : Kernel} {d d' : Pgdir} {s : Pgdir}
    (hcopy : copyuvm k₁ pd (k.proc p).sz = some (some d, k₂)) (hproc : k₂.proc = k₁.proc)
    (hwalk : forkCopy pd turn (usertop - pgsize) d = (some d', s)) :
    ∃ pid : Nat, fork k p = some ((pid : Int), setProc { k₂ with
      shmPa := forkRefs (k.proc p).shmVa k₂.shmPa } np { k₁.proc np with
        pgdir := some d'
        shmVa := (k.proc p).shmVa
        shmSz := (k.proc p).shmSz
        sz := (k.proc p).sz
        parent := some p
        state := .runnable }) := by
  refine ⟨(k₁.proc np).pid, ?_⟩
  rw [fork, he.alloc]
  simp only [he.others p (hp.ne he), hp.pgdir, hcopy, hwalk, hproc, Option.bind_eq_bind, Option.bind_some]

/-! ## Which of them is taken -/

omit he in
theorem Parent.mapped : ∀ v < npages (k.proc p).sz, (pd.upte v).isSome := fun v hv =>
  (hp.shaped v).mpr (.inl hv)

/-- Not even the pages of a directory: `setupkvm` keeps those that there are. -/
theorem Embryo.starved (hfree : FreeOk k) (hshort : rest.length < kvmPages) :
    ∃ k', fork k p = some (-1, k') ∧ (Unforked k k' ↔ rest = []) := by
  have hcopy : copyuvm k₁ pd (k.proc p).sz = some (none, { k₁ with freelist := [] }) :=
    copyuvm_short (by rw [he.rest]; exact hshort)
  have hmem : stack ∈ k.freelist := by simp [he.free]
  obtain ⟨halign, hlow, hhigh⟩ := hfree stack hmem
  have hkfree : kfree { k₁ with freelist := [] } stack = some { k₁ with freelist := [stack] } := by
    rw [kfree]
    simp [he.kend, halign, hlow, hhigh]
  have hfork := he.fork_uncopied hp hcopy rfl
  rw [hkfree, Option.bind_some] at hfork
  refine ⟨_, hfork, ?_⟩
  rw [he.undone { k₁ with freelist := [stack] } rfl rfl rfl, he.free]
  constructor
  · intro hperm
    exact List.length_eq_zero_iff.mp (Nat.succ.inj hperm.length_eq).symm
  · rintro rfl
    exact .refl _

/-- The pages of a directory, but not those of the copy: all is given back. -/
theorem Embryo.lacking (henough : kvmPages ≤ rest.length)
    (hlack : rest.length < kvmPages + npages (k.proc p).sz) (h : fork k p = some (-1, k')) :
    Unforked k k' := by
  rcases hcopy : copyuvm k₁ pd (k.proc p).sz with _ | ⟨r, k₂⟩
  · rw [fork, he.alloc] at h
    simp only [he.others p (hp.ne he), hp.pgdir, hcopy, Option.bind_eq_bind, Option.bind_some,
      Option.bind_none, reduceCtorEq] at h
  · rw [← he.rest] at henough hlack
    obtain ⟨rfl, hframe, hperm⟩ := copyuvm_lack hp.size hp.mapped henough hlack hcopy
    have hproc : k₂.proc = k₁.proc := by rw [hframe]
    have hshm : k₂.shmPa = k₁.shmPa := by rw [hframe]
    rw [he.fork_uncopied hp hcopy hproc] at h
    obtain ⟨k₃, hkfree, heq⟩ := Option.bind_eq_some_iff.mp h
    obtain rfl := kfree_spec hkfree
    obtain rfl := (Prod.mk.inj (Option.some.inj heq)).2
    rw [he.undone { k₂ with freelist := stack :: k₂.freelist } hproc hshm rfl, he.free, ← he.rest]
    exact .cons stack hperm

/-- All the pages, and a gap: the child is made. -/
theorem Embryo.made (hlen : kvmPages + npages (k.proc p).sz ≤ rest.length)
    (hgap : npages (k.proc p).sz < lo) :
    ∃ pid k', fork k p = some (pid, k') ∧ pid ≠ -1 ∧ Inherits k k' p np := by
  rw [← he.rest] at hlen
  obtain ⟨d, k₂, hcopy, hb, hframe⟩ := copyuvm_enough hp.size hp.mapped hlen
  have hhigh := hp.high
  have hwalk := forkCopy_spec hp.shaped hgap turn (v := userPages - 1) (d := d) (by omega)
    (by simp only [userPages]; omega) (by simp only [userPages, turn] at *; omega)
    fun w hw _ => hb.unmapped (by omega)
  obtain ⟨d', hwalk, -, -, hshared, hkept⟩ := hwalk
  obtain ⟨pid, hfork⟩ := he.fork_done hp hcopy (by rw [hframe]) hwalk
  refine ⟨pid, _, hfork, by omega, ?_, ?_, fun v hv hv' => ?_, ?_, ?_⟩
  · rw [setProc_self]
  · rw [setProc_self]
  · rw [userPte, userPte, setProc_self, hp.pgdir]
    simp only [Option.bind_some]
    rcases Nat.lt_or_ge v lo with hlo | hlo
    · rw [hkept v (.inl hlo), hb.unmapped hv, hp.shaped.unmapped hv hlo]
    · exact hshared v hlo (by omega)
  · rw [setProc_self]
  · rw [setProc_self]

/-- All the pages, and no gap: the walk fails. -/
theorem Embryo.stuck (hlen : kvmPages + npages (k.proc p).sz ≤ rest.length)
    (hgap : npages (k.proc p).sz = lo) : ∃ k', fork k p = some (-1, k') := by
  rw [← he.rest] at hlen
  obtain ⟨d, k₂, hcopy, -, -⟩ := copyuvm_enough hp.size hp.mapped hlen
  have hfull : ∀ v < userPages, (pd.upte v).isSome := fun v hv => (hp.shaped v).mpr (by omega)
  rcases hwalk : forkCopy pd turn (usertop - pgsize) d with ⟨r, d'⟩
  have hnone := forkCopy_full hfull turn (usertop - pgsize) d
  rw [hwalk] at hnone
  obtain rfl : r = none := hnone
  exact ⟨_, he.fork_stuck hp hcopy hwalk⟩

end

/-- A `fork` that fails before it has a slot. -/
theorem forkRight_noProc (h : freeSlot k = none ∨ k.freelist = []) : ForkRight k p := by
  obtain ⟨k₁, hfork, hun⟩ := fork_noProc (p := p) h
  refine ⟨fun np hslot hlen => ?_, fun k' hk' => ?_⟩
  · rcases h with hno | hempty
    · rw [hno] at hslot
      cases hslot
    · rw [hempty, List.length_nil] at hlen
      omega
  · rw [hfork] at hk'
    obtain ⟨-, rfl⟩ := Prod.mk.inj (Option.some.inj hk')
    exact hun

/-- `fork` does its work just when it finds no slot or no stack, or when the pages
of a directory are there and either those of the copy are not or a gap is left
between the heap and the shared pages. -/
theorem fork_iff (hp : Parent k p pd lo) (hfree : FreeOk k) : ForkRight k p ↔
    freeSlot k = none ∨ k.freelist.length ≤ 1 ∨ 1 + kvmPages ≤ k.freelist.length ∧
      (k.freelist.length < 1 + kvmPages + npages (k.proc p).sz ∨ npages (k.proc p).sz < lo) := by
  rcases hslot : freeSlot k with _ | np
  · exact iff_of_true (forkRight_noProc (.inl hslot)) (.inl rfl)
  rcases hf : k.freelist with _ | ⟨stack, rest⟩
  · exact iff_of_true (forkRight_noProc (.inr hf)) (.inr (.inl (Nat.zero_le 1)))
  obtain ⟨k₁, he⟩ := allocproc_enough hslot hf
  have hlen : k.freelist.length = rest.length + 1 := by rw [hf, List.length_cons]
  have hnil : rest.length = 0 ↔ rest = [] := List.length_eq_zero_iff
  simp only [reduceCtorEq, false_or, List.length_cons]
  -- which resource is short decides the way through the code
  rcases Nat.lt_or_ge rest.length kvmPages with hshort | henough
  · obtain ⟨k', hfork, hun⟩ := he.starved hp hfree hshort
    constructor
    · intro hright
      have hempty := hnil.mpr (hun.mp (hright.failure k' hfork))
      omega
    · intro hcond
      have hempty : rest = [] := hnil.mp (by omega)
      refine ⟨fun np' _ hbig => by omega, fun k'' hk'' => ?_⟩
      rw [hfork] at hk''
      obtain ⟨-, rfl⟩ := Prod.mk.inj (Option.some.inj hk'')
      exact hun.mpr hempty
  · rcases Nat.lt_or_ge rest.length (kvmPages + npages (k.proc p).sz) with hlack | hall
    · refine iff_of_true ⟨fun np' _ hbig => by omega, fun k' hk' => ?_⟩ (by omega)
      exact he.lacking hp henough hlack hk'
    · rcases Nat.lt_or_eq_of_le hp.low with hgap | hgap
      · obtain ⟨pid, k', hfork, hpid, hinh⟩ := he.made hp hall hgap
        refine iff_of_true ⟨fun np' hnp' _ => ?_, fun k'' hk'' => ?_⟩ (by omega)
        · obtain rfl := Option.some.inj (hslot.symm.trans hnp')
          exact ⟨pid, k', hfork, hpid, hinh⟩
        · rw [hfork] at hk''
          exact absurd (Prod.mk.inj (Option.some.inj hk'')).1 hpid
      · obtain ⟨k', hfork⟩ := he.stuck hp hall hgap
        have hpos : 0 < kvmPages := Nat.succ_pos kmapTables
        refine iff_of_false (fun hright => ?_) (by omega)
        obtain ⟨pid, k'', hfork', hpid, -⟩ := hright.success np hslot (by omega)
        rw [hfork] at hfork'
        exact hpid (Prod.mk.inj (Option.some.inj hfork')).1.symm

end

/-! ## Parents in a run -/

/-- A running process is a parent, while the discipline of `Cs537.SharedMem.System`
is kept. -/
theorem SysInv.parent {s : Sys} {p : Slot} (hs : SysInv s) (hreal : Real (s.k.proc p)) :
    ∃ pd lo, Parent s.k p pd lo := by
  obtain ⟨pd, lo, hspace⟩ := hs.inv.space p hreal
  exact ⟨pd, lo, hreal.1, hspace.pgdir, hspace.size, hspace.low, hspace.high, hspace.shaped⟩

theorem fork_iff_booted : ForkRight booted.k 0 := by
  have hs : SysInv booted := sysInv_boot bootSys_eq freeAtBoot_nodup zero_notMem_freeAtBoot
  have hlive : Live booted.k 0 := by
    rw [booted_eq]
    decide +kernel
  obtain ⟨pd, lo, hp⟩ := hs.parent hlive.real
  have hrun : run step booted [] = some booted := rfl
  have hfree : FreeOk booted.k := freeOk_run bootSys_eq (kinitPages_freeOk 0x110000) hrun
  have hlen : 1 + kvmPages ≤ booted.k.freelist.length := by
    rw [booted_eq]
    decide +kernel
  have hunmapped : userPte booted.k 0 1 = none := by
    rw [booted_eq]
    decide +kernel
  have hsize : npages (booted.k.proc 0).sz = 1 := by
    rw [booted_eq]
    decide +kernel
  rw [userPte, hp.pgdir, Option.bind_some] at hunmapped
  have hshape := hp.shaped 1
  rw [hunmapped, hsize] at hshape
  have hgap : 1 < lo := by
    by_contra hlo
    have hmapped := hshape.mpr (.inr ⟨by omega, by decide⟩)
    cases hmapped
  exact (fork_iff hp hfree).mpr (.inr (.inr ⟨hlen, .inr (by rw [hsize]; exact hgap)⟩))

/-- A program of 156 pages, its stack included, which then maps four shared pages. -/
def fullRun : List (Slot × Call) :=
  [(0, .exec ⟨true, [⟨true, true, 0, 155 * 4096, 0, true⟩], true⟩), (0, .shmgetat 0 4)]

theorem fork_needs_gap : ¬ ∀ es s, run step booted es = some s → ∀ p pd lo, Parent s.k p pd lo →
    ForkRight s.k p := by
  intro h
  have hok : AllSteps step StepOk booted fullRun := by
    rw [booted_eq]
    decide +kernel
  have hrun : (run step booted fullRun).map (fun s => decide (Live s.k 0 ∧
      npages (s.k.proc 0).sz = 156 ∧ (userPte s.k 0 156).isSome ∧ freeSlot s.k = some 1 ∧
        1 + kvmPages + 156 ≤ s.k.freelist.length)) = some true := by
    rw [booted_eq]
    decide +kernel
  obtain ⟨s, hs, heq⟩ := Option.map_eq_some_iff.mp hrun
  obtain ⟨hlive, hsize, hmapped, hslot, hlen⟩ := of_decide_eq_true heq
  have hinv := (sysInv_run bootSys_eq freeAtBoot_nodup zero_notMem_freeAtBoot hok).last hs
  obtain ⟨pd, lo, hp⟩ := hinv.parent hlive.real
  -- the page above the heap is shared
  have hlow := hp.low
  rw [userPte, hp.pgdir, Option.bind_some, hp.shaped 156, hsize] at hmapped
  rw [hsize] at hlow
  have hgap : npages (s.k.proc 0).sz = lo := by omega
  rcases hf : s.k.freelist with _ | ⟨stack, rest⟩
  · rw [hf, List.length_nil] at hlen
    omega
  · obtain ⟨k₁, he⟩ := allocproc_enough hslot hf
    rw [hf, List.length_cons] at hlen
    obtain ⟨k', hfork⟩ := he.stuck hp (by omega) hgap
    obtain ⟨pid, k'', hfork', hpid, -⟩ := (h fullRun s hs 0 pd lo hp).success 1 hslot
      (by rw [hf, List.length_cons]; omega)
    rw [hfork] at hfork'
    exact hpid (Prod.mk.inj (Option.some.inj hfork')).1.symm

end Cs537.SharedMem
