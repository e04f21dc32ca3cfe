/-
# `Cs537.Threads.User` — the thread library (p4/xv6)

`thread_create` and `thread_join` of `thread.c`, called by one process over the
kernel of `Cs537.Threads.Table`.  `thread_create` gives `clone` the first whole page of
a block from `malloc`; the address of the page is what `join` returns, and
`thread_join` frees that, whatever `join` has returned.

`malloc` may return any block that is in the address space and apart from the live
ones, of any alignment.  What is in the memory is left out (so the `memset` of
a null block too), and how `malloc` finds its blocks.

    Proper s           pages are in their blocks, and the frees of `thread_join` are
                       those of the blocks of joined threads, each once
    Joins me s e       if the event ends a `thread_join`, a thread has been joined
                       whose block is page-aligned

`stacks_run`: in a run the state is proper all along if and only if every step
joins so.
-/
import Cs537.Threads.Count
import Cs537.Threads.Sbrk

namespace Cs537.Threads.User

open Cs537.Lib Cs537.Threads
open Cs537.Sbrk (pgsize usertop)

/-- What the library works on.  `passed`, `made` and `freed` are not in the program:
the block and the page of every call of `clone`; the thread that `clone` returned
and its block; what `join` returned and the pointer that `thread_join` then freed. -/
structure State where
  sys : Sys
  /-- `proc->sz` -/
  sz : Nat
  /-- the blocks of `malloc` that are not free, with their sizes -/
  live : List (Nat × Nat)
  passed : List (Nat × Nat)
  made : List (Int × Nat)
  freed : List (Option Int × Nat)

inductive Event where
  /-- `malloc` returns `a` and the address space ends at `sz`; `args` says whether
  `fcn` and `arg` are in it, and `ok` whether there is a kernel stack -/
  | thread_create (a sz : Nat) (args ok : Bool)
  /-- `garbage` is what `stack` holds uninitialised -/
  | thread_join (garbage : Nat)
  /-- the process has been woken in `join` -/
  | wake (garbage : Nat)
  | malloc (n a sz : Nat)
  | free (a : Nat)
  /-- another process makes a system call -/
  | other (e : Threads.Event)

/-- Who makes the system call. -/
def actor : Threads.Event → Slot
  | .fork x _ _ | .clone x _ _ | .exec x _ | .exit x _ | .call _ x | .resume x | .kill x _ => x

variable {me p q np : Slot} {s t : State} {k : Int} {a b n sz page : Nat}

/-! ## The library -/

/-- `malloc` can return the block of `n` bytes at `a`. -/
def Gives (s : State) (n a sz : Nat) : Prop :=
  s.sz ≤ sz ∧ sz ≤ usertop ∧ a + n ≤ sz ∧ ∀ c ∈ s.live, a + n ≤ c.1 ∨ c.1 + c.2 ≤ a

instance decidableGives (s : State) (n a sz : Nat) : Decidable (Gives s n a sz) :=
  inferInstanceAs (Decidable (_ ∧ _ ∧ _ ∧ _))

/-- `malloc`; a null pointer is 0. -/
def State.malloc (s : State) (n a sz : Nat) : Option State :=
  if a = 0 then some s
  else if Gives s n a sz then some { s with sz := sz, live := (a, n) :: s.live } else none

def State.free (s : State) (a : Nat) : State :=
  { s with live := s.live.eraseP fun c => c.1 = a }

/-- The page of a block: its address, moved up to the next multiple of `PGSIZE`. -/
def pageOf (stack : Nat) : Nat :=
  if stack % pgsize ≠ 0 then stack + (pgsize - stack % pgsize) else stack

/-- `sys_clone`, with its checks, and `clone`; the block is `a`. -/
def State.clone (s : State) (me : Slot) (a : Nat) (args ok : Bool) : Option State :=
  let stack := pageOf a
  let s := { s with passed := (a, stack) :: s.passed }
  if args = false ∨ stack % pgsize ≠ 0 ∨ stack + pgsize > s.sz then some s
  else
    (s.sys.step (.clone me ok stack)).map fun sys =>
      match (s.sys.allocproc ok).1 with
      | none => { s with sys := sys }
      | some _ => { s with sys := sys, made := (s.sys.nextpid, a) :: s.made }

def State.thread_create (s : State) (me : Slot) (a sz : Nat) (args ok : Bool) : Option State :=
  (s.malloc (2 * pgsize) a sz).bind fun s => if a = 0 then some s else s.clone me a args ok

/-- `thread_join` once `join` has returned, or is asleep; `s` is the state before. -/
def State.joined (s : State) (sys : Sys) (garbage : Nat) : Ret → State
  | .sleep => { s with sys := sys }
  | .fail => { s.free garbage with sys := sys, freed := (none, garbage) :: s.freed }
  | .found p =>
      { s.free (s.sys.ptable p).stack with
        sys := sys, freed := (some (s.sys.ptable p).pid, (s.sys.ptable p).stack) :: s.freed }

/-- What a call of `join` comes to. -/
def joinRet (s : Sys) (me : Slot) : Ret :=
  if (s.ptable me).num_child = 0 then .fail else Call.join.look s.ptable me

/-- `none` is an event that cannot happen. -/
def State.step (me : Slot) (s : State) : Event → Option State
  | .thread_create a sz args ok =>
      if (s.sys.ptable me).Ready then s.thread_create me a sz args ok else none
  | .thread_join garbage =>
      (s.sys.step (.call .join me)).map fun sys => s.joined sys garbage (joinRet s.sys me)
  | .wake garbage =>
      if (s.sys.ptable me).call = some .join then
        (s.sys.step (.resume me)).map fun sys => s.joined sys garbage (Call.join.look s.sys.ptable me)
      else none
  | .malloc n a sz => if (s.sys.ptable me).Ready then s.malloc n a sz else none
  | .free a => if (s.sys.ptable me).Ready ∧ a ∈ s.live.map Prod.fst then some (s.free a) else none
  | .other e => if actor e = me then none else (s.sys.step e).map fun sys => { s with sys := sys }

/-- The program starts. -/
def start (sys : Sys) (sz : Nat) : State := ⟨sys, sz, [], [], [], []⟩

/-! ## What is claimed of it -/

/-- The page passed to `clone` is in its block; each free of `thread_join` is of the
block of the thread that has been joined, and no thread's is freed twice. -/
structure Proper (s : State) : Prop where
  inside : ∀ c ∈ s.passed, c.1 ≤ c.2 ∧ c.2 + pgsize ≤ c.1 + 2 * pgsize
  own : ∀ f ∈ s.freed, ∃ k b, f = (some k, b) ∧ (k, b) ∈ s.made
  once : (s.freed.map Prod.fst).Nodup

theorem Proper.block (h : Proper s) (hf : (some k, a) ∈ s.freed) : (k, a) ∈ s.made := by
  obtain ⟨k', b, he, hm⟩ := h.own _ hf
  cases he
  exact hm

/-- `join` returns a thread of `thread_create` whose block is page-aligned, or has not
returned yet. -/
def JoinsAligned (s : State) : Ret → Prop
  | .sleep => True
  | .fail => False
  | .found p => ∃ m ∈ s.made, m.1 = (s.sys.ptable p).pid ∧ m.2 % pgsize = 0

instance decidableJoinsAligned (s : State) : (r : Ret) → Decidable (JoinsAligned s r)
  | .sleep => inferInstanceAs (Decidable True)
  | .fail => inferInstanceAs (Decidable False)
  | .found _ => inferInstanceAs (Decidable (∃ m ∈ s.made, _))

def Joins (me : Slot) (s : State) : Event → Prop
  | .thread_join _ => JoinsAligned s (joinRet s.sys me)
  | .wake _ => JoinsAligned s (Call.join.look s.sys.ptable me)
  | _ => True

instance decidableJoins (me : Slot) (s : State) : (e : Event) → Decidable (Joins me s e)
  | .thread_join _ => inferInstanceAs (Decidable (JoinsAligned ..))
  | .wake _ => inferInstanceAs (Decidable (JoinsAligned ..))
  | .thread_create .. => inferInstanceAs (Decidable True)
  | .malloc .. => inferInstanceAs (Decidable True)
  | .free _ => inferInstanceAs (Decidable True)
  | .other _ => inferInstanceAs (Decidable True)

/-! ## The kernel's `stack` -/

section Kernel

variable {s t : Sys} {T T' T'' : Table} {x : Slot} {e : Threads.Event} {c : Call}

def SameStack (T T' : Table) : Prop := ∀ q, (T' q).stack = (T q).stack

theorem SameStack.trans (h : SameStack T T') (h' : SameStack T' T'') : SameStack T T'' :=
  fun q => (h' q).trans (h q)

theorem sameStack_update {y : Proc} (hy : y.stack = (T p).stack) :
    SameStack T (Function.update T p y) := by
  intro q
  by_cases hq : q = p
  · rw [hq, Function.update_self]
    exact hy
  · rw [Function.update_of_ne hq]

theorem sameStack_wakeup1 (p : Slot) (T : Table) : SameStack T (wakeup1 p T) := by
  rw [wakeup1]
  split
  · exact sameStack_update rfl
  · exact fun _ => rfl

theorem sameStack_wakeParent (x : Slot) (T : Table) : SameStack T (wakeParent x T) := by
  rw [wakeParent]
  split
  · exact sameStack_wakeup1 _ T
  · exact fun _ => rfl

theorem sameStack_abandon (x : Slot) (T : Table) : SameStack T (abandon x T) := by
  have horphan : SameStack T (orphan x T) := by
    intro q
    rw [orphan]
    split <;> rfl
  rw [abandon]
  split
  · exact horphan.trans (sameStack_wakeup1 initproc (orphan x T))
  · exact horphan

theorem sameStack_reap (s : Sys) (c : Call) (x p : Slot) :
    SameStack s.ptable (s.reap c x p).ptable := by
  have hdrop : SameStack s.ptable (dropChild (s.ptable p).parent_pid s.ptable) := by
    intro q
    rw [dropChild]
    split <;> rfl
  have hclear : SameStack s.ptable (Function.update (dropChild (s.ptable p).parent_pid s.ptable) p
      (dropChild (s.ptable p).parent_pid s.ptable p).clear) := by
    refine hdrop.trans (sameStack_update ?_)
    rfl
  cases c <;>
  · refine hclear.trans (sameStack_update ?_)
    rfl

theorem sameStack_loop (ht : s.loop c x = some t) : SameStack s.ptable t.ptable := by
  rw [Sys.loop] at ht
  split at ht
  · split at ht
    · obtain ⟨u, hu, rfl⟩ := Option.map_eq_some_iff.mp ht
      obtain ⟨a, -, rfl⟩ := Option.map_eq_some_iff.mp hu
      exact sameStack_reap { s with dirs := Function.update s.dirs a false } c x _
    · exact Option.some.inj ht ▸ sameStack_reap s c x _
  · exact Option.some.inj ht ▸ sameStack_update rfl
  · exact Option.some.inj ht ▸ sameStack_update rfl

/-- Only `clone` sets it, in a slot that was free. -/
theorem step_stack (ht : s.step e = some t) (hq : (s.ptable q).state ≠ .unused) :
    (t.ptable q).stack = (s.ptable q).stack := by
  have hother : ∀ np, (s.ptable np).state = .unused → q ≠ np :=
    fun np hfree he => hq (he ▸ hfree)
  cases e with
  | fork x ok a =>
      obtain ⟨hx, ht⟩ := ite_some ht
      rcases fork_cases ht (used_of_ready hx) with rfl | ⟨np, hfree, rfl | ⟨a, -, rfl⟩⟩
      · rfl
      · exact congrArg Proc.stack (setProc_of_ne (hother np hfree))
      · exact congrArg Proc.stack (setProc_of_ne (hother np hfree))
  | clone x ok stack =>
      obtain ⟨hx, ht⟩ := ite_some ht
      cases Option.some.inj ht
      rcases clone_cases ok stack (used_of_ready hx) with he | ⟨np, hfree, he | he⟩
      · rw [he]
      · rw [he]
        exact congrArg Proc.stack (setProc_of_ne (hother np hfree))
      · rw [he]
        have hne : x ≠ np := fun hxn => used_of_ready hx (hxn ▸ hfree)
        have hchild : ∀ r, r ≠ np →
            ((s.child np x (s.ptable x).pgdir (s.ptable x).pid stack).ptable r).stack =
              (s.ptable r).stack := fun r hr => congrArg Proc.stack (child_of_ne hr)
        refine Eq.trans ?_ (hchild q (hother np hfree))
        refine sameStack_update (T := (s.child np x (s.ptable x).pgdir (s.ptable x).pid stack).ptable)
          ?_ q
        exact (hchild x hne).symm
  | exec x a =>
      obtain ⟨-, ht⟩ := ite_some ht
      rcases exec_cases ht with ⟨-, rfl⟩ | ⟨b, old, -, -, -, rfl⟩
      · rfl
      · refine sameStack_update (T := s.ptable) (p := x) ?_ q
        rfl
  | exit x cs =>
      obtain ⟨-, ht⟩ := ite_some ht
      rw [Sys.exit] at ht
      split at ht
      · cases ht
      · obtain ⟨⟨d, dirs⟩, -, rfl⟩ := Option.map_eq_some_iff.mp ht
        refine ((sameStack_wakeParent x s.ptable).trans (sameStack_abandon x _)).trans ?_ q
        refine sameStack_update ?_
        rfl
  | call c x =>
      obtain ⟨-, ht⟩ := ite_some ht
      rw [Sys.call] at ht
      split at ht
      · exact Option.some.inj ht ▸ rfl
      · exact sameStack_loop ht q
  | resume x =>
      obtain ⟨-, ht⟩ := ite_some ht
      obtain ⟨c, -, ht⟩ := Option.bind_eq_some_iff.mp ht
      exact sameStack_loop ht q
  | kill x pid =>
      obtain ⟨-, ht⟩ := ite_some ht
      cases Option.some.inj ht
      rw [Sys.kill]
      split
      · rfl
      · refine sameStack_update ?_ q
        split <;> rfl

/-- A process in the table after a step was there before, or has the next pid. -/
theorem step_used (h : CountInv s) (ht : s.step e = some t) :
    s.nextpid ≤ t.nextpid ∧ ∀ q, (t.ptable q).state ≠ .unused →
      ((s.ptable q).state ≠ .unused ∧ (t.ptable q).pid = (s.ptable q).pid ∧
        (t.ptable q).stack = (s.ptable q).stack) ∨ (t.ptable q).pid = s.nextpid := by
  have hold : ∀ q, ((t.ptable q).state = .unused ↔ (s.ptable q).state = .unused) →
      ((s.ptable q).state ≠ .unused → (t.ptable q).pid = (s.ptable q).pid) →
      (t.ptable q).state ≠ .unused → (s.ptable q).state ≠ .unused ∧
        (t.ptable q).pid = (s.ptable q).pid ∧ (t.ptable q).stack = (s.ptable q).stack :=
    fun q hiff hpid hq => ⟨hiff.not.mp hq, hpid (hiff.not.mp hq), step_stack ht (hiff.not.mp hq)⟩
  cases step_change h ht with
  | kept hT hn => exact ⟨hn, fun q hq => .inl (hold q (hT q).1 (fun hu => ((hT q).2 hu).1) hq)⟩
  | born np k hfree hused hpid hk hzero hlt hT hn =>
      refine ⟨by omega, fun q hq => ?_⟩
      by_cases hqn : q = np
      · rw [hqn]
        exact .inr hpid
      · exact .inl (hold q (hT q hqn).1 (fun hu => ((hT q hqn).2 hu).1) hq)
  | reaped p hused hfree hT hn =>
      refine ⟨hn.ge, fun q hq => ?_⟩
      have hqp : q ≠ p := fun he => hq (he ▸ hfree)
      exact .inl (hold q (hT q hqp).1 (fun hu => ((hT q hqp).2 hu).1) hq)

/-- The thread that `clone` makes. -/
theorem clone_new {ok : Bool} (stack : Nat) (hx : (s.ptable x).state ≠ .unused)
    (hnp : (s.allocproc ok).1 = some np) :
    ((s.clone x ok stack).ptable np).stack = stack ∧
      ((s.clone x ok stack).ptable np).pid = s.nextpid ∧
      ((s.clone x ok stack).ptable np).state ≠ .unused ∧
      (s.clone x ok stack).nextpid = s.nextpid + 1 := by
  rw [Sys.clone]
  rcases halloc : s.allocproc ok with ⟨r, u⟩
  rw [halloc] at hnp
  rcases allocproc_cases halloc with ⟨rfl, -⟩ | ⟨np', hfree, rfl, rfl | rfl⟩
  · cases hnp
  · cases hnp
  · obtain rfl : np' = np := Option.some.inj hnp
    have hne : np' ≠ x := fun he => hx (he ▸ hfree)
    refine ⟨?_, ?_, ?_, rfl⟩ <;> simp [Sys.setProc, Sys.spent, Proc.fresh, hne]

theorem reap_free (s : Sys) (c : Call) (x p : Slot) : ((s.reap c x p).ptable p).state = .unused := by
  obtain ⟨hfam, -⟩ := reap_family (s := s) c x p
  by_contra hu
  have hm : ((s.reap c x p).ptable p).member = reaped (family s.ptable) p p := congrFun hfam p
  have hgone := member_used.mpr hu
  rw [hm, reaped, Function.update_self] at hgone
  exact hgone rfl

theorem loop_join {p : Slot} (hlook : Call.join.look s.ptable x = .found p)
    (ht : s.loop .join x = some t) : t = s.reap .join x p := by
  have hfrees : Call.join.frees s.ptable x = none := rfl
  rw [Sys.loop, hlook] at ht
  dsimp only at ht
  rw [hfrees] at ht
  exact (Option.some.inj ht).symm

end Kernel

/-! ## The library's blocks -/

theorem pageOf_inside (a : Nat) : a ≤ pageOf a ∧ pageOf a + pgsize ≤ a + 2 * pgsize := by
  unfold pageOf pgsize
  split <;> omega

/-- Only a page-aligned block starts with its page. -/
theorem pageOf_eq : pageOf a = a ↔ a % pgsize = 0 := by
  unfold pageOf pgsize
  split <;> omega

structure Inv (s : State) : Prop where
  kernel : CountInv s.sys
  pos : 0 < s.sys.nextpid
  proper : Proper s
  made_lt : ∀ m ∈ s.made, m.1 < s.sys.nextpid
  made_one : ∀ m ∈ s.made, ∀ m' ∈ s.made, m.1 = m'.1 → m = m'
  stack : ∀ m ∈ s.made, ∀ q, (s.sys.ptable q).state ≠ .unused → (s.sys.ptable q).pid = m.1 →
    (s.sys.ptable q).stack = pageOf m.2
  gone : ∀ f ∈ s.freed, ∀ q, (s.sys.ptable q).state ≠ .unused → f.1 ≠ some (s.sys.ptable q).pid

/-- A system call of any process. -/
theorem Inv.kernel_step {e : Threads.Event} {sys : Sys} (h : Inv s) (ht : s.sys.step e = some sys) :
    Inv { s with sys := sys } := by
  obtain ⟨hn, hused⟩ := step_used h.kernel ht
  obtain ⟨hcount, hpos⟩ := step_countInv h.kernel h.pos ht
  refine ⟨hcount, hpos, ⟨h.proper.inside, h.proper.own, h.proper.once⟩,
    fun m hm => (h.made_lt m hm).trans_le hn, h.made_one, fun m hm q hq hpid => ?_,
    fun f hf q hq => ?_⟩
  · rcases hused q hq with ⟨hqs, hp, hst⟩ | hp
    · exact hst.trans (h.stack m hm q hqs (hp.symm.trans hpid))
    · have := h.made_lt m hm
      exact absurd (hp.symm.trans hpid) (by omega)
  · rcases hused q hq with ⟨hqs, hp, -⟩ | hp
    · show f.1 ≠ some (sys.ptable q).pid
      rw [hp]
      exact h.gone f hf q hqs
    · obtain ⟨k, b, rfl, hm⟩ := h.proper.own f hf
      have := h.made_lt _ hm
      show some k ≠ some (sys.ptable q).pid
      rw [hp]
      intro he
      have hk : k = s.sys.nextpid := Option.some.inj he
      exact absurd this (by show ¬ k < _; omega)

/-- What the invariant does not look at. -/
theorem Inv.frame (h : Inv s) (hsys : t.sys = s.sys) (hpassed : t.passed = s.passed)
    (hmade : t.made = s.made) (hfreed : t.freed = s.freed) : Inv t := by
  obtain ⟨sys, sz, live, passed, made, freed⟩ := t
  cases hsys
  cases hpassed
  cases hmade
  cases hfreed
  exact ⟨h.kernel, h.pos, ⟨h.proper.inside, h.proper.own, h.proper.once⟩, h.made_lt, h.made_one,
    h.stack, h.gone⟩

theorem Inv.malloc (h : Inv s) (ht : s.malloc n a sz = some t) : Inv t := by
  rw [State.malloc] at ht
  split at ht
  · exact Option.some.inj ht ▸ h
  · obtain ⟨-, ht⟩ := ite_some ht
    cases ht
    exact h.frame rfl rfl rfl rfl

theorem Inv.clone {args ok : Bool} (h : Inv s) (ht : s.clone me a args ok = some t) : Inv t := by
  have hpass : Inv { s with passed := (a, pageOf a) :: s.passed } :=
    ⟨h.kernel, h.pos, ⟨List.forall_mem_cons.mpr ⟨pageOf_inside a, h.proper.inside⟩, h.proper.own,
      h.proper.once⟩, h.made_lt, h.made_one, h.stack, h.gone⟩
  rw [State.clone] at ht
  dsimp only at ht
  split at ht
  · exact Option.some.inj ht ▸ hpass
  · obtain ⟨sys, hsys, rfl⟩ := Option.map_eq_some_iff.mp ht
    have hstep := hpass.kernel_step hsys
    split
    · exact hstep
    · next np hnp =>
        -- the new thread is the only one with the pid, and its stack is the page
        obtain ⟨hx, hsys⟩ := ite_some hsys
        cases Option.some.inj hsys
        obtain ⟨hstack, hpid, hused, hnext⟩ := clone_new (pageOf a) (used_of_ready hx) hnp
        refine ⟨hstep.kernel, hstep.pos, ⟨hstep.proper.inside, fun f hf => ?_, hstep.proper.once⟩,
          ?_, ?_, ?_, hstep.gone⟩
        · obtain ⟨k, b, rfl, hm⟩ := hstep.proper.own f hf
          exact ⟨k, b, rfl, List.mem_cons_of_mem _ hm⟩
        · refine List.forall_mem_cons.mpr ⟨?_, hstep.made_lt⟩
          show s.sys.nextpid < (s.sys.clone me ok (pageOf a)).nextpid
          omega
        · intro m hm m' hm' he
          have hlt := h.made_lt
          rcases List.mem_cons.mp hm with rfl | hm <;> rcases List.mem_cons.mp hm' with rfl | hm'
          · rfl
          · have := hlt m' hm'
            exact absurd he.symm (by show ¬ m'.1 = s.sys.nextpid; omega)
          · have := hlt m hm
            exact absurd he (by show ¬ m.1 = s.sys.nextpid; omega)
          · exact h.made_one m hm m' hm' he
        · refine List.forall_mem_cons.mpr ⟨fun q hq hqpid => ?_, hstep.stack⟩
          have hqn : q = np := hstep.kernel.inj q np hq hused (hqpid.trans hpid.symm)
          rw [hqn]
          exact hstack

/-! ## The end of `thread_join` -/

/-- `join` has returned `r`: if it has found a thread, that is gone. -/
def Returned (s : State) (sys : Sys) (r : Ret) : Prop :=
  ∀ p, r = .found p → (s.sys.ptable p).state ≠ .unused ∧ (sys.ptable p).state = .unused

theorem returned_loop {sys : Sys} (ht : s.sys.loop .join me = some sys) :
    Returned s sys (Call.join.look s.sys.ptable me) := by
  intro p hlook
  cases loop_join hlook ht
  refine ⟨?_, reap_free ..⟩
  rw [(look_found hlook).2]
  exact fun he => by cases he

theorem returned_call {sys : Sys} (ht : s.sys.step (.call .join me) = some sys) :
    Returned s sys (joinRet s.sys me) := by
  obtain ⟨-, ht⟩ := ite_some ht
  rw [Sys.call] at ht
  rw [joinRet]
  by_cases hnum : (s.sys.ptable me).num_child = 0
  · rw [if_pos hnum]
    exact fun p hp => by cases hp
  · rw [if_neg hnum]
    exact returned_loop (by rwa [if_neg fun h => hnum h.2] at ht)

theorem returned_resume {sys : Sys} (hcall : (s.sys.ptable me).call = some .join)
    (ht : s.sys.step (.resume me) = some sys) : Returned s sys (Call.join.look s.sys.ptable me) := by
  obtain ⟨-, ht⟩ := ite_some ht
  rw [hcall] at ht
  exact returned_loop ht

/-- A page-aligned block is freed as it was given out. -/
theorem Inv.joined {e : Threads.Event} {sys : Sys} {r : Ret} (h : Inv s) (ht : s.sys.step e = some sys)
    (hret : Returned s sys r) (hjoin : JoinsAligned s r) (g : Nat) : Inv (s.joined sys g r) := by
  have hstep := h.kernel_step ht
  cases r with
  | sleep => exact hstep
  | fail => exact hjoin.elim
  | found p =>
      obtain ⟨m, hm, hpid, halign⟩ := hjoin
      obtain ⟨hused, hfree⟩ := hret p rfl
      have hblock : (s.sys.ptable p).stack = m.2 :=
        (h.stack m hm p hused hpid.symm).trans (pageOf_eq.mpr halign)
      refine ⟨hstep.kernel, hstep.pos, ⟨h.proper.inside, ?_, ?_⟩, hstep.made_lt, hstep.made_one,
        hstep.stack, ?_⟩
      · refine List.forall_mem_cons.mpr ⟨⟨m.1, m.2, ?_, hm⟩, h.proper.own⟩
        rw [hpid, hblock]
      · refine List.nodup_cons.mpr ⟨fun hmem => ?_, h.proper.once⟩
        obtain ⟨f, hf, he⟩ := List.mem_map.mp hmem
        exact h.gone f hf p hused he
      · refine List.forall_mem_cons.mpr ⟨fun q hq he => ?_, hstep.gone⟩
        -- the pid of the thread is not used again
        have hpq : (s.sys.ptable p).pid = (sys.ptable q).pid := Option.some.inj he
        rcases (step_used h.kernel ht).2 q hq with ⟨hqs, hq', -⟩ | hq'
        · obtain rfl := h.kernel.inj p q hused hqs (hpq.trans hq')
          exact hq hfree
        · have := (h.kernel.pid p hused).2
          omega

/-- Otherwise what is freed is not that. -/
theorem joinsAligned_of_proper {sys : Sys} {r : Ret} {g : Nat} (h : Inv s)
    (hret : Returned s sys r) (hproper : Proper (s.joined sys g r)) : JoinsAligned s r := by
  cases r with
  | sleep => trivial
  | fail =>
      obtain ⟨k, b, he, -⟩ := hproper.own (none, g) List.mem_cons_self
      cases he
  | found p =>
      have hm := hproper.block List.mem_cons_self
      exact ⟨_, hm, rfl, pageOf_eq.mp (h.stack _ hm p (hret p rfl).1 rfl).symm⟩

/-! ## Runs -/

theorem step_inv {e : Event} (h : Inv s) (hjoin : Joins me s e) (ht : s.step me e = some t) :
    Inv t := by
  cases e with
  | thread_create a sz args ok =>
      obtain ⟨-, ht⟩ := ite_some ht
      obtain ⟨u, hu, ht⟩ := Option.bind_eq_some_iff.mp ht
      split at ht
      · exact Option.some.inj ht ▸ h.malloc hu
      · exact (h.malloc hu).clone ht
  | thread_join garbage =>
      obtain ⟨sys, hsys, rfl⟩ := Option.map_eq_some_iff.mp ht
      exact h.joined hsys (returned_call hsys) hjoin garbage
  | wake garbage =>
      obtain ⟨hcall, ht⟩ := ite_some ht
      obtain ⟨sys, hsys, rfl⟩ := Option.map_eq_some_iff.mp ht
      exact h.joined hsys (returned_resume hcall hsys) hjoin garbage
  | malloc n a sz =>
      obtain ⟨-, ht⟩ := ite_some ht
      exact h.malloc ht
  | free a =>
      obtain ⟨-, ht⟩ := ite_some ht
      exact Option.some.inj ht ▸ h.frame rfl rfl rfl rfl
  | other e =>
      rw [State.step] at ht
      split at ht
      · cases ht
      · obtain ⟨sys, hsys, rfl⟩ := Option.map_eq_some_iff.mp ht
        exact h.kernel_step hsys

theorem joins_of_proper {e : Event} (h : Inv s) (ht : s.step me e = some t) (hproper : Proper t) :
    Joins me s e := by
  cases e with
  | thread_join garbage =>
      obtain ⟨sys, hsys, rfl⟩ := Option.map_eq_some_iff.mp ht
      exact joinsAligned_of_proper h (returned_call hsys) hproper
  | wake garbage =>
      obtain ⟨hcall, ht⟩ := ite_some ht
      obtain ⟨sys, hsys, rfl⟩ := Option.map_eq_some_iff.mp ht
      exact joinsAligned_of_proper h (returned_resume hcall hsys) hproper
  | thread_create a sz args ok => trivial
  | malloc n a sz => trivial
  | free a => trivial
  | other e => trivial

/-- A program starts in a state that the kernel can be in. -/
theorem start_inv {a : Dir} {pre : List Threads.Event} {sys : Sys}
    (hrun : run Sys.step (boot a) pre = some sys) (sz : Nat) : Inv (start sys sz) := by
  obtain ⟨hcount, hpos⟩ := (countInv_run a pre).last hrun
  have hnil : ∀ {α : Type} {P : α → Prop}, ∀ x ∈ ([] : List α), P x :=
    fun x hx => absurd hx List.not_mem_nil
  exact ⟨hcount, hpos, ⟨hnil, hnil, List.nodup_nil⟩, hnil, hnil, hnil, hnil⟩

/-- From any state of the kernel, and for any calls of the library by the process `me`
and system calls of the others: the library's state is proper all along, if and only if
every `thread_join` that ends has joined a thread whose block is page-aligned. -/
theorem stacks_run (a : Dir) (pre : List Threads.Event) (sys : Sys) (me : Slot) (sz : Nat)
    (es : List Event) (hrun : run Sys.step (boot a) pre = some sys) :
    AllStates (State.step me) Proper (start sys sz) es ↔
      AllSteps (State.step me) (Joins me) (start sys sz) es :=
  allStates_iff_allSteps (I := Inv) (B := fun _ _ => True) (fun _ h => h.proper)
    (fun _ _ _ h _ ht hproper => joins_of_proper h ht hproper)
    (fun _ _ _ h _ hjoin ht => step_inv h hjoin ht) (start_inv hrun sz) allSteps_true

/-- `init` forks process 2 in slot 1. -/
def forked : List Threads.Event := [.fork initproc true (some 1)]

def child : Slot := ⟨1, by decide⟩

/-- A thread is created with the block at `a`, and has exited when it is joined. -/
def joinOnce (a : Nat) : List Event :=
  [.thread_create a (10 * pgsize) true true, .other (.exit ⟨2, by decide⟩ []), .thread_join 0]

theorem stacks_run_aligned : ∃ sys, run Sys.step (boot 0) forked = some sys ∧
    AllStates (State.step child) Proper (start sys 0) (joinOnce pgsize) :=
  ⟨_, rfl, (stacks_run 0 forked _ child 0 (joinOnce pgsize) rfl).mpr (by decide)⟩

/-- The block at address 8 is given out, and 4096 is freed. -/
theorem unaligned_freed : ∃ sys, run Sys.step (boot 0) forked = some sys ∧
    ¬ AllStates (State.step child) Proper (start sys 0) (joinOnce 8) := by
  refine ⟨_, rfl, fun h => ?_⟩
  have hblock := (h.last rfl).block (k := 3) (a := 4096) (by decide)
  exact absurd hblock (by decide)

end Cs537.Threads.User
