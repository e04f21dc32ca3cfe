/-
# `Cs537.Threads.Join` — `join` is for threads and `wait` for processes

Both look for a child: `join` for one with the page directory of the caller,
`wait` for one with another.  So a thread is only a thread as long as it and
the process that cloned it keep their page directories.  `exec` changes the
one of its caller, and so does `exit` when a child shares it.  As long as these
calls leave the threads of live processes alone (`ThreadsKept`), every thread
can be joined, is joined once, and is never reaped by `wait`.
-/
import Cs537.Threads.Dirs
import Cs537.Threads.Family

namespace Cs537.Threads

open Cs537.Lib

/-! ## What the calls promise -/

/-- `clone` in `p` has returned `k`. -/
def Sys.Cloned (s : Sys) (p : Slot) (k : Int) : Prop := .cloned (s.ptable p).pid k ∈ s.log

/-- `join` in `p` has returned `k`. -/
def Sys.Joined (s : Sys) (p : Slot) (k : Int) : Prop := .joined (s.ptable p).pid k ∈ s.log

/-- `fork` in `p` has returned `k`. -/
def Sys.Forked (s : Sys) (p : Slot) (k : Int) : Prop := .forked (s.ptable p).pid k ∈ s.log

/-- The process with pid `k` is in the table. -/
def Sys.InTable (s : Sys) (k : Int) : Prop :=
  ∃ q, (s.ptable q).state ≠ .unused ∧ (s.ptable q).pid = k

/-- `join` in `p` would return -1. -/
def Sys.JoinFails (s : Sys) (p : Slot) : Prop :=
  (s.ptable p).num_child = 0 ∨ Call.join.look s.ptable p = .fail

/-- `join` and `wait` do for live processes what they are for. -/
structure JoinsThreads (s : Sys) : Prop where
  /-- a thread in the table is one that `join` looks for, and `wait` does not -/
  seen : ∀ p q, (s.ptable p).Live → (s.ptable q).state ≠ .unused →
    s.Cloned p (s.ptable q).pid → Call.join.test s.ptable p q ∧ ¬ Call.wait.test s.ptable p q
  /-- a thread is joined at most once, and it is gone just when it is joined -/
  once : ∀ p k, (s.ptable p).Live → s.Cloned p k →
    (s.log.count (.joined (s.ptable p).pid k) = 0 ∧ s.InTable k) ∨
      (s.log.count (.joined (s.ptable p).pid k) = 1 ∧ ¬ s.InTable k)
  /-- `join` finds a thread when one has exited -/
  exited : ∀ p q, (s.ptable p).Live → (s.ptable q).state = .zombie →
    s.Cloned p (s.ptable q).pid →
      (s.ptable p).num_child ≠ 0 ∧ ∃ r, Call.join.look s.ptable p = .found r
  /-- `join` fails only when all threads are joined -/
  fails : ∀ p, (s.ptable p).Live → (s.ptable p).killed = false → s.JoinFails p →
    ∀ k, s.Cloned p k → s.Joined p k
  /-- `wait` finds no thread of the caller; it finds what the caller forked, or in `init`
  what was passed to it -/
  waits : ∀ p q, (s.ptable p).Live → Call.wait.look s.ptable p = .found q →
    ¬ s.Cloned p (s.ptable q).pid ∧ (p ≠ initproc → s.Forked p (s.ptable q).pid)

/-- `x` has a thread in the table. -/
def Sys.HasThread (s : Sys) (x : Slot) : Prop :=
  ∃ q, (s.ptable q).state ≠ .unused ∧ (s.ptable q).parent_pid = (s.ptable x).pid

/-- `x` is a thread of a live process. -/
def Sys.IsThread (s : Sys) (x : Slot) : Prop :=
  ∃ p, (s.ptable p).Live ∧ (s.ptable x).parent_pid = (s.ptable p).pid

/-- `exec` is for processes without threads that are no threads themselves, and
a thread that exits has no child with its page directory. -/
def ThreadsKept (s : Sys) : Event → Prop
  | .exec x (some _) => ¬ s.HasThread x ∧ ¬ s.IsThread x
  | .exit x _ => s.IsThread x →
      ∀ q, (s.ptable q).parent = some x → (s.ptable q).pgdir ≠ (s.ptable x).pgdir
  | _ => True

section

variable {s t : Sys} {T : Table} {x p q np : Slot} {c : Call}

/-! ## The family of a table -/

theorem member_live {y : Proc} : y.member.Live ↔ y.Live := by
  rcases y with ⟨st, _, _, _, _, _, _, _, _⟩
  cases st <;> simp [Proc.member, Member.Live, PState.life, Proc.Live]

theorem member_used {y : Proc} : y.member.Used ↔ y.state ≠ .unused := by
  rcases y with ⟨st, _, _, _, _, _, _, _, _⟩
  cases st <;> simp [Proc.member, Member.Used, PState.life]

theorem member_zombie {y : Proc} : y.member.life = .zombie ↔ y.state = .zombie := by
  rcases y with ⟨st, _, _, _, _, _, _, _, _⟩
  cases st <;> simp [Proc.member, PState.life]

/-- The same family, and the same counts of threads. -/
def SameFamily (T T' : Table) : Prop :=
  ∀ p, (T' p).member = (T p).member ∧ (T' p).num_child = (T p).num_child

theorem sameFamily_update {y : Proc} (hm : y.member = (T p).member)
    (hc : y.num_child = (T p).num_child) : SameFamily T (Function.update T p y) := fun q => by
  by_cases hq : q = p
  · rw [hq, Function.update_self]
    exact ⟨hm, hc⟩
  · rw [Function.update_of_ne hq]
    exact ⟨rfl, rfl⟩

theorem sameFamily_wakeup1 (p : Slot) (T : Table) : SameFamily T (wakeup1 p T) := by
  rw [wakeup1]
  split
  · rename_i hs
    exact sameFamily_update (by simp [Proc.member, PState.life, hs]) rfl
  · exact fun _ => ⟨rfl, rfl⟩

theorem sameFamily_wakeParent (x : Slot) (T : Table) : SameFamily T (wakeParent x T) := by
  rw [wakeParent]
  split
  · exact sameFamily_wakeup1 _ T
  · exact fun _ => ⟨rfl, rfl⟩

theorem SameFamily.family {T' : Table} (h : SameFamily T T') : family T' = family T :=
  funext fun p => (h p).1

theorem abandon_family (x : Slot) (T : Table) : family (abandon x T) = orphaned (family T) x ∧
    ∀ p, (abandon x T p).num_child = (T p).num_child := by
  have horphan : family (orphan x T) = orphaned (family T) x ∧
      ∀ p, (orphan x T p).num_child = (T p).num_child := by
    constructor
    · funext p
      by_cases hp : (T p).parent = some x <;> simp [family, orphan, orphaned, Proc.member, hp]
    · intro p
      rw [orphan]
      split <;> rfl
  rw [abandon]
  split
  · have hw := sameFamily_wakeup1 initproc (orphan x T)
    exact ⟨hw.family.trans horphan.1, fun p => (hw p).2.trans (horphan.2 p)⟩
  · exact horphan

theorem exit_family {cs : List (Option Dir)} (h : s.exit x cs = some t) :
    x ≠ initproc ∧ ∃ d dirs, copies s.ptable x (List.finRange nproc) (s.ptable x).pgdir cs s.dirs =
        some (d, dirs) ∧ family t.ptable = exited (family s.ptable) x d ∧
      (∀ p, (t.ptable p).num_child = (s.ptable p).num_child) ∧ t.nextpid = s.nextpid ∧
      t.log = s.log := by
  rw [Sys.exit] at h
  split at h
  · cases h
  · rename_i hinit
    obtain ⟨⟨d, dirs⟩, hcopies, rfl⟩ := Option.map_eq_some_iff.mp h
    have hw := sameFamily_wakeParent x s.ptable
    obtain ⟨hfam, hnum⟩ := abandon_family x (wakeParent x s.ptable)
    rw [hw.family] at hfam
    refine ⟨hinit, d, dirs, hcopies, ?_, fun p => ?_, rfl, rfl⟩
    · funext p
      by_cases hp : p = x
      · rw [hp, exited, Function.update_self, ← hfam, family, setProc_self]
        rfl
      · rw [exited, Function.update_of_ne hp, ← hfam, family, setProc_of_ne hp]
        rfl
    · by_cases hp : p = x
      · rw [hp, setProc_self]
        exact (hnum x).trans (hw x).2
      · rw [setProc_of_ne hp]
        exact (hnum p).trans (hw p).2

theorem dropChild_family (k : Int) (T : Table) : family (dropChild k T) = family T ∧
    ∀ q, (dropChild k T q).num_child = (T q).num_child - if (T q).pid = k then 1 else 0 := by
  constructor
  · funext p
    rw [family, dropChild]
    split <;> rfl
  · intro q
    rw [dropChild]
    split
    · rfl
    · exact (Int.sub_zero _).symm

theorem reap_family (c : Call) (x p : Slot) :
    family (s.reap c x p).ptable = reaped (family s.ptable) p ∧
      (∀ q, ((s.reap c x p).ptable q).num_child =
        (s.ptable q).num_child - if (s.ptable q).pid = (s.ptable p).parent_pid then 1 else 0) ∧
      (s.reap c x p).nextpid = s.nextpid ∧
      (s.reap c x p).log = match c with
        | .wait => s.log
        | .join => .joined (s.ptable x).pid (s.ptable p).pid :: s.log := by
  obtain ⟨hfam, hnum⟩ := dropChild_family (s.ptable p).parent_pid s.ptable
  generalize hT : dropChild (s.ptable p).parent_pid s.ptable = T at hfam hnum
  have hclear : family (Function.update T p (T p).clear) = reaped (family s.ptable) p ∧
      ∀ q, (Function.update T p (T p).clear q).num_child = (T q).num_child := by
    constructor
    · funext q
      by_cases hq : q = p
      · subst hq
        rw [reaped, Function.update_self, ← hfam]
        simp [family, Proc.member, Proc.clear, PState.life]
      · rw [reaped, Function.update_of_ne hq, ← hfam]
        simp [family, Function.update_of_ne hq]
    · intro q
      by_cases hq : q = p
      · rw [hq, Function.update_self]
        rfl
      · rw [Function.update_of_ne hq]
  have hx := sameFamily_update (T := Function.update T p (T p).clear) (p := x)
    (y := { Function.update T p (T p).clear x with call := none }) rfl rfl
  have hpids : ∀ q, (T q).pid = (s.ptable q).pid := fun q => congrArg Member.pid (congrFun hfam q)
  subst hT
  cases c with
  | wait => exact ⟨hx.family.trans hclear.1, fun q => (hx q).2.trans ((hclear.2 q).trans (hnum q)),
      rfl, rfl⟩
  | join =>
      refine ⟨hx.family.trans hclear.1, fun q => (hx q).2.trans ((hclear.2 q).trans (hnum q)), rfl, ?_⟩
      rw [Sys.reap, hpids, hpids]
      rfl

/-! ## The invariant -/

/-- `FamilyInv` and the counts of threads. -/
def SysInv (s : Sys) : Prop :=
  FamilyInv (family s.ptable) s.nextpid s.log ∧
    Counted (family s.ptable) fun p => (s.ptable p).num_child

theorem SysInv.same (h : SysInv s) (hT : SameFamily s.ptable t.ptable)
    (hnext : t.nextpid = s.nextpid) (hlog : t.log = s.log) : SysInv t := by
  have hnum : (fun p => (t.ptable p).num_child) = fun p => (s.ptable p).num_child :=
    funext fun p => (hT p).2
  rw [SysInv, hT.family, hnext, hlog, hnum]
  exact h

theorem sysInv_spent (h : SysInv s) (hfree : (s.ptable np).state = .unused) :
    SysInv (s.spent np) := by
  have hnp : ¬ (family s.ptable np).Used := fun hu => member_used.mp hu hfree
  have hfam : family (s.spent np).ptable = Function.update (family s.ptable) np
      { family s.ptable np with pid := s.nextpid, parent_pid := -1 } := by
    funext q
    by_cases hq : q = np
    · subst hq
      simp [family, Sys.spent, Proc.fresh, Proc.member]
    · simp [family, Sys.spent, setProc_of_ne hq, Function.update_of_ne hq]
  have hnum : (fun p => ((s.spent np).ptable p).num_child) =
      Function.update (fun p => (s.ptable p).num_child) np 0 := by
    funext q
    by_cases hq : q = np
    · subst hq
      simp [Sys.spent, Proc.fresh]
    · simp [Sys.spent, setProc_of_ne hq, Function.update_of_ne hq]
  rw [SysInv, hfam, hnum]
  exact ⟨h.1.spent hnp, h.2.spent hnp⟩

/-- The pid of a new process is in no `parent_pid` yet. -/
theorem FamilyInv.threads_next {F : Family} {n : Int} {log : List Entry} (h : FamilyInv F n log) :
    threads F n = ∅ := by
  ext q
  rw [mem_threads]
  simp only [Finset.notMem_empty, iff_false]
  rintro ⟨hq, hn⟩
  rcases h.made q hq with hc | ⟨hf, -⟩
  · have := h.cloned_lt _ _ hc
    omega
  · have := h.pid_lt _ h.init.used
    omega

/-- `fork` and `clone`. -/
theorem sysInv_child (h : SysInv s) (hx : (s.ptable x).Ready)
    (hfree : (s.ptable np).state = .unused) {pp : Int} {d : Option Dir} {e : Entry}
    (he : (pp = -1 ∧ e = .forked (s.ptable x).pid s.nextpid) ∨
      (pp = (s.ptable x).pid ∧ d = (s.ptable x).pgdir ∧ e = .cloned (s.ptable x).pid s.nextpid))
    (hfam : family t.ptable = Function.update (family s.ptable) np ⟨.live, s.nextpid, some x, pp, d⟩)
    (hnum : ∀ p, p ≠ np → (t.ptable p).num_child = (s.ptable p).num_child +
      if p = x ∧ pp = (s.ptable x).pid then 1 else 0)
    (hnp : (t.ptable np).num_child = 0) (hnext : t.nextpid = s.nextpid + 1)
    (hlog : t.log = e :: s.log) : SysInv t := by
  have hunused : ¬ (family s.ptable np).Used := fun hu => member_used.mp hu hfree
  have hlive : (family s.ptable x).Live := member_live.mpr (live_of_ready hx)
  have hnext' := h.1.pid_lt _ hlive.used
  rw [SysInv, hfam, hnext, hlog]
  refine ⟨h.1.child hlive hunused he, h.2.child hunused (by simp [Member.Used]) h.1.threads_next ?_
    (fun p hp => ?_) hnp⟩
  · show pp ≠ s.nextpid
    have hpid : (family s.ptable x).pid = (s.ptable x).pid := rfl
    rcases he with ⟨rfl, -⟩ | ⟨rfl, -, -⟩ <;> omega
  · have hpn : p ≠ np := fun hpe => hunused (hpe ▸ hp.used)
    rw [hnum p hpn]
    congr 1
    refine if_congr ⟨fun hp => hp.1 ▸ hp.2, fun hpp => ?_⟩ rfl rfl
    have hpos := h.1.pid_pos hp
    rcases he with ⟨rfl, -⟩ | ⟨rfl, -, -⟩
    · simp only at hpp
      omega
    · exact ⟨h.1.pid_inj p x hp.used hlive.used hpp.symm, rfl⟩

theorem sysInv_fork (h : SysInv s) (hx : (s.ptable x).Ready) {ok : Bool} {a : Option Dir}
    (ht : s.fork x ok a = some t) : SysInv t := by
  rcases fork_cases ht (used_of_ready hx) with rfl | ⟨np, hfree, rfl | ⟨a, -, rfl⟩⟩
  · exact h
  · exact sysInv_spent h hfree
  · refine sysInv_child h hx hfree (.inl ⟨rfl, rfl⟩) (d := some a) ?_ (fun p hp => ?_) ?_ rfl rfl
    · funext q
      by_cases hq : q = np
      · subst hq
        simp [family, Sys.child, Proc.fresh, Proc.member, PState.life]
      · simp [family, Sys.child, setProc_of_ne hq, Function.update_of_ne hq]
    · have hpos : 0 < (s.ptable x).pid := h.1.pid_pos (member_live.mpr (live_of_ready hx))
      rw [if_neg (by omega)]
      simp [Sys.child, setProc_of_ne hp]
    · simp [Sys.child, Proc.fresh]

theorem sysInv_clone (h : SysInv s) (hx : (s.ptable x).Ready) (ok : Bool) (stack : Nat) :
    SysInv (s.clone x ok stack) := by
  rcases clone_cases ok stack (used_of_ready hx) with he | ⟨np, hfree, he | he⟩
  · rwa [he]
  · rw [he]
    exact sysInv_spent h hfree
  · rw [he]
    have hne : x ≠ np := fun hxe => used_of_ready hx (hxe ▸ hfree)
    refine sysInv_child h hx hfree (.inr ⟨rfl, rfl, rfl⟩) ?_ (fun p hp => ?_) ?_ rfl rfl
    · funext q
      by_cases hq : q = np
      · subst hq
        simp [family, Sys.child, setProc_of_ne hne.symm, Proc.fresh, Proc.member, PState.life]
      · by_cases hqx : q = x
        · subst hqx
          simp [family, Sys.child, Function.update_of_ne hne, Proc.member]
        · simp [family, Sys.child, setProc_of_ne hq, setProc_of_ne hqx, Function.update_of_ne hq]
    · by_cases hpx : p = x
      · subst hpx
        simp
      · simp [Sys.child, setProc_of_ne hp, setProc_of_ne hpx, hpx]
    · simp [Sys.child, setProc_of_ne hne.symm, Proc.fresh]

/-- `wait` and `join`, and their loop after `sleep`. -/
theorem sysInv_loop (h : SysInv s) (hx : (s.ptable x).state = .runnable)
    (ht : s.loop c x = some t) : SysInv t := by
  have hreap : ∀ {u : Sys} {p : Slot}, c.look s.ptable x = .found p → u.ptable = s.ptable →
      u.nextpid = s.nextpid → u.log = s.log → SysInv (u.reap c x p) := by
    intro u p hlook hT hnext hlog
    obtain ⟨htest, hz⟩ := look_found hlook
    obtain ⟨hfam, hnum, hnext', hlog'⟩ := reap_family (s := u) c x p
    rw [hT] at hfam hnum hlog'
    rw [hnext] at hnext'
    rw [hlog] at hlog'
    rw [SysInv, hfam, hnext']
    refine ⟨h.1.reap (member_zombie.mpr hz) htest.1 ?_, h.2.reap ?_ fun q _ _ => hnum q⟩
    · cases c with
      | wait => exact .inl ⟨hlog', htest.2⟩
      | join => exact .inr hlog'
    · exact member_used.mpr (by simp [hz])
  rw [Sys.loop] at ht
  split at ht
  · rename_i p hlook
    split at ht
    · obtain ⟨u, hu, rfl⟩ := Option.map_eq_some_iff.mp ht
      obtain ⟨a, -, rfl⟩ := Option.map_eq_some_iff.mp hu
      exact hreap hlook rfl rfl rfl
    · obtain rfl := Option.some.inj ht
      exact hreap hlook rfl rfl rfl
  · obtain rfl := Option.some.inj ht
    exact h.same (sameFamily_update rfl rfl) rfl rfl
  · obtain rfl := Option.some.inj ht
    exact h.same (sameFamily_update (by simp [Proc.member, PState.life, hx]) rfl) rfl rfl

theorem sysInv_kill (h : SysInv s) (pid : Int) : SysInv (s.kill pid) := by
  rw [Sys.kill]
  split
  · exact h
  · rename_i p _
    refine h.same (sameFamily_update ?_ ?_) rfl rfl
    · split
      · rename_i hs
        simp only at hs
        simp [Proc.member, PState.life, hs]
      · rfl
    · split <;> rfl

/-- `exit` does not change the page directory when no child has it. -/
theorem copies_none {l : List Slot} {d : Option Dir} {cs : List (Option Dir)} {dirs : Dir → Bool}
    (h : ∀ q ∈ l, ¬ ((T q).parent = some x ∧ (T q).pgdir = d)) :
    copies T x l d cs dirs = some (d, dirs) := by
  induction l with
  | nil => rfl
  | cons q l ih =>
      unfold copies
      rw [if_neg (h q (List.mem_cons_self ..))]
      exact ih fun r hr => h r (List.mem_cons_of_mem _ hr)

theorem step_sysInv {e : Event} (h : SysInv s) (hok : ThreadsKept s e) (ht : s.step e = some t) :
    SysInv t := by
  cases e with
  | fork x ok a =>
      obtain ⟨hx, ht⟩ := ite_some ht
      exact sysInv_fork h hx ht
  | clone x ok stack =>
      obtain ⟨hx, ht⟩ := ite_some ht
      exact Option.some.inj ht ▸ sysInv_clone h hx ok stack
  | exec x a =>
      obtain ⟨-, ht⟩ := ite_some ht
      rcases exec_cases ht with ⟨-, rfl⟩ | ⟨b, old, rfl, -, -, rfl⟩
      · exact h
      · have hfam : family (s.setProc x { s.ptable x with pgdir := some b }).ptable =
            Function.update (family s.ptable) x { family s.ptable x with pgdir := some b } := by
          funext q
          by_cases hq : q = x
          · subst hq
            simp [family, Proc.member]
          · simp [family, setProc_of_ne hq, Function.update_of_ne hq]
        have hnum : (fun p => ((s.setProc x { s.ptable x with pgdir := some b }).ptable p).num_child) =
            fun p => (s.ptable p).num_child := by
          funext q
          by_cases hq : q = x
          · subst hq
            simp
          · rw [setProc_of_ne hq]
        show FamilyInv (family (s.setProc x { s.ptable x with pgdir := some b }).ptable) _ _ ∧ Counted _ _
        rw [hfam, hnum]
        refine ⟨h.1.exec (fun q hq hpp => ?_) fun p hp hpp => ?_, h.2.exec _⟩
        · exact hok.1 ⟨q, member_used.mp hq, hpp⟩
        · exact hok.2 ⟨p, member_live.mp hp, hpp⟩
  | exit x cs =>
      obtain ⟨hx, ht⟩ := ite_some ht
      obtain ⟨hinit, d, dirs, hcopies, hfam, hnum, hnext, hlog⟩ := exit_family ht
      have hlive : (family s.ptable x).Live := member_live.mpr (live_of_ready hx)
      rw [SysInv, hfam, hnext, hlog, funext hnum]
      refine ⟨h.1.exit hinit hlive ?_, h.2.exit hlive d⟩
      by_cases hthread : s.IsThread x
      · left
        have hsame : copies s.ptable x (List.finRange nproc) (s.ptable x).pgdir cs s.dirs =
            some ((s.ptable x).pgdir, s.dirs) :=
          copies_none fun q _ hq => hok hthread q hq.1 hq.2
        rw [hsame] at hcopies
        exact (congrArg Prod.fst (Option.some.inj hcopies)).symm
      · right
        intro p hp hpp
        exact hthread ⟨p, member_live.mp hp, hpp⟩
  | call c x =>
      obtain ⟨hx, ht⟩ := ite_some ht
      rw [Sys.call] at ht
      split at ht
      · exact Option.some.inj ht ▸ h
      · exact sysInv_loop h hx.1 ht
  | resume x =>
      obtain ⟨hx, ht⟩ := ite_some ht
      obtain ⟨c, -, ht⟩ := Option.bind_eq_some_iff.mp ht
      exact sysInv_loop h hx ht
  | kill x pid =>
      obtain ⟨-, ht⟩ := ite_some ht
      exact Option.some.inj ht ▸ sysInv_kill h pid

theorem boot_sysInv (a : Dir) : SysInv (boot a) := by
  have hused : ∀ p, (family (boot a).ptable p).Used → p = initproc := fun p hp => by
    by_contra hne
    simp [family, boot, hne, Proc.member, Member.Used, PState.life] at hp
  have hinit : family (boot a).ptable initproc = ⟨.live, 1, none, -1, some a⟩ := rfl
  have hparent : ∀ p, (family (boot a).ptable p).parent = none := fun p => by
    by_cases hp : p = initproc <;> simp [family, boot, hp, Proc.member]
  constructor
  · exact {
      init := rfl
      pid_lt := fun p hp => by
        rw [hused p hp, hinit]
        exact ⟨Int.one_pos, show (1 : Int) < 2 by decide⟩
      pid_inj := fun p q hp hq _ => (hused p hp).trans (hused q hq).symm
      free := fun p _ => hparent p
      parent_live := fun p q hq => by cases (hparent q).symm.trans hq
      cloned_lt := fun _ _ hk => absurd hk List.not_mem_nil
      joined_lt := fun _ _ hk => absurd hk List.not_mem_nil
      cloner := fun _ _ _ hk => absurd hk List.not_mem_nil
      made := fun q hq => .inr ⟨by rw [hused q hq, hinit], fun _ => List.not_mem_nil⟩
      born := fun p q hq => by cases (hparent q).symm.trans hq
      thread := fun p q hp hq hpp => by
        rw [hused p hp.used, hused q hq, hinit] at hpp
        cases hpp
      once := fun _ _ _ hk => absurd hk List.not_mem_nil }
  · intro p hp
    rw [hused p hp.used, hinit]
    have hempty : threads (family (boot a).ptable) 1 = ∅ := by
      ext q
      simp only [mem_threads, Finset.notMem_empty, iff_false, not_and]
      intro hq
      rw [hused q hq, hinit]
      exact show (-1 : Int) ≠ 1 by decide
    rw [hempty]
    rfl

/-! ## What the invariant says of `join` and `wait` -/

section

variable (h : SysInv s) (hp : (s.ptable p).Live)
include h hp

theorem pid_pos_of_live : 0 < (s.ptable p).pid := h.1.pid_pos (member_live.mpr hp)

theorem SysInv.cloned_iff (hq : (s.ptable q).state ≠ .unused) :
    s.Cloned p (s.ptable q).pid ↔ (s.ptable q).parent_pid = (s.ptable p).pid :=
  h.1.cloned_iff (member_used.mpr hq) (pid_pos_of_live h hp)

theorem SysInv.seen (hq : (s.ptable q).state ≠ .unused) (hc : s.Cloned p (s.ptable q).pid) :
    (s.ptable q).parent = some p ∧ (s.ptable q).pgdir = (s.ptable p).pgdir :=
  h.1.thread p q (member_live.mpr hp) (member_used.mpr hq) ((h.cloned_iff hp hq).mp hc)

theorem SysInv.once {k : Int} (hc : s.Cloned p k) :
    (s.log.count (.joined (s.ptable p).pid k) = 0 ∧ s.InTable k) ∨
      (s.log.count (.joined (s.ptable p).pid k) = 1 ∧ ¬ s.InTable k) := by
  have honce := h.1.once p k (member_live.mpr hp) hc
  have hin : (∃ q, (family s.ptable q).Used ∧ (family s.ptable q).pid = k) ↔ s.InTable k :=
    exists_congr fun q => and_congr_left fun _ => member_used
  split at honce
  · rename_i ht
    exact .inl ⟨honce, hin.mp ht⟩
  · rename_i ht
    exact .inr ⟨honce, fun hk => ht (hin.mpr hk)⟩

theorem SysInv.num_child_ne (hq : (s.ptable q).state ≠ .unused)
    (hc : s.Cloned p (s.ptable q).pid) : (s.ptable p).num_child ≠ 0 := by
  have hmem : q ∈ threads (family s.ptable) (s.ptable p).pid :=
    mem_threads.mpr ⟨member_used.mpr hq, (h.cloned_iff hp hq).mp hc⟩
  have hcount : (s.ptable p).num_child = (threads (family s.ptable) (s.ptable p).pid).card :=
    h.2 p (member_live.mpr hp)
  have hpos := Finset.card_pos.mpr ⟨q, hmem⟩
  omega

end

theorem look_zombie (hq : c.test T x q) (hz : (T q).state = .zombie) : ∃ r, c.look T x = .found r := by
  rw [Call.look]
  split
  · exact ⟨_, rfl⟩
  · rename_i hnone
    have hno := List.find?_eq_none.mp hnone q (List.mem_finRange q)
    simp only [decide_eq_true_eq] at hno
    exact absurd ⟨hq, hz⟩ hno

theorem look_fail (h : c.look T x = .fail) (hk : (T x).killed = false) (q : Slot) : ¬ c.test T x q := by
  intro hq
  rw [Call.look] at h
  split at h
  · cases h
  · split at h
    · rename_i hor
      rcases hor with hno | hkilled
      · exact hno (List.any_eq_true.mpr ⟨q, List.mem_finRange q, by simpa using hq⟩)
      · rw [hk] at hkilled
        cases hkilled
    · cases h

theorem SysInv.joinsThreads (h : SysInv s) : JoinsThreads s where
  seen p q hp hq hc := by
    obtain ⟨hpar, hdir⟩ := h.seen hp hq hc
    exact ⟨⟨hpar, hdir⟩, fun hw => hw.2 hdir⟩
  once p k hp hc := h.once hp hc
  exited p q hp hz hc := by
    have hq : (s.ptable q).state ≠ .unused := by simp [hz]
    exact ⟨h.num_child_ne hp hq hc, look_zombie (h.seen hp hq hc) hz⟩
  fails p hp hk hfail k hc := by
    rcases h.once hp hc with ⟨-, q, hq, rfl⟩ | ⟨hone, -⟩
    · rcases hfail with hzero | hlook
      · exact absurd hzero (h.num_child_ne hp hq hc)
      · exact absurd (h.seen hp hq hc) (look_fail hlook hk q)
    · exact List.count_pos_iff.mp (by omega)
  waits p q hp hlook := by
    obtain ⟨⟨hpar, hdir⟩, hz⟩ := look_found hlook
    have hq : (s.ptable q).state ≠ .unused := by simp [hz]
    have hno : ¬ s.Cloned p (s.ptable q).pid := fun hc => hdir (h.seen hp hq hc).2
    refine ⟨hno, fun hinit => ?_⟩
    rcases h.1.born p q hpar hinit with hpp | hf
    · exact absurd ((h.cloned_iff hp hq).mpr hpp) hno
    · exact hf

/-! ## Steps that take a thread away -/

theorem unused_of_update {dirs : Dir → Bool} {a b : Dir} (h : Function.update dirs b true a = false) :
    dirs a = false := by
  by_cases hab : a = b
  · rw [hab, Function.update_self] at h
    cases h
  · rwa [Function.update_of_ne hab] at h

theorem copies_new {l : List Slot} {d d' : Option Dir} {cs : List (Option Dir)}
    {dirs dirs' : Dir → Bool} (h : copies T x l d cs dirs = some (d', dirs')) :
    d' = d ∨ ∀ a, d' = some a → dirs a = false := by
  induction l generalizing d cs dirs with
  | nil =>
      cases h
      exact .inl rfl
  | cons q l ih =>
      unfold copies at h
      split at h
      · split at h
        · split at h
          · cases h
          · rename_i b cs _ hb
            right
            rintro a rfl
            rcases ih h with hab | hnew
            · cases hab
              simpa using hb
            · exact unused_of_update (hnew a rfl)
        · rcases ih h with rfl | hnew
          · exact .inr nofun
          · exact .inr hnew
        · cases h
      · exact ih h

/-- `exit` takes another page directory when a child has the one of its caller. -/
theorem copies_ne {l : List Slot} {old : Dir} {d' : Option Dir} {cs : List (Option Dir)}
    {dirs dirs' : Dir → Bool} (h : copies T x l (some old) cs dirs = some (d', dirs'))
    (hold : dirs old = true) {q : Slot} (hq : q ∈ l) (hpar : (T q).parent = some x)
    (hdir : (T q).pgdir = some old) : d' ≠ some old := by
  induction l with
  | nil => cases hq
  | cons r l ih =>
      unfold copies at h
      split at h
      · split at h
        · split at h
          · cases h
          · rename_i b cs _ hb
            rintro rfl
            rcases copies_new h with hab | hnew
            · cases hab
              exact hb hold
            · cases hold.symm.trans (unused_of_update (hnew old rfl))
        · rintro rfl
          rcases copies_new h with hab | hnew
          · cases hab
          · cases hold.symm.trans (hnew old rfl)
        · cases h
      · rename_i hr
        rcases List.mem_cons.mp hq with rfl | hq
        · exact absurd ⟨hpar, hdir⟩ hr
        · exact ih h hq

/-- Nobody is a thread of its own. -/
theorem SysInv.ne_of_thread (h : SysInv s) (hp : (s.ptable p).Live)
    (hq : (s.ptable q).state ≠ .unused) (hpp : (s.ptable q).parent_pid = (s.ptable p).pid) :
    q ≠ p := by
  rintro rfl
  have hlt := h.1.cloned_lt _ _ ((h.cloned_iff hp hq).mpr hpp)
  omega

theorem threadsKept_of_joinsThreads {e : Event} (h : SysInv s) (hdirs : LiveDirs s)
    (ht : s.step e = some t) (hjoin : JoinsThreads t) : ThreadsKept s e := by
  cases e with
  | exec x a =>
      cases a with
      | none => trivial
      | some b =>
          obtain ⟨hx, ht⟩ := ite_some ht
          rcases exec_cases ht with ⟨hab, -⟩ | ⟨b', old, hbb, hb, hold, rfl⟩
          · cases hab
          cases hbb
          have hxl := live_of_ready hx
          have hne : old ≠ b := fun he => by
            obtain ⟨d, hd, hu⟩ := hdirs x hxl
            cases hold.symm.trans hd
            rw [he, hb] at hu
            cases hu
          have hself := setProc_self (s := s) (p := x) (y := { s.ptable x with pgdir := some b })
          have hother : ∀ r, r ≠ x → _ := fun r hr =>
            setProc_of_ne (s := s) (y := { s.ptable x with pgdir := some b }) hr
          constructor
          · rintro ⟨q, hq, hpp⟩
            have hqx := h.ne_of_thread hxl hq hpp
            have hc := (h.cloned_iff hxl hq).mpr hpp
            have hdir := (h.seen hxl hq hc).2
            obtain ⟨⟨-, htest⟩, -⟩ := hjoin.seen x q (by rw [hself]; exact hxl)
              (by rwa [hother q hqx]) (by rw [Sys.Cloned, hself, hother q hqx]; exact hc)
            simp only [hself, hother q hqx] at htest
            rw [hdir, hold] at htest
            exact hne (Option.some.inj htest)
          · rintro ⟨p, hp, hpp⟩
            have hxp := h.ne_of_thread hp (used_of_ready hx) hpp
            have hc := (h.cloned_iff hp (used_of_ready hx)).mpr hpp
            have hdir := (h.seen hp (used_of_ready hx) hc).2
            obtain ⟨⟨-, htest⟩, -⟩ := hjoin.seen p x (by rwa [hother p hxp.symm])
              (by rw [hself]; exact used_of_ready hx)
              (by rw [Sys.Cloned, hself, hother p hxp.symm]; exact hc)
            simp only [hself, hother p hxp.symm] at htest
            rw [← hdir, hold] at htest
            exact hne (Option.some.inj htest).symm
  | exit x cs =>
      rintro ⟨p, hp, hpp⟩ q hqx hqdir
      obtain ⟨hx, ht⟩ := ite_some ht
      obtain ⟨old, hold, huse⟩ := hdirs x (live_of_ready hx)
      obtain ⟨-, d, dirs, hcopies, hfam, -, -, hlog⟩ := exit_family ht
      rw [hold] at hcopies hqdir
      have hne : d ≠ some old := copies_ne hcopies huse (List.mem_finRange q) hqx hqdir
      have hxp := h.ne_of_thread hp (used_of_ready hx) hpp
      have hc := (h.cloned_iff hp (used_of_ready hx)).mpr hpp
      have hdir := (h.seen hp (used_of_ready hx) hc).2
      have hmem : ∀ r, (t.ptable r).member = exited (family s.ptable) x d r := congrFun hfam
      have hpid : ∀ r, (t.ptable r).pid = (s.ptable r).pid := fun r =>
        (congrArg Member.pid (hmem r)).trans (exited_pid _ _ _ _)
      have hpl : (t.ptable p).Live := by
        rw [← member_live, hmem, exited_live]
        exact ⟨member_live.mpr hp, hxp.symm⟩
      have hxu : (t.ptable x).state ≠ .unused := by
        rw [← member_used, hmem, exited_used (member_live.mpr (live_of_ready hx))]
        exact member_used.mpr (used_of_ready hx)
      obtain ⟨⟨-, htest⟩, -⟩ := hjoin.seen p x hpl hxu (by rw [Sys.Cloned, hlog, hpid, hpid]; exact hc)
      have hxd : (t.ptable x).pgdir = d := by
        refine (congrArg Member.pgdir (hmem x)).trans ?_
        rw [exited, Function.update_self]
      have hpd : (t.ptable p).pgdir = some old := by
        refine (congrArg Member.pgdir (hmem p)).trans ?_
        rw [exited, Function.update_of_ne hxp.symm, (orphaned_kept _ _ _).2.2.2]
        exact hdir.symm.trans hold
      exact hne (hxd.symm.trans (htest.trans hpd))
  | fork | clone | call | resume | kill => trivial

/-- As long as `exec` and `exit` leave the threads of live processes alone,
`join` and `wait` do what they are for; and where no live process has lost its
page directory, only then. -/
theorem join_run (a : Dir) (es : List Event) :
    (AllSteps Sys.step ThreadsKept (boot a) es → AllStates Sys.step JoinsThreads (boot a) es) ∧
      (AllStates Sys.step LiveDirs (boot a) es → AllStates Sys.step JoinsThreads (boot a) es →
        AllSteps Sys.step ThreadsKept (boot a) es) := by
  constructor
  · intro hok
    have hinv : AllStates Sys.step SysInv (boot a) es :=
      allStates_of_allSteps (fun _ _ _ hs hok ht => step_sysInv hs hok ht) (boot_sysInv a) hok
    exact hinv.mono fun _ hs => hs.joinsThreads
  · intro hdirs hjoin
    have hbefore : AllSteps Sys.step (fun s _ => LiveDirs s) (boot a) es :=
      AllTried.allSteps (hdirs.tried fun _ _ hs => hs)
    exact (allStates_iff_allSteps (I := SysInv) (fun _ hs => hs.joinsThreads)
      (fun _ _ _ hs hd ht hj => threadsKept_of_joinsThreads hs hd ht hj)
      (fun _ _ _ hs _ hok ht => step_sysInv hs hok ht) (boot_sysInv a) hbefore).mp hjoin

/-! ## A thread with a thread -/

/-- A process of `init` clones a thread, which clones another one and exits. -/
def nestedRun : List Event :=
  [.fork 0 true (some 1), .clone 1 true 0, .clone 2 true 0, .exit 2 [some 2]]

instance (s : Sys) (p : Slot) (k : Int) : Decidable (s.Cloned p k) :=
  inferInstanceAs (Decidable (_ ∈ _))

instance (s : Sys) (p : Slot) (k : Int) : Decidable (s.Joined p k) :=
  inferInstanceAs (Decidable (_ ∈ _))

instance (s : Sys) (p : Slot) : Decidable (s.JoinFails p) := inferInstanceAs (Decidable (_ ∨ _))

/-- Then `join` in the process fails although it has a thread that it has not
joined, and `wait` would reap that thread. -/
theorem nested_thread_lost : ((run Sys.step (boot 0) nestedRun).map fun s =>
      decide (((s.ptable 1).Live ∧ (s.ptable 1).killed = false) ∧ s.JoinFails 1 ∧
        s.Cloned 1 (s.ptable 2).pid ∧ ¬ s.Joined 1 (s.ptable 2).pid ∧
        Call.wait.look s.ptable 1 = .found 2)) = some true ∧
    ¬ AllStates Sys.step JoinsThreads (boot 0) nestedRun := by
  have hlast : ((run Sys.step (boot 0) nestedRun).map fun s =>
      decide (((s.ptable 1).Live ∧ (s.ptable 1).killed = false) ∧ s.JoinFails 1 ∧
        s.Cloned 1 (s.ptable 2).pid ∧ ¬ s.Joined 1 (s.ptable 2).pid ∧
        Call.wait.look s.ptable 1 = .found 2)) = some true := by
    decide +kernel
  refine ⟨hlast, fun hall => ?_⟩
  obtain ⟨s, hrun, hs⟩ := Option.map_eq_some_iff.mp hlast
  obtain ⟨⟨hlive, hkilled⟩, hfails, hcloned, hnot, -⟩ := of_decide_eq_true hs
  exact hnot ((hall.last hrun).fails 1 hlive hkilled hfails _ hcloned)

end

end Cs537.Threads
