/-
# `Cs537.Threads.Count` — `num_child`

`clone` counts a thread in the caller and leaves the caller's pid in the
thread's `parent_pid`; `wait` and `join` look for that pid when they reap it.
Parents exit, children go to `initproc` and slots are used again, but a pid is
never given out twice: so the number is right in every state, also in a process
that has exited (`num_child_run`).
-/
import Cs537.Threads.Join

namespace Cs537.Threads

open Cs537.Lib

/-- The slots with the pid `k` in `parent_pid`. -/
def Sys.threads (s : Sys) (k : Int) : Finset Slot :=
  {p | (s.ptable p).state ≠ .unused ∧ (s.ptable p).parent_pid = k}

/-- `num_child` counts the threads, in every process of the table. -/
structure CountsThreads (s : Sys) : Prop where
  count : ∀ q, (s.ptable q).state ≠ .unused →
    (s.ptable q).num_child = (s.threads (s.ptable q).pid).card
  nonneg : ∀ q, (s.ptable q).state ≠ .unused → 0 ≤ (s.ptable q).num_child

section

variable {s t : Sys} {x p q np : Slot} {k : Int} {c : Call} {e : Event}

/-! ## What a step does to the counts -/

/-- The slot is used or free as before, and keeps its numbers while used. -/
def Kept (s t : Sys) (p : Slot) : Prop :=
  ((t.ptable p).state = .unused ↔ (s.ptable p).state = .unused) ∧
    ((s.ptable p).state ≠ .unused → (t.ptable p).pid = (s.ptable p).pid ∧
      (t.ptable p).parent_pid = (s.ptable p).parent_pid ∧
      (t.ptable p).num_child = (s.ptable p).num_child)

/-- The slot is used as before, and its count moves by `d` if its pid is `k`. -/
def Moved (s t : Sys) (k d : Int) (p : Slot) : Prop :=
  ((t.ptable p).state = .unused ↔ (s.ptable p).state = .unused) ∧
    ((s.ptable p).state ≠ .unused → (t.ptable p).pid = (s.ptable p).pid ∧
      (t.ptable p).parent_pid = (s.ptable p).parent_pid ∧
      (t.ptable p).num_child = (s.ptable p).num_child + if (s.ptable p).pid = k then d else 0)

/-- A step leaves the counts alone, makes a process whose `parent_pid` is `k`,
or takes one out of the table. -/
inductive Change (s t : Sys) : Prop
  | kept (hT : ∀ p, Kept s t p) (hn : s.nextpid ≤ t.nextpid)
  | born (np : Slot) (k : Int) (hfree : (s.ptable np).state = .unused)
      (hused : (t.ptable np).state ≠ .unused) (hpid : (t.ptable np).pid = s.nextpid)
      (hk : (t.ptable np).parent_pid = k) (hzero : (t.ptable np).num_child = 0)
      (hlt : k < s.nextpid) (hT : ∀ p, p ≠ np → Moved s t k 1 p) (hn : t.nextpid = s.nextpid + 1)
  | reaped (q : Slot) (hused : (s.ptable q).state ≠ .unused) (hfree : (t.ptable q).state = .unused)
      (hT : ∀ p, p ≠ q → Moved s t (s.ptable q).parent_pid (-1) p) (hn : t.nextpid = s.nextpid)

theorem mem_sysThreads : p ∈ s.threads k ↔
    (s.ptable p).state ≠ .unused ∧ (s.ptable p).parent_pid = k := by
  simp [Sys.threads]

theorem mem_congr (hu : (t.ptable p).state = .unused ↔ (s.ptable p).state = .unused)
    (hpp : (s.ptable p).state ≠ .unused → (t.ptable p).parent_pid = (s.ptable p).parent_pid) :
    p ∈ t.threads k ↔ p ∈ s.threads k := by
  rw [mem_sysThreads, mem_sysThreads, ne_eq, hu]
  exact and_congr_right fun hp => by rw [hpp hp]

theorem Kept.mem (h : Kept s t p) : p ∈ t.threads k ↔ p ∈ s.threads k :=
  mem_congr h.1 fun hp => (h.2 hp).2.1

theorem Moved.mem {j d : Int} (h : Moved s t j d p) : p ∈ t.threads k ↔ p ∈ s.threads k :=
  mem_congr h.1 fun hp => (h.2 hp).2.1

theorem threads_kept (hT : ∀ p, Kept s t p) : t.threads k = s.threads k := by
  ext p
  exact (hT p).mem

/-- One process more with `k` in `parent_pid`. -/
theorem card_born {j d : Int} (hfree : (s.ptable np).state = .unused)
    (hused : (t.ptable np).state ≠ .unused) (hj : (t.ptable np).parent_pid = j)
    (hT : ∀ p, p ≠ np → Moved s t j d p) :
    ((t.threads k).card : Int) = (s.threads k).card + if k = j then 1 else 0 := by
  have hnot : np ∉ s.threads k := fun hmem => (mem_sysThreads.mp hmem).1 hfree
  refine card_join hnot fun p => ?_
  by_cases hp : p = np
  · rw [hp, mem_sysThreads, hj, or_iff_right hnot, and_iff_right hused, and_iff_right rfl, eq_comm]
  · rw [(hT p hp).mem, or_iff_left fun h => hp h.1]

/-- One process less: this is the other one seen backwards. -/
theorem Moved.symm {d : Int} (h : Moved s t k d p) : Moved t s k (-d) p := by
  refine ⟨h.1.symm, fun hp => ?_⟩
  obtain ⟨hpid, hpp, hnum⟩ := h.2 (h.1.not.mp hp)
  refine ⟨hpid.symm, hpp.symm, ?_⟩
  rw [hnum, hpid]
  split <;> omega

/-! ## The invariant -/

structure CountInv (s : Sys) : Prop where
  pid : ∀ p, (s.ptable p).state ≠ .unused → 0 < (s.ptable p).pid ∧ (s.ptable p).pid < s.nextpid
  inj : ∀ p q, (s.ptable p).state ≠ .unused → (s.ptable q).state ≠ .unused →
    (s.ptable p).pid = (s.ptable q).pid → p = q
  parent_pid : ∀ p, (s.ptable p).state ≠ .unused → (s.ptable p).parent_pid < s.nextpid
  count : ∀ p, (s.ptable p).state ≠ .unused →
    (s.ptable p).num_child = (s.threads (s.ptable p).pid).card

theorem CountInv.counts (h : CountInv s) : CountsThreads s where
  count := h.count
  nonneg q hq := by
    rw [h.count q hq]
    exact Int.natCast_nonneg _

theorem CountInv.kept (h : CountInv s) (hT : ∀ p, Kept s t p) (hn : s.nextpid ≤ t.nextpid) :
    CountInv t := by
  have hused : ∀ p, (t.ptable p).state ≠ .unused → (s.ptable p).state ≠ .unused :=
    fun p => (hT p).1.not.mp
  refine ⟨fun p hp => ?_, fun p q hp hq hpq => ?_, fun p hp => ?_, fun p hp => ?_⟩
  · have := h.pid p (hused p hp)
    rw [((hT p).2 (hused p hp)).1]
    omega
  · rw [((hT p).2 (hused p hp)).1, ((hT q).2 (hused q hq)).1] at hpq
    exact h.inj p q (hused p hp) (hused q hq) hpq
  · have := h.parent_pid p (hused p hp)
    rw [((hT p).2 (hused p hp)).2.1]
    omega
  · obtain ⟨hpid, -, hnum⟩ := (hT p).2 (hused p hp)
    rw [hnum, hpid, threads_kept hT]
    exact h.count p (hused p hp)

theorem CountInv.born (h : CountInv s) (hfree : (s.ptable np).state = .unused)
    (hused : (t.ptable np).state ≠ .unused) (hpid : (t.ptable np).pid = s.nextpid)
    (hk : (t.ptable np).parent_pid = k) (hzero : (t.ptable np).num_child = 0)
    (hlt : k < s.nextpid) (hpos : 0 < s.nextpid) (hT : ∀ p, p ≠ np → Moved s t k 1 p)
    (hn : t.nextpid = s.nextpid + 1) : CountInv t := by
  have hold : ∀ p, p ≠ np → (t.ptable p).state ≠ .unused → (s.ptable p).state ≠ .unused :=
    fun p hp => (hT p hp).1.not.mp
  have hpid' : ∀ p (hp : p ≠ np), (t.ptable p).state ≠ .unused →
      (t.ptable p).pid = (s.ptable p).pid := fun p hp hu => ((hT p hp).2 (hold p hp hu)).1
  -- nobody has the new pid yet, as pid or in `parent_pid`
  have hnew : ∀ p, p ≠ np → (t.ptable p).state ≠ .unused → (t.ptable p).pid < s.nextpid :=
    fun p hp hu => by
      rw [hpid' p hp hu]
      exact (h.pid p (hold p hp hu)).2
  have hnone : s.threads s.nextpid = ∅ := by
    ext p
    rw [mem_sysThreads]
    refine iff_of_false (fun hmem => ?_) (Finset.notMem_empty p)
    have := h.parent_pid p hmem.1
    omega
  refine ⟨fun p hp => ?_, fun p q hp hq hpq => ?_, fun p hp => ?_, fun p hp => ?_⟩
  · by_cases hpn : p = np
    · rw [hpn, hpid]
      omega
    · have := h.pid p (hold p hpn hp)
      rw [hpid' p hpn hp]
      omega
  · by_cases hpn : p = np
    · by_cases hqn : q = np
      · rw [hpn, hqn]
      · have := hnew q hqn hq
        rw [hpn, hpid] at hpq
        omega
    · by_cases hqn : q = np
      · have := hnew p hpn hp
        rw [hqn, hpid] at hpq
        omega
      · rw [hpid' p hpn hp, hpid' q hqn hq] at hpq
        exact h.inj p q (hold p hpn hp) (hold q hqn hq) hpq
  · by_cases hpn : p = np
    · rw [hpn, hk]
      omega
    · have := h.parent_pid p (hold p hpn hp)
      rw [((hT p hpn).2 (hold p hpn hp)).2.1]
      omega
  · rw [card_born hfree hused hk hT]
    by_cases hpn : p = np
    · rw [hpn, hzero, hpid, hnone, if_neg (by omega)]
      rfl
    · rw [((hT p hpn).2 (hold p hpn hp)).2.2, hpid' p hpn hp, h.count p (hold p hpn hp)]

theorem CountInv.reaped (h : CountInv s) (hused : (s.ptable q).state ≠ .unused)
    (hfree : (t.ptable q).state = .unused)
    (hT : ∀ p, p ≠ q → Moved s t (s.ptable q).parent_pid (-1) p) (hn : t.nextpid = s.nextpid) :
    CountInv t := by
  have hne : ∀ p, (t.ptable p).state ≠ .unused → p ≠ q := fun p hp he => hp (he ▸ hfree)
  have hold : ∀ p, (t.ptable p).state ≠ .unused → (s.ptable p).state ≠ .unused :=
    fun p hp => (hT p (hne p hp)).1.not.mp hp
  have hsame := fun p (hp : (t.ptable p).state ≠ .unused) => (hT p (hne p hp)).2 (hold p hp)
  refine ⟨fun p hp => ?_, fun p r hp hr hpr => ?_, fun p hp => ?_, fun p hp => ?_⟩
  · rw [(hsame p hp).1, hn]
    exact h.pid p (hold p hp)
  · rw [(hsame p hp).1, (hsame r hr).1] at hpr
    exact h.inj p r (hold p hp) (hold r hr) hpr
  · rw [(hsame p hp).2.1, hn]
    exact h.parent_pid p (hold p hp)
  · have hcard : ((s.threads (s.ptable p).pid).card : Int) = _ :=
      card_born hfree hused rfl fun r hr => (hT r hr).symm
    obtain ⟨hpid, -, hnum⟩ := hsame p hp
    rw [hnum, hpid, h.count p (hold p hp), hcard]
    split <;> omega

/-! ## The steps -/

theorem SameFamily.kept (hT : SameFamily s.ptable t.ptable) (p : Slot) : Kept s t p := by
  obtain ⟨hm, hc⟩ := hT p
  refine ⟨?_, fun _ => ⟨congrArg Member.pid hm, congrArg Member.parent_pid hm, hc⟩⟩
  have hused := member_used (y := t.ptable p)
  rw [hm, member_used] at hused
  exact not_iff_not.mp hused.symm

theorem change_same (hT : SameFamily s.ptable t.ptable) (hn : t.nextpid = s.nextpid) : Change s t :=
  .kept hT.kept hn.ge

theorem change_spent (hfree : (s.ptable np).state = .unused) : Change s (s.spent np) := by
  refine .kept (fun p => ?_) (by show s.nextpid ≤ s.nextpid + 1; omega)
  by_cases hp : p = np
  · subst hp
    exact ⟨by simp [Sys.spent, Proc.fresh], fun hu => absurd hfree hu⟩
  · have hsame : (s.spent np).ptable p = s.ptable p := setProc_of_ne hp
    rw [Kept, hsame]
    exact ⟨Iff.rfl, fun _ => ⟨rfl, rfl, rfl⟩⟩

/-- What `fork` and `clone` make of a free slot. -/
theorem child_self (s : Sys) (np x : Slot) (d : Option Dir) (k : Int) (stack : Nat) :
    (s.child np x d k stack).ptable np =
      { (s.ptable np).fresh s.nextpid with
        state := .runnable, pgdir := d, parent := some x, parent_pid := k, stack := stack,
        call := none } :=
  setProc_self

theorem child_of_ne {d : Option Dir} {stack : Nat} (h : p ≠ np) :
    (s.child np x d k stack).ptable p = s.ptable p := setProc_of_ne h

theorem moved_of_eq {d : Int} (hp : t.ptable p = s.ptable p)
    (hk : (s.ptable p).state ≠ .unused → (s.ptable p).pid ≠ k) : Moved s t k d p := by
  rw [Moved, hp]
  refine ⟨Iff.rfl, fun hu => ⟨rfl, rfl, ?_⟩⟩
  rw [if_neg (hk hu), Int.add_zero]

theorem change_fork (h : CountInv s) (hx : (s.ptable x).Ready) {ok : Bool} {a : Option Dir}
    (ht : s.fork x ok a = some t) : Change s t := by
  have hxp := h.pid x (used_of_ready hx)
  rcases fork_cases ht (used_of_ready hx) with rfl | ⟨np, hfree, rfl | ⟨a, -, rfl⟩⟩
  · exact change_same (fun _ => ⟨rfl, rfl⟩) rfl
  · exact change_spent hfree
  · have hself := child_self s np x (some a) (-1) (s.ptable np).stack
    refine .born np (-1) hfree ?_ (congrArg Proc.pid hself) (congrArg Proc.parent_pid hself)
      (congrArg Proc.num_child hself) (by omega) (fun p hp => ?_) rfl
    · rw [congrArg Proc.state hself]
      exact fun h => by cases h
    · refine moved_of_eq (child_of_ne hp) fun hu => ?_
      have := h.pid p hu
      omega

theorem change_clone (h : CountInv s) (hx : (s.ptable x).Ready) (ok : Bool) (stack : Nat) :
    Change s (s.clone x ok stack) := by
  have hxu := used_of_ready hx
  rcases clone_cases ok stack hxu with he | ⟨np, hfree, he | he⟩
  · rw [he]
    exact change_same (fun _ => ⟨rfl, rfl⟩) rfl
  · rw [he]
    exact change_spent hfree
  · have hne : np ≠ x := fun hnx => hxu (hnx ▸ hfree)
    have hT : ∀ p, p ≠ x → (s.clone x ok stack).ptable p =
        (s.child np x (s.ptable x).pgdir (s.ptable x).pid stack).ptable p := fun p hp => by
      rw [he]
      exact setProc_of_ne hp
    have hself := (hT np hne).trans (child_self ..)
    refine .born np (s.ptable x).pid hfree ?_ (congrArg Proc.pid hself)
      (congrArg Proc.parent_pid hself) (congrArg Proc.num_child hself) (h.pid x hxu).2
      (fun p hp => ?_) (by rw [he]; rfl)
    · rw [congrArg Proc.state hself]
      exact fun h => by cases h
    · by_cases hpx : p = x
      · subst hpx
        have hcaller : (s.clone p ok stack).ptable p =
            { s.ptable p with num_child := (s.ptable p).num_child + 1 } := by
          rw [he]
          exact setProc_self
        rw [Moved, hcaller]
        exact ⟨Iff.rfl, fun _ => ⟨rfl, rfl, by rw [if_pos rfl]⟩⟩
      · exact moved_of_eq ((hT p hpx).trans (child_of_ne hp)) fun hu hpid =>
          hpx (h.inj p x hu hxu hpid)

theorem change_exit {cs : List (Option Dir)} (hx : (s.ptable x).Ready)
    (ht : s.exit x cs = some t) : Change s t := by
  obtain ⟨-, d, dirs, -, hfam, hnum, hnext, -⟩ := exit_family ht
  refine .kept (fun p => ?_) hnext.ge
  have hm : (t.ptable p).member = exited (family s.ptable) x d p := congrFun hfam p
  have hused := member_used (y := t.ptable p)
  rw [hm, exited_used (member_live.mpr (live_of_ready hx))] at hused
  refine ⟨not_iff_not.mp (hused.symm.trans member_used), fun _ => ⟨?_, ?_, hnum p⟩⟩
  · exact (congrArg Member.pid hm).trans (exited_pid _ x d p)
  · exact (congrArg Member.parent_pid hm).trans (exited_parent_pid _ x d p)

theorem change_reap (c : Call) (x : Slot) (hused : (s.ptable q).state ≠ .unused) :
    Change s (s.reap c x q) := by
  obtain ⟨hfam, hnum, hnext, -⟩ := reap_family (s := s) c x q
  have hm : ∀ p, ((s.reap c x q).ptable p).member = reaped (family s.ptable) q p := congrFun hfam
  refine .reaped q hused ?_ (fun p hp => ?_) hnext
  · by_contra hu
    have hgone := member_used.mpr hu
    rw [hm, reaped, Function.update_self] at hgone
    exact hgone rfl
  · have hsame := hm p
    rw [reaped, Function.update_of_ne hp] at hsame
    have hu := member_used (y := (s.reap c x q).ptable p)
    rw [hsame] at hu
    refine ⟨not_iff_not.mp (hu.symm.trans member_used), fun _ =>
      ⟨congrArg Member.pid hsame, congrArg Member.parent_pid hsame, ?_⟩⟩
    rw [hnum]
    split <;> omega

/-- `wait` and `join`, and their loop after `sleep`. -/
theorem change_loop (hx : (s.ptable x).state = .runnable) (ht : s.loop c x = some t) :
    Change s t := by
  rw [Sys.loop] at ht
  split at ht
  · rename_i q hlook
    have hq : (s.ptable q).state ≠ .unused := by simp [(look_found hlook).2]
    split at ht
    · obtain ⟨u, hu, rfl⟩ := Option.map_eq_some_iff.mp ht
      obtain ⟨a, -, rfl⟩ := Option.map_eq_some_iff.mp hu
      have hreap := change_reap (s := { s with dirs := Function.update s.dirs a false }) c x hq
      cases hreap with
      | kept hT hn => exact .kept hT hn
      | born np k h₁ h₂ h₃ h₄ h₅ h₆ hT hn => exact .born np k h₁ h₂ h₃ h₄ h₅ h₆ hT hn
      | reaped q h₁ h₂ hT hn => exact .reaped q h₁ h₂ hT hn
    · exact Option.some.inj ht ▸ change_reap c x hq
  · exact Option.some.inj ht ▸ change_same (sameFamily_update rfl rfl) rfl
  · refine Option.some.inj ht ▸ change_same (sameFamily_update ?_ rfl) rfl
    simp [Proc.member, PState.life, hx]

theorem change_kill (s : Sys) (pid : Int) : Change s (s.kill pid) := by
  rw [Sys.kill]
  split
  · exact change_same (fun _ => ⟨rfl, rfl⟩) rfl
  · refine change_same (sameFamily_update ?_ ?_) rfl
    · split
      · rename_i hs
        simp only at hs
        simp [Proc.member, PState.life, hs]
      · rfl
    · split <;> rfl

theorem step_change (h : CountInv s) (ht : s.step e = some t) : Change s t := by
  cases e with
  | fork x ok a =>
      obtain ⟨hx, ht⟩ := ite_some ht
      exact change_fork h hx ht
  | clone x ok stack =>
      obtain ⟨hx, ht⟩ := ite_some ht
      exact Option.some.inj ht ▸ change_clone h hx ok stack
  | exec x a =>
      obtain ⟨-, ht⟩ := ite_some ht
      rcases exec_cases ht with ⟨-, rfl⟩ | ⟨b, old, -, -, -, rfl⟩
      · exact change_same (fun _ => ⟨rfl, rfl⟩) rfl
      · refine .kept (fun p => ?_) (Int.le_refl _)
        by_cases hp : p = x
        · subst hp
          simp [Kept]
        · simp [Kept, setProc_of_ne hp]
  | exit x cs =>
      obtain ⟨hx, ht⟩ := ite_some ht
      exact change_exit hx ht
  | call c x =>
      obtain ⟨hx, ht⟩ := ite_some ht
      rw [Sys.call] at ht
      split at ht
      · exact Option.some.inj ht ▸ change_same (fun _ => ⟨rfl, rfl⟩) rfl
      · exact change_loop hx.1 ht
  | resume x =>
      obtain ⟨hx, ht⟩ := ite_some ht
      obtain ⟨c, -, ht⟩ := Option.bind_eq_some_iff.mp ht
      exact change_loop hx ht
  | kill x pid =>
      obtain ⟨-, ht⟩ := ite_some ht
      exact Option.some.inj ht ▸ change_kill s pid

theorem step_countInv (h : CountInv s) (hpos : 0 < s.nextpid) (ht : s.step e = some t) :
    CountInv t ∧ 0 < t.nextpid := by
  cases step_change h ht with
  | kept hT hn => exact ⟨h.kept hT hn, by omega⟩
  | born np k hfree hused hpid hk hzero hlt hT hn =>
      exact ⟨h.born hfree hused hpid hk hzero hlt hpos hT hn, by omega⟩
  | reaped q hused hfree hT hn => exact ⟨h.reaped hused hfree hT hn, by omega⟩

theorem boot_countInv (a : Dir) : CountInv (boot a) := by
  have hused : ∀ p, ((boot a).ptable p).state ≠ .unused → p = initproc := fun p hp => by
    by_contra hne
    simp [boot, hne] at hp
  have hinit : (boot a).ptable initproc = ⟨.runnable, 1, none, some a, false, 0, -1, 0, none⟩ := rfl
  refine ⟨fun p hp => ?_, fun p q hp hq _ => ?_, fun p hp => ?_, fun p hp => ?_⟩
  · rw [hused p hp, hinit]
    exact ⟨Int.one_pos, show (1 : Int) < 2 by decide⟩
  · rw [hused p hp, hused q hq]
  · rw [hused p hp, hinit]
    exact show (-1 : Int) < 2 by decide
  · have hempty : (boot a).threads 1 = ∅ := by
      ext q
      rw [mem_sysThreads]
      refine iff_of_false (fun hmem => ?_) (Finset.notMem_empty q)
      have hpp := hmem.2
      rw [hused q hmem.1, hinit] at hpp
      cases hpp
    rw [hused p hp, hinit, hempty]
    rfl

end

theorem countInv_run (a : Dir) (es : List Event) :
    AllStates Sys.step (fun s => CountInv s ∧ 0 < s.nextpid) (boot a) es :=
  allStates_of_step (fun _ _ _ hs ht => step_countInv hs.1 hs.2 ht)
    ⟨boot_countInv a, show (0 : Int) < 2 by decide⟩

/-- In every state of every run, `num_child` of a process in the table is the
number of processes in the table with its pid in `parent_pid`. -/
theorem num_child_run (a : Dir) (es : List Event) :
    AllStates Sys.step CountsThreads (boot a) es :=
  (countInv_run a es).mono fun _ hs => hs.1.counts

end Cs537.Threads
