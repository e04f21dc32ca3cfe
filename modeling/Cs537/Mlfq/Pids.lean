/-
# `Cs537.Mlfq.Pids` — which processes there are, and what a step does to the queue

Seen from the level-3 queue a step of a CPU is one of a few changes (`Change`): a
process is made or goes, a slot becomes `RUNNABLE`, `bump_priority` is called,
or the loop of `scheduler` is entered, perhaps after a `remq`.  In all other
steps the slots keep their pids and priorities, and the queue its entries.

    act_change     every step is a change
    scan_queue   the loop calls `addq` for the processes that it finds at level 3
-/
import Cs537.Mlfq.Account

namespace Cs537.Mlfq

open Cs537.Lib

/-! ## The same processes -/

/-- The slot holds the same process, at the same level. -/
structure Kept (p p' : Proc) : Prop where
  pid : p'.pid = p.pid
  used : p'.state = .unused ↔ p.state = .unused
  priority : p'.priority = p.priority

def Same (T T' : Table) : Prop := ∀ q, Kept (T q) (T' q)

section

variable {T T' T'' : Table} {p q : Slot} {x : Proc}

theorem Kept.refl (p : Proc) : Kept p p := ⟨rfl, Iff.rfl, rfl⟩

theorem Kept.of_eq (hpid : x.pid = (T p).pid) (hstate : x.state = (T p).state)
    (hprio : x.priority = (T p).priority) : Kept (T p) x := ⟨hpid, by rw [hstate], hprio⟩

theorem Kept.of_used (hpid : x.pid = (T p).pid) (hp : (T p).state ≠ .unused) (hx : x.state ≠ .unused)
    (hprio : x.priority = (T p).priority) : Kept (T p) x :=
  ⟨hpid, iff_of_false hx hp, hprio⟩

theorem Same.refl (T : Table) : Same T T := fun q => .refl (T q)

theorem Same.trans (h : Same T T') (h' : Same T' T'') : Same T T'' := fun q =>
  ⟨(h' q).pid.trans (h q).pid, (h' q).used.trans (h q).used, (h' q).priority.trans (h q).priority⟩

theorem Same.update (hx : Kept (T p) x) : Same T (Function.update T p x) := fun q => by
  by_cases hq : q = p
  · rw [hq, Function.update_self]
    exact hx
  · rw [Function.update_of_ne hq]
    exact .refl (T q)

/-- One slot is written in both tables. -/
theorem Same.lift (h : Same T T') (p : Slot) (x : Proc) :
    Same (Function.update T p x) (Function.update T' p x) := fun q => by
  by_cases hq : q = p
  · rw [hq, Function.update_self, Function.update_self]
    exact .refl x
  · rw [Function.update_of_ne hq, Function.update_of_ne hq]
    exact h q

theorem same_wakeup1 (chan : Chan) (T : Table) : Same T (wakeup1 chan T) := fun q => by
  rw [wakeup1]
  split
  · rename_i h
    refine ⟨rfl, iff_of_false (fun hu => by cases hu) fun hu => ?_, rfl⟩
    rw [h.1] at hu
    cases hu
  · exact .refl (T q)

theorem same_wakeParent (p : Slot) (T : Table) : Same T (wakeParent p T) := by
  rw [wakeParent]
  split
  · exact same_wakeup1 _ T
  · exact .refl T

theorem same_abandon (p : Slot) (T : Table) : Same T (abandon p T) := by
  have hparent : Same T fun q =>
      if (T q).parent = some p then { T q with parent := some initproc } else T q := fun q => by
    dsimp only
    split
    · exact ⟨rfl, Iff.rfl, rfl⟩
    · exact .refl (T q)
  rw [abandon]
  split
  · exact hparent.trans (same_wakeup1 _ _)
  · exact hparent

theorem same_kill (pid : Int) (T : Table) : Same T (kill pid T) := by
  rw [kill]
  split
  · exact .refl T
  · rename_i p _
    dsimp only
    split
    · rename_i hs
      refine .update (.of_used rfl (fun hu => ?_) (fun hu => by cases hu) rfl)
      rw [hu] at hs
      cases hs
    · exact .update (.of_eq rfl rfl rfl)

theorem same_back (lvl : Nat) (p : Slot) (T : Table) (Q : Queue) : Same T (back lvl p T Q).1 := by
  rw [back]
  split
  · split
    · exact .update (.of_eq rfl rfl rfl)
    · exact .update (.of_eq rfl rfl rfl)
  · exact .update (.of_eq rfl rfl rfl)

/-- The queue after the switch. -/
theorem back_queue (lvl : Nat) (p : Slot) (T : Table) (Q : Queue) : (back lvl p T Q).2 =
    if lvl = 3 ∧ ((T p).p3ticks + 1) % 20 = 0 then Q.remq else Q := by
  have hp : ((T p).charge lvl).p3ticks = (T p).p3ticks := rfl
  rw [back]
  by_cases hl : lvl = 3
  · rw [if_pos hl, hp]
    by_cases h0 : ((T p).p3ticks + 1) % 20 = 0
    · rw [if_pos ⟨Nat.succ_ne_zero _, h0⟩, if_pos ⟨hl, h0⟩]
    · rw [if_neg fun h => h0 h.2, if_neg fun h => h0 h.2]
  · rw [if_neg hl, if_neg fun h => hl h.1]

end

/-! ## The loop -/

/-- The slots that the loop looks at. -/
def seen (now : BitVec 32) : List Slot → Table → Queue → List Slot
  | [], _, _ => []
  | p :: l, T, Q =>
      match visit now T Q p with
      | (true, _, _) => [p]
      | (false, T, Q) => p :: seen now l T Q

section

variable {now : BitVec 32} {T : Table} {Q : Queue} {p q : Slot} {l : List Slot}

theorem seen_sublist (now : BitVec 32) (l : List Slot) (T : Table) (Q : Queue) :
    (seen now l T Q).Sublist l := by
  induction l generalizing T Q with
  | nil => exact .slnil
  | cons p l ih =>
      rw [seen]
      split
      · exact List.singleton_sublist.mpr List.mem_cons_self
      · exact (ih _ _).cons_cons p

/-- The loop calls `addq` for each process at level 3 that it looks at. -/
theorem scan_queue (now : BitVec 32) (hnd : l.Nodup) (T : Table) (Q : Queue) :
    (scan now l T Q).2.2 = Q.afterAll T (seen now l T Q) := by
  induction l generalizing T Q with
  | nil => rfl
  | cons p l ih =>
      obtain ⟨hp, hnd⟩ := List.nodup_cons.mp hnd
      rw [scan, seen, visit_eq]
      by_cases hready : (T p).Ready Q
      · rw [if_pos hready]
        rfl
      · have hp' : p ∉ seen now l (Function.update T p (T p).passed) (Q.after (T p)) := fun hm =>
          hp ((seen_sublist now l _ _).subset hm)
        rw [if_neg hready]
        show (scan now l _ _).2.2 = _
        rw [ih hnd, afterAll_cons, afterAll_update hp']

/-- A process stays what it is, and at level 3. -/
structure Stays (p p' : Proc) : Prop where
  pid : p'.pid = p.pid
  used : p'.state = .unused ↔ p.state = .unused
  last : p.priority = 3 → p'.priority = 3

theorem visit_stays (now : BitVec 32) (T : Table) (Q : Queue) (p q : Slot) :
    Stays (T q) ((visit now T Q p).2.1 q) := by
  have hupdate : ∀ x : Proc, Stays (T p) x → Stays (T q) (Function.update T p x q) := fun x hx => by
    by_cases hq : q = p
    · rw [hq, Function.update_self]
      exact hx
    · rw [Function.update_of_ne hq]
      exact ⟨rfl, Iff.rfl, id⟩
  rw [visit_eq]
  split
  · rename_i hready
    refine hupdate _ ⟨rfl, iff_of_false (fun hu => by cases hu) fun hu => ?_, id⟩
    rw [hready.1] at hu
    cases hu
  · refine hupdate _ ?_
    rw [Proc.passed]
    split
    · rename_i h
      exact ⟨rfl, Iff.rfl, fun h3 => absurd h3 (Nat.ne_of_lt h.2.1)⟩
    · exact ⟨rfl, Iff.rfl, id⟩

theorem scan_stays (now : BitVec 32) (l : List Slot) (T : Table) (Q : Queue) (q : Slot) :
    Stays (T q) ((scan now l T Q).2.1 q) := by
  induction l generalizing T Q with
  | nil => exact ⟨rfl, Iff.rfl, id⟩
  | cons p l ih =>
      have hvisit := visit_stays now T Q p q
      rw [scan]
      rcases hv : visit now T Q p with ⟨b, T₁, Q₁⟩
      rw [hv] at hvisit
      cases b with
      | true => exact hvisit
      | false =>
          have hrest := ih T₁ Q₁
          exact ⟨hrest.pid.trans hvisit.pid, hrest.used.trans hvisit.used,
            fun h3 => hrest.last (hvisit.last h3)⟩

end

/-! ## Changes -/

section

variable {n : Nat}

/-- The process on CPU `c` comes back from its 20th dispatch at level 3. -/
def Sys.twentieth (s : Sys n) (c : Fin n) : Bool :=
  (s.current c).any fun (p, lvl) => lvl = 3 ∧ ((s.ptable p).p3ticks + 1) % 20 = 0

/-- The queue as the loop is entered. -/
def Sys.behind (s : Sys n) (c : Fin n) : Queue := if s.twentieth c then s.queue.remq else s.queue

inductive Change (s : Sys n) (e : Event n) : Act n → Prop
  | keep {t : Sys n} (hT : Same s.ptable t.ptable) (hQ : t.queue = s.queue)
      (hnext : t.nextpid = s.nextpid) : Change s e (.stay t)
  | alloc {t : Sys n} {q : Slot} {x : Proc} (hT : Same (Function.update s.ptable q x) t.ptable)
      (hfree : (s.ptable q).state = .unused) (hx : x.pid = s.nextpid)
      (hQ : t.queue = s.queue) (hnext : t.nextpid = s.nextpid + 1) : Change s e (.stay t)
  | gone {t : Sys n} {q : Slot} {x : Proc} (hT : Same (Function.update s.ptable q x) t.ptable)
      (hx : x.state = .unused) (hpid : x.pid = 0 ∨ x.pid = (s.ptable q).pid)
      (hQ : t.queue = s.queue) (hnext : t.nextpid = s.nextpid) : Change s e (.stay t)
  | runs {t : Sys n} {q : Slot} {x : Proc} (hT : Same (Function.update s.ptable q x) t.ptable)
      (hpid : x.pid = (s.ptable q).pid) (hx : x.state ≠ .unused)
      (hprio : x.priority = (s.ptable q).priority) (hsafe : (s.ptable q).state ≠ .unused ∨ Stuck t)
      (hQ : t.queue = s.queue) (hnext : t.nextpid = s.nextpid) : Change s e (.stay t)
  | bump {t : Sys n} (hT : Same (bumpPriority s.ptable s.queue).1 t.ptable)
      (hQ : t.queue = (bumpPriority s.ptable s.queue).2)
      (hnext : t.nextpid = s.nextpid) : Change s e (.stay t)
  | loop {t : Sys n} {l : List Slot} (hT : Same s.ptable t.ptable) (hQ : t.queue = s.behind e.cpu)
      (hnext : t.nextpid = s.nextpid) : Change s e (.loop t e.cpu l)

variable {s t : Sys n} {c : Fin n} {p q : Slot} {lvl : Nat} {e : Event n} {a : Act n}

theorem setPc_same (s : Sys n) (p : Slot) (pc : Pc) : Same s.ptable (s.setPc p pc).ptable :=
  .update (.of_eq rfl rfl rfl)

theorem setStage_same_table (s : Sys n) (c : Fin n) (user : Bool) (stage : Option Stage) :
    Same s.ptable (s.setStage c user stage).ptable := by
  unfold Sys.setStage
  split
  · exact setPc_same s _ _
  · exact setPc_same s _ _
  · exact .refl _
  · exact .refl _

theorem setStage_rest (s : Sys n) (c : Fin n) (user : Bool) (stage : Option Stage) :
    (s.setStage c user stage).queue = s.queue ∧ (s.setStage c user stage).nextpid = s.nextpid := by
  unfold Sys.setStage
  split
  · exact ⟨rfl, rfl⟩
  · exact ⟨rfl, rfl⟩
  · exact ⟨rfl, rfl⟩
  · exact ⟨rfl, rfl⟩

theorem stage_change {user : Bool} {stage : Option Stage} (hT : Same s.ptable t.ptable)
    (hQ : t.queue = s.queue) (hnext : t.nextpid = s.nextpid) :
    Change s e (.stay (t.setStage c user stage)) :=
  .keep (hT.trans (setStage_same_table t c user stage)) ((setStage_rest t c user stage).1.trans hQ)
    ((setStage_rest t c user stage).2.trans hnext)

theorem Seated.used (h : Seated s) (hon : s.current c = some (p, lvl)) :
    (s.ptable p).state ≠ .unused := fun hu => by
  rw [(h.on c p lvl hon).2] at hu
  cases hu

theorem sched_change (he : e.cpu = c) (hon : s.current c = some (p, lvl))
    (hT : Same s.ptable t.ptable)
    (hacc : SameAccounts s.ptable t.ptable) (hQ : t.queue = s.queue)
    (hnext : t.nextpid = s.nextpid) : Change s e (t.sched c p lvl) := by
  subst he
  refine .loop (hT.trans (same_back lvl p t.ptable t.queue)) ?_ hnext
  show (Mlfq.back lvl p t.ptable t.queue).2 = _
  rw [back_queue, Sys.behind, Sys.twentieth, hon, (hacc p).2, hQ]
  simp

theorem exit_change (h : Seated s) (he : e.cpu = c) (hon : s.current c = some (p, lvl))
    (ha : s.exit c p lvl = some a) : Change s e a := by
  rw [Sys.exit] at ha
  split at ha
  · cases ha
  · obtain rfl := Option.some.inj ha
    have hchildren := (same_wakeParent p s.ptable).trans (same_abandon p _)
    have hused : (abandon p (wakeParent p s.ptable) p).state ≠ .unused := fun hu =>
      h.used hon ((hchildren p).used.mp hu)
    have hacc := (sameAccounts_wakeParent p s.ptable).trans (sameAccounts_abandon p _)
    refine sched_change he hon (hchildren.trans (.update (.of_used rfl hused ?_ rfl)))
      (hacc.trans (.update rfl rfl)) rfl rfl
    exact fun hu => by cases hu

theorem trapExit_change (h : s.lock = none → Seated s) (he : e.cpu = c) (ha : s.trapExit c = some a) :
    Change s e a := by
  obtain ⟨⟨p, lvl⟩, hcur, ha⟩ := Option.bind_eq_some_iff.mp ha
  simp only at ha
  split at ha
  · rename_i hlock
    exact exit_change (h hlock) he hcur ha
  · cases ha

/-- `wait` reaps a child, returns, or sleeps. -/
theorem waitLoop_change (h : Seated s) (he : e.cpu = c) (hon : s.current c = some (p, lvl))
    (hT : Same s.ptable t.ptable) (hacc : SameAccounts s.ptable t.ptable)
    (hQ : t.queue = s.queue) (hnext : t.nextpid = s.nextpid) : Change s e (t.waitLoop c p lvl) := by
  rw [Sys.waitLoop]
  split
  · rename_i q _
    have hreap : Same (Function.update s.ptable q { t.ptable q with
        state := .unused, pid := 0, parent := none, killed := false })
        (t.setProc q { t.ptable q with
          state := .unused, pid := 0, parent := none, killed := false }).ptable := hT.lift q _
    exact .gone (hreap.trans (setPc_same _ p .free)) rfl (.inl rfl) hQ hnext
  · split
    · exact .keep (hT.trans (setPc_same t p .free)) hQ hnext
    · have hused : (t.ptable p).state ≠ .unused := fun hu => h.used hon ((hT p).used.mp hu)
      refine sched_change he hon (hT.trans (.update (.of_used rfl hused ?_ rfl)))
        (hacc.trans (.update rfl rfl)) hQ hnext
      exact fun hu => by cases hu

theorem yield_change {user : Bool} (h : Seated s) (he : e.cpu = c) (ha : s.yield c user = some a) :
    Change s e a := by
  obtain ⟨q, hproc, rfl⟩ := Option.map_eq_some_iff.mp ha
  simp only
  split
  · rename_i p lvl hon
    have hcur := current_of_on hon
    obtain rfl := Option.some.inj ((h.on c p lvl hcur).1.symm.trans hproc)
    have hstate : Same s.ptable (s.ptable.setState p .runnable) :=
      .update (.of_used rfl (h.used hcur) (fun hu => by cases hu) rfl)
    have hacc : SameAccounts s.ptable (s.ptable.setState p .runnable) := .update rfl rfl
    exact sched_change he hcur (hstate.trans (.update (.of_eq rfl rfl rfl)))
      (hacc.trans (.update rfl rfl)) rfl rfl
  · -- the CPU keeps the lock
    exact .runs (.refl _) rfl (fun hu => by cases hu) rfl
      (.inr ⟨c, rfl, by simp [Sys.setAt, Sys.setCpu]⟩) rfl rfl

theorem trap_change {user : Bool} {st : Stage} (h : s.lock = none → Seated s)
    (ha : s.trap c user st = some a) : Change s (.trap c) a := by
  have hstay : ∀ (stage : Option Stage), Change s (.trap c) (.stay (s.setStage c user stage)) :=
    fun _ => stage_change (.refl _) rfl rfl
  cases st with
  | tick =>
      rw [Sys.trap] at ha
      split at ha
      · split at ha
        · cases ha
          exact stage_change (same_wakeup1 .ticks s.ptable) rfl rfl
        · cases ha
      · cases ha
        exact hstay _
  | check =>
      rw [Sys.trap] at ha
      split at ha
      · exact trapExit_change h rfl ha
      · split at ha
        · cases ha
          exact hstay _
        · cases ha
          exact hstay _
  | yield =>
      rw [Sys.trap] at ha
      split at ha
      · rename_i hlock
        exact yield_change (h hlock) rfl ha
      · cases ha
  | bump =>
      rw [Sys.trap] at ha
      split at ha
      · split at ha
        · cases ha
          obtain ⟨t, ht⟩ : ∃ t : Sys n, t = { s with
              ptable := (bumpPriority s.ptable s.queue).1
              queue := (bumpPriority s.ptable s.queue).2 } := ⟨_, rfl⟩
          have hrest := setStage_rest t c user (some .last)
          have hT := setStage_same_table t c user (some .last)
          rw [ht] at hrest hT
          exact .bump hT hrest.1 hrest.2
        · cases ha
      · cases ha
        exact hstay _
  | last =>
      rw [Sys.trap] at ha
      split at ha
      · exact trapExit_change h rfl ha
      · cases ha
        exact hstay _

theorem fork_change (s : Sys n) (p : Slot) : Change s e (.stay (s.fork p)) := by
  rw [Sys.fork, Sys.allocproc]
  split
  · rename_i h
    split at h
    · cases h
      exact .keep (.refl _) rfl rfl
    · cases h
  · rename_i h
    split at h
    · cases h
    · rename_i np hfree
      cases h
      have hunused := List.find?_some hfree
      simp only [decide_eq_true_eq] at hunused
      exact .alloc (.update (.of_eq rfl rfl rfl)) hunused rfl rfl rfl

theorem publish_change {np : Slot} {ok : Bool} (h : Sound s)
    (hch : (s.ptable p).child = some (np, false)) : Change s e (.stay (s.publish p np ok)) := by
  cases ok with
  | true =>
      refine .runs (.update (.of_eq rfl rfl rfl)) rfl (fun hu => by cases hu) rfl ?_ rfl rfl
      refine h.imp (fun hseated hu => ?_) fun hstuck => hstuck.keep rfl fun _ => id
      rw [hseated.forks.embryo p np hch] at hu
      cases hu
  | false => exact .gone (.update (.of_eq rfl rfl rfl)) rfl (.inr rfl) rfl rfl

/-- Every step but the end of `fork` is a change. -/
theorem act_change (h : Sound s) (ha : s.act e = some a) (he : ∀ c, e ≠ .reset c) : Change s e a := by
  have hfree : s.lock = none → Seated s := fun hlock => h.resolve_right fun hs => hs.locked hlock
  have hlock : ∀ {x : Option (Act n)} {y : Act n}, s.whenFree x = some y → Seated s := fun hx => by
    rw [Sys.whenFree] at hx
    split at hx
    · rename_i hlock
      exact hfree hlock
    · cases hx
  cases e with
  | pass c =>
      have ha := whenFree_some ha
      split at ha
      · rename_i hidle
        cases ha
        have hnone : s.current c = none := current_none fun p lvl he => by
          rw [hidle] at he
          cases he
        refine .loop (.refl _) ?_ rfl
        rw [Sys.behind, Sys.twentieth]
        show _ = if (s.current c).any _ = true then _ else _
        rw [hnone]
        rfl
      · cases ha
  | timer c user =>
      rw [Sys.act] at ha
      split at ha
      · cases ha
        exact stage_change (.refl _) rfl rfl
      · cases ha
  | trap c =>
      obtain ⟨⟨user, st⟩, -, ha⟩ := Option.bind_eq_some_iff.mp ha
      exact trap_change hfree ha
  | resume c =>
      obtain ⟨⟨p, lvl⟩, hcur, ha⟩ := Option.bind_eq_some_iff.mp ha
      simp only at ha
      split at ha
      · split at ha
        · rename_i r hpc hlock
          cases ha
          have hseated : Seated s := h.resolve_right fun hs => by
            obtain ⟨d, hd, hw⟩ := hs
            obtain rfl := Option.some.inj (hlock.symm.trans hd)
            rw [Sys.current, hw] at hcur
            cases hcur
          cases r with
          | forkret | yielded | slept => exact .keep (.update (.of_eq rfl rfl rfl)) rfl rfl
          | waited =>
              exact waitLoop_change hseated rfl hcur (.update (.of_eq rfl rfl rfl))
                (.update rfl rfl) rfl rfl
        · cases ha
      · cases ha
  | sleep c chan =>
      have hseated := hlock ha
      obtain ⟨⟨p, lvl⟩, hcur, ha⟩ := Option.bind_eq_some_iff.mp (whenFree_some ha)
      have hcur := syscaller_current hcur
      simp only at ha
      split at ha
      · cases ha
      · cases ha
        refine sched_change rfl hcur (.update (.of_used rfl (hseated.used hcur) ?_ rfl))
          (.update rfl rfl) rfl rfl
        exact fun hu => by cases hu
  | wakeup c chan =>
      have ha := whenFree_some ha
      split at ha
      · cases ha
        exact .keep (same_wakeup1 chan s.ptable) rfl rfl
      · cases ha
  | kill c pid =>
      obtain ⟨_, -, rfl⟩ := Option.map_eq_some_iff.mp (whenFree_some ha)
      exact .keep (same_kill pid s.ptable) rfl rfl
  | exit c =>
      have hseated := hlock ha
      obtain ⟨⟨p, lvl⟩, hcur, ha⟩ := Option.bind_eq_some_iff.mp (whenFree_some ha)
      exact exit_change hseated rfl (syscaller_current hcur) ha
  | wait c =>
      have hseated := hlock ha
      obtain ⟨⟨p, lvl⟩, hcur, rfl⟩ := Option.map_eq_some_iff.mp (whenFree_some ha)
      exact waitLoop_change hseated rfl (syscaller_current hcur) (.refl _)
        (fun q => ⟨rfl, rfl⟩) rfl rfl
  | fork c =>
      obtain ⟨⟨p, lvl⟩, -, rfl⟩ := Option.map_eq_some_iff.mp (whenFree_some ha)
      exact fork_change s p
  | publish c ok =>
      obtain ⟨⟨p, lvl⟩, -, ha⟩ := Option.bind_eq_some_iff.mp ha
      simp only at ha
      split at ha
      · rename_i np hch
        cases ha
        exact publish_change h hch
      · cases ha
  | reset c => exact absurd rfl (he c)

/-! ## Pids -/

theorem loop_nextpid {l : List Slot} : (t.loop c l).nextpid = t.nextpid := by
  rcases h : scan t.ticks l t.ptable t.queue with ⟨r, T, Q⟩
  cases r with
  | none =>
      rw [loop_none h]
      rfl
  | some p =>
      rw [loop_some h]
      rfl

/-- A pid is given out once, and kept by one slot at most. -/
structure Pids (s : Sys n) : Prop where
  apart : ∀ p q, (s.ptable p).pid = (s.ptable q).pid → (s.ptable p).pid ≠ 0 → p = q
  lt : ∀ p, (s.ptable p).pid < s.nextpid
  pos : 0 < s.nextpid
  named : Stuck s ∨ ∀ p, (s.ptable p).state ≠ .unused → (s.ptable p).pid ≠ 0

theorem boot_pids (n : Nat) : Pids (boot n) where
  apart p q h hp := by
    have hval : ∀ r : Slot, ((boot n).ptable r).pid = if r.val = 0 then 1 else 0 := fun _ => rfl
    rw [hval] at h hp
    rw [hval] at h
    refine Fin.ext ?_
    split at h
    · split at h
      · omega
      · cases h
    · rename_i hp0
      exact absurd (if_neg hp0) hp
  lt p := by
    show (if p.val = 0 then (1 : Int) else 0) < 2
    split
    · decide
    · decide
  pos := show (0 : Int) < 2 by decide
  named := .inr fun p hp => by
    have hstate : ((boot n).ptable p).state = if p.val = 0 then .runnable else .unused := rfl
    have hpid : ((boot n).ptable p).pid = if p.val = 0 then 1 else 0 := rfl
    rw [hstate] at hp
    rw [hpid]
    split
    · decide
    · rename_i h0
      exact absurd (if_neg h0) hp

/-- No slot gets another pid. -/
theorem Pids.keep (h : Pids s) (hstuck : Stuck s → Stuck t)
    (hpid : ∀ q, (t.ptable q).pid = (s.ptable q).pid ∨
      (t.ptable q).pid = 0 ∧ (t.ptable q).state = .unused)
    (hused : ∀ q, (t.ptable q).state ≠ .unused → (s.ptable q).state ≠ .unused ∨ Stuck t)
    (hnext : t.nextpid = s.nextpid) : Pids t where
  apart p q hpq hp := by
    have hold : ∀ r, (t.ptable r).pid ≠ 0 → (t.ptable r).pid = (s.ptable r).pid := fun r hr =>
      (hpid r).resolve_right fun h0 => hr h0.1
    have hp' := hold p hp
    have hq' := hold q (hpq ▸ hp)
    exact h.apart p q (hp' ▸ hq' ▸ hpq) (hp' ▸ hp)
  lt p := by
    rw [hnext]
    rcases hpid p with hp | ⟨hp, -⟩
    · rw [hp]
      exact h.lt p
    · rw [hp]
      exact h.pos
  pos := hnext ▸ h.pos
  named := by
    rcases h.named with hs | hnamed
    · exact .inl (hstuck hs)
    · by_cases ht : Stuck t
      · exact .inl ht
      · refine .inr fun p hp => ?_
        have hp' := (hused p hp).resolve_right ht
        rcases hpid p with he | ⟨-, hfree⟩
        · rw [he]
          exact hnamed p hp'
        · exact absurd hfree hp

theorem Pids.same (h : Pids s) (hstuck : Stuck s → Stuck t) (hT : Same s.ptable t.ptable)
    (hnext : t.nextpid = s.nextpid) : Pids t :=
  h.keep hstuck (fun q => .inl (hT q).pid) (fun q hq => .inl fun hu => hq ((hT q).used.mpr hu)) hnext

/-- A new process gets a new pid. -/
theorem Pids.alloc {x : Proc} (h : Pids s) (hstuck : Stuck s → Stuck t)
    (hT : Same (Function.update s.ptable q x) t.ptable) (hx : x.pid = s.nextpid)
    (hnext : t.nextpid = s.nextpid + 1) : Pids t := by
  have hself : (t.ptable q).pid = s.nextpid := by
    rw [(hT q).pid, Function.update_self, hx]
  have hother : ∀ r, r ≠ q → (t.ptable r).pid = (s.ptable r).pid ∧
      ((t.ptable r).state = .unused ↔ (s.ptable r).state = .unused) := fun r hr => by
    have hkept := hT r
    rw [Function.update_of_ne hr] at hkept
    exact ⟨hkept.pid, hkept.used⟩
  have hnew : ∀ r, r ≠ q → (t.ptable r).pid ≠ s.nextpid := fun r hr he => by
    have hlt := h.lt r
    rw [← (hother r hr).1, he] at hlt
    exact absurd hlt (Int.lt_irrefl _)
  refine ⟨fun p r hpr hp => ?_, fun p => ?_, ?_, ?_⟩
  · by_cases hpq : p = q
    · by_cases hrq : r = q
      · rw [hpq, hrq]
      · rw [hpq, hself] at hpr
        exact absurd hpr.symm (hnew r hrq)
    · by_cases hrq : r = q
      · rw [hrq, hself] at hpr
        exact absurd hpr (hnew p hpq)
      · rw [(hother p hpq).1, (hother r hrq).1] at hpr
        rw [(hother p hpq).1] at hp
        exact h.apart p r hpr hp
  · rw [hnext]
    by_cases hpq : p = q
    · rw [hpq, hself]
      omega
    · have hlt := h.lt p
      rw [(hother p hpq).1]
      omega
  · have hpos := h.pos
    omega
  · refine h.named.imp hstuck fun hnamed p hp => ?_
    by_cases hpq : p = q
    · have hpos := h.pos
      rw [hpq, hself]
      omega
    · rw [(hother p hpq).1]
      exact hnamed p fun hu => hp ((hother p hpq).2.mpr hu)

theorem bump_same (p : Proc) : (bump p).1.pid = p.pid ∧ (bump p).1.state = p.state := by
  rw [bump]
  split
  · exact ⟨rfl, rfl⟩
  · split
    · split
      · exact ⟨rfl, rfl⟩
      · exact ⟨rfl, rfl⟩
    · exact ⟨rfl, rfl⟩

/-- In every step. -/
theorem Pids.step (h : Pids s) (hs : Sound s) (ht : s.step e = some t) (he : ∀ c, e ≠ .reset c) :
    Pids t := by
  have hstuck : Stuck s → Stuck t := fun hst => hst.step ht
  obtain ⟨a, ha, rfl⟩ := Option.map_eq_some_iff.mp ht
  cases act_change hs ha he with
  | keep hT hQ hnext => exact h.same hstuck hT hnext
  | alloc hT hfree hx hQ hnext => exact h.alloc hstuck hT hx hnext
  | @gone t q x hT hx hpid hQ hnext =>
      refine h.keep hstuck (fun r => ?_) (fun r hr => ?_) hnext
      · have hkept := hT r
        by_cases hrq : r = q
        · subst hrq
          rw [Function.update_self] at hkept
          rcases hpid with h0 | hpid
          · exact .inr ⟨hkept.pid.trans h0, hkept.used.mpr hx⟩
          · exact .inl (hkept.pid.trans hpid)
        · rw [Function.update_of_ne hrq] at hkept
          exact .inl hkept.pid
      · have hkept := hT r
        by_cases hrq : r = q
        · subst hrq
          rw [Function.update_self] at hkept
          exact absurd (hkept.used.mpr hx) hr
        · rw [Function.update_of_ne hrq] at hkept
          exact .inl fun hu => hr (hkept.used.mpr hu)
  | @runs t q x hT hpid hx hprio hsafe hQ hnext =>
      refine h.keep hstuck (fun r => .inl ?_) (fun r hr => ?_) hnext
      · have hkept := hT r
        by_cases hrq : r = q
        · subst hrq
          rw [Function.update_self] at hkept
          exact hkept.pid.trans hpid
        · rw [Function.update_of_ne hrq] at hkept
          exact hkept.pid
      · by_cases hrq : r = q
        · exact hrq ▸ hsafe
        · have hkept := hT r
          rw [Function.update_of_ne hrq] at hkept
          exact .inl fun hu => hr (hkept.used.mpr hu)
  | bump hT hQ hnext =>
      refine h.keep hstuck (fun r => .inl ((hT r).pid.trans (bump_same _).1)) (fun r hr => ?_) hnext
      exact .inl fun hu => hr ((hT r).used.mpr ((bump_same _).2.trans hu))
  | @loop t l hT hQ hnext =>
      have hscan : ∀ r, Stays (t.ptable r) ((t.loop e.cpu l).ptable r) := fun r => by
        rw [loop_ptable]
        exact scan_stays t.ticks l t.ptable t.queue r
      refine h.keep hstuck (fun r => .inl ((hscan r).pid.trans (hT r).pid)) (fun r hr => ?_) ?_
      · exact .inl fun hu => hr ((hscan r).used.mpr ((hT r).used.mpr hu))
      · exact loop_nextpid.trans hnext

end

end Cs537.Mlfq
