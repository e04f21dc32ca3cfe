/-
# `Cs537.Mlfq.Rate` — how often `bump_priority` runs

`trap` tests `ticks` after `yield`, so a process makes the test when it goes on,
for the tick in which it goes on.  In a tick that is a multiple of 100, every
process that comes back to `trap` calls `bump_priority`: the law on one CPU is
that the calls are as many as the processes that have come back (`RateInv`).
-/
import Cs537.Mlfq.Slices

namespace Cs537.Mlfq

open Cs537.Lib

/-- Between `yield`, in `trap`, and the test of `ticks`. -/
def Proc.late (p : Proc) : Bool :=
  match p.pc with
  | .resume (.yielded _) | .trap _ .bump => true
  | _ => false

section

variable {n : Nat}

/-- CPU `c` is there, on the stack of a process or on that of `scheduler`. -/
def Sys.late (s : Sys n) (c : Fin n) : Bool :=
  match (s.cpu c).stack with
  | .on p _ => (s.ptable p).late
  | .idleTrap stage => stage = .check || stage = .bump
  | .idle | .wild => false

/-- `scheduler` switches to a process that is there. -/
def Sys.switchesLate (s : Sys n) (e : Event n) : Bool :=
  match s.act e with
  | some (.loop u _ l) => (scan u.ticks l u.ptable u.queue).1.any fun p => (u.ptable p).late
  | _ => false

/-- Since `ticks` changed last: the traps that are on their way to the test or
have made it, and the calls of `bump_priority`. -/
structure Rate where
  frames : Nat
  bumps : Nat

def seeRate (r : Rate) (s : Sys n) (e : Event n) (t : Sys n) : Rate :=
  if t.ticks = s.ticks then
    ⟨if s.switchesLate e then r.frames + 1 else r.frames, if s.bumps e then r.bumps + 1 else r.bumps⟩
  else ⟨if t.late e.cpu then 1 else 0, 0⟩

def stepRate : Sys n × Rate → Event n → Option (Sys n × Rate) := watch Sys.step seeRate

/-- `bump_priority` is called by the first of them. -/
def FirstFrame (x : Sys n × Rate) (e : Event n) : Prop := x.1.bumps e = true → x.2.frames ≤ 1

/-! ## Up to the loop -/

/-- A step, up to the loop, for the trap on its CPU. -/
inductive Move (s : Sys n) (e : Event n) : Act n → Prop
  | tick {t : Sys n} (hticks : t.ticks = s.ticks + 1) (hb : s.bumps e = false) : Move s e (.stay t)
  | bump {t : Sys n} (hticks : t.ticks = s.ticks) (hb : s.bumps e = true) (hs : s.late e.cpu = true)
      (ht : t.late e.cpu = false) : Move s e (.stay t)
  | skip {t : Sys n} (hticks : t.ticks = s.ticks) (hb : s.bumps e = false)
      (hnot : s.ticks.toNat % 100 ≠ 0) : Move s e (.stay t)
  | still {t : Sys n} (hticks : t.ticks = s.ticks) (hb : s.bumps e = false)
      (hlate : t.late e.cpu = s.late e.cpu) : Move s e (.stay t)
  | loop {t : Sys n} {l : List Slot} (hticks : t.ticks = s.ticks) (hb : s.bumps e = false)
      (hs : s.late e.cpu = false) : Move s e (.loop t e.cpu l)

variable {s t : Sys n} {c : Fin n} {p q : Slot} {lvl : Nat} {e : Event n} {a : Act n}

theorem late_on (hon : (s.cpu c).stack = .on p lvl) : s.late c = (s.ptable p).late := by
  rw [Sys.late, hon]

theorem late_free (hon : (s.cpu c).stack = .on p lvl) (hpc : (s.ptable p).pc = .free) :
    s.late c = false := by
  rw [late_on hon, Proc.late, hpc]

theorem late_idle (hidle : (s.cpu c).stack = .idle) : s.late c = false := by
  rw [Sys.late, hidle]

/-- What `trap` leaves on the stack of a process. -/
theorem late_setStage_on {user : Bool} {stage : Option Stage} (hon : (s.cpu c).stack = .on p lvl) :
    (s.setStage c user stage).late c = decide (stage = some .bump) := by
  have hself : ∀ pc, (s.setPc p pc).late c = Proc.late { s.ptable p with pc := pc } := fun pc => by
    have hproc : (s.setPc p pc).ptable p = { s.ptable p with pc := pc } := by
      simp [Sys.setPc, Sys.setProc]
    rw [late_on (s := s.setPc p pc) hon, hproc]
  unfold Sys.setStage
  split
  · rename_i st hon'
    cases hon.symm.trans hon'
    rw [hself]
    cases st with
    | tick | check | yield | bump | last => rfl
  · rename_i hon'
    cases hon.symm.trans hon'
    exact hself .free
  · rename_i hno
    exact absurd hon (hno p lvl)
  · rename_i hno
    exact absurd hon (hno p lvl)

/-- And on that of `scheduler`. -/
theorem late_setStage_idle {user : Bool} {stage : Option Stage}
    (hno : ∀ p lvl, (s.cpu c).stack ≠ .on p lvl) :
    (s.setStage c user stage).late c = decide (stage = some .check ∨ stage = some .bump) := by
  have hself : ∀ st, (s.setAt c (.idleTrap st)).late c = decide (st = .check ∨ st = .bump) := fun st => by
    simp [Sys.late, Sys.setAt, Sys.setCpu]
  unfold Sys.setStage
  split
  · exact absurd ‹_› (hno _ _)
  · exact absurd ‹_› (hno _ _)
  · rw [hself]
    simp
  · simp [Sys.late, Sys.setAt, Sys.setCpu]

/-- With interrupts on, no CPU is between `yield` and the test. -/
theorem late_open (h : s.open c = true) : s.late c = false := by
  rw [Sys.open, Bool.or_eq_true, decide_eq_true_eq] at h
  rcases h with hidle | hcaller
  · exact late_idle hidle
  · obtain ⟨⟨p, lvl⟩, hcaller⟩ := Option.isSome_iff_exists.mp hcaller
    have hpc := (Option.filter_eq_some_iff.mp hcaller).2
    exact late_free (caller_on hcaller) (of_decide_eq_true hpc)

theorem late_caller (h : s.caller c = some (p, lvl)) : s.late c = false :=
  late_open (Bool.or_eq_true .. |>.mpr (.inr (h ▸ rfl)))

theorem late_syscaller (h : s.syscaller c = some (p, lvl)) : s.late c = false :=
  late_caller (Option.filter_eq_some_iff.mp h).1

/-- Positions stay as they are. -/
theorem late_keep (hcpu : t.cpu = s.cpu) (hpc : ∀ p lvl, (s.cpu c).stack = .on p lvl →
    (t.ptable p).pc = (s.ptable p).pc) : t.late c = s.late c := by
  rw [Sys.late, Sys.late, hcpu]
  split
  · rename_i hon
    rw [Proc.late, Proc.late, hpc _ _ hon]
  · rfl
  · rfl
  · rfl

theorem pc_update {T : Table} {x : Proc} (hx : x.pc = (T p).pc) (q : Slot) :
    (Function.update T p x q).pc = (T q).pc := by
  by_cases hq : q = p
  · rw [hq, Function.update_self, hx]
  · rw [Function.update_of_ne hq]

theorem pc_wakeup1 (chan : Chan) (T : Table) (q : Slot) : (wakeup1 chan T q).pc = (T q).pc := by
  rw [wakeup1]
  split
  · rfl
  · rfl

theorem setStage_ticks (s : Sys n) (c : Fin n) (user : Bool) (stage : Option Stage) :
    (s.setStage c user stage).ticks = s.ticks := by
  unfold Sys.setStage
  split
  · rfl
  · rfl
  · rfl
  · rfl

theorem late_setStage {user : Bool} {stage : Option Stage} (hcheck : stage ≠ some .check)
    (hbump : stage ≠ some .bump) : (s.setStage c user stage).late c = false := by
  by_cases hon : ∃ p lvl, (s.cpu c).stack = .on p lvl
  · obtain ⟨p, lvl, hon⟩ := hon
    rw [late_setStage_on hon, decide_eq_false hbump]
  · have hon := fun p lvl h => hon ⟨p, lvl, h⟩
    rw [late_setStage_idle hon, decide_eq_false fun h => h.elim hcheck hbump]

/-- Where a CPU is in `trap`. -/
theorem stage_cases {user : Bool} {st : Stage} (h : s.stage c = some (user, st)) :
    (∃ p lvl, (s.cpu c).stack = .on p lvl ∧ (s.ptable p).pc = .trap user st) ∨
      (s.cpu c).stack = .idleTrap st ∧ user = false := by
  rw [Sys.stage] at h
  split at h
  · rename_i hon
    split at h
    · rename_i hpc
      cases h
      exact .inl ⟨_, _, hon, hpc⟩
    · cases h
  · rename_i hidle
    cases h
    exact .inr ⟨hidle, rfl⟩
  · cases h

theorem late_stage {user : Bool} {st : Stage} (h : s.stage c = some (user, st)) (hcheck : st ≠ .check) :
    s.late c = decide (st = .bump) := by
  rcases stage_cases h with ⟨p, lvl, hon, hpc⟩ | ⟨hidle, -⟩
  · rw [late_on hon, Proc.late, hpc]
    cases st with
    | tick | check | yield | bump | last => rfl
  · rw [Sys.late, hidle]
    cases st with
    | check => exact absurd rfl hcheck
    | tick | yield | bump | last => rfl

theorem sched_move (he : e.cpu = c) (hb : s.bumps e = false) (hs : s.late c = false)
    (hticks : t.ticks = s.ticks) : Move s e (t.sched c p lvl) := by
  subst he
  exact .loop hticks hb hs

theorem exit_move (he : e.cpu = c) (hb : s.bumps e = false) (hs : s.late c = false)
    (ha : s.exit c p lvl = some a) : Move s e a := by
  rw [Sys.exit] at ha
  split at ha
  · cases ha
  · cases ha
    exact sched_move he hb hs rfl

/-- `wait` does not stop in `trap`. -/
theorem waitLoop_move (he : e.cpu = c) (hb : s.bumps e = false) (hs : s.late c = false)
    (hticks : t.ticks = s.ticks) (hon : (t.cpu c).stack = .on p lvl) : Move s e (t.waitLoop c p lvl) := by
  have hfree : ∀ u : Sys n, u.cpu = t.cpu → (u.ptable p).pc = .free → u.late e.cpu = s.late e.cpu :=
    fun u hcpu hpc => by
      have hon' : (u.cpu c).stack = .on p lvl := by rw [hcpu, hon]
      rw [he, hs, late_free hon' hpc]
  rw [Sys.waitLoop]
  split
  · refine .still hticks hb (hfree _ rfl ?_)
    simp [Sys.setPc, Sys.setProc]
  · split
    · refine .still hticks hb (hfree _ rfl ?_)
      simp [Sys.setPc, Sys.setProc]
    · exact sched_move he hb hs hticks

theorem trapExit_move (he : e.cpu = c) (hb : s.bumps e = false) (hs : s.late c = false)
    (ha : s.trapExit c = some a) : Move s e a := by
  obtain ⟨⟨p, lvl⟩, -, ha⟩ := Option.bind_eq_some_iff.mp ha
  simp only at ha
  split at ha
  · exact exit_move he hb hs ha
  · cases ha

/-- On one CPU, `trap` finds its process running, and no process when it is on
the stack of `scheduler`. -/
theorem running_iff {s : Sys 1} {c : Fin 1} (h : CpuInv s) :
    ((s.cpu c).proc.any fun q => (s.ptable q).state = .running) = true ↔
      ∃ p lvl, (s.cpu c).stack = .on p lvl := by
  constructor
  · intro hany
    obtain ⟨q, -, hq⟩ := (Option.any_eq_true _ _).mp hany
    obtain ⟨d, lvl, hd⟩ := h.running q (of_decide_eq_true hq)
    exact ⟨q, lvl, Subsingleton.elim d c ▸ hd⟩
  · rintro ⟨p, lvl, hon⟩
    obtain ⟨hp, hr⟩ := h.on c p lvl hon
    rw [hp]
    exact decide_eq_true hr

theorem trap_move {s : Sys 1} {c : Fin 1} {a : Act 1} {user : Bool} {st : Stage} (h : CpuInv s)
    (hst : s.stage c = some (user, st)) (ha : s.trap c user st = some a) : Move s (.trap c) a := by
  have hnot : st ≠ .bump → s.bumps (.trap c) = false := fun hne => by
    rw [Sys.bumps, hst]
    cases st with
    | bump => exact absurd rfl hne
    | tick | check | yield | last => rfl
  cases st with
  | tick =>
      have hzero : c.val = 0 := Nat.lt_one_iff.mp c.isLt
      rw [Sys.trap, if_pos hzero] at ha
      split at ha
      · cases ha
        exact .tick (setStage_ticks _ c user _) (hnot (by decide))
      · cases ha
  | check =>
      have hb := hnot (by decide)
      rw [Sys.trap] at ha
      split at ha
      · rename_i hexit
        -- on the stack of `scheduler` the test of `tf->cs` fails
        rcases stage_cases hst with ⟨p, lvl, hon, hpc⟩ | ⟨-, rfl⟩
        · have hs : s.late c = false := by rw [late_on hon, Proc.late, hpc]
          exact trapExit_move rfl hb hs ha
        · cases hexit
      · split at ha
        · rename_i hany
          obtain ⟨p, lvl, hon⟩ := (running_iff h).mp hany
          cases ha
          refine .still (setStage_ticks s c user _) hb ((late_setStage_on hon).trans ?_)
          rcases stage_cases hst with ⟨p', lvl', hon', hpc⟩ | ⟨hidle, -⟩
          · exact .symm (.trans (late_on hon') (by rw [Proc.late, hpc]; rfl))
          · cases hon.symm.trans hidle
        · rename_i hany
          have hno : ∀ p lvl, (s.cpu c).stack ≠ .on p lvl := fun p lvl hon =>
            hany ((running_iff h).mpr ⟨p, lvl, hon⟩)
          cases ha
          refine .still (setStage_ticks s c user _) hb ((late_setStage_idle hno).trans ?_)
          rcases stage_cases hst with ⟨p, lvl, hon, -⟩ | ⟨hidle, -⟩
          · exact absurd hon (hno p lvl)
          · exact .symm (by rw [Sys.late, show (s.cpu (Event.trap c).cpu).stack = _ from hidle]; rfl)
  | yield =>
      have hb := hnot (by decide)
      rw [Sys.trap] at ha
      split at ha
      · obtain ⟨q, -, rfl⟩ := Option.map_eq_some_iff.mp ha
        rcases stage_cases hst with ⟨p, lvl, hon, hpc⟩ | ⟨hidle, -⟩
        · simp only [hon]
          exact sched_move rfl hb (late_stage hst (by decide)) rfl
        · exact absurd hidle (h.calm c).2
      · cases ha
  | bump =>
      rw [Sys.trap] at ha
      split at ha
      · rename_i hmod
        split at ha
        · cases ha
          have hs := late_stage hst (by decide)
          refine .bump (setStage_ticks _ c user _) ?_ hs (late_setStage (by simp) (by simp))
          rw [Sys.bumps, hst]
          exact decide_eq_true hmod
        · cases ha
      · rename_i hmod
        cases ha
        refine .skip (setStage_ticks s c user _) ?_ hmod
        rw [Sys.bumps, hst]
        exact decide_eq_false hmod
  | last =>
      have hb := hnot (by decide)
      have hs := late_stage hst (by decide)
      rw [Sys.trap] at ha
      split at ha
      · exact trapExit_move rfl hb hs ha
      · cases ha
        exact .still (setStage_ticks s c user _) hb ((late_setStage (by simp) (by simp)).trans hs.symm)

theorem pc_kill (pid : Int) (T : Table) (q : Slot) : (kill pid T q).pc = (T q).pc := by
  rcases hfind : (List.finRange nproc).find? fun p => (T p).pid = pid with _ | p
  · rw [kill, hfind]
  · rw [kill, hfind]
    refine pc_update ?_ q
    split
    · rfl
    · rfl

theorem fork_ticks (s : Sys n) (p : Slot) : (s.fork p).ticks = s.ticks := by
  rw [Sys.fork, Sys.allocproc]
  split
  · rename_i h
    split at h
    · cases h
      rfl
    · cases h
  · rename_i h
    split at h
    · cases h
    · cases h
      rfl

/-- `fork` does not touch a running process. -/
theorem fork_pc (p : Slot) (hrun : (s.ptable q).state = .running) :
    ((s.fork p).ptable q).pc = (s.ptable q).pc := by
  rw [Sys.fork, Sys.allocproc]
  split
  · rename_i h
    split at h
    · cases h
      rfl
    · cases h
  · rename_i h
    split at h
    · cases h
    · rename_i np hnp
      have hunused : (s.ptable np).state = .unused := by simpa using List.find?_some hnp
      have hne : q ≠ np := fun hq => by
        rw [hq, hunused] at hrun
        cases hrun
      have hkeep : ∀ x, (s.setProc np x).ptable q = s.ptable q := fun x => Function.update_of_ne hne ..
      cases h
      refine (pc_update ?_ q).trans (congrArg Proc.pc (hkeep _))
      rfl

theorem publish_ticks (s : Sys n) (p np : Slot) (ok : Bool) : (s.publish p np ok).ticks = s.ticks := by
  rw [Sys.publish]
  split
  · rfl
  · rfl

theorem publish_pc (s : Sys n) (p np : Slot) (ok : Bool) (q : Slot) :
    ((s.publish p np ok).ptable q).pc = (s.ptable q).pc := by
  rw [Sys.publish]
  split
  · refine (pc_update ?_ q).trans (pc_update ?_ q)
    · rfl
    · rfl
  · refine (pc_update ?_ q).trans (pc_update ?_ q)
    · rfl
    · rfl

theorem reset_pc (s : Sys n) (p np q : Slot) : ((s.reset p np).ptable q).pc = (s.ptable q).pc := by
  rw [Sys.reset]
  refine (pc_update ?_ q).trans (pc_update ?_ q)
  · rfl
  · rfl

theorem act_move {s : Sys 1} {e : Event 1} {a : Act 1} (h : CpuInv s) (ha : s.act e = some a) :
    Move s e a := by
  cases e with
  | pass c =>
      have ha := whenFree_some ha
      split at ha
      · rename_i hidle
        cases ha
        exact .loop rfl rfl (late_idle hidle)
      · cases ha
  | timer c user =>
      rw [Sys.act] at ha
      split at ha
      · rename_i hopen
        cases ha
        refine .still (setStage_ticks s c _ _) rfl ?_
        exact .trans (late_setStage (by simp) (by simp)) (late_open hopen).symm
      · cases ha
  | trap c =>
      obtain ⟨⟨user, st⟩, hst, ha⟩ := Option.bind_eq_some_iff.mp ha
      exact trap_move h hst ha
  | resume c =>
      obtain ⟨⟨p, lvl⟩, hcur, ha⟩ := Option.bind_eq_some_iff.mp ha
      simp only at ha
      split at ha
      · split at ha
        · rename_i r hpc _
          cases ha
          have hon := current_on hcur
          have hlate : s.late c = Proc.late (s.ptable p) := late_on hon
          rw [Proc.late, hpc] at hlate
          replace hlate : s.late (Event.resume c).cpu = _ := hlate
          cases r with
          | forkret | slept =>
              refine .still rfl rfl (.trans (late_free hon ?_) hlate.symm)
              simp [Sys.setPc, Sys.setProc]
          | yielded user =>
              refine .still rfl rfl (.trans (late_on hon) ?_)
              rw [hlate]
              simp [Proc.late, Sys.setPc, Sys.setProc]
          | waited => exact waitLoop_move rfl rfl hlate rfl hon
        · cases ha
      · cases ha
  | sleep c chan =>
      obtain ⟨⟨p, lvl⟩, hcur, ha⟩ := Option.bind_eq_some_iff.mp (whenFree_some ha)
      simp only at ha
      split at ha
      · cases ha
      · cases ha
        exact sched_move rfl rfl (late_syscaller hcur) rfl
  | wakeup c chan =>
      have ha := whenFree_some ha
      split at ha
      · rename_i hopen
        cases ha
        exact .still rfl rfl (late_keep rfl fun p _ _ => pc_wakeup1 chan s.ptable p)
      · cases ha
  | kill c pid =>
      obtain ⟨⟨p, lvl⟩, hcur, rfl⟩ := Option.map_eq_some_iff.mp (whenFree_some ha)
      exact .still rfl rfl (late_keep rfl fun p _ _ => pc_kill pid s.ptable p)
  | exit c =>
      obtain ⟨⟨p, lvl⟩, hcur, ha⟩ := Option.bind_eq_some_iff.mp (whenFree_some ha)
      exact exit_move rfl rfl (late_syscaller hcur) ha
  | wait c =>
      obtain ⟨⟨p, lvl⟩, hcur, rfl⟩ := Option.map_eq_some_iff.mp (whenFree_some ha)
      exact waitLoop_move rfl rfl (late_syscaller hcur) rfl
        (syscaller_on hcur)
  | fork c =>
      obtain ⟨⟨p, lvl⟩, hcur, rfl⟩ := Option.map_eq_some_iff.mp (whenFree_some ha)
      refine .still (fork_ticks s p) rfl ?_
      exact late_keep (fork_cpu s p) fun q lvl' hon => fork_pc p (h.on c q lvl' hon).2
  | publish c ok =>
      obtain ⟨⟨p, lvl⟩, hcur, ha⟩ := Option.bind_eq_some_iff.mp ha
      simp only at ha
      split at ha
      · rename_i np _
        cases ha
        exact .still (publish_ticks s p np ok) rfl
          (late_keep (publish_cpu s p np ok) fun q _ _ => publish_pc s p np ok q)
      · cases ha
  | reset c =>
      obtain ⟨⟨p, lvl⟩, hcur, ha⟩ := Option.bind_eq_some_iff.mp ha
      simp only at ha
      split at ha
      · rename_i np hch
        cases ha
        exact .still rfl rfl (late_keep rfl fun q _ _ => reset_pc s p np q)
      · cases ha

/-! ## The law -/

/-- The process that the loop switches to is where it was. -/
theorem loop_late {l : List Slot} (hnd : l.Nodup) : (t.loop c l).late c =
    (scan t.ticks l t.ptable t.queue).1.any fun p => (t.ptable p).late := by
  rcases hscan : scan t.ticks l t.ptable t.queue with ⟨r, T, Q⟩
  cases r with
  | none =>
      rw [loop_none hscan]
      simp [Sys.late, Sys.setAt, Sys.setCpu]
  | some p =>
      obtain ⟨pre, post, -, -, rfl⟩ := scan_some hnd hscan
      have hpc : ((t.ptable.passedAll pre).start t.ticks p p).pc = (t.ptable p).pc := by
        have hpassed : (t.ptable.passedAll pre p).pc = (t.ptable p).pc := by
          rw [Table.passedAll, Proc.passed]
          split
          · split
            · rfl
            · rfl
          · rfl
        rw [← hpassed, Table.start, Function.update_self]
      rw [Option.any_some]
      have hon : ((t.loop c l).cpu c).stack = .on p (t.ptable p).priority := by
        rw [loop_some hscan]
        simp [Sys.setCpu]
      rw [late_on hon, loop_some hscan, Proc.late, Proc.late, hpc]

/-- On one CPU: when `ticks` is a multiple of 100, the calls of `bump_priority`
are the traps that have come to the test, all but one that is still on its way. -/
structure RateInv (x : Sys 1 × Rate) : Prop where
  cpu : CpuInv x.1
  count : ∀ c, x.1.ticks.toNat % 100 = 0 →
    x.2.bumps + (if x.1.late c then 1 else 0) = x.2.frames

theorem boot_rateInv : RateInv (boot 1, ⟨0, 0⟩) := ⟨boot_cpuInv 1, fun _ _ => rfl⟩

theorem loop_ticks (t : Sys n) (c : Fin n) (l : List Slot) : (t.loop c l).ticks = t.ticks := by
  rw [Sys.loop]
  split
  · rfl
  · rfl

section

variable {s : Sys 1} {r : Rate} {e : Event 1} {a : Act 1}

/-- The law is kept. -/
theorem seeRate_count (h : CpuInv s) (ha : s.act e = some a)
    (hcount : s.ticks.toNat % 100 = 0 → r.bumps + (if s.late e.cpu then 1 else 0) = r.frames)
    (hmod : a.finish.ticks.toNat % 100 = 0) :
    (seeRate r s e a.finish).bumps + (if a.finish.late e.cpu then 1 else 0) =
      (seeRate r s e a.finish).frames := by
  have hstay : ∀ t, a = .stay t → s.switchesLate e = false := fun t hat => by
    rw [Sys.switchesLate, ha, hat]
  rw [seeRate]
  cases act_move h ha with
  | @tick t hticks hb =>
      have hne : (Act.stay t).finish.ticks ≠ s.ticks := fun he => by
        have hsucc : s.ticks + 1 = s.ticks := hticks.symm.trans he
        simp at hsucc
      rw [if_neg hne]
      exact Nat.zero_add _
  | @bump t hticks hb hs hlate =>
      have hticks : (Act.stay t).finish.ticks = s.ticks := hticks
      have hlate : (Act.stay t).finish.late e.cpu = false := hlate
      rw [hticks] at hmod
      have hcount := hcount hmod
      rw [hs] at hcount
      rw [if_pos hticks, hstay t rfl, hb, hlate]
      exact hcount
  | @skip t hticks hb hnot =>
      have hticks : (Act.stay t).finish.ticks = s.ticks := hticks
      exact absurd (hticks ▸ hmod) hnot
  | @still t hticks hb hlate =>
      have hticks : (Act.stay t).finish.ticks = s.ticks := hticks
      have hlate : (Act.stay t).finish.late e.cpu = s.late e.cpu := hlate
      rw [hticks] at hmod
      rw [if_pos hticks, hstay t rfl, hb, hlate]
      exact hcount hmod
  | @loop t l hticks hb hs =>
      have hticks : (Act.loop t e.cpu l).finish.ticks = s.ticks := (loop_ticks t e.cpu l).trans hticks
      have hlate : (Act.loop t e.cpu l).finish.late e.cpu = s.switchesLate e := by
        rw [Sys.switchesLate, ha]
        exact loop_late (act_once ha)
      rw [hticks] at hmod
      have hcount := hcount hmod
      rw [hs] at hcount
      rw [if_pos hticks, hb, hlate]
      split
      · exact congrArg Nat.succ hcount
      · exact hcount

theorem bumps_ticks (hb : s.bumps e = true) : s.ticks.toNat % 100 = 0 := by
  cases e with
  | trap c =>
      rw [Sys.bumps] at hb
      split at hb
      · exact of_decide_eq_true hb
      · cases hb
  | _ => cases hb

/-- A call of `bump_priority` is counted, and it is the last for now. -/
theorem seeRate_bumps (h : CpuInv s) (ha : s.act e = some a)
    (hcount : s.ticks.toNat % 100 = 0 → r.bumps + (if s.late e.cpu then 1 else 0) = r.frames)
    (hb : s.bumps e = true) : (seeRate r s e a.finish).bumps = r.frames := by
  have hcount := hcount (bumps_ticks hb)
  have hfalse : ∀ {P : Prop}, s.bumps e = false → P := fun h => by cases hb.symm.trans h
  cases act_move h ha with
  | @bump t hticks _ hs hlate =>
      have hticks : (Act.stay t).finish.ticks = s.ticks := hticks
      rw [hs] at hcount
      rw [seeRate, if_pos hticks, hb]
      exact hcount
  | tick _ hno | skip _ hno _ | still _ hno _ | loop _ hno _ => exact hfalse hno

/-- No other step is. -/
theorem seeRate_quiet {t : Sys 1} (hb : s.bumps e = false) : (seeRate r s e t).bumps ≤ r.bumps := by
  rw [seeRate]
  split
  · rw [hb]
    exact Nat.le_refl _
  · exact Nat.zero_le _

end

theorem RateInv.step {x y : Sys 1 × Rate} {e : Event 1} (h : RateInv x) (hy : stepRate x e = some y) :
    RateInv y := by
  obtain ⟨hstep, hsee⟩ := watch_eq_some.mp hy
  refine ⟨step_cpuInv h.cpu (fun _ _ _ _ c hc => absurd (Subsingleton.elim c _) hc) hstep, fun c hmod => ?_⟩
  obtain rfl : c = e.cpu := Subsingleton.elim _ _
  obtain ⟨a, ha, hfin⟩ := Option.map_eq_some_iff.mp hstep
  rw [← hsee, ← hfin]
  rw [← hfin] at hmod
  exact seeRate_count h.cpu ha (h.count e.cpu) hmod

/-- On one CPU: `bump_priority` runs at most once for each value of `ticks` just
when no second trap has come to the test at a call. -/
theorem rate_run (es : List (Event 1)) :
    AllStates stepRate (fun x => x.2.bumps ≤ 1) (boot 1, ⟨0, 0⟩) es ↔
      AllSteps stepRate FirstFrame (boot 1, ⟨0, 0⟩) es := by
  have hone : ∀ {x y e}, RateInv x → stepRate x e = some y → x.1.bumps e = true →
      y.2.bumps = x.2.frames := fun {x y e} h hy hb => by
    obtain ⟨hstep, hsee⟩ := watch_eq_some.mp hy
    obtain ⟨a, ha, hfin⟩ := Option.map_eq_some_iff.mp hstep
    rw [← hsee, ← hfin]
    exact seeRate_bumps h.cpu ha (h.count e.cpu) hb
  refine allStates_iff_allSteps (I := fun x => RateInv x ∧ x.2.bumps ≤ 1) (B := fun _ _ => True)
    (fun _ h => h.2) ?_ ?_ ⟨boot_rateInv, Nat.zero_le 1⟩ allSteps_true
  · intro x e y h _ hy hle hb
    rw [← hone h.1 hy hb]
    exact hle
  · intro x e y h _ hfirst hy
    refine ⟨h.1.step hy, ?_⟩
    cases hb : x.1.bumps e with
    | true =>
        rw [hone h.1 hy hb]
        exact hfirst hb
    | false =>
        obtain ⟨-, hsee⟩ := watch_eq_some.mp hy
        rw [← hsee]
        exact Nat.le_trans (seeRate_quiet hb) h.2

end

/-! ## Twice in a tick -/

section

local instance neZero_one_rate : NeZero 1 := ⟨Nat.one_ne_zero⟩

/-- The child of `init` is interrupted at tick 99 and `init` at tick 100.  `init`
goes on and makes the test; then it sleeps, and the child makes the test. -/
def twiceRun : List (Event 1) :=
  [[.pass 0, .resume 0, .fork 0, .publish 0 true, .reset 0],
    [.sleep 0 (.other 0), .pass 0, .resume 0, .sleep 0 (.other 1)], idleTicks 98,
    [.wakeup 0 (.other 1), .pass 0, .resume 0, .timer 0 true, .trap 0, .trap 0, .trap 0],
    [.wakeup 0 (.other 0), .pass 0, .resume 0, .timer 0 true, .trap 0, .trap 0, .trap 0],
    [.pass 0, .resume 0, .trap 0, .trap 0, .sleep 0 (.other 0), .pass 0, .resume 0, .trap 0]].flatten

theorem bumped_twice : ¬ AllStates stepRate (fun x => x.2.bumps ≤ 1) (boot 1, ⟨0, 0⟩) twiceRun := by
  intro h
  have hrun : (run stepRate (boot 1, ⟨0, 0⟩) twiceRun).map (fun x => (x.1.ticks, x.2.bumps)) =
      some (100, 2) := by
    decide +kernel
  obtain ⟨x, hx, heq⟩ := Option.map_eq_some_iff.mp hrun
  obtain ⟨-, hbumps⟩ := Prod.mk.inj heq
  exact absurd (h.last hx) (by rw [hbumps]; decide)

end

end Cs537.Mlfq
