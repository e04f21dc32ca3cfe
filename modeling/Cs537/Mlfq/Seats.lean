/-
# `Cs537.Mlfq.Seats` — the processes that have a CPU

On every run, with any number of CPUs, a process is on the stack of one CPU at
most, and is `RUNNING` there (`Seated`).  The one exception is the `yield` of a
CPU that is on the stack of `scheduler`; it keeps the lock for good, so that
nothing is scheduled any more (`Stuck`).
-/
import Cs537.Mlfq.Strict
import Cs537.Mlfq.Cpus

namespace Cs537.Mlfq

open Cs537.Lib

section

variable {n : Nat} {s t : Sys n} {c c' : Fin n} {p q : Slot} {lvl : Nat} {e : Event n} {a : Act n}

/-! ## CPUs and their stacks -/

/-- A CPU has left its stack with the lock. -/
def Stuck (s : Sys n) : Prop := ∃ c, s.lock = some c ∧ (s.cpu c).stack = .wild

/-- The CPUs run the same processes. -/
structure SameCpus (s t : Sys n) : Prop where
  proc : ∀ c, (t.cpu c).proc = (s.cpu c).proc
  current : t.current = s.current

theorem SameCpus.of_eq (h : t.cpu = s.cpu) : SameCpus s t where
  proc c := by rw [h]
  current := funext fun c => by rw [Sys.current, Sys.current, h]

theorem current_setAt_self {x : At} (hx : ∀ p lvl, x ≠ .on p lvl) : (s.setAt c x).current c = none := by
  have hself : ((s.setAt c x).cpu c).stack = x := by simp [Sys.setAt, Sys.setCpu]
  rw [Sys.current, hself]
  split
  · exact absurd rfl (hx _ _)
  · rfl

theorem current_idle : (s.setAt c .idle).current c = none := current_setAt_self nofun

theorem current_setAt_of_ne {x : At} (h : c' ≠ c) : (s.setAt c x).current c' = s.current c' := by
  have hother : (s.setAt c x).cpu c' = s.cpu c' := Function.update_of_ne h ..
  rw [Sys.current, Sys.current, hother]

/-- A CPU that runs no process goes on without one. -/
theorem SameCpus.setAt {x : At} (h : s.current c = none) (hx : ∀ p lvl, x ≠ .on p lvl) :
    SameCpus s (s.setAt c x) where
  proc d := by
    by_cases hd : d = c
    · rw [hd]
      simp [Sys.setAt, Sys.setCpu]
    · exact congrArg Cpu.proc (Function.update_of_ne hd ..)
  current := funext fun d => by
    by_cases hd : d = c
    · rw [hd, h]
      exact current_setAt_self hx
    · exact current_setAt_of_ne hd

theorem current_none (h : ∀ p lvl, (s.cpu c).stack ≠ .on p lvl) : s.current c = none := by
  rw [Sys.current]
  split
  · rename_i hon
    exact absurd hon (h _ _)
  · rfl

theorem current_of_on (h : (s.cpu c).stack = .on p lvl) : s.current c = some (p, lvl) := by
  rw [Sys.current, h]

theorem setStage_same (s : Sys n) (c : Fin n) (user : Bool) (stage : Option Stage) :
    SameCpus s (s.setStage c user stage) := by
  unfold Sys.setStage
  split
  · exact .of_eq rfl
  · exact .of_eq rfl
  · rename_i hno
    exact .setAt (current_none hno) nofun
  · rename_i hno
    exact .setAt (current_none hno) nofun

theorem setStage_quiet (s : Sys n) (c : Fin n) (user : Bool) (stage : Option Stage) :
    Quiet s.ptable (s.setStage c user stage).ptable := by
  unfold Sys.setStage
  split
  · exact setPc_quiet _ _ _
  · exact setPc_quiet _ _ _
  · exact Quiet.refl _
  · exact Quiet.refl _

/-! ## The invariant -/

structure Seated (s : Sys n) : Prop where
  on : ∀ c p lvl, s.current c = some (p, lvl) →
    (s.cpu c).proc = some p ∧ (s.ptable p).state = .running
  one : ∀ c c' p lvl lvl', s.current c = some (p, lvl) → s.current c' = some (p, lvl') → c = c'
  forks : Forks s.ptable

theorem Seated.same (h : Seated s) (hcpu : SameCpus s t)
    (hrunning : ∀ q, (t.ptable q).state = .running ↔ (s.ptable q).state = .running)
    (hforks : Forks t.ptable) : Seated t where
  on c p lvl hc := by
    rw [hcpu.current] at hc
    rw [hcpu.proc c]
    exact ⟨(h.on c p lvl hc).1, (hrunning p).mpr (h.on c p lvl hc).2⟩
  one c c' p lvl lvl' hc hc' := by
    rw [hcpu.current] at hc hc'
    exact h.one c c' p lvl lvl' hc hc'
  forks := hforks

theorem Seated.quiet (h : Seated s) (hcpu : SameCpus s t) (hq : Quiet s.ptable t.ptable) : Seated t :=
  h.same hcpu hq.running (h.forks.quiet hq)

/-- `p` gives up CPU `c`. -/
theorem Seated.leave (h : Seated s) (hon : s.current c = some (p, lvl)) (hcpu : SameCpus s t)
    (hl : Left p s.ptable t.ptable) : Seated (t.setAt c .idle) := by
  have hother : ∀ d q lvl', (t.setAt c .idle).current d = some (q, lvl') →
      d ≠ c ∧ s.current d = some (q, lvl') := fun d q lvl' hd => by
    have hdc : d ≠ c := fun he => by
      rw [he, current_idle] at hd
      cases hd
    rw [current_setAt_of_ne hdc, hcpu.current] at hd
    exact ⟨hdc, hd⟩
  refine ⟨fun d q lvl' hd => ?_, fun d d' q lvl' lvl'' hd hd' => ?_, h.forks.left hl⟩
  · obtain ⟨hdc, hd⟩ := hother d q lvl' hd
    obtain ⟨hproc, hrun⟩ := h.on d q lvl' hd
    refine ⟨?_, (hl.running q).mpr ⟨fun hqp => hdc ?_, hrun⟩⟩
    · have hsame : (t.setAt c .idle).cpu d = t.cpu d := Function.update_of_ne hdc ..
      rw [hsame, hcpu.proc d]
      exact hproc
    · subst hqp
      exact h.one d c q lvl' lvl hd hon
  · exact h.one d d' q lvl' lvl'' (hother d q lvl' hd).2 (hother d' q lvl'' hd').2

/-- A CPU is switched to `p`. -/
theorem Seated.start {now : BitVec 32} (h : Seated s) (hr : (s.ptable p).state = .runnable) (lvl : Nat)
    (htable : t.ptable = s.ptable.start now p)
    (hcpu : t.cpu = Function.update s.cpu c ⟨some p, .on p lvl⟩) : Seated t := by
  have hself : t.cpu c = ⟨some p, .on p lvl⟩ := by rw [hcpu, Function.update_self]
  have hcur : t.current c = some (p, lvl) := current_of_on (congrArg Cpu.stack hself)
  have hother : ∀ d, d ≠ c → t.cpu d = s.cpu d ∧ t.current d = s.current d := fun d hd => by
    have hcell : t.cpu d = s.cpu d := by rw [hcpu, Function.update_of_ne hd]
    exact ⟨hcell, by rw [Sys.current, Sys.current, hcell]⟩
  have hrest : ∀ q, q ≠ p → t.ptable q = s.ptable q := fun q hq => by
    rw [htable, Table.start, Function.update_of_ne hq]
  have hne : ∀ d q lvl', s.current d = some (q, lvl') → q ≠ p := fun d q lvl' hd he => by
    have hrun := (h.on d q lvl' hd).2
    rw [he, hr] at hrun
    cases hrun
  have hp : (t.ptable p).state = .running ∧ (t.ptable p).child = (s.ptable p).child := by
    rw [htable, Table.start, Function.update_self]
    exact ⟨rfl, rfl⟩
  have hchild : ∀ q, (t.ptable q).child = (s.ptable q).child := fun q => by
    by_cases hq : q = p
    · rw [hq, hp.2]
    · rw [hrest q hq]
  refine ⟨fun d q lvl' hd => ?_, fun d d' q lvl' lvl'' hd hd' => ?_, fun q np hq => ?_,
    fun q q' np hq hq' => ?_⟩
  · by_cases hdc : d = c
    · rw [hdc, hcur] at hd
      cases hd
      rw [hdc, hself]
      exact ⟨rfl, hp.1⟩
    · obtain ⟨hcell, hsame⟩ := hother d hdc
      rw [hsame] at hd
      rw [hcell, hrest q (hne d q lvl' hd)]
      exact h.on d q lvl' hd
  · by_cases hdc : d = c
    · by_cases hdc' : d' = c
      · rw [hdc, hdc']
      · rw [hdc, hcur] at hd
        rw [(hother d' hdc').2] at hd'
        cases hd
        exact absurd rfl (hne d' _ lvl'' hd')
    · rw [(hother d hdc).2] at hd
      by_cases hdc' : d' = c
      · rw [hdc', hcur] at hd'
        cases hd'
        exact absurd rfl (hne d _ lvl' hd)
      · rw [(hother d' hdc').2] at hd'
        exact h.one d d' q lvl' lvl'' hd hd'
  · rw [hchild] at hq
    have he := h.forks.embryo q np hq
    have hnp : np ≠ p := fun heq => by
      rw [heq, hr] at he
      cases he
    rw [hrest np hnp]
    exact he
  · rw [hchild] at hq hq'
    exact h.forks.apart q q' np hq hq'

theorem Seated.loop {l : List Slot} (h : Seated (s.setAt c .idle)) : Seated (s.loop c l) := by
  rw [Sys.loop]
  rcases hscan : scan s.ticks l s.ptable s.queue with ⟨r, T, Q⟩
  rcases scan_cases hscan with ⟨rfl, hq⟩ | ⟨p, T₁, rfl, hq, hr, rfl⟩
  · exact h.quiet (.of_eq rfl) hq
  · have h₁ : Seated (Sys.setAt { s with ptable := T₁ } c .idle) := h.quiet (.of_eq rfl) hq
    refine h₁.start (c := c) hr (s.ptable p).priority rfl ?_
    simp only [Sys.setAt, Sys.setCpu, Function.update_idem]

theorem boot_seated (n : Nat) : Seated (boot n) where
  on _ _ _ h := by
    rw [Sys.current] at h
    cases h
  one _ _ _ _ _ h := by
    rw [Sys.current] at h
    cases h
  forks := ⟨fun _ _ h => (nomatch h), fun _ _ _ h => (nomatch h)⟩

/-! ## The steps -/

/-- What a step of CPU `c` keeps, up to the loop. -/
def ActSeated (c : Fin n) : Act n → Prop
  | .stay t => Seated t ∨ Stuck t
  | .loop t c' _ => c' = c ∧ Seated (t.setAt c .idle)

theorem sched_seated (h : Seated s) (hon : s.current c = some (p, lvl)) (hcpu : SameCpus s t)
    (hl : Left p s.ptable t.ptable) : ActSeated c (t.sched c p lvl) :=
  ⟨rfl, h.leave hon ⟨hcpu.proc, hcpu.current⟩ (hl.quiet (quiet_back lvl p t.ptable t.queue))⟩

theorem exit_seated (h : Seated s) (hon : s.current c = some (p, lvl)) (ha : s.exit c p lvl = some a) :
    ActSeated c a := by
  rw [Sys.exit] at ha
  split at ha
  · cases ha
  · obtain rfl := Option.some.inj ha
    exact sched_seated h hon (.of_eq rfl) (((quiet_wakeParent p _).trans (quiet_abandon p _)).left
      (h.on c p lvl hon).2 (by simp) rfl)

theorem trapExit_seated (h : Seated s) (ha : s.trapExit c = some a) : ActSeated c a := by
  obtain ⟨⟨p, lvl⟩, hcur, ha⟩ := Option.bind_eq_some_iff.mp ha
  simp only at ha
  split at ha
  · exact exit_seated h hcur ha
  · cases ha

theorem yield_seated {user : Bool} (h : Seated s) (ha : s.yield c user = some a) : ActSeated c a := by
  obtain ⟨q, hproc, rfl⟩ := Option.map_eq_some_iff.mp ha
  simp only
  split
  · rename_i p lvl hon
    have hcur := current_of_on hon
    obtain ⟨hp, hrun⟩ := h.on c p lvl hcur
    obtain rfl := Option.some.inj (hp.symm.trans hproc)
    have hleft : Left p s.ptable (s.ptable.setState p .runnable) :=
      (Quiet.refl _).left hrun (by simp) rfl
    exact sched_seated h hcur (.of_eq rfl) (hleft.quiet (Quiet.update rfl rfl))
  · exact .inr ⟨c, rfl, by simp [Sys.setAt, Sys.setCpu]⟩

theorem waitLoop_seated (h : Seated s) (hon : s.current c = some (p, lvl)) :
    ActSeated c (s.waitLoop c p lvl) := by
  rw [Sys.waitLoop]
  split
  · rename_i q hq
    have hz := List.find?_some hq
    simp only [decide_eq_true_eq] at hz
    have hreap : Seated (s.setProc q { s.ptable q with
        state := .unused, pid := 0, parent := none, killed := false }) :=
      h.quiet (.of_eq rfl) (quiet_reap hz.2 rfl rfl)
    exact .inl (hreap.quiet (.of_eq rfl) (setPc_quiet _ p _))
  · split
    · exact .inl (h.quiet (.of_eq rfl) (setPc_quiet s p _))
    · exact sched_seated h hon (.of_eq rfl) ((Quiet.refl _).left (h.on c p lvl hon).2 (by simp) rfl)

theorem resume_seated (h : Seated s) (hon : s.current c = some (p, lvl)) (r : Resume) :
    ActSeated c (s.resume c p lvl r) := by
  cases r with
  | forkret => exact .inl (h.quiet (.of_eq rfl) (setPc_quiet s p _))
  | yielded user => exact .inl (h.quiet (.of_eq rfl) (setPc_quiet s p _))
  | slept => exact .inl (h.quiet (.of_eq rfl) (setProc_quiet rfl rfl))
  | waited =>
      have hchan : Seated (s.setProc p { s.ptable p with chan := none }) :=
        h.quiet (.of_eq rfl) (setProc_quiet rfl rfl)
      exact waitLoop_seated hchan hon

theorem stage_seated {user : Bool} {stage : Option Stage} (h : Seated s) :
    ActSeated c (.stay (s.setStage c user stage)) :=
  .inl (h.quiet (setStage_same s c user stage) (setStage_quiet s c user stage))

theorem trap_seated {user : Bool} {st : Stage} (h : Seated s) (ha : s.trap c user st = some a) :
    ActSeated c a := by
  cases st with
  | tick =>
      rw [Sys.trap] at ha
      split at ha
      · split at ha
        · cases ha
          exact stage_seated (h.quiet (.of_eq rfl) (quiet_wakeup1 .ticks s.ptable))
        · cases ha
      · cases ha
        exact stage_seated h
  | check =>
      rw [Sys.trap] at ha
      split at ha
      · exact trapExit_seated h ha
      · split at ha
        · cases ha
          exact stage_seated h
        · cases ha
          exact stage_seated h
  | yield =>
      rw [Sys.trap] at ha
      split at ha
      · exact yield_seated h ha
      · cases ha
  | bump =>
      rw [Sys.trap] at ha
      split at ha
      · split at ha
        · cases ha
          exact stage_seated (h.quiet (.of_eq rfl) (quiet_bumpPriority s.ptable s.queue))
        · cases ha
      · cases ha
        exact stage_seated h
  | last =>
      rw [Sys.trap] at ha
      split at ha
      · exact trapExit_seated h ha
      · cases ha
        exact stage_seated h

theorem caller_current (h : s.caller c = some (p, lvl)) : s.current c = some (p, lvl) :=
  (Option.filter_eq_some_iff.mp h).1

theorem syscaller_current (h : s.syscaller c = some (p, lvl)) : s.current c = some (p, lvl) :=
  caller_current (Option.filter_eq_some_iff.mp h).1

theorem act_seated (h : Seated s) (ha : s.act e = some a) : ActSeated e.cpu a := by
  cases e with
  | pass c =>
      have ha := whenFree_some ha
      split at ha
      · rename_i hidle
        cases ha
        have hnone : s.current c = none := current_none fun p lvl => hidle ▸ nofun
        exact ⟨rfl, h.quiet (.setAt hnone nofun) (Quiet.refl _)⟩
      · cases ha
  | timer c user =>
      rw [Sys.act] at ha
      split at ha
      · cases ha
        exact stage_seated h
      · cases ha
  | trap c =>
      obtain ⟨⟨user, st⟩, -, ha⟩ := Option.bind_eq_some_iff.mp ha
      exact trap_seated h ha
  | resume c =>
      obtain ⟨⟨p, lvl⟩, hcur, ha⟩ := Option.bind_eq_some_iff.mp ha
      simp only at ha
      split at ha
      · split at ha
        · cases ha
          exact resume_seated h hcur _
        · cases ha
      · cases ha
  | sleep c chan =>
      obtain ⟨⟨p, lvl⟩, hcur, ha⟩ := Option.bind_eq_some_iff.mp (whenFree_some ha)
      simp only at ha
      split at ha
      · cases ha
      · cases ha
        have hcur := syscaller_current hcur
        exact sched_seated h hcur (.of_eq rfl)
          ((Quiet.refl _).left (h.on c p lvl hcur).2 (by simp) rfl)
  | wakeup c chan =>
      have ha := whenFree_some ha
      split at ha
      · cases ha
        exact .inl (h.quiet (.of_eq rfl) (quiet_wakeup1 chan s.ptable))
      · cases ha
  | kill c pid =>
      obtain ⟨_, -, rfl⟩ := Option.map_eq_some_iff.mp (whenFree_some ha)
      exact .inl (h.quiet (.of_eq rfl) (quiet_kill pid s.ptable))
  | exit c =>
      obtain ⟨⟨p, lvl⟩, hcur, ha⟩ := Option.bind_eq_some_iff.mp (whenFree_some ha)
      exact exit_seated h (syscaller_current hcur) ha
  | wait c =>
      obtain ⟨⟨p, lvl⟩, hcur, rfl⟩ := Option.map_eq_some_iff.mp (whenFree_some ha)
      exact waitLoop_seated h (syscaller_current hcur)
  | fork c =>
      obtain ⟨⟨p, lvl⟩, hcur, rfl⟩ := Option.map_eq_some_iff.mp (whenFree_some ha)
      obtain ⟨hrunning, hforks⟩ := fork_table h.forks (h.on c p lvl (syscaller_current hcur)).2
      exact .inl (h.same (.of_eq (fork_cpu s p)) hrunning hforks)
  | publish c ok =>
      obtain ⟨⟨p, lvl⟩, hcur, ha⟩ := Option.bind_eq_some_iff.mp ha
      simp only at ha
      split at ha
      · rename_i np hch
        cases ha
        obtain ⟨hrunning, hforks⟩ := publish_table h.forks (h.on c p lvl (caller_current hcur)).2 hch
        exact .inl (h.same (.of_eq (publish_cpu s p np ok)) hrunning hforks)
      · cases ha
  | reset c =>
      obtain ⟨⟨p, lvl⟩, hcur, ha⟩ := Option.bind_eq_some_iff.mp ha
      simp only at ha
      split at ha
      · rename_i np _
        cases ha
        exact .inl (h.quiet (.of_eq rfl) (reset_quiet s p np))
      · cases ha

end

end Cs537.Mlfq
