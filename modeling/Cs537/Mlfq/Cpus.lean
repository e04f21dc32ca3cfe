/-
# `Cs537.Mlfq.Cpus` — one CPU for each running process

`scheduler` does not clear `proc` when a process comes back, so an idle CPU
goes on pointing to it.  As long as no other CPU is switched to a process that
an idle one still points to, a `RUNNING` process is `proc` of one CPU, the one
that runs on its stack, and the `yield` of `trap` is about this process.
-/
import Cs537.Mlfq.System

namespace Cs537.Mlfq

open Cs537.Lib

/-! ## What the functions do to the states of processes -/

section Tables

variable {T T' T'' : Table} {Q : Queue} {now : BitVec 32} {p q : Slot} {l : List Slot}

/-- Nothing starts or stops running, and no `fork` begins. -/
structure Quiet (T T' : Table) : Prop where
  running : ∀ p, (T' p).state = .running ↔ (T p).state = .running
  embryo : ∀ p, (T p).state = .embryo → (T' p).state = .embryo
  child : ∀ p np, (T' p).child = some (np, false) → (T p).child = some (np, false)

theorem Quiet.refl (T : Table) : Quiet T T := ⟨fun _ => Iff.rfl, fun _ => id, fun _ _ => id⟩

theorem Quiet.trans (h : Quiet T T') (h' : Quiet T' T'') : Quiet T T'' where
  running p := (h'.running p).trans (h.running p)
  embryo p he := h'.embryo p (h.embryo p he)
  child p np hc := h.child p np (h'.child p np hc)

/-- One process changes, and keeps its state. -/
theorem Quiet.update {x : Proc} (hs : x.state = (T p).state) (hc : x.child = (T p).child) :
    Quiet T (Function.update T p x) := by
  have hkeep : ∀ q, (Function.update T p x q).state = (T q).state ∧
      (Function.update T p x q).child = (T q).child := fun q => by
    by_cases hq : q = p
    · rw [hq, Function.update_self]
      exact ⟨hs, hc⟩
    · rw [Function.update_of_ne hq]
      exact ⟨rfl, rfl⟩
  exact ⟨fun q => by rw [(hkeep q).1], fun q he => by rwa [(hkeep q).1],
    fun q np hq => by rwa [(hkeep q).2] at hq⟩

/-- A `fork` ends. -/
theorem Quiet.drop {x : Proc} (hs : x.state = (T p).state) (hc : ∀ np, x.child ≠ some (np, false)) :
    Quiet T (Function.update T p x) := by
  refine ⟨fun q => ?_, fun q he => ?_, fun q np hch => ?_⟩
  · by_cases hq : q = p
    · rw [hq, Function.update_self, hs]
    · rw [Function.update_of_ne hq]
  · by_cases hq : q = p
    · rw [hq, Function.update_self, hs, ← hq]
      exact he
    · rwa [Function.update_of_ne hq]
  · by_cases hq : q = p
    · rw [hq, Function.update_self] at hch
      exact absurd hch (hc np)
    · rwa [Function.update_of_ne hq] at hch

theorem quiet_wakeup1 (chan : Chan) (T : Table) : Quiet T (wakeup1 chan T) := by
  refine ⟨fun p => ?_, fun p he => ?_, fun p np hc => ?_⟩
  · rw [wakeup1]
    split
    · rename_i h
      simp [h.1]
    · exact Iff.rfl
  · rw [wakeup1, if_neg (by simp [he])]
    exact he
  · rw [wakeup1] at hc
    split at hc
    · exact hc
    · exact hc

theorem quiet_wakeParent (p : Slot) (T : Table) : Quiet T (wakeParent p T) := by
  rw [wakeParent]
  split
  · exact quiet_wakeup1 _ T
  · exact Quiet.refl T

theorem quiet_abandon (p : Slot) (T : Table) : Quiet T (abandon p T) := by
  have hparent : ∀ q, (if (T q).parent = some p then { T q with parent := some initproc } else T q).state
      = (T q).state ∧ (if (T q).parent = some p then { T q with parent := some initproc } else T q).child
      = (T q).child := fun q => by
    split
    · exact ⟨rfl, rfl⟩
    · exact ⟨rfl, rfl⟩
  have hquiet : Quiet T fun q => if (T q).parent = some p then { T q with parent := some initproc } else T q :=
    ⟨fun q => by rw [(hparent q).1], fun q he => by rwa [(hparent q).1],
      fun q np hc => by rwa [(hparent q).2] at hc⟩
  rw [abandon]
  split
  · exact hquiet.trans (quiet_wakeup1 _ _)
  · exact hquiet

theorem quiet_kill (pid : Int) (T : Table) : Quiet T (kill pid T) := by
  rw [kill]
  split
  · exact Quiet.refl T
  · rename_i p _
    by_cases hs : (T p).state = .sleeping
    · simp only [hs, if_true]
      refine ⟨fun q => ?_, fun q he => ?_, fun q np hc => ?_⟩
      · by_cases hq : q = p
        · simp [hq, hs]
        · rw [Function.update_of_ne hq]
      · have hq : q ≠ p := fun hq => by simp [hq, hs] at he
        rwa [Function.update_of_ne hq]
      · by_cases hq : q = p
        · subst hq
          rwa [Function.update_self] at hc
        · rwa [Function.update_of_ne hq] at hc
    · simp only [hs, if_false]
      exact Quiet.update rfl rfl

theorem bump_keeps (p : Proc) : (bump p).1.state = p.state ∧ (bump p).1.child = p.child := by
  rw [bump]
  split
  · exact ⟨rfl, rfl⟩
  · split
    · split
      · exact ⟨rfl, rfl⟩
      · exact ⟨rfl, rfl⟩
    · exact ⟨rfl, rfl⟩

theorem quiet_bumpPriority (T : Table) (Q : Queue) : Quiet T (bumpPriority T Q).1 := by
  refine ⟨fun p => ?_, fun p he => ?_, fun p np hc => ?_⟩
  · exact (bump_keeps (T p)).1 ▸ Iff.rfl
  · exact (bump_keeps (T p)).1.trans he
  · exact (bump_keeps (T p)).2.symm.trans hc

theorem quiet_back (lvl : Nat) (p : Slot) (T : Table) (Q : Queue) : Quiet T (back lvl p T Q).1 := by
  rw [back]
  split
  · split
    · exact Quiet.update rfl rfl
    · exact Quiet.update rfl rfl
  · exact Quiet.update rfl rfl

theorem quiet_demote (T : Table) (p : Slot) (lvl : Nat) : Quiet T (T.demote p lvl) :=
  Quiet.update rfl rfl

/-- The loop body. -/
theorem visit_cases {b : Bool} {Q' : Queue} (h : visit now T Q p = (b, T', Q')) :
    (b = false ∧ Quiet T T') ∨ (b = true ∧ (T p).state = .runnable ∧ T' = T.start now p) := by
  rw [visit] at h
  split at h
  · cases h
    exact .inl ⟨rfl, Quiet.refl T⟩
  · rename_i hr
    have hr := not_not.mp hr
    have hlevel : ∀ lvl, visitLevel now lvl T Q p = (b, T', Q') →
        (b = false ∧ Quiet T T') ∨ (b = true ∧ (T p).state = .runnable ∧ T' = T.start now p) :=
      fun lvl h => by
        rw [visitLevel] at h
        split at h
        · cases h
          exact .inl ⟨rfl, quiet_demote T p (lvl + 1)⟩
        · cases h
          exact .inr ⟨rfl, hr, rfl⟩
    split at h
    · exact hlevel 0 h
    · exact hlevel 1 h
    · exact hlevel 2 h
    · simp only [visitLast] at h
      split at h
      · cases h
        exact .inr ⟨rfl, hr, rfl⟩
      · cases h
        exact .inl ⟨rfl, Quiet.refl T⟩
    · cases h
      exact .inl ⟨rfl, Quiet.refl T⟩

/-- The loop: at most the process that it switches to begins to run. -/
theorem scan_cases {r : Option Slot} {Q' : Queue} (h : scan now l T Q = (r, T', Q')) :
    (r = none ∧ Quiet T T') ∨
      ∃ p T₁, r = some p ∧ Quiet T T₁ ∧ (T₁ p).state = .runnable ∧ T' = T₁.start now p := by
  induction l generalizing T Q with
  | nil =>
      cases h
      exact .inl ⟨rfl, Quiet.refl _⟩
  | cons p l ih =>
      rcases hv : visit now T Q p with ⟨b, T₁, Q₁⟩
      rw [scan, hv] at h
      rcases visit_cases hv with ⟨rfl, hq⟩ | ⟨rfl, hr, rfl⟩
      · rcases ih h with ⟨hn, hq'⟩ | ⟨j, T₂, hj, hq', hr, ht⟩
        · exact .inl ⟨hn, hq.trans hq'⟩
        · exact .inr ⟨j, T₂, hj, hq.trans hq', hr, ht⟩
      · cases h
        exact .inr ⟨p, T, rfl, Quiet.refl T, hr, rfl⟩

/-- A `fork` that has begun has a child of its own, which nothing else touches. -/
structure Forks (T : Table) : Prop where
  embryo : ∀ p np, (T p).child = some (np, false) → (T np).state = .embryo
  apart : ∀ p q np, (T p).child = some (np, false) → (T q).child = some (np, false) → p = q

theorem Forks.quiet (h : Forks T) (hq : Quiet T T') : Forks T' where
  embryo p np hc := hq.embryo np (h.embryo p np (hq.child p np hc))
  apart p q np hp hq' := h.apart p q np (hq.child p np hp) (hq.child q np hq')

/-- `p` stops running. -/
structure Left (p : Slot) (T T' : Table) : Prop where
  running : ∀ q, (T' q).state = .running ↔ q ≠ p ∧ (T q).state = .running
  embryo : ∀ q, (T q).state = .embryo → (T' q).state = .embryo
  child : ∀ q np, (T' q).child = some (np, false) → (T q).child = some (np, false)

theorem Left.quiet (h : Left p T T') (hq : Quiet T' T'') : Left p T T'' where
  running q := (hq.running q).trans (h.running q)
  embryo q he := hq.embryo q (h.embryo q he)
  child q np hc := h.child q np (hq.child q np hc)

theorem Forks.left (h : Forks T) (hl : Left p T T') : Forks T' where
  embryo q np hc := hl.embryo np (h.embryo q np (hl.child q np hc))
  apart q q' np hq hq' := h.apart q q' np (hl.child q np hq) (hl.child q' np hq')

theorem Quiet.left {x : Proc} (hq : Quiet T T') (hp : (T p).state = .running)
    (hs : x.state ≠ .running) (hc : x.child = (T' p).child) : Left p T (Function.update T' p x) := by
  refine ⟨fun q => ?_, fun q he => ?_, fun q np hch => ?_⟩
  · by_cases hqp : q = p
    · subst hqp
      rw [Function.update_self]
      exact iff_of_false hs fun hn => hn.1 rfl
    · rw [Function.update_of_ne hqp, hq.running q]
      exact (and_iff_right hqp).symm
  · have hqp : q ≠ p := fun hqp => by
      rw [hqp, hp] at he
      cases he
    rw [Function.update_of_ne hqp]
    exact hq.embryo q he
  · by_cases hqp : q = p
    · subst hqp
      rw [Function.update_self, hc] at hch
      exact hq.child q np hch
    · rw [Function.update_of_ne hqp] at hch
      exact hq.child q np hch

/-- Of two processes that are written, one runs as before and the other does not. -/
theorem running_pair {np : Slot} {x y : Proc} (hrun : (T p).state = .running)
    (hys : y.state = .running) (hnot : (T np).state ≠ .running) (hx : x.state ≠ .running) (q : Slot) :
    (Function.update (Function.update T np x) p y q).state = .running ↔ (T q).state = .running := by
  by_cases hqp : q = p
  · rw [hqp, Function.update_self, hys, hrun]
  rw [Function.update_of_ne hqp]
  by_cases hqnp : q = np
  · rw [hqnp, Function.update_self]
    exact iff_of_false hx hnot
  · rw [Function.update_of_ne hqnp]

/-- `p` reserves the slot `np` for a child. -/
theorem Forks.reserve {np : Slot} {x y : Proc} (h : Forks T) (hrun : (T p).state = .running)
    (hunused : (T np).state = .unused) (hx : x.state = .embryo) (hxc : ∀ q, x.child ≠ some (q, false))
    (hyc : y.child = some (np, false)) : Forks (Function.update (Function.update T np x) p y) := by
  have hne : p ≠ np := fun he => by
    rw [he, hunused] at hrun
    cases hrun
  have hp : Function.update (Function.update T np x) p y p = y := Function.update_self ..
  have hnp : Function.update (Function.update T np x) p y np = x := by
    rw [Function.update_of_ne hne.symm, Function.update_self]
  have hrest : ∀ q, q ≠ p → q ≠ np → Function.update (Function.update T np x) p y q = T q :=
    fun q hqp hqnp => by rw [Function.update_of_ne hqp, Function.update_of_ne hqnp]
  have hchild : ∀ q m, (Function.update (Function.update T np x) p y q).child = some (m, false) →
      (q = p ∧ m = np) ∨ (q ≠ p ∧ m ≠ np ∧ (T q).child = some (m, false)) := fun q m hq => by
    by_cases hqp : q = p
    · rw [hqp, hp, hyc] at hq
      cases hq
      exact .inl ⟨hqp, rfl⟩
    · have hqnp : q ≠ np := fun he => by
        rw [he, hnp] at hq
        exact hxc m hq
      rw [hrest q hqp hqnp] at hq
      refine .inr ⟨hqp, fun he => ?_, hq⟩
      have hem := h.embryo q m hq
      rw [he, hunused] at hem
      cases hem
  refine ⟨fun q m hq => ?_, fun q q' m hq hq' => ?_⟩
  · rcases hchild q m hq with ⟨-, rfl⟩ | ⟨-, hm, hq⟩
    · rw [hnp, hx]
    · have hmp : m ≠ p := fun he => by
        have hem := h.embryo q m hq
        rw [he, hrun] at hem
        cases hem
      rw [hrest m hmp hm]
      exact h.embryo q m hq
  · rcases hchild q m hq with ⟨rfl, hm⟩ | ⟨-, hm, hq⟩
    · rcases hchild q' m hq' with ⟨rfl, -⟩ | ⟨-, hm', -⟩
      · rfl
      · exact absurd hm hm'
    · rcases hchild q' m hq' with ⟨-, hm'⟩ | ⟨-, -, hq'⟩
      · exact absurd hm' hm
      · exact h.apart q q' m hq hq'

/-- The child `np` of `p` stops being an embryo. -/
theorem Forks.release {np : Slot} {x y : Proc} (h : Forks T) (hrun : (T p).state = .running)
    (hch : (T p).child = some (np, false)) (hxc : x.child = (T np).child)
    (hyc : ∀ q, y.child ≠ some (q, false)) :
    Forks (Function.update (Function.update T np x) p y) := by
  have hne : p ≠ np := fun he => by
    have hem := h.embryo p np hch
    rw [← he, hrun] at hem
    cases hem
  have hchild : ∀ q m, (Function.update (Function.update T np x) p y q).child = some (m, false) →
      q ≠ p ∧ (T q).child = some (m, false) := fun q m hq => by
    by_cases hqp : q = p
    · rw [hqp, Function.update_self] at hq
      exact absurd hq (hyc m)
    · rw [Function.update_of_ne hqp] at hq
      by_cases hqnp : q = np
      · rw [hqnp, Function.update_self, hxc, ← hqnp] at hq
        exact ⟨hqp, hq⟩
      · rw [Function.update_of_ne hqnp] at hq
        exact ⟨hqp, hq⟩
  refine ⟨fun q m hq => ?_, fun q q' m hq hq' => ?_⟩
  · obtain ⟨hqp, hq⟩ := hchild q m hq
    have hm := h.embryo q m hq
    have hmp : m ≠ p := fun he => by
      rw [he, hrun] at hm
      cases hm
    have hmnp : m ≠ np := fun he => hqp (h.apart q p np (he ▸ hq) hch)
    rw [Function.update_of_ne hmp, Function.update_of_ne hmnp]
    exact hm
  · exact h.apart q q' m (hchild q m hq).2 (hchild q' m hq').2

end Tables

/-! ## One CPU for a running process -/

section

variable {n : Nat}

/-- A running process is `proc` of one CPU. -/
def OneCpu (s : Sys n) : Prop :=
  ∀ p, (s.ptable p).state = .running → ∃! c, (s.cpu c).proc = some p

instance (s : Sys n) : Decidable (OneCpu s) :=
  inferInstanceAs (Decidable (∀ p, _ → ∃ c, (s.cpu c).proc = some p ∧
    ∀ c', (s.cpu c').proc = some p → c' = c))

/-- `yield`, called from `trap`, is about the process on whose stack it runs. -/
def YieldsOwn (s : Sys n) : Event n → Prop
  | .trap c => (s.stage c).map Prod.snd = some .yield → (s.cpu c).proc = (s.current c).map Prod.fst
  | _ => True

/-- The step ends with `scheduler` switching its CPU to `p`. -/
def Switches (e : Event n) (t : Sys n) (p : Slot) : Prop :=
  t.lock = some e.cpu ∧ (t.current e.cpu).map Prod.fst = some p

/-- `scheduler` does not switch to a process that another CPU points to. -/
def NoStale (s : Sys n) (e : Event n) : Prop :=
  ∀ t p, s.step e = some t → Switches e t p → ∀ c, c ≠ e.cpu → (s.cpu c).proc ≠ some p

/-! ## The invariant -/

structure CpuInv (s : Sys n) : Prop where
  on : ∀ c p lvl, (s.cpu c).stack = .on p lvl →
    (s.cpu c).proc = some p ∧ (s.ptable p).state = .running
  running : ∀ p, (s.ptable p).state = .running → ∃ c lvl, (s.cpu c).stack = .on p lvl
  only : ∀ c c' p, (s.ptable p).state = .running → (s.cpu c).proc = some p →
    (s.cpu c').proc = some p → c = c'
  calm : ∀ c, (s.cpu c).stack ≠ .wild ∧ (s.cpu c).stack ≠ .idleTrap .yield
  embryo : ∀ p np, (s.ptable p).child = some (np, false) → (s.ptable np).state = .embryo
  apart : ∀ p q np, (s.ptable p).child = some (np, false) → (s.ptable q).child = some (np, false) →
    p = q

theorem CpuInv.oneCpu {s : Sys n} (h : CpuInv s) : OneCpu s := fun p hp => by
  obtain ⟨c, lvl, hc⟩ := h.running p hp
  exact ⟨c, (h.on c p lvl hc).1, fun c' hc' => h.only c' c p hp hc' (h.on c p lvl hc).1⟩

theorem CpuInv.yieldsOwn {s : Sys n} (h : CpuInv s) (e : Event n) : YieldsOwn s e := by
  cases e with
  | trap c =>
      intro hst
      rw [Sys.current]
      split
      · rename_i hon
        exact (h.on c _ _ hon).1
      · rename_i hno
        rw [Sys.stage] at hst
        split at hst
        · rename_i hon
          exact absurd hon (hno _ _)
        · rename_i hidle
          cases hst
          exact absurd hidle (h.calm c).2
        · cases hst
  | _ => trivial

theorem boot_cpuInv (n : Nat) : CpuInv (boot n) where
  on _ _ _ h := nomatch h
  running p h := by
    simp only [boot] at h
    split at h <;> cases h
  only _ _ _ _ h := nomatch h
  calm _ := ⟨nofun, nofun⟩
  embryo _ _ h := nomatch h
  apart _ _ _ h := nomatch h

/-! ## The rules -/

variable {s t : Sys n} {c : Fin n} {p : Slot} {lvl : Nat} {T T' T'' : Table}

theorem CpuInv.forks (h : CpuInv s) : Forks s.ptable := ⟨h.embryo, h.apart⟩

/-- The CPUs and the running processes stay as they are. -/
theorem CpuInv.same (h : CpuInv s) (hcpu : t.cpu = s.cpu)
    (hrunning : ∀ q, (t.ptable q).state = .running ↔ (s.ptable q).state = .running)
    (hforks : Forks t.ptable) : CpuInv t where
  on c p lvl hc := by
    rw [hcpu] at hc ⊢
    exact ⟨(h.on c p lvl hc).1, (hrunning p).mpr (h.on c p lvl hc).2⟩
  running p hp := by
    rw [hcpu]
    exact h.running p ((hrunning p).mp hp)
  only c c' p hp hc hc' := by
    rw [hcpu] at hc hc'
    exact h.only c c' p ((hrunning p).mp hp) hc hc'
  calm c := by
    rw [hcpu]
    exact h.calm c
  embryo := hforks.embryo
  apart := hforks.apart

theorem CpuInv.quiet (h : CpuInv s) (hq : Quiet s.ptable t.ptable) (hcpu : t.cpu = s.cpu) :
    CpuInv t :=
  h.same hcpu hq.running (h.forks.quiet hq)

theorem CpuInv.leave (h : CpuInv s) (hon : (s.cpu c).stack = .on p lvl)
    (hl : Left p s.ptable t.ptable) (hcpu : t.cpu = s.cpu) : CpuInv (t.setAt c .idle) := by
  have hself : ((t.setAt c .idle).cpu c).stack = .idle := by simp [Sys.setAt, Sys.setCpu]
  have hother : ∀ c', c' ≠ c → (t.setAt c .idle).cpu c' = s.cpu c' := fun c' hc' => by
    rw [Sys.setAt, Sys.setCpu, ← hcpu]
    exact Function.update_of_ne hc' ..
  have hproc : ∀ c', ((t.setAt c .idle).cpu c').proc = (s.cpu c').proc := fun c' => by
    by_cases hc' : c' = c
    · rw [hc', ← hcpu]
      simp [Sys.setAt, Sys.setCpu]
    · rw [hother c' hc']
  refine ⟨fun c' q lvl' hc' => ?_, fun q hq => ?_, fun c₁ c₂ q hq h₁ h₂ => ?_, fun c' => ?_,
    fun q np hq => ?_, fun q q' np hq hq' => ?_⟩
  · have hne : c' ≠ c := fun he => by
      rw [he, hself] at hc'
      cases hc'
    rw [hother c' hne] at hc' ⊢
    obtain ⟨hp, hrun⟩ := h.on c' q lvl' hc'
    refine ⟨hp, (hl.running q).mpr ⟨fun hqp => hne ?_, hrun⟩⟩
    subst hqp
    exact h.only c' c q hrun hp (h.on c q lvl hon).1
  · obtain ⟨hqp, hrun⟩ := (hl.running q).mp hq
    obtain ⟨c', lvl', hc'⟩ := h.running q hrun
    have hne : c' ≠ c := fun he => by
      rw [he, hon] at hc'
      cases hc'
      exact hqp rfl
    exact ⟨c', lvl', by rw [hother c' hne]; exact hc'⟩
  · rw [hproc] at h₁ h₂
    exact h.only c₁ c₂ q ((hl.running q).mp hq).2 h₁ h₂
  · by_cases hc' : c' = c
    · rw [hc', hself]
      exact ⟨nofun, nofun⟩
    · rw [hother c' hc']
      exact h.calm c'
  · exact hl.embryo np (h.embryo q np (hl.child q np hq))
  · exact h.apart q q' np (hl.child q np hq) (hl.child q' np hq')

/-- An idle CPU is switched to `p`, which no other CPU points to. -/
theorem CpuInv.start {now : BitVec 32} (h : CpuInv s) (lvl : Nat) (hidle : (s.cpu c).stack = .idle)
    (hr : (s.ptable p).state = .runnable) (hfresh : ∀ c', c' ≠ c → (s.cpu c').proc ≠ some p)
    (htable : t.ptable = s.ptable.start now p)
    (hcpu : t.cpu = Function.update s.cpu c ⟨some p, .on p lvl⟩) : CpuInv t := by
  have hself : t.cpu c = ⟨some p, .on p lvl⟩ := by rw [hcpu, Function.update_self]
  have hother : ∀ c', c' ≠ c → t.cpu c' = s.cpu c' := fun c' hc' => by
    rw [hcpu, Function.update_of_ne hc']
  have hp : (t.ptable p).state = .running ∧ (t.ptable p).child = (s.ptable p).child := by
    rw [htable, Table.start, Function.update_self]
    exact ⟨rfl, rfl⟩
  have hrest : ∀ q, q ≠ p → t.ptable q = s.ptable q := fun q hq => by
    rw [htable, Table.start, Function.update_of_ne hq]
  have hchild : ∀ q, (t.ptable q).child = (s.ptable q).child := fun q => by
    by_cases hq : q = p
    · rw [hq, hp.2]
    · rw [hrest q hq]
  refine ⟨fun c' q lvl' hc' => ?_, fun q hq => ?_, fun c₁ c₂ q hq h₁ h₂ => ?_, fun c' => ?_,
    fun q np hq => ?_, fun q q' np hq hq' => ?_⟩
  · by_cases hne : c' = c
    · rw [hne, hself] at hc' ⊢
      cases hc'
      exact ⟨rfl, hp.1⟩
    · rw [hother c' hne] at hc' ⊢
      obtain ⟨hproc, hrun⟩ := h.on c' q lvl' hc'
      have hq : q ≠ p := fun he => hfresh c' hne (he ▸ hproc)
      rw [hrest q hq]
      exact ⟨hproc, hrun⟩
  · by_cases hqp : q = p
    · exact ⟨c, lvl, by rw [hself, hqp]⟩
    · rw [hrest q hqp] at hq
      obtain ⟨c', lvl', hc'⟩ := h.running q hq
      have hne : c' ≠ c := fun he => by
        rw [he, hidle] at hc'
        cases hc'
      exact ⟨c', lvl', by rw [hother c' hne]; exact hc'⟩
  · -- no CPU but `c` points to `p`, and `c` points to `p` only
    have honly : ∀ d, (t.cpu d).proc = some q → (d = c ↔ q = p) := fun d hd => by
      constructor
      · intro hdc
        rw [hdc, hself] at hd
        exact (Option.some.inj hd).symm
      · intro hqp
        by_contra hdc
        rw [hother d hdc, hqp] at hd
        exact hfresh d hdc hd
    by_cases hqp : q = p
    · rw [(honly c₁ h₁).mpr hqp, (honly c₂ h₂).mpr hqp]
    · have hc₁ : c₁ ≠ c := fun he => hqp ((honly c₁ h₁).mp he)
      have hc₂ : c₂ ≠ c := fun he => hqp ((honly c₂ h₂).mp he)
      rw [hrest q hqp] at hq
      rw [hother c₁ hc₁] at h₁
      rw [hother c₂ hc₂] at h₂
      exact h.only c₁ c₂ q hq h₁ h₂
  · by_cases hne : c' = c
    · rw [hne, hself]
      exact ⟨nofun, nofun⟩
    · rw [hother c' hne]
      exact h.calm c'
  · rw [hchild] at hq
    have he := h.embryo q np hq
    have hnp : np ≠ p := fun heq => by
      rw [heq, hr] at he
      cases he
    rw [hrest np hnp]
    exact he
  · rw [hchild] at hq hq'
    exact h.apart q q' np hq hq'

/-- The loop of `scheduler`, on a CPU that is on its stack. -/
theorem CpuInv.loop {l : List Slot} (h : CpuInv (s.setAt c .idle))
    (hfresh : ∀ p T Q, scan s.ticks l s.ptable s.queue = (some p, T, Q) →
      ∀ c', c' ≠ c → (s.cpu c').proc ≠ some p) : CpuInv (s.loop c l) := by
  rw [Sys.loop]
  rcases hscan : scan s.ticks l s.ptable s.queue with ⟨r, T, Q⟩
  rcases scan_cases hscan with ⟨rfl, hq⟩ | ⟨p, T₁, rfl, hq, hr, rfl⟩
  · exact h.quiet hq rfl
  · have h₁ : CpuInv (Sys.setAt { s with ptable := T₁ } c .idle) := h.quiet hq rfl
    have hfresh := hfresh p _ _ hscan
    refine h₁.start (c := c) (s.ptable p).priority ?_ hr (fun c' hc' => ?_) rfl ?_
    · simp [Sys.setAt, Sys.setCpu]
    · simp only [Sys.setAt, Sys.setCpu, Function.update_of_ne hc']
      exact hfresh c' hc'
    · simp only [Sys.setAt, Sys.setCpu, Function.update_idem]

/-! ## The steps -/

/-- What a step of CPU `c` that leaves it at `a` keeps. -/
def ActInv (s : Sys n) (c : Fin n) : Act n → Prop
  | .stay t => (∀ d, (t.cpu d).proc = (s.cpu d).proc) ∧ CpuInv t
  | .loop t c' _ => c' = c ∧ (∀ d, (t.cpu d).proc = (s.cpu d).proc) ∧ CpuInv (t.setAt c .idle)

theorem sched_inv (h : CpuInv s) (hon : (s.cpu c).stack = .on p lvl)
    (hl : Left p s.ptable t.ptable) (hcpu : t.cpu = s.cpu) : ActInv s c (t.sched c p lvl) := by
  refine ⟨rfl, fun d => ?_, ?_⟩
  · exact congrArg (fun f => (f d).proc) hcpu
  · exact h.leave hon (hl.quiet (quiet_back lvl p t.ptable t.queue)) hcpu

/-- A zombie is reaped. -/
theorem quiet_reap {x : Proc} (hz : (T p).state = .zombie) (hc : x.child = (T p).child)
    (hs : x.state = .unused) : Quiet T (Function.update T p x) := by
  refine ⟨fun q => ?_, fun q he => ?_, fun q np hch => ?_⟩
  · by_cases hq : q = p
    · rw [hq, Function.update_self, hs, hz]
      exact iff_of_false nofun nofun
    · rw [Function.update_of_ne hq]
  · have hq : q ≠ p := fun hq => by
      rw [hq, hz] at he
      cases he
    rwa [Function.update_of_ne hq]
  · by_cases hq : q = p
    · subst hq
      rwa [Function.update_self, hc] at hch
    · rwa [Function.update_of_ne hq] at hch

theorem setPc_quiet (s : Sys n) (p : Slot) (pc : Pc) : Quiet s.ptable (s.setPc p pc).ptable :=
  Quiet.update rfl rfl

theorem setProc_quiet {x : Proc} (hs : x.state = (s.ptable p).state)
    (hc : x.child = (s.ptable p).child) : Quiet s.ptable (s.setProc p x).ptable :=
  Quiet.update hs hc

theorem CpuInv.setIdle (h : CpuInv s) (hc : ∀ p lvl, (s.cpu c).stack ≠ .on p lvl) {a : At}
    (ha : a = .idle ∨ ∃ st, st ≠ .yield ∧ a = .idleTrap st) : CpuInv (s.setAt c a) := by
  have hself : ((s.setAt c a).cpu c).stack = a := by simp [Sys.setAt, Sys.setCpu]
  have hother : ∀ c', c' ≠ c → (s.setAt c a).cpu c' = s.cpu c' := fun c' hc' =>
    Function.update_of_ne hc' ..
  have hproc : ∀ c', ((s.setAt c a).cpu c').proc = (s.cpu c').proc := fun c' => by
    by_cases hc' : c' = c
    · rw [hc']
      simp [Sys.setAt, Sys.setCpu]
    · rw [hother c' hc']
  have hnot : ∀ p lvl, a ≠ .on p lvl := fun p lvl he => by
    rcases ha with rfl | ⟨st, -, rfl⟩
    · cases he
    · cases he
  refine ⟨fun c' p lvl hc' => ?_, fun p hp => ?_, fun c₁ c₂ p hp h₁ h₂ => ?_, fun c' => ?_,
    h.embryo, h.apart⟩
  · have hne : c' ≠ c := fun he => hnot p lvl (by rw [← hself, ← hc', he])
    rw [hother c' hne] at hc' ⊢
    exact h.on c' p lvl hc'
  · obtain ⟨c', lvl, hc'⟩ := h.running p hp
    have hne : c' ≠ c := fun he => hc p lvl (he ▸ hc')
    exact ⟨c', lvl, by rw [hother c' hne]; exact hc'⟩
  · rw [hproc] at h₁ h₂
    exact h.only c₁ c₂ p hp h₁ h₂
  · by_cases hc' : c' = c
    · rw [hc', hself]
      rcases ha with rfl | ⟨st, hst, rfl⟩
      · exact ⟨nofun, nofun⟩
      · exact ⟨nofun, fun he => hst (At.idleTrap.inj he)⟩
    · rw [hother c' hc']
      exact h.calm c'

/-- A step of `trap` to `stage`; only a process gets to `yield`. -/
theorem CpuInv.setStage {user : Bool} {stage : Option Stage} (h : CpuInv s)
    (hst : stage = some .yield → ∃ p lvl, (s.cpu c).stack = .on p lvl) :
    CpuInv (s.setStage c user stage) := by
  unfold Sys.setStage
  split
  · exact h.quiet (setPc_quiet _ _ _) rfl
  · exact h.quiet (setPc_quiet _ _ _) rfl
  · rename_i st hno
    refine h.setIdle (fun p lvl hc => ?_) (.inr ⟨st, fun he => ?_, rfl⟩)
    · exact hno p lvl hc
    · subst he
      obtain ⟨p, lvl, hc⟩ := hst rfl
      exact hno p lvl hc
  · rename_i hno
    exact h.setIdle hno (.inl rfl)

theorem exit_inv (h : CpuInv s) (hon : (s.cpu c).stack = .on p lvl) {a : Act n}
    (ha : s.exit c p lvl = some a) : ActInv s c a := by
  rw [Sys.exit] at ha
  split at ha
  · cases ha
  · obtain rfl := Option.some.inj ha
    exact sched_inv h hon (((quiet_wakeParent p _).trans (quiet_abandon p _)).left
      (h.on c p lvl hon).2 (by simp) rfl) rfl

theorem yield_inv {user : Bool} (h : CpuInv s) (hon : (s.cpu c).stack = .on p lvl) {a : Act n}
    (ha : s.yield c user = some a) : ActInv s c a := by
  obtain ⟨hproc, hrun⟩ := h.on c p lvl hon
  rw [Sys.yield, hproc, Option.map_some] at ha
  simp only [hon, Option.some.injEq] at ha
  rw [← ha]
  have hleft : Left p s.ptable (s.ptable.setState p .runnable) :=
    (Quiet.refl _).left hrun (by simp) rfl
  exact sched_inv h hon (hleft.quiet (Quiet.update rfl rfl)) rfl

theorem waitLoop_inv (h : CpuInv s) (hon : (s.cpu c).stack = .on p lvl) :
    ActInv s c (s.waitLoop c p lvl) := by
  rw [Sys.waitLoop]
  split
  · rename_i q hq
    have hz := List.find?_some hq
    simp only [decide_eq_true_eq] at hz
    have hreap : CpuInv (s.setProc q { s.ptable q with
        state := .unused, pid := 0, parent := none, killed := false }) :=
      h.quiet (quiet_reap hz.2 rfl rfl) rfl
    exact ⟨fun _ => rfl, hreap.quiet (setPc_quiet _ p _) rfl⟩
  · split
    · exact ⟨fun _ => rfl, h.quiet (setPc_quiet s p _) rfl⟩
    · exact sched_inv h hon ((Quiet.refl _).left (h.on c p lvl hon).2 (by simp) rfl) rfl

theorem sleep_inv (h : CpuInv s) (hon : (s.cpu c).stack = .on p lvl) (chan : Chan) :
    ActInv s c (s.sleep c p lvl chan) :=
  sched_inv h hon ((Quiet.refl _).left (h.on c p lvl hon).2 (by simp) rfl) rfl

theorem resume_inv (h : CpuInv s) (hon : (s.cpu c).stack = .on p lvl) (r : Resume) :
    ActInv s c (s.resume c p lvl r) := by
  cases r with
  | forkret => exact ⟨fun _ => rfl, h.quiet (setPc_quiet s p _) rfl⟩
  | yielded user => exact ⟨fun _ => rfl, h.quiet (setPc_quiet s p _) rfl⟩
  | slept => exact ⟨fun _ => rfl, h.quiet (setProc_quiet rfl rfl) rfl⟩
  | waited =>
      have hchan : CpuInv (s.setProc p { s.ptable p with chan := none }) :=
        h.quiet (setProc_quiet rfl rfl) rfl
      exact waitLoop_inv hchan hon

/-- `fork` reserves a slot. -/
theorem fork_table (h : Forks s.ptable) (hrun : (s.ptable p).state = .running) :
    (∀ q, ((s.fork p).ptable q).state = .running ↔ (s.ptable q).state = .running) ∧
      Forks (s.fork p).ptable := by
  rw [Sys.fork, Sys.allocproc]
  split
  · rename_i h'
    split at h'
    · cases h'
      exact ⟨fun _ => Iff.rfl, h⟩
    · cases h'
  · rename_i np s' h'
    split at h'
    · cases h'
    · rename_i np' hfind
      cases h'
      have hunused := List.find?_some hfind
      simp only [decide_eq_true_eq] at hunused
      have hne : p ≠ np := fun he => by
        rw [he, hunused] at hrun
        cases hrun
      refine ⟨running_pair hrun ?_ (hunused ▸ nofun) nofun, h.reserve hrun hunused rfl nofun rfl⟩
      simp only [Sys.setProc, Function.update_of_ne hne]
      exact hrun

theorem fork_cpu (s : Sys n) (p : Slot) : (s.fork p).cpu = s.cpu := by
  rw [Sys.fork, Sys.allocproc]
  split
  · rename_i h
    split at h
    · cases h
      rfl
    · cases h
  · rename_i h
    split at h
    · cases h
    · cases h
      rfl

theorem publish_cpu (s : Sys n) (p np : Slot) (ok : Bool) : (s.publish p np ok).cpu = s.cpu := by
  cases ok with
  | true => rfl
  | false => rfl

/-- The child becomes `RUNNABLE`, or its slot free again. -/
theorem publish_table {np : Slot} {ok : Bool} (h : Forks s.ptable) (hrun : (s.ptable p).state = .running)
    (hch : (s.ptable p).child = some (np, false)) :
    (∀ q, ((s.publish p np ok).ptable q).state = .running ↔ (s.ptable q).state = .running) ∧
      Forks (s.publish p np ok).ptable := by
  have hem := h.embryo p np hch
  have hne : p ≠ np := fun he => by
    rw [← he, hrun] at hem
    cases hem
  rw [Sys.publish]
  split
  · refine ⟨running_pair hrun ?_ (hem ▸ nofun) nofun, h.release hrun hch rfl nofun⟩
    simp only [Sys.setProc, Function.update_of_ne hne]
    exact hrun
  · refine ⟨running_pair hrun ?_ (hem ▸ nofun) nofun, h.release hrun hch rfl nofun⟩
    simp only [Table.setState, Function.update_of_ne hne]
    exact hrun

theorem reset_quiet (s : Sys n) (p np : Slot) : Quiet s.ptable (s.reset p np).ptable := by
  have hinit : Quiet s.ptable (s.setProc np { s.ptable np with
      priority := 0, ticks := fun _ => 0, slice := fun _ => 0, starved := true, p3ticks := 0 }).ptable :=
    setProc_quiet rfl rfl
  exact hinit.trans (Quiet.drop rfl nofun)

theorem setStage_proc (s : Sys n) (c : Fin n) (user : Bool) (stage : Option Stage) (d : Fin n) :
    ((s.setStage c user stage).cpu d).proc = (s.cpu d).proc := by
  have hset : ∀ a, ((s.setAt c a).cpu d).proc = (s.cpu d).proc := fun a => by
    by_cases hd : d = c
    · rw [hd]
      simp [Sys.setAt, Sys.setCpu]
    · exact congrArg Cpu.proc (Function.update_of_ne hd ..)
  unfold Sys.setStage
  split
  · rfl
  · rfl
  · exact hset _
  · exact hset _

theorem stage_inv {user : Bool} {stage : Option Stage} (h : CpuInv t) (hcpu : t.cpu = s.cpu)
    (hst : stage = some .yield → ∃ p lvl, (s.cpu c).stack = .on p lvl) :
    ActInv s c (.stay (t.setStage c user stage)) :=
  ⟨fun d => by rw [setStage_proc, hcpu], h.setStage (by rwa [hcpu])⟩

theorem trapExit_inv (h : CpuInv s) {a : Act n} (ha : s.trapExit c = some a) : ActInv s c a := by
  obtain ⟨⟨p, lvl⟩, hcur, ha⟩ := Option.bind_eq_some_iff.mp ha
  rw [Sys.current] at hcur
  split at hcur
  · rename_i hon
    cases hcur
    simp only at ha
    split at ha
    · exact exit_inv h hon ha
    · cases ha
  · cases hcur

theorem trap_inv {user : Bool} {st : Stage} (h : CpuInv s) (hst : s.stage c = some (user, st))
    {a : Act n} (ha : s.trap c user st = some a) : ActInv s c a := by
  cases st with
  | tick =>
      rw [Sys.trap] at ha
      split at ha
      · split at ha
        · cases ha
          exact stage_inv (h.quiet (quiet_wakeup1 .ticks s.ptable) rfl) rfl nofun
        · cases ha
      · cases ha
        exact stage_inv h rfl nofun
  | check =>
      rw [Sys.trap] at ha
      split at ha
      · exact trapExit_inv h ha
      · split at ha
        · rename_i hrun
          cases ha
          refine stage_inv h rfl fun _ => ?_
          cases hproc : (s.cpu c).proc with
          | none =>
              rw [hproc] at hrun
              cases hrun
          | some q =>
              rw [hproc, Option.any_some, decide_eq_true_eq] at hrun
              obtain ⟨c', lvl, hon⟩ := h.running q hrun
              obtain rfl := h.only c c' q hrun hproc (h.on c' q lvl hon).1
              exact ⟨q, lvl, hon⟩
        · cases ha
          exact stage_inv h rfl nofun
  | yield =>
      rw [Sys.trap] at ha
      split at ha
      · rw [Sys.stage] at hst
        split at hst
        · rename_i hon
          exact yield_inv h hon ha
        · rename_i hidle
          cases hst
          exact absurd hidle (h.calm c).2
        · cases hst
      · cases ha
  | bump =>
      rw [Sys.trap] at ha
      split at ha
      · split at ha
        · cases ha
          exact stage_inv (h.quiet (quiet_bumpPriority s.ptable s.queue) rfl) rfl nofun
        · cases ha
      · cases ha
        exact stage_inv h rfl nofun
  | last =>
      rw [Sys.trap] at ha
      split at ha
      · exact trapExit_inv h ha
      · cases ha
        exact stage_inv h rfl nofun

theorem current_on (hcur : s.current c = some (p, lvl)) : (s.cpu c).stack = .on p lvl := by
  rw [Sys.current] at hcur
  split at hcur
  · rename_i hon
    cases hcur
    exact hon
  · cases hcur

theorem caller_on (hcur : s.caller c = some (p, lvl)) : (s.cpu c).stack = .on p lvl :=
  current_on (Option.filter_eq_some_iff.mp hcur).1

theorem syscaller_on (hcur : s.syscaller c = some (p, lvl)) : (s.cpu c).stack = .on p lvl :=
  caller_on (Option.filter_eq_some_iff.mp hcur).1

theorem act_inv {e : Event n} {a : Act n} (h : CpuInv s) (ha : s.act e = some a) :
    ActInv s e.cpu a := by
  cases e with
  | pass c =>
      have ha := whenFree_some ha
      split at ha
      · rename_i hidle
        cases ha
        refine ⟨rfl, fun _ => rfl, h.setIdle (fun p lvl hc => ?_) (.inl rfl)⟩
        exact At.noConfusion (hidle.symm.trans hc)
      · cases ha
  | timer c user =>
      rw [Sys.act] at ha
      split at ha
      · cases ha
        exact stage_inv h rfl nofun
      · cases ha
  | trap c =>
      obtain ⟨⟨user, st⟩, hst, ha⟩ := Option.bind_eq_some_iff.mp ha
      exact trap_inv h hst ha
  | resume c =>
      obtain ⟨⟨p, lvl⟩, hcur, ha⟩ := Option.bind_eq_some_iff.mp ha
      simp only at ha
      split at ha
      · split at ha
        · cases ha
          exact resume_inv h (current_on hcur) _
        · cases ha
      · cases ha
  | sleep c chan =>
      obtain ⟨⟨p, lvl⟩, hcur, ha⟩ := Option.bind_eq_some_iff.mp (whenFree_some ha)
      simp only at ha
      split at ha
      · cases ha
      · cases ha
        exact sleep_inv h (syscaller_on hcur) _
  | wakeup c chan =>
      have ha := whenFree_some ha
      split at ha
      · cases ha
        exact ⟨fun _ => rfl, h.quiet (quiet_wakeup1 chan s.ptable) rfl⟩
      · cases ha
  | kill c pid =>
      obtain ⟨_, -, rfl⟩ := Option.map_eq_some_iff.mp (whenFree_some ha)
      exact ⟨fun _ => rfl, h.quiet (quiet_kill pid s.ptable) rfl⟩
  | exit c =>
      obtain ⟨⟨p, lvl⟩, hcur, ha⟩ := Option.bind_eq_some_iff.mp (whenFree_some ha)
      exact exit_inv h (syscaller_on hcur) ha
  | wait c =>
      obtain ⟨⟨p, lvl⟩, hcur, rfl⟩ := Option.map_eq_some_iff.mp (whenFree_some ha)
      exact waitLoop_inv h (syscaller_on hcur)
  | fork c =>
      obtain ⟨⟨p, lvl⟩, hcur, rfl⟩ := Option.map_eq_some_iff.mp (whenFree_some ha)
      obtain ⟨hrunning, hforks⟩ := fork_table h.forks (h.on c p lvl (syscaller_on hcur)).2
      exact ⟨fun d => by rw [fork_cpu], h.same (fork_cpu s p) hrunning hforks⟩
  | publish c ok =>
      obtain ⟨⟨p, lvl⟩, hcur, ha⟩ := Option.bind_eq_some_iff.mp ha
      simp only at ha
      split at ha
      · rename_i np hch
        cases ha
        obtain ⟨hrunning, hforks⟩ := publish_table h.forks (h.on c p lvl (caller_on hcur)).2 hch
        exact ⟨fun d => by rw [publish_cpu], h.same (publish_cpu s p np ok) hrunning hforks⟩
      · cases ha
  | reset c =>
      obtain ⟨⟨p, lvl⟩, hcur, ha⟩ := Option.bind_eq_some_iff.mp ha
      simp only at ha
      split at ha
      · cases ha
        exact ⟨fun _ => rfl, h.quiet (reset_quiet s p _) rfl⟩
      · cases ha

theorem loop_none {l : List Slot} {Q : Queue} (h : scan s.ticks l s.ptable s.queue = (none, T, Q)) :
    s.loop c l = { s.setAt c .idle with ptable := T, queue := Q, lock := none } := by
  rw [Sys.loop, h]

theorem loop_some {l : List Slot} {Q : Queue}
    (h : scan s.ticks l s.ptable s.queue = (some p, T, Q)) :
    s.loop c l = { s.setCpu c ⟨some p, .on p (s.ptable p).priority⟩ with
      ptable := T, queue := Q, lock := some c } := by
  rw [Sys.loop, h]

/-- What the loop switches to. -/
theorem loop_switches {l : List Slot} {e : Event n} :
    Switches e (s.loop e.cpu l) p ↔ ∃ T Q, scan s.ticks l s.ptable s.queue = (some p, T, Q) := by
  rcases hscan : scan s.ticks l s.ptable s.queue with ⟨r, T, Q⟩
  cases r with
  | none =>
      rw [loop_none hscan]
      exact iff_of_false (fun h => nomatch h.1) fun ⟨_, _, h⟩ => nomatch h
  | some q =>
      rw [loop_some hscan]
      simp [Switches, Sys.current, Sys.setCpu]

/-- A step keeps the invariant if it does not switch to a process that another
CPU points to. -/
theorem step_cpuInv {e : Event n} (h : CpuInv s) (hok : NoStale s e) (ht : s.step e = some t) :
    CpuInv t := by
  obtain ⟨a, ha, rfl⟩ := Option.map_eq_some_iff.mp ht
  have hinv := act_inv h ha
  cases a with
  | stay t => exact hinv.2
  | loop t c l =>
      obtain ⟨rfl, hproc, hidle⟩ := hinv
      refine hidle.loop fun p T Q hscan c' hc' => ?_
      rw [hproc c']
      exact hok _ p ht (loop_switches.mpr ⟨T, Q, hscan⟩) c' hc'

/-- Otherwise two CPUs point to the process. -/
theorem noStale_of_oneCpu {e : Event n} (h : CpuInv s) (ht : s.step e = some t) (hone : OneCpu t) :
    NoStale s e := by
  intro t' p ht' hsw c hc hproc
  obtain rfl := Option.some.inj (ht.symm.trans ht')
  obtain ⟨a, ha, rfl⟩ := Option.map_eq_some_iff.mp ht
  have hinv := act_inv h ha
  cases a with
  | stay t =>
      obtain ⟨⟨q, lvl⟩, hcur, rfl⟩ := Option.map_eq_some_iff.mp hsw.2
      obtain ⟨hq, hrun⟩ := hinv.2.on e.cpu q lvl (current_on hcur)
      exact hc (hinv.2.only c e.cpu q hrun ((hinv.1 c).trans hproc) hq)
  | loop t c' l =>
      obtain ⟨rfl, hkeep, -⟩ := hinv
      obtain ⟨T, Q, hscan⟩ := loop_switches.mp hsw
      rcases scan_cases hscan with ⟨hn, -⟩ | ⟨q, T₁, hq, -, -, rfl⟩
      · cases hn
      · cases hq
        have hrun : ((t.loop e.cpu l).ptable p).state = .running := by
          rw [loop_some hscan]
          simp [Table.start]
        have hself : ((t.loop e.cpu l).cpu e.cpu).proc = some p := by
          rw [loop_some hscan]
          simp [Sys.setCpu]
        have hother : ((t.loop e.cpu l).cpu c).proc = some p := by
          rw [loop_some hscan]
          simp only [Sys.setCpu, Function.update_of_ne hc]
          exact (hkeep c).trans hproc
        exact hc ((hone p hrun).unique hother hself)

/-- With any number of CPUs: every running process has one CPU and every `yield`
is about its own process, just when `scheduler` never switches to a process that
another CPU still points to. -/
theorem one_cpu_run (n : Nat) (es : List (Event n)) :
    AllStates Sys.step OneCpu (boot n) es ∧ AllTried Sys.step YieldsOwn (boot n) es ↔
      AllSteps Sys.step NoStale (boot n) es := by
  have hiff : AllStates Sys.step OneCpu (boot n) es ↔ AllSteps Sys.step NoStale (boot n) es :=
    allStates_iff_allSteps (I := CpuInv) (B := fun _ _ => True) (fun _ hs => hs.oneCpu)
      (fun _ _ _ hs _ ht hone => noStale_of_oneCpu hs ht hone)
      (fun _ _ _ hs _ hok ht => step_cpuInv hs hok ht) (boot_cpuInv n) allSteps_true
  constructor
  · rintro ⟨hone, -⟩
    exact hiff.mp hone
  · intro hok
    have hinv : AllStates Sys.step CpuInv (boot n) es :=
      allStates_of_allSteps (fun _ _ _ hs hok ht => step_cpuInv hs hok ht) (boot_cpuInv n) hok
    exact ⟨hinv.mono fun _ hs => hs.oneCpu, hinv.tried fun _ e hs => hs.yieldsOwn e⟩

/-! ## Two CPUs -/

instance (s : Sys n) : (e : Event n) → Decidable (YieldsOwn s e)
  | .trap c => inferInstanceAs (Decidable ((s.stage c).map Prod.snd = some .yield →
      (s.cpu c).proc = (s.current c).map Prod.fst))
  | .pass _ | .timer _ _ | .resume _ | .sleep _ _ | .wakeup _ _ | .kill _ _ | .exit _ | .wait _
  | .fork _ | .publish _ _ | .reset _ => .isTrue trivial

/-- CPU 0 lets `init` go and is idle; CPU 1 takes it; then CPU 0 gets a timer
interrupt. -/
def staleRun : List (Event 2) :=
  [.pass 0, .resume 0, .timer 0 true, .trap 0, .trap 0, .trap 0, .pass 1, .resume 1,
    .timer 0 false, .trap 0, .trap 0, .trap 0]

theorem stale_proc : ¬ AllStates Sys.step OneCpu (boot 2) staleRun ∧
    ¬ AllTried Sys.step YieldsOwn (boot 2) staleRun := by
  decide +kernel

end

end Cs537.Mlfq
