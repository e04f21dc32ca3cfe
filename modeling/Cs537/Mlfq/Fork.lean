/-
# `Cs537.Mlfq.Fork` — the end of `fork`, one assignment after the other

`fork` makes the child `RUNNABLE` and then sets its fields, without the lock:

    np->state = RUNNABLE;
    np->priority = 0;
    np->ticks[0] = 0; … np->slice[3] = 0;
    np->starved = 1;
    np->p3ticks = 0;

In the steps of this module (`Fine.step`) each of these assignments is one step
of the parent, and anything that other CPUs and timer interrupts do may come
between two of them.  The slots hold any values at the start.

A pass of `scheduler` in between that switches to the child, or demotes it after
`priority = 0`, goes wrong: it runs with what the slot held before, and the
assignments that follow erase what it has run so far.  In a run without such a
pass (`Clear`) every child starts as `fork` wants it, and nothing is erased:
`forked_run`.
-/
import Cs537.Mlfq.P3ticks
import Cs537.Mlfq.Whole

namespace Cs537.Mlfq

open Cs537.Lib

/-! ## The assignments -/

inductive Assignment where
  | priority
  | ticks (l : Nat)
  | slice (l : Nat)
  | starved
  | p3ticks
  deriving DecidableEq

/-- The assignments after `np->state = RUNNABLE`. -/
def tail : List Assignment :=
  [.priority, .ticks 0, .ticks 1, .ticks 2, .ticks 3, .slice 0, .slice 1, .slice 2, .slice 3,
    .starved, .p3ticks]

def Proc.assign (p : Proc) : Assignment → Proc
  | .priority => { p with priority := 0 }
  | .ticks l => { p with ticks := Function.update p.ticks l 0 }
  | .slice l => { p with slice := Function.update p.slice l 0 }
  | .starved => { p with starved := true }
  | .p3ticks => { p with p3ticks := 0 }

/-- The field has the value that is assigned. -/
def Proc.Has (p : Proc) : Assignment → Prop
  | .priority => p.priority = 0
  | .ticks l => p.ticks l = 0
  | .slice l => p.slice l = 0
  | .starved => p.starved = true
  | .p3ticks => p.p3ticks = 0

/-- A dispatch at level `lvl` is counted in the field. -/
def Assignment.counts (lvl : Nat) : Assignment → Bool
  | .ticks l | .slice l => l = lvl
  | .p3ticks => lvl = 3
  | .priority | .starved => false

theorem has_assign (p : Proc) (a : Assignment) : (p.assign a).Has a := by
  cases a with
  | priority | starved | p3ticks => rfl
  | ticks l => exact Function.update_self ..
  | slice l => exact Function.update_self ..

theorem update_zero {f : Nat → BitVec 32} {l m : Nat} (h : f l = 0) : Function.update f m 0 l = 0 := by
  by_cases hlm : l = m
  · rw [hlm, Function.update_self]
  · rw [Function.update_of_ne hlm, h]

/-- An assignment does not undo another one. -/
theorem Proc.Has.assign {p : Proc} {a : Assignment} (h : p.Has a) (b : Assignment) :
    (p.assign b).Has a := by
  cases b with
  | priority =>
      cases a with
      | priority => rfl
      | ticks | slice | starved | p3ticks => exact h
  | ticks m =>
      cases a with
      | ticks l => exact update_zero h
      | priority | slice | starved | p3ticks => exact h
  | slice m =>
      cases a with
      | slice l => exact update_zero h
      | priority | ticks | starved | p3ticks => exact h
  | starved =>
      cases a with
      | starved => rfl
      | priority | ticks | slice | p3ticks => exact h
  | p3ticks =>
      cases a with
      | p3ticks => rfl
      | priority | ticks | slice | starved => exact h

section

variable {n : Nat}

/-! ## Runs -/

structure Fine (n : Nat) where
  sys : Sys n
  /-- the assignments that `fork` has yet to make to the child in a slot -/
  todo : Slot → List Assignment

inductive FineEvent (n : Nat) where
  | coarse (e : Event n)
  /-- `fork`, the next assignment -/
  | assign (c : Fin n)

/-- A step outside of the end of `fork`.  An interrupt of a process in `fork` is
one of kernel code. -/
def Sys.outside (s : Sys n) : Event n → Option (Sys n)
  | .reset _ => none
  | .timer c true =>
      if ((s.caller c).bind fun (p, _) => (s.ptable p).child).isSome then none
      else s.step (.timer c true)
  | e => s.step e

/-- The child that the step makes `RUNNABLE`. -/
def Sys.publishes (s : Sys n) : Event n → Option Slot
  | .publish c true => s.born c
  | _ => none

/-- The next assignment of `fork` on CPU `c`: the parent, the child, the
assignment and those after it. -/
def Fine.pending (x : Fine n) (c : Fin n) : Option (Slot × Slot × Assignment × List Assignment) :=
  (x.sys.caller c).bind fun (p, _) => match (x.sys.ptable p).child with
    | some (np, true) => match x.todo np with
      | a :: rest => some (p, np, a, rest)
      | [] => none
    | _ => none

/-- An assignment; after the last one `fork` is at its end. -/
def Fine.assign (x : Fine n) (p np : Slot) (a : Assignment) (rest : List Assignment) : Fine n :=
  let s := x.sys.setProc np ((x.sys.ptable np).assign a)
  ⟨if rest = [] then s.setProc p { s.ptable p with child := none } else s,
    Function.update x.todo np rest⟩

def Fine.step (x : Fine n) : FineEvent n → Option (Fine n)
  | .coarse e => (x.sys.outside e).map fun t => ⟨t, fun q =>
      if x.sys.publishes e = some q then tail else x.todo q⟩
  | .assign c => (x.pending c).map fun (p, np, a, rest) => x.assign p np a rest

/-- What a process has done since `fork` made it `RUNNABLE`. -/
inductive Life where
  /-- it was there before -/
  | old
  /-- `scheduler` has not switched to it -/
  | waiting
  /-- it has come back to `scheduler`, at these levels -/
  | ran (log : List Nat)
  deriving DecidableEq

def Life.log : Life → List Nat
  | .ran log => log
  | .old | .waiting => []

def Life.after : Life → Note → Life
  | .waiting, .dispatched => .ran []
  | .ran log, .completed lvl => .ran (lvl :: log)
  | life, _ => life

def seeLife (life : Slot → Life) (x : Fine n) : FineEvent n → Fine n → Slot → Life
  | .coarse e, _ => fun q =>
      if x.sys.publishes e = some q then .waiting else (life q).after (x.sys.note e q)
  | .assign _, _ => life

def stepLife : Fine n × (Slot → Life) → FineEvent n → Option (Fine n × (Slot → Life)) :=
  watch Fine.step seeLife

/-- `init` in slot 0, and in the fields that the other functions do not set
whatever a slot held before. -/
def begun (n : Nat) (left : Table) : Sys n :=
  { boot n with ptable := fun p => { (boot n).ptable p with
      priority := (left p).priority, ticks := (left p).ticks, starved := (left p).starved,
      ts := (left p).ts, slice := (left p).slice, p3ticks := (left p).p3ticks } }

def start (n : Nat) (left : Table) : Fine n × (Slot → Life) :=
  (⟨begun n left, fun _ => []⟩, fun _ => .old)

/-! ## The property, and the condition -/

/-- The counters of a process that has not run. -/
structure Fresh (p : Proc) : Prop where
  priority : p.priority = 0
  ticks : ∀ l < 4, p.ticks l = 0
  slice : ∀ l < 4, p.slice l = 0
  p3ticks : p.p3ticks = 0

/-- The first switch to a child is one at level 0, with all counters at zero. -/
def StartsFresh (x : Fine n × (Slot → Life)) : FineEvent n → Prop
  | .coarse e => ∀ q, x.2 q = .waiting → x.1.sys.note e q = .dispatched →
      ∀ t, x.1.sys.outside e = some t → (∃ c, t.current c = some (q, 0)) ∧ Fresh (t.ptable q)
  | .assign _ => True

/-- `fork` does not assign to a field in which a dispatch of the child is counted. -/
def ErasesNothing (x : Fine n × (Slot → Life)) : FineEvent n → Prop
  | .coarse _ => True
  | .assign c =>
      ((x.1.pending c).all fun (_, np, a, _) => (x.2 np).log.all fun lvl => !a.counts lvl) = true

instance decidableErasesNothing (x : Fine n × (Slot → Life)) (e : FineEvent n) :
    Decidable (ErasesNothing x e) :=
  match e with
  | .coarse _ => .isTrue trivial
  | .assign _ => inferInstanceAs (Decidable (_ = true))

/-- The `ticks` of a forked process count the times that it has come back. -/
def Counted (x : Fine n × (Slot → Life)) : Prop :=
  ∀ q log, x.2 q = .ran log → ∀ l < 4, (x.1.sys.ptable q).ticks l = BitVec.ofNat 32 (log.count l)

/-- The step takes process `q` a level down. -/
def Sys.demotes (s : Sys n) (e : Event n) (q : Slot) : Bool :=
  (s.step e).any fun t => (s.ptable q).priority < (t.ptable q).priority

/-- While `fork` has yet to set fields of a child, no CPU switches to it, or demotes
it after `priority = 0`. -/
def Clear (x : Fine n × (Slot → Life)) : FineEvent n → Prop
  | .coarse e => ∀ q, x.1.todo q ≠ [] → x.1.sys.note e q ≠ .dispatched ∧
      (.priority ∉ x.1.todo q → x.1.sys.demotes e q = false)
  | .assign _ => True

instance decidableClear (x : Fine n × (Slot → Life)) (e : FineEvent n) : Decidable (Clear x e) :=
  match e with
  | .coarse e => inferInstanceAs (Decidable (∀ q, x.1.todo q ≠ [] → x.1.sys.note e q ≠ .dispatched ∧
      (.priority ∉ x.1.todo q → x.1.sys.demotes e q = false)))
  | .assign _ => .isTrue trivial

variable {s t : Sys n} {c : Fin n} {p q np : Slot} {lvl : Nat} {e : Event n}

/-! ## Steps outside -/

theorem outside_step (ht : s.outside e = some t) : s.step e = some t ∧ ∀ c, e ≠ .reset c := by
  cases e with
  | reset c => cases ht
  | timer c user =>
      refine ⟨?_, fun d he => by cases he⟩
      cases user with
      | true =>
          rw [Sys.outside] at ht
          split at ht
          · cases ht
          · exact ht
      | false => exact ht
  | pass | trap | resume | sleep | wakeup | kill | exit | wait | fork | publish =>
      exact ⟨ht, fun d he => by cases he⟩

/-- A child that becomes `RUNNABLE` is on no CPU. -/
theorem publishes_off (h : Seated s) (ht : s.step e = some t) (hq : s.publishes e = some q) :
    Off t q := by
  cases e with
  | publish c ok =>
      cases ok with
      | true =>
          obtain ⟨a, ha, rfl⟩ := Option.map_eq_some_iff.mp ht
          obtain ⟨⟨p, lvl⟩, hcur, ha⟩ := Option.bind_eq_some_iff.mp ha
          simp only at ha
          split at ha
          · rename_i np hch
            cases ha
            have hborn : s.publishes (.publish c true) = some np := by
              rw [Sys.publishes, Sys.born, hcur]
              simp only [Option.bind_some, hch, Option.map_some]
            obtain rfl := Option.some.inj (hborn.symm.trans hq)
            have hoff : Off s np := h.child_off hch
            have hsame := (SameCpus.of_eq (publish_cpu s p np true)).current
            exact fun d lvl hd => hoff d lvl (hsame ▸ hd)
          · cases ha
      | false => cases hq
  | _ => cases hq

/-! ## The invariant -/

/-- A child that `scheduler` has not switched to. -/
structure New (s : Sys n) (todo : List Assignment) (q : Slot) : Prop where
  off : Off s q
  done : ∀ a ∈ tail, a ∉ todo → (s.ptable q).Has a

structure ForkInv (x : Fine n × (Slot → Life)) : Prop where
  sound : Sound x.1.sys
  todo : ∀ q, x.1.todo q ≠ [] → x.2 q = .waiting
  new : ¬ Stuck x.1.sys → ∀ q, x.2 q = .waiting → New x.1.sys (x.1.todo q) q
  counted : Counted x

theorem start_forkInv (n : Nat) (left : Table) : ForkInv (start n left) where
  sound := .inl {
    on := fun _ _ _ h => by cases h
    one := fun _ _ _ _ _ h => by cases h
    forks := ⟨fun _ _ h => (by cases h), fun _ _ _ h => (by cases h)⟩ }
  todo _ h := absurd rfl h
  new _ _ h := by cases h
  counted _ _ h := by cases h

theorem New.fresh (h : New s [] q) : Fresh (s.ptable q) where
  priority := h.done .priority (by simp [tail]) List.not_mem_nil
  ticks l hl := h.done (.ticks l) (by simp [tail]; omega) List.not_mem_nil
  slice l hl := h.done (.slice l) (by simp [tail]; omega) List.not_mem_nil
  p3ticks := h.done .p3ticks (by simp [tail]) List.not_mem_nil

theorem New.not_usedUp (h : New s [] q) : ¬ (s.ptable q).account.UsedUp := fun hused => by
  have hle : quantum (s.ptable q).priority ≤ ((s.ptable q).slice (s.ptable q).priority).toNat := hused.2
  rw [h.fresh.priority, h.fresh.slice 0 (by decide)] at hle
  exact absurd hle (by decide)

theorem waiting_after {note : Note} (h : note ≠ .dispatched) : Life.waiting.after note = .waiting := by
  cases note with
  | dispatched => exact absurd rfl h
  | nothing | completed | bumped | forked => rfl

theorem after_waiting {life : Life} {note : Note} (h : life.after note = .waiting) :
    life = .waiting ∧ note ≠ .dispatched := by
  cases life with
  | old => cases h
  | ran log => cases note <;> cases h
  | waiting =>
      refine ⟨rfl, fun hn => ?_⟩
      rw [hn] at h
      cases h

theorem after_ran {life : Life} {note : Note} {log : List Nat} (h : life.after note = .ran log) :
    (life = .ran log ∧ ∀ lvl, note ≠ .completed lvl) ∨
      (∃ lvl rest, life = .ran rest ∧ note = .completed lvl ∧ log = lvl :: rest) ∨
      (life = .waiting ∧ note = .dispatched ∧ log = []) := by
  cases life with
  | old => cases h
  | ran rest =>
      cases note with
      | completed lvl =>
          cases h
          exact .inr (.inl ⟨lvl, rest, rfl, rfl, rfl⟩)
      | nothing | dispatched | bumped | forked => exact .inl ⟨h, fun lvl => nofun⟩
  | waiting =>
      cases note with
      | dispatched =>
          cases h
          exact .inr (.inr ⟨rfl, rfl, rfl⟩)
      | nothing | completed | bumped | forked => cases h

theorem Proc.Has.keep {p q : Proc} {a : Assignment} (h : p.Has a) (hacc : q.account = p.account)
    (hp3 : q.p3ticks = p.p3ticks) : q.Has a := by
  cases a with
  | priority => exact (congrArg Account.priority hacc).trans h
  | ticks l => exact (congrFun (congrArg Account.ticks hacc) l).trans h
  | slice l => exact (congrFun (congrArg Account.slice hacc) l).trans h
  | starved => exact (congrArg Account.starved hacc).trans h
  | p3ticks => exact hp3.trans h

/-- `bump_priority` leaves what `fork` has set: at level 0 there is nothing to raise. -/
theorem Proc.Has.bump {p q : Proc} {a : Assignment} (h : p.Has a) (hacc : q.account = p.account.bump)
    (hp3 : q.p3ticks = p.p3ticks) : q.Has a := by
  rcases p.account.bump_cases with ⟨hst, hpos, -, hbump⟩ | ⟨-, hbump⟩
  · rw [hbump] at hacc
    cases a with
    | priority =>
        have hzero : p.account.priority = 0 := h
        omega
    | ticks l => exact (congrFun (congrArg Account.ticks hacc) l).trans h
    | slice l => exact (congrFun (congrArg Account.slice hacc) l).trans (update_zero h)
    | starved => exact (congrArg Account.starved hacc).trans hst
    | p3ticks => exact hp3.trans h
  · rw [hbump] at hacc
    cases a with
    | priority => exact (congrArg Account.priority hacc).trans h
    | ticks l => exact (congrFun (congrArg Account.ticks hacc) l).trans h
    | slice l => exact (congrFun (congrArg Account.slice hacc) l).trans h
    | starved => exact congrArg Account.starved hacc
    | p3ticks => exact hp3.trans h

/-- A demotion leaves all but the priority. -/
theorem Proc.Has.demote {p q : Proc} {a : Assignment} (h : p.Has a)
    (hacc : q.account = p.account.demote) (hp3 : q.p3ticks = p.p3ticks) (ha : a ≠ .priority) :
    q.Has a := by
  cases a with
  | priority => exact absurd rfl ha
  | ticks l => exact (congrFun (congrArg Account.ticks hacc) l).trans h
  | slice l => exact (congrFun (congrArg Account.slice hacc) l).trans h
  | starved => exact (congrArg Account.starved hacc).trans h
  | p3ticks => exact hp3.trans h

/-- A child keeps what `fork` has set, as long as it waits. -/
theorem New.step {todo : List Assignment} (h : New s todo q) (hs : Sound s) (ht : s.step e = some t)
    (he : ∀ c, e ≠ .reset c) (hnot : s.note e q ≠ .dispatched)
    (hdem : todo ≠ [] → .priority ∉ todo → s.demotes e q = false) : New t todo q := by
  have hp3 := step_p3ticks ht he h.off
  have hfate := fate hs ht q
  generalize hnote : s.note e q = note at hfate hnot
  cases hfate with
  | kept hacc hseat =>
      exact ⟨fun c lvl hc => h.off c lvl ((hseat c lvl).mp hc),
        fun a ha hn => (h.done a ha hn).keep hacc hp3⟩
  | demoted hoff hused hacc hoff' =>
      refine ⟨hoff', fun a ha hn => (h.done a ha hn).demote hacc hp3 ?_⟩
      rintro rfl
      by_cases htodo : todo = []
      · -- `fork` is at its end, and the slices are zero
        subst htodo
        exact h.not_usedUp hused
      · have hprio : (t.ptable q).priority = (s.ptable q).priority + 1 := congrArg Account.priority hacc
        have hno := hdem htodo hn
        rw [Sys.demotes, ht, Option.any_some, hprio] at hno
        simp at hno
  | dispatched => exact absurd rfl hnot
  | completed c lvl hon => exact absurd hon (h.off c lvl)
  | bumped hoff hacc hseat =>
      refine ⟨fun c lvl hc => h.off c lvl ((hseat c lvl).mp hc), fun a ha hn => ?_⟩
      split at hacc
      · exact (h.done a ha hn).bump hacc hp3
      · exact (h.done a ha hn).keep hacc hp3
  | forked =>
      obtain ⟨c, rfl⟩ := note_forked ht hnote
      exact absurd rfl (he c)

theorem bump_ticks (a : Account) : a.bump.ticks = a.ticks := by
  rcases a.bump_cases with ⟨-, -, -, h⟩ | ⟨-, h⟩
  · rw [h]
    rfl
  · rw [h]

/-- What a step does to `ticks`. -/
theorem Fate.ticks {note : Note} (h : Fate s t q note) (hf : note ≠ .forked) :
    (t.ptable q).ticks = (s.ptable q).ticks ∧ (∀ lvl, note ≠ .completed lvl) ∨
      ∃ lvl, note = .completed lvl ∧
        (t.ptable q).ticks = Function.update (s.ptable q).ticks lvl ((s.ptable q).ticks lvl + 1) := by
  cases h with
  | kept hacc | demoted _ _ hacc | dispatched _ _ _ _ hacc =>
      exact .inl ⟨congrArg Account.ticks hacc, fun lvl => nofun⟩
  | completed c lvl hon hone hacc => exact .inr ⟨lvl, rfl, congrArg Account.ticks hacc⟩
  | bumped hoff hacc =>
      refine .inl ⟨?_, fun lvl => nofun⟩
      split at hacc
      · exact (congrArg Account.ticks hacc).trans (bump_ticks _)
      · exact congrArg Account.ticks hacc
  | forked => exact absurd rfl hf

theorem count_update {f : Nat → BitVec 32} {log : List Nat} {lvl l : Nat}
    (h : f l = BitVec.ofNat 32 (log.count l)) :
    Function.update f lvl (f lvl + 1) l = BitVec.ofNat 32 ((lvl :: log).count l) := by
  by_cases hl : l = lvl
  · subst hl
    rw [Function.update_self, List.count_cons_self, BitVec.ofNat_add, h]
    rfl
  · rw [Function.update_of_ne hl, List.count_cons_of_ne (Ne.symm hl), h]

/-! ## The steps -/

variable {x y : Fine n × (Slot → Life)}

/-- At the first switch to a child `fork` is at its end. -/
theorem ForkInv.ready (h : ForkInv x) (hC : Clear x (.coarse e)) (ht : x.1.sys.step e = some t)
    (hwait : x.2 q = .waiting) (hnote : x.1.sys.note e q = .dispatched) : New x.1.sys [] q := by
  have hend : x.1.todo q = [] := by
    by_contra hne
    exact (hC q hne).1 hnote
  have hnew := h.new (fun hs => hs.note ht q hnote) q hwait
  rwa [hend] at hnew

/-- The count after a step, for a process that has run. -/
theorem ForkInv.counts {log : List Nat} {l : Nat} (h : ForkInv x) (hC : Clear x (.coarse e))
    (ht : x.1.sys.step e = some t) (he : ∀ c, e ≠ .reset c)
    (hq : (x.2 q).after (x.1.sys.note e q) = .ran log) (hl : l < 4) :
    (t.ptable q).ticks l = BitVec.ofNat 32 (log.count l) := by
  have hforked : x.1.sys.note e q ≠ .forked := fun hf => by
    obtain ⟨c, rfl⟩ := note_forked ht hf
    exact he c rfl
  have hfate := (fate h.sound ht q).ticks hforked
  rcases after_ran hq with ⟨hran, hnot⟩ | ⟨lvl, rest, hran, hnote, rfl⟩ | ⟨hwait, hnote, rfl⟩
  · rcases hfate with ⟨heq, -⟩ | ⟨lvl, hnote, -⟩
    · rw [heq]
      exact h.counted q log hran l hl
    · exact absurd hnote (hnot lvl)
  · rcases hfate with ⟨-, hnone⟩ | ⟨lvl', hnote', heq⟩
    · exact absurd hnote (hnone lvl)
    · obtain rfl : lvl = lvl' := Note.completed.inj (hnote.symm.trans hnote')
      rw [heq]
      exact count_update (h.counted q rest hran l hl)
  · -- the first switch, with `ticks` at zero
    have hnew := h.ready hC ht hwait hnote
    rcases hfate with ⟨heq, -⟩ | ⟨lvl, hnote', -⟩
    · rw [heq]
      exact hnew.fresh.ticks l hl
    · rw [hnote] at hnote'
      cases hnote'

theorem coarse_forkInv (h : ForkInv x) (hC : Clear x (.coarse e))
    (hy : stepLife x (.coarse e) = some y) : ForkInv y := by
  obtain ⟨hstep, hsee⟩ := watch_eq_some.mp hy
  obtain ⟨t, ht, hyt⟩ := Option.map_eq_some_iff.mp hstep
  obtain ⟨hstep, hreset⟩ := outside_step ht
  have hsys : y.1.sys = t := by rw [← hyt]
  have htodo : ∀ q, y.1.todo q = if x.1.sys.publishes e = some q then tail else x.1.todo q := by
    intro q
    rw [← hyt]
  have hlife : ∀ q, y.2 q =
      if x.1.sys.publishes e = some q then .waiting else (x.2 q).after (x.1.sys.note e q) := by
    intro q
    rw [← hsee]
    rfl
  refine ⟨by rw [hsys]; exact h.sound.step hstep, fun q hq => ?_, fun hno q hq => ?_,
    fun q log hq l hl => ?_⟩
  · rw [htodo] at hq
    rw [hlife]
    split
    · rfl
    · rename_i hpub
      rw [if_neg hpub] at hq
      rw [h.todo q hq]
      exact waiting_after (hC q hq).1
  · rw [hsys] at hno ⊢
    rw [htodo]
    rw [hlife] at hq
    have hno' : ¬ Stuck x.1.sys := fun hs => hno (hs.step hstep)
    split
    · rename_i hpub
      exact ⟨publishes_off (h.sound.resolve_right hno') hstep hpub, fun a ha hn => absurd ha hn⟩
    · rename_i hpub
      rw [if_neg hpub] at hq
      obtain ⟨hwait, hnot⟩ := after_waiting hq
      exact (h.new hno' q hwait).step h.sound hstep hreset hnot fun hne => (hC q hne).2
  · rw [hsys]
    rw [hlife] at hq
    split at hq
    · cases hq
    · exact h.counts hC hstep hreset hq hl

theorem pending_todo {x : Fine n} {p np : Slot} {a : Assignment} {rest : List Assignment}
    (h : x.pending c = some (p, np, a, rest)) : x.todo np = a :: rest := by
  obtain ⟨⟨p', lvl⟩, -, h⟩ := Option.bind_eq_some_iff.mp h
  simp only at h
  split at h
  · split at h
    · rename_i htodo
      cases h
      exact htodo
    · cases h
  · cases h

/-- What an assignment to the child `np` does. -/
structure Assigned (s t : Sys n) (np : Slot) (a : Assignment) : Prop where
  cpu : t.cpu = s.cpu
  lock : t.lock = s.lock
  quiet : Quiet s.ptable t.ptable
  self : (t.ptable np).account = ((s.ptable np).assign a).account ∧
    (t.ptable np).p3ticks = ((s.ptable np).assign a).p3ticks
  other : ∀ q, q ≠ np → (t.ptable q).account = (s.ptable q).account ∧
    (t.ptable q).p3ticks = (s.ptable q).p3ticks

theorem assigned (s : Sys n) (np : Slot) (a : Assignment) :
    Assigned s (s.setProc np ((s.ptable np).assign a)) np a where
  cpu := rfl
  lock := rfl
  quiet := by
    cases a with
    | priority | ticks | slice | starved | p3ticks => exact Quiet.update rfl rfl
  self := by
    have hself : (s.setProc np ((s.ptable np).assign a)).ptable np = (s.ptable np).assign a :=
      Function.update_self ..
    rw [hself]
    exact ⟨rfl, rfl⟩
  other q hq := by
    have hother : (s.setProc np ((s.ptable np).assign a)).ptable q = s.ptable q :=
      Function.update_of_ne hq ..
    rw [hother]
    exact ⟨rfl, rfl⟩

variable {a : Assignment} {rest : List Assignment} {x y : Fine n × (Slot → Life)}

/-- The end of `fork` leaves the fields alone. -/
theorem Assigned.drop (h : Assigned s t np a) (p : Slot) :
    Assigned s (t.setProc p { t.ptable p with child := none }) np a := by
  have hsame : SameAccounts t.ptable (t.setProc p { t.ptable p with child := none }).ptable :=
    .update rfl rfl
  refine ⟨h.cpu, h.lock, h.quiet.trans (Quiet.drop rfl nofun), ?_, fun q hq => ?_⟩
  · exact ⟨(hsame np).1.trans h.self.1, (hsame np).2.trans h.self.2⟩
  · exact ⟨(hsame q).1.trans (h.other q hq).1, (hsame q).2.trans (h.other q hq).2⟩

theorem assign_assigned (x : Fine n) (p np : Slot) (a : Assignment) (rest : List Assignment) :
    Assigned x.sys (x.assign p np a rest).sys np a := by
  rw [Fine.assign]
  simp only
  split
  · exact (assigned x.sys np a).drop p
  · exact assigned x.sys np a

theorem Assigned.stuck (ha : Assigned s t np a) (h : Stuck s) : Stuck t :=
  h.keep ha.lock fun d hd => by rwa [ha.cpu]

theorem Assigned.sound (ha : Assigned s t np a) (h : Sound s) : Sound t := by
  rcases h with h | h
  · exact .inl (h.quiet (.of_eq ha.cpu) ha.quiet)
  · exact .inr (ha.stuck h)

theorem Assigned.off (ha : Assigned s t np a) (h : Off s q) : Off t q := fun d lvl hd =>
  h d lvl ((SameCpus.of_eq ha.cpu).current ▸ hd)

/-- One more field of the child is set. -/
theorem Assigned.new (ha : Assigned s t np a) (h : New s (a :: rest) np) : New t rest np := by
  refine ⟨ha.off h.off, fun b hb hn => Proc.Has.keep ?_ ha.self.1 ha.self.2⟩
  by_cases hba : b = a
  · rw [hba]
    exact has_assign _ a
  · have hnot : b ∉ a :: rest := fun hm => (List.mem_cons.mp hm).elim hba hn
    exact (h.done b hb hnot).assign a

theorem Assigned.keep {todo : List Assignment} (ha : Assigned s t np a) (hq : q ≠ np)
    (h : New s todo q) : New t todo q :=
  ⟨ha.off h.off, fun b hb hn => (h.done b hb hn).keep (ha.other q hq).1 (ha.other q hq).2⟩

theorem assign_forkInv (h : ForkInv x) (hy : stepLife x (.assign c) = some y) : ForkInv y := by
  obtain ⟨hstep, hsee⟩ := watch_eq_some.mp hy
  obtain ⟨⟨p, np, a, rest⟩, hp, hyt⟩ := Option.map_eq_some_iff.mp hstep
  have hhead := pending_todo hp
  have hlife : y.2 = x.2 := hsee.symm
  have htodo : y.1.todo = Function.update x.1.todo np rest := hyt ▸ rfl
  have ha : Assigned x.1.sys y.1.sys np a := hyt ▸ assign_assigned x.1 p np a rest
  have hnp : x.2 np = .waiting := h.todo np (by rw [hhead]; exact nofun)
  refine ⟨ha.sound h.sound, fun q hq => ?_, fun hno q hq => ?_, fun q log hq l hl => ?_⟩
  · rw [hlife]
    by_cases hqn : q = np
    · rw [hqn]
      exact hnp
    · rw [htodo, Function.update_of_ne hqn] at hq
      exact h.todo q hq
  · rw [hlife] at hq
    have hnew := h.new (fun hs => hno (ha.stuck hs)) q hq
    rw [htodo]
    by_cases hqn : q = np
    · subst hqn
      rw [hhead] at hnew
      rw [Function.update_self]
      exact ha.new hnew
    · rw [Function.update_of_ne hqn]
      exact ha.keep hqn hnew
  · rw [hlife] at hq
    have hqn : q ≠ np := fun he => by
      rw [he, hnp] at hq
      cases hq
    have hticks : (y.1.sys.ptable q).ticks = (x.1.sys.ptable q).ticks :=
      congrArg Account.ticks (ha.other q hqn).1
    rw [hticks]
    exact h.counted q log hq l hl

theorem step_forkInv {e : FineEvent n} (h : ForkInv x) (hC : Clear x e) (hy : stepLife x e = some y) :
    ForkInv y := by
  cases e with
  | coarse e => exact coarse_forkInv h hC hy
  | assign c => exact assign_forkInv h hy

theorem ForkInv.startsFresh {e : FineEvent n} (h : ForkInv x) (hC : Clear x e) : StartsFresh x e := by
  cases e with
  | assign c => trivial
  | coarse e =>
      intro q hwait hnote t ht
      obtain ⟨hstep, hreset⟩ := outside_step ht
      have hnew := h.ready hC hstep hwait hnote
      have hp3 := step_p3ticks hstep hreset hnew.off
      have hfate := fate h.sound hstep q
      rw [hnote] at hfate
      cases hfate with
      | dispatched c hoff hle hused hacc hseat =>
          have hfresh := hnew.fresh
          have hon : t.current c = some (q, 0) := (hseat c 0).mpr ⟨rfl, hfresh.priority.symm⟩
          refine ⟨⟨c, hon⟩, ?_, fun l hl => ?_, fun l hl => ?_, ?_⟩
          · exact (congrArg Account.priority hacc).trans hfresh.priority
          · exact (congrFun (congrArg Account.ticks hacc) l).trans (hfresh.ticks l hl)
          · exact (congrFun (congrArg Account.slice hacc) l).trans (hfresh.slice l hl)
          · exact hp3.trans hfresh.p3ticks

theorem ForkInv.erasesNothing {e : FineEvent n} (h : ForkInv x) : ErasesNothing x e := by
  cases e with
  | coarse e => trivial
  | assign c =>
      rw [ErasesNothing, Option.all_eq_true]
      rintro ⟨p, np, a, rest⟩ hp
      have hnp : x.2 np = .waiting := h.todo np (by rw [pending_todo hp]; exact nofun)
      simp only [hnp]
      rfl

/-- In every run in which no CPU switches to a child before `fork` is done with it,
or demotes it after `priority = 0`, the child starts with fresh counters,
whatever its slot held before, and they keep what it has run. -/
theorem forked_run (left : Table) (es : List (FineEvent n))
    (hC : AllSteps stepLife Clear (start n left) es) :
    AllSteps stepLife StartsFresh (start n left) es ∧
      AllSteps stepLife ErasesNothing (start n left) es ∧
        AllStates stepLife Counted (start n left) es := by
  have hinv : AllStates stepLife ForkInv (start n left) es :=
    allStates_of_allSteps (fun _ _ _ h hC hy => step_forkInv h hC hy) (start_forkInv n left) hC
  exact ⟨hinv.steps (fun _ _ h hC => h.startsFresh hC) hC,
    hinv.steps (fun _ _ h _ => h.erasesNothing) hC, hinv.mono fun _ h => h.counted⟩

end

/-- One CPU: `init` forks and waits for its child, which runs. -/
def soloRun : List (FineEvent 1) :=
  let c : Fin 1 := ⟨0, by decide⟩
  [.coarse (.pass c), .coarse (.resume c), .coarse (.fork c), .coarse (.publish c true)] ++
    tail.map (fun _ => .assign c) ++ [.coarse (.wait c), .coarse (.pass c), .coarse (.resume c)]

theorem forked_run_solo :
    AllSteps stepLife StartsFresh (start 1 (boot 1).ptable) soloRun ∧
      AllSteps stepLife ErasesNothing (start 1 (boot 1).ptable) soloRun ∧
        AllStates stepLife Counted (start 1 (boot 1).ptable) soloRun :=
  forked_run (boot 1).ptable soloRun (by decide +kernel)

/-- Two CPUs: the child runs and exits on the second one while `init` is in front
of `np->priority = 0` on the first one. -/
def racingRun : List (FineEvent 2) :=
  let c : Fin 2 := ⟨0, by decide⟩
  let d : Fin 2 := ⟨1, by decide⟩
  [.coarse (.pass c), .coarse (.resume c), .coarse (.fork c), .coarse (.publish c true),
    .coarse (.pass d), .coarse (.resume d), .coarse (.exit d), .assign c, .assign c]

/-- `np->ticks[0] = 0` erases what the child has run. -/
theorem racing_erased : ¬ (AllSteps stepLife StartsFresh (start 2 (boot 2).ptable) racingRun ∧
    AllSteps stepLife ErasesNothing (start 2 (boot 2).ptable) racingRun ∧
      AllStates stepLife Counted (start 2 (boot 2).ptable) racingRun) := fun h =>
  absurd h.2.1 (by decide +kernel)

end Cs537.Mlfq
