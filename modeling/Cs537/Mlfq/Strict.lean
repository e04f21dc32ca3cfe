/-
# `Cs537.Mlfq.Strict` — when `scheduler` picks a process of the best priority

One turn through the table is made in slot order, and only level 0 starts it
anew after a process has run.  So `scheduler` may switch to a process while
another one with a better priority is waiting in a slot behind it, or in one
that the turn has already passed.  `InOrder` says of the state at the start of
the loop that this does not happen.
-/
import Cs537.Mlfq.Scan
import Cs537.Mlfq.System

namespace Cs537.Mlfq

open Cs537.Lib

/-- The loop does not switch to `p` while a process with a smaller `priority` is
`RUNNABLE`. -/
def BestFirst : Option Slot × Table × Queue → Prop
  | (some p, T, _) => ∀ q, q ≠ p → (T q).state = .runnable → (T p).priority ≤ (T q).priority
  | (none, _, _) => True

instance : (r : Option Slot × Table × Queue) → Decidable (BestFirst r)
  | (some p, T, _) => inferInstanceAs (Decidable (∀ q, q ≠ p → (T q).state = .runnable →
      (T p).priority ≤ (T q).priority))
  | (none, _, _) => .isTrue trivial

/-- Among the slots `l` to look at, the first process `p` that is ready has a
priority no worse than that of every process in the other slots, where those
passed on the way to `p` with their slices used up count one level lower. -/
def SlotOrder (T : Table) (Q : Queue) (l : List Slot) : Prop :=
  ∀ pre p post, l = pre ++ p :: post → FirstReady T Q pre p → ∀ q, q ≠ p →
    (T q).state = .runnable →
    (T p).priority ≤ if q ∈ pre ∧ (T q).UsedUp then (T q).priority + 1 else (T q).priority

section

variable {n : Nat}

/-- `C` of the loop that the event enters, if it does. -/
def InLoop (C : Sys n → List Slot → Prop) : Option (Act n) → Prop
  | some (.loop s _ l) => C s l
  | _ => True

instance {C : Sys n → List Slot → Prop} [∀ s l, Decidable (C s l)] :
    (a : Option (Act n)) → Decidable (InLoop C a)
  | some (.loop s _ l) => inferInstanceAs (Decidable (C s l))
  | some (.stay _) | none => .isTrue trivial

/-- A switch of the step is to a process of the best priority. -/
def Strict (s : Sys n) (e : Event n) : Prop :=
  InLoop (fun s l => BestFirst (scan s.ticks l s.ptable s.queue)) (s.act e)

def InOrder (s : Sys n) (e : Event n) : Prop :=
  InLoop (fun s l => SlotOrder s.ptable s.queue l) (s.act e)

instance (s : Sys n) (e : Event n) : Decidable (Strict s e) :=
  inferInstanceAs (Decidable (InLoop _ (s.act e)))

theorem passedAll_state (T : Table) (l : List Slot) (q : Slot) :
    ((T.passedAll l) q).state = (T q).state := by
  rw [Table.passedAll]
  split
  · rw [Proc.passed]
    split
    · rfl
    · rfl
  · rfl

theorem passedAll_priority {T : Table} {l : List Slot} {q : Slot} (hr : (T q).state = .runnable) :
    ((T.passedAll l) q).priority =
      if q ∈ l ∧ (T q).UsedUp then (T q).priority + 1 else (T q).priority := by
  rw [Table.passedAll]
  by_cases hq : q ∈ l
  · rw [if_pos hq, Proc.passed]
    by_cases hu : (T q).UsedUp
    · rw [if_pos ⟨hr, hu⟩, if_pos ⟨hq, hu⟩]
    · rw [if_neg fun h => hu h.2, if_neg fun h => hu h.2]
  · rw [if_neg hq, if_neg fun h => hq h.1]

theorem bestFirst_iff {T : Table} {Q : Queue} {l : List Slot} (now : BitVec 32) (hnd : l.Nodup) :
    BestFirst (scan now l T Q) ↔ SlotOrder T Q l := by
  -- the table that the loop leaves when it switches to `p`
  have hleft : ∀ pre p post, l = pre ++ p :: post →
      ((∀ q, q ≠ p → (((T.passedAll pre).start now p) q).state = .runnable →
        (((T.passedAll pre).start now p) p).priority ≤ (((T.passedAll pre).start now p) q).priority) ↔
      ∀ q, q ≠ p → (T q).state = .runnable →
        (T p).priority ≤ if q ∈ pre ∧ (T q).UsedUp then (T q).priority + 1 else (T q).priority) :=
    fun pre p post hl => by
      have hp : p ∉ pre := fun hm => by
        rw [hl] at hnd
        exact (List.nodup_append.mp hnd).2.2 p hm p List.mem_cons_self rfl
      have hself : (((T.passedAll pre).start now p) p).priority = (T p).priority := by
        rw [Table.start, Function.update_self, Table.passedAll, if_neg hp]
      refine forall_congr' fun q => forall_congr' fun hq => ?_
      rw [hself, Table.start, Function.update_of_ne hq, passedAll_state]
      exact forall_congr' fun hr => by rw [passedAll_priority hr]
  constructor
  · intro hbest pre p post hl hfirst
    subst hl
    obtain ⟨Q', hscan⟩ : ∃ Q', scan now (pre ++ p :: post) T Q =
        (some p, (T.passedAll pre).start now p, Q') := scan_first hnd hfirst
    rw [hscan] at hbest
    exact (hleft pre p post rfl).mp hbest
  · intro horder
    rcases hscan : scan now l T Q with ⟨r, T', Q'⟩
    cases r with
    | none => trivial
    | some p =>
        obtain ⟨pre, post, hl, hfirst, rfl⟩ := scan_some hnd hscan
        exact (hleft pre p post hl).mpr (horder pre p post hl hfirst)

/-! ## The loops of the machine -/

variable {s : Sys n} {c : Fin n} {p : Slot} {lvl : Nat} {a : Act n}

/-- The loop looks at each slot once. -/
def LoopOnce : Act n → Prop
  | .loop _ _ l => l.Nodup
  | .stay _ => True

theorem sched_once (s : Sys n) (c : Fin n) (p : Slot) (lvl : Nat) : LoopOnce (s.sched c p lvl) := by
  rw [Sys.sched, LoopOnce]
  split
  · exact List.nodup_nil
  · exact (List.nodup_finRange nproc).sublist (List.drop_sublist _ _)

theorem exit_once (ha : s.exit c p lvl = some a) : LoopOnce a := by
  rw [Sys.exit] at ha
  split at ha
  · cases ha
  · obtain rfl := Option.some.inj ha
    exact sched_once _ _ _ _

theorem trapExit_once (ha : s.trapExit c = some a) : LoopOnce a := by
  obtain ⟨⟨p, lvl⟩, -, ha⟩ := Option.bind_eq_some_iff.mp ha
  simp only at ha
  split at ha
  · exact exit_once ha
  · cases ha

theorem waitLoop_once (s : Sys n) (c : Fin n) (p : Slot) (lvl : Nat) :
    LoopOnce (s.waitLoop c p lvl) := by
  rw [Sys.waitLoop]
  split
  · trivial
  · split
    · trivial
    · exact sched_once _ _ _ _

theorem yield_once {user : Bool} (ha : s.yield c user = some a) : LoopOnce a := by
  obtain ⟨q, -, rfl⟩ := Option.map_eq_some_iff.mp ha
  simp only
  split
  · exact sched_once _ _ _ _
  · trivial

theorem trap_once {user : Bool} {st : Stage} (ha : s.trap c user st = some a) : LoopOnce a := by
  have hstay : ∀ t : Sys n, some (Act.stay t) = some a → LoopOnce a := fun t h => by
    obtain rfl := Option.some.inj h
    trivial
  cases st with
  | tick =>
      rw [Sys.trap] at ha
      split at ha
      · split at ha
        · exact hstay _ ha
        · cases ha
      · exact hstay _ ha
  | check =>
      rw [Sys.trap] at ha
      split at ha
      · exact trapExit_once ha
      · split at ha
        · exact hstay _ ha
        · exact hstay _ ha
  | yield =>
      rw [Sys.trap] at ha
      split at ha
      · exact yield_once ha
      · cases ha
  | bump =>
      rw [Sys.trap] at ha
      split at ha
      · split at ha
        · exact hstay _ ha
        · cases ha
      · exact hstay _ ha
  | last =>
      rw [Sys.trap] at ha
      split at ha
      · exact trapExit_once ha
      · exact hstay _ ha

theorem act_once {e : Event n} (ha : s.act e = some a) : LoopOnce a := by
  cases e with
  | pass c =>
      have ha := whenFree_some ha
      split at ha
      · cases ha
        exact List.nodup_finRange nproc
      · cases ha
  | timer c user =>
      rw [Sys.act] at ha
      split at ha
      · cases ha
        trivial
      · cases ha
  | trap c =>
      obtain ⟨⟨user, st⟩, -, ha⟩ := Option.bind_eq_some_iff.mp ha
      exact trap_once ha
  | resume c =>
      obtain ⟨⟨p, lvl⟩, -, ha⟩ := Option.bind_eq_some_iff.mp ha
      simp only at ha
      split at ha
      · split at ha
        · rename_i r _ _
          cases ha
          cases r with
          | waited => exact waitLoop_once _ _ _ _
          | forkret | yielded | slept => trivial
        · cases ha
      · cases ha
  | sleep c chan =>
      obtain ⟨⟨p, lvl⟩, -, ha⟩ := Option.bind_eq_some_iff.mp (whenFree_some ha)
      simp only at ha
      split at ha
      · cases ha
      · cases ha
        exact sched_once _ _ _ _
  | wakeup c chan =>
      have ha := whenFree_some ha
      split at ha
      · cases ha
        trivial
      · cases ha
  | kill c pid =>
      obtain ⟨_, -, rfl⟩ := Option.map_eq_some_iff.mp (whenFree_some ha)
      trivial
  | exit c =>
      obtain ⟨⟨p, lvl⟩, -, ha⟩ := Option.bind_eq_some_iff.mp (whenFree_some ha)
      exact exit_once ha
  | wait c =>
      obtain ⟨⟨p, lvl⟩, -, rfl⟩ := Option.map_eq_some_iff.mp (whenFree_some ha)
      exact waitLoop_once _ _ _ _
  | fork c =>
      obtain ⟨_, -, rfl⟩ := Option.map_eq_some_iff.mp (whenFree_some ha)
      trivial
  | publish c ok =>
      obtain ⟨_, -, ha⟩ := Option.bind_eq_some_iff.mp ha
      simp only at ha
      split at ha
      · cases ha
        trivial
      · cases ha
  | reset c =>
      obtain ⟨_, -, ha⟩ := Option.bind_eq_some_iff.mp ha
      simp only at ha
      split at ha
      · cases ha
        trivial
      · cases ha

theorem strict_iff (s : Sys n) (e : Event n) : Strict s e ↔ InOrder s e := by
  rw [Strict, InOrder]
  rcases ha : s.act e with _ | a
  · exact Iff.rfl
  · cases a with
    | stay t => exact Iff.rfl
    | loop t c l => exact bestFirst_iff t.ticks (act_once ha)

/-- In every run, all switches are to processes of the best priority just when
the slots are in order each time that the loop is entered. -/
theorem strict_run (n : Nat) (es : List (Event n)) :
    AllTried Sys.step Strict (boot n) es ↔ AllTried Sys.step InOrder (boot n) es :=
  ⟨fun h => h.mono fun s e => (strict_iff s e).mp, fun h => h.mono fun s e => (strict_iff s e).mpr⟩

local instance neZero_one : NeZero 1 := ⟨Nat.one_ne_zero⟩

/-- On one CPU, `init` forks a child and uses up its slices at level 0; the child
runs for one slice. -/
def slices (k : Nat) : List (Event 1) :=
  (List.replicate k [.timer 0 true, .trap 0, .trap 0, .trap 0, .pass 0, .resume 0, .trap 0,
    .trap 0]).flatten

def demotedRun : List (Event 1) :=
  [.pass 0, .resume 0, .fork 0, .publish 0 true, .reset 0] ++ slices 4 ++
    [.timer 0 true, .trap 0, .trap 0, .trap 0, .pass 0, .resume 0,
      .timer 0 true, .trap 0, .trap 0, .trap 0, .pass 0]

/-- Then `init`, in slot 0, goes first at level 1 while the child waits at level 0. -/
theorem worse_first : ¬ AllTried Sys.step Strict (boot 1) demotedRun := by
  decide +kernel

end

end Cs537.Mlfq
