/-
# `Cs537.Mlfq.Conserve` — turns of `scheduler` that do nothing

A turn through the table that finds a process waiting at level 0, 1 or 2
switches to a process or demotes one.  With only level-3 processes waiting it
switches when the pid at the front of `p3q` is found again, so that a process
which leaves its pid there and goes to sleep, or exits, keeps all others at
level 3 from running.

`room` is the number of pids that the ring takes before the entry at `front` is
overwritten.
-/
import Cs537.Mlfq.Scan
import Cs537.Mlfq.System

namespace Cs537.Mlfq

open Cs537.Lib

/-! ## The ring -/

def Queue.addAll (Q : Queue) (l : List Int) : Queue := l.foldl Queue.addq Q

/-- How far entry `i` is behind `rear`. -/
def Queue.dist (Q : Queue) (i : Fin qlen) : Nat := (i.val + qlen - 1 - Q.rear.val) % qlen

def Queue.room (Q : Queue) : Nat := Q.dist Q.front

section

variable {Q : Queue} {l : List Int}

theorem addAll_append (Q : Queue) (l : List Int) (x : Int) :
    Q.addAll (l ++ [x]) = (Q.addAll l).addq x := by
  rw [Queue.addAll, List.foldl_append]
  rfl

theorem addAll_front (Q : Queue) (l : List Int) : (Q.addAll l).front = Q.front := by
  induction l using List.reverseRecOn with
  | nil => rfl
  | append_singleton l x ih =>
      rw [addAll_append, addq_front, ih]

theorem addAll_size (Q : Queue) (l : List Int) :
    (Q.addAll l).size = Q.size + BitVec.ofNat 32 l.length := by
  induction l using List.reverseRecOn with
  | nil => exact (BitVec.add_zero Q.size).symm
  | append_singleton l x ih =>
      have hlen : BitVec.ofNat 32 (l ++ [x]).length = BitVec.ofNat 32 l.length + 1 := by
        rw [List.length_append, BitVec.ofNat_add]
        rfl
      rw [addAll_append, addq_size, ih, hlen, BitVec.add_assoc]

theorem addAll_rear (Q : Queue) (l : List Int) :
    (Q.addAll l).rear.val = (Q.rear.val + l.length) % qlen := by
  induction l using List.reverseRecOn with
  | nil => exact (Nat.mod_eq_of_lt Q.rear.isLt).symm
  | append_singleton l x ih =>
      rw [addAll_append, addq_rear, next_val, ih, List.length_append, List.length_singleton]
      simp only [qlen]
      omega

/-- The entries of the ring after up to `qlen` calls of `addq`. -/
theorem addAll_p3q (hl : l.length ≤ qlen) (i : Fin qlen) :
    (Q.addAll l).p3q i = (l[Q.dist i]?).getD (Q.p3q i) := by
  induction l using List.reverseRecOn with
  | nil => rfl
  | append_singleton l x ih =>
      rw [List.length_append, List.length_singleton] at hl
      have hi := i.isLt
      have hr := Q.rear.isLt
      have hrear := addAll_rear Q l
      have hpos : i = next (Q.addAll l).rear ↔ Q.dist i = l.length := by
        rw [Fin.ext_iff, next_val, hrear, Queue.dist]
        simp only [qlen] at hi hr hl ⊢
        omega
      rw [addAll_append, addq_p3q]
      by_cases hd : Q.dist i = l.length
      · rw [← hpos.mpr hd, Function.update_self, hd]
        simp
      · rw [Function.update_of_ne (hpos.not.mpr hd), ih (by omega)]
        rcases Nat.lt_or_ge (Q.dist i) l.length with hlt | hge
        · rw [List.getElem?_append_left hlt]
        · rw [List.getElem?_eq_none hge, List.getElem?_eq_none]
          rw [List.length_append, List.length_singleton]
          omega

/-- `frontq()` after the pids `l` have been added. -/
theorem frontq_addAll (hl : l.length ≤ qlen) : (Q.addAll l).frontq =
    if Q.size + BitVec.ofNat 32 l.length = 0 then -1 else (l[Q.room]?).getD (Q.p3q Q.front) := by
  rw [Queue.frontq, Queue.isemp, addAll_size, addAll_front, addAll_p3q hl, Queue.room]
  simp only [decide_eq_true_eq]

end

/-! ## One turn -/

/-- The pids of the processes waiting at level 3, in slot order. -/
def waiting (T : Table) (l : List Slot) : List Int := (l.filter fun p => (T p).Last).map fun p => (T p).pid

/-- `frontq()` when the first `t + 1` of the pids `w` have been added. -/
def Queue.frontAt (Q : Queue) (w : List Int) (t : Nat) : Int :=
  if Q.size + BitVec.ofNat 32 (t + 1) = 0 then -1
  else ((w.take (t + 1))[Q.room]?).getD (Q.p3q Q.front)

/-- A process is waiting above level 3, or one at level 3 will find its own pid
at the front. -/
def SomeMove (T : Table) (Q : Queue) : Prop :=
  (∃ p, (T p).state = .runnable ∧ (T p).priority < 3) ∨
    ∃ t x, (waiting T (List.finRange nproc))[t]? = some x ∧
      x = Q.frontAt (waiting T (List.finRange nproc)) t

/-- The turn switches to a process or changes a priority. -/
def Moved (T : Table) : Option Slot × Table × Queue → Prop
  | (some _, _, _) => True
  | (none, T', _) => ∃ p, (T' p).priority ≠ (T p).priority

instance (T : Table) : (r : Option Slot × Table × Queue) → Decidable (Moved T r)
  | (some _, _, _) => .isTrue trivial
  | (none, T', _) => inferInstanceAs (Decidable (∃ p, (T' p).priority ≠ (T p).priority))

section

variable {T : Table} {Q : Queue} {l pre post : List Slot} {p : Slot} {t : Nat} {x : Int}

theorem waiting_append (T : Table) (l l' : List Slot) :
    waiting T (l ++ l') = waiting T l ++ waiting T l' := by
  rw [waiting, List.filter_append, List.map_append]
  rfl

theorem waiting_cons (hp : (T p).Last) : waiting T (p :: l) = (T p).pid :: waiting T l := by
  rw [waiting, List.filter_cons, if_pos (decide_eq_true hp), List.map_cons]
  rfl

theorem waiting_skip (hp : ¬ (T p).Last) : waiting T (p :: l) = waiting T l := by
  rw [waiting, List.filter_cons, if_neg (by simpa using hp)]
  rfl

theorem afterAll_eq (Q : Queue) (T : Table) (l : List Slot) :
    Q.afterAll T l = Q.addAll (waiting T l) := by
  induction l generalizing Q with
  | nil => rfl
  | cons p l ih =>
      rw [afterAll_cons, ih, Queue.after]
      by_cases hp : (T p).Last
      · rw [if_pos hp, waiting_cons hp]
        rfl
      · rw [if_neg hp, waiting_skip hp]

theorem waiting_length_le (T : Table) (l : List Slot) : (waiting T l).length ≤ l.length := by
  rw [waiting, List.length_map]
  exact List.length_filter_le _ l

/-- Where a waiting pid comes from. -/
theorem waiting_split (h : (waiting T l)[t]? = some x) : ∃ pre p post, l = pre ++ p :: post ∧
    (T p).Last ∧ (waiting T pre).length = t ∧ (T p).pid = x := by
  induction l generalizing t with
  | nil => cases h
  | cons q l ih =>
      by_cases hq : (T q).Last
      · rw [waiting_cons hq] at h
        cases t with
        | zero => exact ⟨[], q, l, rfl, hq, rfl, Option.some.inj h⟩
        | succ t =>
            rw [List.getElem?_cons_succ] at h
            obtain ⟨pre, p, post, rfl, hp, hlen, hx⟩ := ih h
            exact ⟨q :: pre, p, post, rfl, hp, by rw [waiting_cons hq, List.length_cons, hlen], hx⟩
      · rw [waiting_skip hq] at h
        obtain ⟨pre, p, post, rfl, hp, hlen, hx⟩ := ih h
        exact ⟨q :: pre, p, post, rfl, hp, by rw [waiting_skip hq, hlen], hx⟩

/-- A process that waits at level 3 is ready when it finds its pid at the front. -/
theorem ready_last (hp : (T p).Last) (hlen : (pre ++ p :: post).length ≤ qlen) :
    (T p).Ready (Q.afterAll T pre) ↔
      (T p).pid = Q.frontAt (waiting T (pre ++ p :: post)) (waiting T pre).length := by
  have htake : (waiting T (pre ++ p :: post)).take ((waiting T pre).length + 1)
      = waiting T pre ++ [(T p).pid] := by
    rw [waiting_append, waiting_cons hp, List.take_length_add_append, List.take_succ_cons,
      List.take_zero]
  have hle : (waiting T pre ++ [(T p).pid]).length ≤ qlen := by
    have := waiting_length_le T pre
    simp only [List.length_append, List.length_cons, List.length_nil] at hlen ⊢
    omega
  have hfront : ((Q.afterAll T pre).addq (T p).pid).frontq =
      Q.frontAt (waiting T (pre ++ p :: post)) (waiting T pre).length := by
    rw [afterAll_eq, ← addAll_append, frontq_addAll hle, Queue.frontAt, htake, List.length_append,
      List.length_singleton]
  rw [← hfront, Proc.Ready, and_iff_right hp.1, hp.2]
  simp

/-- A turn does something just when some process can move. -/
theorem moved_iff (now : BitVec 32) (T : Table) (Q : Queue) :
    Moved T (scan now (List.finRange nproc) T Q) ↔ SomeMove T Q := by
  have hnd := List.nodup_finRange nproc
  have hall : ∀ p : Slot, p ∈ List.finRange nproc := List.mem_finRange
  rcases first_or_none T Q (List.finRange nproc) with ⟨pre, p, post, hl, hfirst⟩ | hno
  · -- the turn switches to `p`
    have hmoved : Moved T (scan now (List.finRange nproc) T Q) := by
      rw [hl] at hnd ⊢
      obtain ⟨Q', hscan⟩ : ∃ Q', scan now (pre ++ p :: post) T Q =
          (some p, (T.passedAll pre).start now p, Q') := scan_first hnd hfirst
      rw [hscan]
      trivial
    refine iff_of_true hmoved ?_
    obtain ⟨hr, ⟨hlt, -⟩ | ⟨h3, hpid⟩⟩ := hfirst.1
    · exact .inl ⟨p, hr, hlt⟩
    · have hlast : (T p).Last := ⟨hr, h3⟩
      have hlen : (pre ++ p :: post).length ≤ qlen := by
        rw [← hl, List.length_finRange]
        decide
      refine .inr ⟨(waiting T pre).length, (T p).pid, ?_, ?_⟩
      · rw [hl, waiting_append, waiting_cons hlast, List.getElem?_append_right (Nat.le_refl _),
          Nat.sub_self]
        rfl
      · rw [hl]
        exact (ready_last hlast hlen).mp hfirst.1
  · -- the turn goes round
    rw [scan_none hnd hno]
    constructor
    · rintro ⟨p, hp⟩
      rw [Table.passedAll, if_pos (hall p), Proc.passed] at hp
      split at hp
      · rename_i h
        exact .inl ⟨p, h.1, h.2.1⟩
      · exact absurd rfl hp
    · rintro (⟨p, hr, hlt⟩ | ⟨t, x, ht, hx⟩)
      · obtain ⟨pre, post, hl⟩ := List.append_of_mem (hall p)
        have hused : (T p).UsedUp := by
          by_contra hu
          exact hno pre p post hl ⟨hr, .inl ⟨hlt, hu⟩⟩
        refine ⟨p, ?_⟩
        rw [Table.passedAll, if_pos (hall p), Proc.passed, if_pos ⟨hr, hused⟩]
        exact Nat.succ_ne_self _
      · obtain ⟨pre, p, post, hl, hlast, rfl, rfl⟩ := waiting_split ht
        have hlen : (pre ++ p :: post).length ≤ qlen := by
          rw [← hl, List.length_finRange]
          decide
        rw [hl] at hx
        exact absurd ((ready_last hlast hlen).mpr hx) (hno pre p post hl)

end

/-! ## Runs -/

section

variable {n : Nat}

/-- If a process is waiting, a turn does something. -/
def Conserves (s : Sys n) : Prop := (∃ p, (s.ptable p).state = .runnable) →
  Moved s.ptable (scan s.ticks (List.finRange nproc) s.ptable s.queue)

instance (s : Sys n) : Decidable (Conserves s) := inferInstanceAs (Decidable (_ → _))

/-- In every run, no turn is idle with a process waiting just when in each state
where one is waiting some process can move. -/
theorem conserve_run (n : Nat) (es : List (Event n)) :
    AllStates Sys.step Conserves (boot n) es ↔
      AllStates Sys.step (fun s => (∃ p, (s.ptable p).state = .runnable) →
        SomeMove s.ptable s.queue) (boot n) es := by
  have hiff : ∀ s : Sys n, Conserves s ↔
      ((∃ p, (s.ptable p).state = .runnable) → SomeMove s.ptable s.queue) := fun s =>
    forall_congr' fun _ => moved_iff s.ticks s.ptable s.queue
  exact ⟨fun h => h.mono fun s => (hiff s).mp, fun h => h.mono fun s => (hiff s).mpr⟩

/-- What happens next on one CPU if processes never call the kernel. -/
def tickOn (s : Sys 1) : Event 1 :=
  match (s.cpu 0).stack with
  | .on p _ => match (s.ptable p).pc with
    | .free => .timer 0 true
    | .trap _ _ => .trap 0
    | .resume _ => .resume 0
  | _ => .pass 0

def ticksOn : Nat → Sys 1 → List (Event 1)
  | 0, _ => []
  | k + 1, s => tickOn s :: match s.step (tickOn s) with
    | some t => ticksOn k t
    | none => []

/-- `init` forks a child; both come down to level 3, `init` with its pid at the
front of the queue; it goes to sleep. -/
def asleepRun : List (Event 1) :=
  let start : List (Event 1) := [.pass 0, .resume 0, .fork 0, .publish 0 true, .reset 0]
  start ++ ((run Sys.step (boot 1) start).elim [] (ticksOn 341)) ++ [.sleep 0 (.other 0)]

/-- Now the child waits, and a turn does nothing. -/
theorem idle_turn : ¬ AllStates Sys.step Conserves (boot 1) asleepRun := by
  intro h
  have hrun : (run Sys.step (boot 1) asleepRun).map (fun s => decide (Conserves s)) = some false := by
    decide +kernel
  obtain ⟨s, hs, hfalse⟩ := Option.map_eq_some_iff.mp hrun
  exact of_decide_eq_false hfalse (h.last hs)

end

end Cs537.Mlfq
