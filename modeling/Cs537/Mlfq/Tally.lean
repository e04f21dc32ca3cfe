/-
# `Cs537.Mlfq.Tally` — what `ticks` and `slice` count

`scheduler` counts a dispatch when the process comes back, at the level of the
branch that it was dispatched from.  The counts are `unsigned int`s: `ticks[l]`
is the number of dispatches at level `l` since `fork` up to a multiple of 2 ^ 32
(`tally_run`), and a process alone at level 3 gets there (`ticks_wrap`).
-/
import Cs537.Mlfq.Slices
import Cs537.Mlfq.Whole

namespace Cs537.Mlfq

open Cs537.Lib

section

variable {n : Nat}

def Note.logged (note : Note) (log : List Nat) : List Nat :=
  match note with
  | .completed lvl => lvl :: log
  | .forked => []
  | .dispatched | .bumped | .nothing => log

/-- The levels of the dispatches that a process has come back from since `fork`,
the last first. -/
def seeLog (log : Slot → List Nat) (s : Sys n) (e : Event n) (_ : Sys n) : Slot → List Nat := fun q =>
  (s.wholeNote e q).logged (log q)

def stepLog : Sys n × (Slot → List Nat) → Event n → Option (Sys n × (Slot → List Nat)) :=
  watch Sys.whole seeLog

/-- The account of a process, against the dispatches that it has come back from. -/
structure Accounted (a : Account) (log : List Nat) : Prop where
  priority : a.priority ≤ 3
  slice_zero : (a.slice 0).toNat ≤ 5
  slice_one : (a.slice 1).toNat ≤ 5
  slice_two : (a.slice 2).toNat ≤ 10
  slice_le : ∀ l, log.count l < 2 ^ 32 → (a.slice l).toNat ≤ (a.ticks l).toNat
  ticks : ∀ l, a.ticks l = BitVec.ofNat 32 (log.count l)
  total : a.ticks 0 + a.ticks 1 + a.ticks 2 + a.ticks 3 = BitVec.ofNat 32 log.length

/-- The same with numbers that do not wrap. -/
structure AccountedExactly (a : Account) (log : List Nat) : Prop where
  priority : a.priority ≤ 3
  slice_zero : (a.slice 0).toNat ≤ 5
  slice_one : (a.slice 1).toNat ≤ 5
  slice_two : (a.slice 2).toNat ≤ 10
  slice_le : ∀ l, (a.slice l).toNat ≤ (a.ticks l).toNat
  ticks : ∀ l, (a.ticks l).toNat = log.count l
  total : (a.ticks 0).toNat + (a.ticks 1).toNat + (a.ticks 2).toNat + (a.ticks 3).toNat = log.length

/-! ## The invariant -/

/-- The counters of a process. -/
structure Tallied (p : Proc) (log : List Nat) : Prop where
  slice : ∀ l, (p.slice l).toNat ≤ log.count l
  ticks : ∀ l, p.ticks l = BitVec.ofNat 32 (log.count l)
  levels : ∀ l ∈ log, l ≤ 3

structure TallyInv (x : Sys n × (Slot → List Nat)) : Prop where
  sound : Sound x.1
  fair : ∀ q, Fair x.1 q
  tallied : ∀ q, Tallied (x.1.ptable q) (x.2 q)

theorem boot_tallyInv (n : Nat) : TallyInv (boot n, fun _ => []) where
  sound := boot_sound n
  fair := boot_fair
  tallied _ := ⟨fun _ => Nat.le_refl 0, fun _ => rfl, fun _ h => absurd h List.not_mem_nil⟩

variable {s t : Sys n} {q : Slot} {e : Event n} {note : Note} {log : List Nat}

theorem Tallied.charge {p p' : Proc} {lvl : Nat} (h : Tallied p log) (hlvl : lvl ≤ 3)
    (hacc : p'.account = p.account.charge lvl) : Tallied p' (lvl :: log) := by
  have hslice : p'.slice = Function.update p.slice lvl (p.slice lvl + 1) := congrArg Account.slice hacc
  have hticks : p'.ticks = Function.update p.ticks lvl (p.ticks lvl + 1) := congrArg Account.ticks hacc
  refine ⟨fun l => ?_, fun l => ?_, fun l hl => ?_⟩
  · rw [hslice]
    by_cases hl : l = lvl
    · subst hl
      rw [Function.update_self, List.count_cons_self, BitVec.toNat_add]
      exact Nat.le_trans (Nat.mod_le _ _) (Nat.succ_le_succ (h.slice l))
    · rw [Function.update_of_ne hl, List.count_cons_of_ne (Ne.symm hl)]
      exact h.slice l
  · rw [hticks]
    by_cases hl : l = lvl
    · subst hl
      rw [Function.update_self, List.count_cons_self, h.ticks, BitVec.ofNat_add]
      rfl
    · rw [Function.update_of_ne hl, List.count_cons_of_ne (Ne.symm hl)]
      exact h.ticks l
  · rcases List.mem_cons.mp hl with rfl | hl
    · exact hlvl
    · exact h.levels l hl

theorem Tallied.step (h : Tallied (s.ptable q) log) (hfair : Fair s q) (hfate : Fate s t q note) :
    Tallied (t.ptable q) (note.logged log) := by
  have hkeep : (t.ptable q).slice = (s.ptable q).slice → (t.ptable q).ticks = (s.ptable q).ticks →
      Tallied (t.ptable q) log := fun hslice hticks =>
    ⟨fun l => by rw [hslice]; exact h.slice l, fun l => by rw [hticks]; exact h.ticks l, h.levels⟩
  cases hfate with
  | kept hacc hseat => exact hkeep (congrArg Account.slice hacc) (congrArg Account.ticks hacc)
  | demoted hoff hused hacc hoff' =>
      exact hkeep (congrArg Account.slice hacc) (congrArg Account.ticks hacc)
  | dispatched c hoff hle hused hacc hseat =>
      exact hkeep (congrArg Account.slice hacc) (congrArg Account.ticks hacc)
  | completed c lvl hon hone hacc hoff' => exact h.charge (hfair.room c lvl hon).1 hacc
  | bumped hoff hacc hseat =>
      by_cases hr : (s.ptable q).state = .runnable
      · rw [if_pos hr] at hacc
        rcases (s.ptable q).account.bump_cases with ⟨-, -, -, hbump⟩ | ⟨-, hbump⟩
        · rw [hbump] at hacc
          have hslice : (t.ptable q).slice =
              Function.update (s.ptable q).slice ((s.ptable q).priority - 1) 0 :=
            congrArg Account.slice hacc
          have hticks : (t.ptable q).ticks = (s.ptable q).ticks := congrArg Account.ticks hacc
          refine ⟨fun l => ?_, fun l => by rw [hticks]; exact h.ticks l, h.levels⟩
          rw [hslice]
          by_cases hl : l = (s.ptable q).priority - 1
          · rw [hl, Function.update_self]
            exact Nat.zero_le _
          · rw [Function.update_of_ne hl]
            exact h.slice l
        · rw [hbump] at hacc
          exact hkeep (congrArg Account.slice hacc) (congrArg Account.ticks hacc)
      · rw [if_neg hr] at hacc
        exact hkeep (congrArg Account.slice hacc) (congrArg Account.ticks hacc)
  | forked hacc hseat =>
      have hslice : (t.ptable q).slice = fun _ => 0 := congrArg Account.slice hacc
      have hticks : (t.ptable q).ticks = fun _ => 0 := congrArg Account.ticks hacc
      exact ⟨fun l => by rw [hslice]; exact Nat.zero_le _, fun l => by rw [hticks]; rfl,
        fun _ hl => absurd hl List.not_mem_nil⟩

theorem step_tallyInv {x y : Sys n × (Slot → List Nat)} (h : TallyInv x) (hy : stepLog x e = some y) :
    TallyInv y := by
  obtain ⟨hstep, hsee⟩ := watch_eq_some.mp hy
  have hfate := whole_fate h.sound hstep
  refine ⟨h.sound.whole hstep, fun q => (hfate q).fair (h.fair q), fun q => ?_⟩
  rw [← hsee]
  exact (h.tallied q).step (h.fair q) (hfate q)

/-- A list of numbers up to 3 is as long as their counts together. -/
theorem length_eq_counts (h : ∀ l ∈ log, l ≤ 3) :
    log.length = log.count 0 + log.count 1 + log.count 2 + log.count 3 := by
  induction log with
  | nil => rfl
  | cons l log ih =>
      have hlog := ih fun k hk => h k (List.mem_cons_of_mem l hk)
      have hl : l ≤ 3 := h l List.mem_cons_self
      rw [List.length_cons, hlog]
      have hcases : l = 0 ∨ l = 1 ∨ l = 2 ∨ l = 3 := by omega
      rcases hcases with rfl | rfl | rfl | rfl
      · simp
        omega
      · simp
        omega
      · simp
        omega
      · simp
        omega

theorem accounted (hfair : Fair s q) (h : Tallied (s.ptable q) log) :
    Accounted (s.ptable q).account log where
  priority := hfair.priority
  slice_zero := hfair.slice 0 (by decide)
  slice_one := hfair.slice 1 (by decide)
  slice_two := hfair.slice 2 (by decide)
  slice_le l hlt := by
    have hticks : ((s.ptable q).ticks l).toNat = log.count l := by
      rw [h.ticks l, BitVec.toNat_ofNat]
      exact Nat.mod_eq_of_lt hlt
    exact Nat.le_trans (h.slice l) (Nat.le_of_eq hticks.symm)
  ticks := h.ticks
  total := by
    have hticks : ∀ l, (s.ptable q).account.ticks l = BitVec.ofNat 32 (log.count l) := h.ticks
    rw [length_eq_counts h.levels, BitVec.ofNat_add, BitVec.ofNat_add, BitVec.ofNat_add, hticks, hticks,
      hticks, hticks]

/-- On every run in which `fork` initialises the child in one step, the counters
of every process count its dispatches since `fork`. -/
theorem tally_run (n : Nat) (es : List (Event n)) :
    AllStates stepLog (fun x => ∀ q, Accounted (x.1.ptable q).account (x.2 q))
      (boot n, fun _ => []) es := by
  have hinv : AllStates stepLog TallyInv (boot n, fun _ => []) es :=
    allStates_of_step (fun _ _ _ h hy => step_tallyInv h hy) (boot_tallyInv n)
  exact hinv.mono fun x h q => accounted (h.fair q) (h.tallied q)

end

/-! ## One process alone -/

section

local instance neZero_one_tally : NeZero 1 := ⟨Nat.one_ne_zero⟩

/-- The queue when the pid 1 has been put into it `a` times, and the process has
come back from level 3 `k` times. -/
structure Ring (a k : Nat) (Q : Queue) : Prop where
  size : Q.size = BitVec.ofNat 32 (a - k / 20)
  front : Q.front.val = k / 20 % qlen
  rear : Q.rear.val = (a + 99) % qlen
  p3q : ∀ i : Fin qlen, i.val < a → Q.p3q i = 1

/-- The process, at level 3. -/
structure Single (k : Nat) (st : PState) (at' : Pc) (p : Proc) : Prop where
  state : p.state = st
  pid : p.pid = 1
  priority : p.priority = 3
  p3ticks : p.p3ticks = k % 20
  pc : p.pc = at'
  child : p.child = none

/-- `init` is the only process. -/
structure Alone (a k : Nat) (st : PState) (at' : Pc) (on : At) (lock : Option (Fin 1))
    (x : Sys 1 × (Slot → List Nat)) : Prop where
  others : ∀ q, q ≠ initproc → (x.1.ptable q).state = .unused
  init : Single k st at' (x.1.ptable initproc)
  ring : Ring a k x.1.queue
  stack : (x.1.cpu 0).stack = on
  lock : x.1.lock = lock
  log : x.2 initproc =
    List.replicate k 3 ++ (List.replicate 10 2 ++ (List.replicate 5 1 ++ List.replicate 5 0))

variable {a k : Nat} {x : Sys 1 × (Slot → List Nat)} {Q : Queue}

/-- The queue at the end of a slice. -/
theorem Ring.back (h : Ring (k + 1) k Q) :
    Ring (k + 1) (k + 1) (if (k % 20 + 1) % 20 = 0 then Q.remq else Q) := by
  by_cases h0 : (k % 20 + 1) % 20 = 0
  · rw [if_pos h0]
    refine ⟨?_, ?_, h.rear, h.p3q⟩
    · have hsize : k + 1 - k / 20 = k + 1 - (k + 1) / 20 + 1 := by omega
      rw [Queue.remq, h.size, hsize, BitVec.ofNat_add]
      exact BitVec.add_sub_cancel _ _
    · rw [Queue.remq, next_val, h.front]
      simp only [qlen]
      omega
  · have hdiv : (k + 1) / 20 = k / 20 := by omega
    rw [if_neg h0]
    exact ⟨by rw [hdiv]; exact h.size, by rw [hdiv]; exact h.front, h.rear, h.p3q⟩

theorem Ring.addq (h : Ring (k + 1) (k + 1) Q) : Ring (k + 2) (k + 1) (Q.addq 1) where
  size := by
    have heq : k + 2 - (k + 1) / 20 = k + 1 - (k + 1) / 20 + 1 := by omega
    rw [addq_size, h.size, heq, BitVec.ofNat_add]
    rfl
  front := h.front
  rear := by
    rw [addq_rear, next_val, h.rear]
    simp only [qlen]
    omega
  p3q i hi := by
    rw [addq_p3q]
    by_cases hir : i = next Q.rear
    · rw [hir, Function.update_self]
    · rw [Function.update_of_ne hir]
      refine h.p3q i ?_
      have hval : i.val ≠ (next Q.rear).val := fun he => hir (Fin.ext he)
      rw [next_val, h.rear] at hval
      have hlt := i.isLt
      simp only [qlen] at hval hlt
      omega

/-- The pid is at the front, as long as `size` has not come round to zero. -/
theorem Ring.frontq (h : Ring (k + 2) (k + 1) Q) (hk : k + 2 - (k + 1) / 20 < 2 ^ 32) :
    Q.frontq = 1 := by
  have hfront : Q.front.val < k + 2 := by
    rw [h.front]
    have hmod := Nat.mod_le ((k + 1) / 20) qlen
    omega
  have hemp : Q.isemp = false := by
    refine decide_eq_false fun h0 => ?_
    have hval := congrArg BitVec.toNat (h.size.symm.trans h0)
    rw [BitVec.toNat_ofNat, Nat.mod_eq_of_lt hk] at hval
    have hpos : k + 2 - (k + 1) / 20 ≠ 0 := by omega
    exact hpos hval
  rw [Queue.frontq, hemp, h.p3q _ hfront]
  rfl

/-- With nothing to run, the loop goes round. -/
theorem scan_idle {now : BitVec 32} {T : Table} {Q : Queue} {l : List Slot}
    (h : ∀ p ∈ l, (T p).state ≠ .runnable) : scan now l T Q = (none, T, Q) := by
  induction l with
  | nil => rfl
  | cons p l ih =>
      have hvisit : visit now T Q p = (false, T, Q) := if_pos (h p List.mem_cons_self)
      rw [scan, hvisit]
      exact ih fun q hq => h q (List.mem_cons_of_mem p hq)

/-- The end of a slice at level 3. -/
theorem back_three {T : Table} {p : Slot} (h : (T p).p3ticks < 20) : back 3 p T Q =
    (Function.update T p { (T p).charge 3 with p3ticks := ((T p).p3ticks + 1) % 20 },
      if ((T p).p3ticks + 1) % 20 = 0 then Q.remq else Q) := by
  have hp : ((T p).charge 3).p3ticks = (T p).p3ticks := rfl
  rw [Mlfq.back, if_pos (rfl : (3 : Nat) = 3), hp]
  by_cases h0 : ((T p).p3ticks + 1) % 20 = 0
  · rw [if_pos ⟨Nat.succ_ne_zero _, h0⟩, if_pos h0, h0]
  · have hlt : ((T p).p3ticks + 1) % 20 = (T p).p3ticks + 1 := Nat.mod_eq_of_lt (by omega)
    rw [if_neg fun hn => h0 hn.2, if_neg h0, hlt]

/-- A step, with what it writes down. -/
theorem stepLog_act {e : Event 1} {b : Act 1} (hact : x.1.act e = some b)
    (hwhole : x.1.whole e = x.1.step e) :
    stepLog x e = some (b.finish, fun q => (x.1.wholeNote e q).logged (x.2 q)) := by
  rw [stepLog, watch, hwhole, Sys.step, hact]
  rfl

/-- The process goes to sleep. -/
theorem Alone.sleep (h : Alone (k + 1) k .running .free (.on initproc 3) none x) :
    ∃ y, stepLog x (.sleep 0 (.other 2)) = some y ∧
      (y.1.ptable initproc).chan = some (.other 2) ∧
      Alone (k + 1) (k + 1) .sleeping (.resume .slept) .idle none y := by
  have hon : x.1.current 0 = some (initproc, 3) := current_of_on h.stack
  have hcur : x.1.syscaller 0 = some (initproc, 3) := by
    simp [Sys.syscaller, Sys.caller, hon, Option.filter, h.init.pc, h.init.child]
  have hp3 : (x.1.ptable initproc).p3ticks < 20 := by
    rw [h.init.p3ticks]
    exact Nat.mod_lt k (by decide)
  -- the process, and the machine as the loop is entered
  obtain ⟨p, hp⟩ : ∃ p : Proc, p = { (x.1.ptable initproc).charge 3 with
      chan := some (.other 2), state := .sleeping, pc := .resume .slept
      p3ticks := (k % 20 + 1) % 20 } := ⟨_, rfl⟩
  obtain ⟨u, hu⟩ : ∃ u : Sys 1, u = { x.1 with
      ptable := Function.update x.1.ptable initproc p
      queue := if (k % 20 + 1) % 20 = 0 then x.1.queue.remq else x.1.queue } := ⟨_, rfl⟩
  have hact : x.1.act (.sleep 0 (.other 2)) =
      some (.loop u 0 ((List.finRange nproc).drop (initproc.val + 1))) := by
    rw [Sys.act, Sys.whenFree, if_pos h.lock, hcur]
    simp only [Option.bind_some, Sys.sleep, Sys.sched]
    rw [back_three (by simpa [Sys.setProc] using hp3)]
    simp [hu, hp, Sys.setProc, h.init.p3ticks, Proc.charge]
  have hself : u.ptable initproc = p := by
    rw [hu]
    exact Function.update_self initproc p x.1.ptable
  have hother : ∀ q, q ≠ initproc → (u.ptable q).state = .unused := fun q hq => by
    have hkeep : u.ptable q = x.1.ptable q := by
      rw [hu]
      exact Function.update_of_ne hq ..
    rw [hkeep]
    exact h.others q hq
  have hidle : ∀ q, (u.ptable q).state ≠ .runnable := fun q => by
    by_cases hq : q = initproc
    · rw [hq, hself, hp]
      intro he
      cases he
    · rw [hother q hq]
      intro he
      cases he
  have hscan : scan u.ticks ((List.finRange nproc).drop (initproc.val + 1)) u.ptable u.queue =
      (none, u.ptable, u.queue) := scan_idle fun q _ => hidle q
  have hnote : x.1.wholeNote (.sleep 0 (.other 2)) initproc = .completed 3 := by
    show x.1.note _ _ = _
    rw [note_loop hact, hscan, hon]
    rfl
  have hstep := stepLog_act hact rfl
  rw [Act.finish, loop_none hscan] at hstep
  refine ⟨_, hstep, ?_, hother, ?_, ?_, ?_, rfl, ?_⟩
  · show (u.ptable initproc).chan = _
    rw [hself, hp]
  · show Single _ _ _ (u.ptable initproc)
    rw [hself, hp]
    have hmod : (k % 20 + 1) % 20 = (k + 1) % 20 := Nat.mod_add_mod k 20 1
    exact ⟨rfl, h.init.pid, h.init.priority, hmod, rfl, h.init.child⟩
  · show Ring _ _ u.queue
    rw [hu]
    exact h.ring.back
  · simp [Sys.setAt, Sys.setCpu]
  · show (x.1.wholeNote (.sleep 0 (.other 2)) initproc).logged (x.2 initproc) = _
    rw [hnote, h.log]
    rfl

/-- It is woken. -/
theorem Alone.wakeup (h : Alone a k .sleeping (.resume .slept) .idle none x)
    (hchan : (x.1.ptable initproc).chan = some (.other 2)) :
    ∃ y, stepLog x (.wakeup 0 (.other 2)) = some y ∧
      Alone a k .runnable (.resume .slept) .idle none y := by
  have hopen : x.1.open 0 = true := by simp [Sys.open, h.stack]
  have hact : x.1.act (.wakeup 0 (.other 2)) =
      some (.stay { x.1 with ptable := wakeup1 (.other 2) x.1.ptable }) := by
    rw [Sys.act, Sys.whenFree, if_pos h.lock, if_pos hopen]
  have hnote : x.1.wholeNote (.wakeup 0 (.other 2)) initproc = .nothing := by
    show x.1.note _ _ = _
    rw [note_stay hact]
    rfl
  have hinit : wakeup1 (.other 2) x.1.ptable initproc =
      { x.1.ptable initproc with state := .runnable } := if_pos ⟨h.init.state, hchan⟩
  refine ⟨_, stepLog_act hact rfl, fun q hq => ?_, ?_, h.ring, h.stack, h.lock, ?_⟩
  · have hno : ¬ ((x.1.ptable q).state = .sleeping ∧ (x.1.ptable q).chan = some (.other 2)) := fun hs => by
      rw [h.others q hq] at hs
      cases hs.1
    have hkeep : wakeup1 (.other 2) x.1.ptable q = x.1.ptable q := if_neg hno
    exact (congrArg Proc.state hkeep).trans (h.others q hq)
  · show Single _ _ _ (wakeup1 (.other 2) x.1.ptable initproc)
    rw [hinit]
    exact { h.init with state := rfl }
  · show (x.1.wholeNote (.wakeup 0 (.other 2)) initproc).logged (x.2 initproc) = _
    rw [hnote]
    exact h.log

/-- `scheduler` switches to it. -/
theorem Alone.pass (h : Alone (k + 1) (k + 1) .runnable (.resume .slept) .idle none x)
    (hk : k + 2 - (k + 1) / 20 < 2 ^ 32) : ∃ y, stepLog x (.pass 0) = some y ∧
      Alone (k + 2) (k + 1) .running (.resume .slept) (.on initproc 3) (some 0) y := by
  have hact : x.1.act (.pass 0) = some (.loop x.1 0 (List.finRange nproc)) := by
    rw [Sys.act, Sys.whenFree, if_pos h.lock, if_pos h.stack]
  have hready : (x.1.ptable initproc).Ready x.1.queue :=
    ⟨h.init.state, .inr ⟨h.init.priority, by rw [h.init.pid, h.ring.addq.frontq hk]⟩⟩
  have hlast : (x.1.ptable initproc).Last := ⟨h.init.state, h.init.priority⟩
  have hscan : scan x.1.ticks (List.finRange nproc) x.1.ptable x.1.queue =
      (some initproc, x.1.ptable.start x.1.ticks initproc, x.1.queue.addq 1) := by
    have hfirst : List.finRange nproc = initproc :: (List.finRange nproc).tail := rfl
    rw [hfirst, scan, visit_eq, if_pos hready, Queue.after, if_pos hlast, h.init.pid]
  have hnote : x.1.wholeNote (.pass 0) initproc = .dispatched := by
    show x.1.note _ _ = _
    rw [note_loop hact, hscan, if_pos rfl]
  have hinit : x.1.ptable.start x.1.ticks initproc initproc =
      { x.1.ptable initproc with state := .running, starved := false, ts := x.1.ticks } :=
    Function.update_self ..
  have hstep := stepLog_act hact rfl
  rw [Act.finish, loop_some hscan] at hstep
  refine ⟨_, hstep, fun q hq => ?_, ?_, h.ring.addq, ?_, rfl, ?_⟩
  · have hkeep : x.1.ptable.start x.1.ticks initproc q = x.1.ptable q := Function.update_of_ne hq ..
    exact (congrArg Proc.state hkeep).trans (h.others q hq)
  · show Single _ _ _ (x.1.ptable.start x.1.ticks initproc initproc)
    rw [hinit]
    exact { h.init with state := rfl }
  · show ((x.1.setCpu 0 ⟨some initproc, .on initproc (x.1.ptable initproc).priority⟩).cpu 0).stack = _
    rw [h.init.priority]
    simp [Sys.setCpu]
  · show (x.1.wholeNote (.pass 0) initproc).logged (x.2 initproc) = _
    rw [hnote]
    exact h.log

/-- It goes on. -/
theorem Alone.resume (h : Alone a k .running (.resume .slept) (.on initproc 3) (some 0) x) :
    ∃ y, stepLog x (.resume 0) = some y ∧ Alone a k .running .free (.on initproc 3) none y := by
  have hon : x.1.current 0 = some (initproc, 3) := current_of_on h.stack
  have hact : x.1.act (.resume 0) = some (.stay { x.1.setProc initproc
      { x.1.ptable initproc with chan := none, pc := .free } with lock := none }) := by
    rw [Sys.act, hon]
    simp only [Option.bind_some, h.init.pc, if_pos h.lock]
    rfl
  have hnote : x.1.wholeNote (.resume 0) initproc = .nothing := by
    show x.1.note _ _ = _
    rw [note_stay hact]
    rfl
  refine ⟨_, stepLog_act hact rfl, fun q hq => ?_, ?_, h.ring, h.stack, rfl, ?_⟩
  · have hkeep : (x.1.setProc initproc { x.1.ptable initproc with chan := none, pc := .free }).ptable q =
        x.1.ptable q := Function.update_of_ne hq ..
    exact (congrArg Proc.state hkeep).trans (h.others q hq)
  · have hinit : (x.1.setProc initproc { x.1.ptable initproc with chan := none, pc := .free }).ptable
        initproc = { x.1.ptable initproc with chan := none, pc := .free } := by
      rw [Sys.setProc]
      exact Function.update_self initproc _ x.1.ptable
    show Single _ _ _ ((x.1.setProc initproc
      { x.1.ptable initproc with chan := none, pc := .free }).ptable initproc)
    rw [hinit]
    exact { h.init with pc := rfl }
  · show (x.1.wholeNote (.resume 0) initproc).logged (x.2 initproc) = _
    rw [hnote]
    exact h.log

/-- It sleeps, is woken and goes on. -/
theorem Alone.nap (h : Alone (k + 1) k .running .free (.on initproc 3) none x)
    (hk : k + 2 - (k + 1) / 20 < 2 ^ 32) : ∃ y, run stepLog x Mlfq.nap = some y ∧
      Alone (k + 2) (k + 1) .running .free (.on initproc 3) none y := by
  obtain ⟨x₁, h₁, hchan, hx₁⟩ := h.sleep
  obtain ⟨x₂, h₂, hx₂⟩ := hx₁.wakeup hchan
  obtain ⟨x₃, h₃, hx₃⟩ := hx₂.pass hk
  obtain ⟨y, h₄, hy⟩ := hx₃.resume
  refine ⟨y, ?_, hy⟩
  simp only [Mlfq.nap, run, h₁, h₂, h₃, h₄, Option.bind_some]

/-- And so on. -/
theorem Alone.naps (h : Alone 1 0 .running .free (.on initproc 3) none x) (hk : k ≤ 2 ^ 32) :
    ∃ y, run stepLog x (Mlfq.naps k) = some y ∧
      Alone (k + 1) k .running .free (.on initproc 3) none y := by
  induction k with
  | zero => exact ⟨x, rfl, h⟩
  | succ k ih =>
      obtain ⟨y, hy, hxy⟩ := ih (Nat.le_of_succ_le hk)
      obtain ⟨z, hz, hyz⟩ := hxy.nap (by omega)
      refine ⟨z, ?_, hyz⟩
      rw [Mlfq.naps, List.replicate_succ', List.flatten_append, run_append, ← Mlfq.naps, hy,
        Option.bind_some, List.flatten_singleton]
      exact hz

/-- `init` comes down to level 3. -/
def descent : List (Event 1) :=
  let demoted := [.sleep 0 (.other 2), .wakeup 0 (.other 2), .pass 0, .pass 0, .resume 0]
  [.pass 0, .resume 0] ++ naps 4 ++ demoted ++ naps 4 ++ demoted ++ naps 9 ++ demoted

theorem descent_alone : ∃ x, run stepLog (boot 1, fun _ => []) descent = some x ∧
    Alone 1 0 .running .free (.on initproc 3) none x := by
  have hrun : (run stepLog (boot 1, fun _ => []) descent).any (fun x =>
      let p := x.1.ptable initproc
      let Q := x.1.queue
      decide ((∀ q, q ≠ initproc → (x.1.ptable q).state = .unused) ∧
        (p.state = .running ∧ p.pid = 1 ∧ p.priority = 3 ∧ p.p3ticks = 0 ∧ p.pc = .free ∧ p.child = none) ∧
        (Q.size = 1 ∧ Q.front.val = 0 ∧ Q.rear.val = 0 ∧ Q.p3q ⟨0, zero_lt_qlen⟩ = 1) ∧
        (x.1.cpu 0).stack = .on initproc 3 ∧ x.1.lock = none ∧
        x.2 initproc = List.replicate 10 2 ++ (List.replicate 5 1 ++ List.replicate 5 0))) = true := by
    decide +kernel
  obtain ⟨x, hx, hfacts⟩ := (Option.any_eq_true _ _).mp hrun
  obtain ⟨hothers, ⟨hstate, hpid, hprio, hp3, hpc, hchild⟩, ⟨hsize, hfront, hrear, hp3q⟩, hstack, hlock,
    hlog⟩ := of_decide_eq_true hfacts
  refine ⟨x, hx, hothers, ⟨hstate, hpid, hprio, hp3, hpc, hchild⟩, ⟨hsize, hfront, hrear, ?_⟩,
    hstack, hlock, hlog⟩
  intro i hi
  obtain rfl : i = ⟨0, zero_lt_qlen⟩ := Fin.ext (Nat.lt_one_iff.mp hi)
  exact hp3q

/-- After 2 ^ 32 slices at level 3 the counter is back at zero. -/
theorem ticks_wrap : ¬ ∀ es : List (Event 1), AllStates stepLog (fun x => ∀ q,
    (x.1.ptable q).state ≠ .unused → AccountedExactly (x.1.ptable q).account (x.2 q))
    (boot 1, fun _ => []) es := by
  intro h
  obtain ⟨k, hk⟩ : ∃ k, k = 2 ^ 32 := ⟨_, rfl⟩
  obtain ⟨x, hx, halone⟩ := descent_alone
  obtain ⟨y, hy, halone⟩ := halone.naps (Nat.le_of_eq hk)
  have hrun : run stepLog (boot 1, fun _ => []) (descent ++ naps k) = some y := by
    rw [run_append, hx]
    exact hy
  have hused : (y.1.ptable initproc).state ≠ .unused := by
    rw [halone.init.state]
    exact nofun
  have hexact := (h (descent ++ naps k)).last hrun initproc hused
  have hcount : (y.2 initproc).count 3 = k := by
    rw [halone.log]
    simp [List.count_append]
  have hticks : ((y.1.ptable initproc).account.ticks 3).toNat = k := (hexact.ticks 3).trans hcount
  exact Nat.lt_irrefl k (Nat.lt_of_le_of_lt (Nat.le_of_eq hticks.symm) (hk ▸ BitVec.isLt _))

end

end Cs537.Mlfq
