/-
# `Cs537.Mlfq.Slices` — the slices that a process gets at a level

A process comes to a level by `fork`, by a demotion or by a bump.  `fork` and
`bump_priority` set its `slice` of that level to zero, a demotion does not; so a
process that was bumped out of a level before its slices there were used up has
only the rest of them when it is demoted back (`stay_length`).
-/
import Cs537.Mlfq.Account

namespace Cs537.Mlfq

open Cs537.Lib

section

variable {n : Nat}

/-- A stay at a level: how often `scheduler` has switched to the process since it
came to the level, and the slices of the level that had been used up when it came. -/
structure Stay where
  dispatches : Nat
  spent : Nat

/-- The slices of its level that process `q` has used up, with the one that it is
using on a CPU. -/
def Sys.spent (s : Sys n) (q : Slot) : Nat :=
  ((s.ptable q).slice (s.ptable q).priority).toNat +
    if ∃ c, s.current c = some (q, (s.ptable q).priority) then 1 else 0

/-- What is seen of the stays of the processes at their levels; `none` if the
process has not come to its level by one of the three ways. -/
def seeStay (stay : Slot → Option Stay) (s : Sys n) (e : Event n) (t : Sys n) : Slot → Option Stay :=
  fun q =>
    if (t.ptable q).state = .unused then none
    else if s.note e q = .forked ∨ (t.ptable q).priority ≠ (s.ptable q).priority then
      some ⟨0, t.spent q⟩
    else if s.note e q = .dispatched then
      (stay q).map fun x => { x with dispatches := x.dispatches + 1 }
    else stay q

/-- The steps, with the stays written down. -/
def stepStays : Sys n × (Slot → Option Stay) → Event n → Option (Sys n × (Slot → Option Stay)) :=
  watch Sys.step seeStay

/-- A step that demotes a process ends a stay with `P`. -/
def Demotes (P : Nat → Stay → Prop) (x : Sys n × (Slot → Option Stay)) (e : Event n) : Prop :=
  ∀ y, stepStays x e = some y → ∀ q stay,
    (y.1.ptable q).priority = (x.1.ptable q).priority + 1 → x.2 q = some stay →
      P (x.1.ptable q).priority stay

/-- The process has been switched to `quantum lvl` times. -/
def Full (lvl : Nat) (stay : Stay) : Prop := stay.dispatches = quantum lvl

/-- The process came to the level with its `slice` at zero, and not running. -/
def Unspent (_ : Nat) (stay : Stay) : Prop := stay.spent = 0

/-! ## The law -/

/-- The dispatches of a stay, with what had been used up before, are the slices
that are used up now. -/
structure StayInv (x : Sys n × (Slot → Option Stay)) : Prop where
  sound : Sound x.1
  fair : ∀ q, Fair x.1 q
  spent : ∀ q stay, x.2 q = some stay → (x.1.ptable q).priority < 3 →
    stay.dispatches + stay.spent = x.1.spent q

theorem boot_stayInv (n : Nat) : StayInv (boot n, fun _ => none) :=
  ⟨boot_sound n, boot_fair, fun _ _ h => (nomatch h)⟩

variable {s t : Sys n} {q : Slot} {e : Event n} {note : Note}

theorem spent_off (h : ∀ c, s.current c ≠ some (q, (s.ptable q).priority)) :
    s.spent q = ((s.ptable q).slice (s.ptable q).priority).toNat :=
  congrArg _ (if_neg fun hon => hon.elim h)

theorem spent_on {c : Fin n} (h : s.current c = some (q, (s.ptable q).priority)) :
    s.spent q = ((s.ptable q).slice (s.ptable q).priority).toNat + 1 :=
  congrArg _ (if_pos ⟨c, h⟩)

/-- The slices that are used up change with the level, with a `fork`, and with a
switch to the process. -/
theorem Fate.spent (h : Fate s t q note) (hs : Fair s q)
    (hprio : (t.ptable q).priority = (s.ptable q).priority) (hlt : (s.ptable q).priority < 3)
    (hfork : note ≠ .forked) :
    t.spent q = s.spent q + if note = .dispatched then 1 else 0 := by
  have hkeep : (t.ptable q).slice = (s.ptable q).slice →
      (∀ c lvl, t.current c = some (q, lvl) ↔ s.current c = some (q, lvl)) → t.spent q = s.spent q :=
    fun hslice hseat => by
      rw [Sys.spent, Sys.spent, hslice, hprio]
      simp only [hseat]
  cases h with
  | kept hacc hseat => exact hkeep (congrArg Account.slice hacc) hseat
  | demoted hoff hused hacc hoff' =>
      have hne : (t.ptable q).priority = (s.ptable q).priority + 1 := congrArg Account.priority hacc
      omega
  | dispatched c hoff hle hused hacc hseat =>
      have hslice : (t.ptable q).slice = (s.ptable q).slice := congrArg Account.slice hacc
      rw [spent_off fun c => hoff c _, spent_on ((hseat c _).mpr ⟨rfl, hprio⟩), hslice, hprio,
        if_pos rfl]
  | completed c lvl hon hone hacc hoff' =>
      have hslice : (t.ptable q).slice =
          Function.update (s.ptable q).slice lvl ((s.ptable q).slice lvl + 1) :=
        congrArg Account.slice hacc
      have hnote : Note.completed lvl ≠ .dispatched := nofun
      rw [spent_off fun c => hoff' c _, hslice, hprio, if_neg hnote, Nat.add_zero]
      by_cases hlvl : (s.ptable q).priority = lvl
      · subst hlvl
        rw [Function.update_self, spent_on hon, toNat_succ ((hs.room c _ hon).2 hlt) (quantum_le _)]
      · rw [Function.update_of_ne hlvl, spent_off fun d hd => ?_]
        obtain rfl := hone d _ hd
        rw [hon] at hd
        cases hd
        exact hlvl rfl
  | bumped hoff hacc hseat =>
      refine hkeep ?_ hseat
      by_cases hr : (s.ptable q).state = .runnable
      · rw [if_pos hr] at hacc
        rcases (s.ptable q).account.bump_cases with ⟨-, hpos, -, hbump⟩ | ⟨-, hbump⟩
        · rw [hbump] at hacc
          have hless : (t.ptable q).priority = (s.ptable q).priority - 1 :=
            congrArg Account.priority hacc
          have hpos : 1 ≤ (s.ptable q).priority := hpos
          omega
        · rw [hbump] at hacc
          exact congrArg Account.slice hacc
      · rw [if_neg hr] at hacc
        exact congrArg Account.slice hacc
  | forked hacc hseat => exact absurd rfl hfork

theorem step_stayInv {x y : Sys n × (Slot → Option Stay)} (h : StayInv x)
    (hy : stepStays x e = some y) : StayInv y := by
  obtain ⟨hstep, hsee⟩ := watch_eq_some.mp hy
  have hfate := fate h.sound hstep
  refine ⟨h.sound.step hstep, fun q => (hfate q).fair (h.fair q), fun q stay hq hlt => ?_⟩
  rw [← hsee, seeStay] at hq
  split at hq
  · cases hq
  · split at hq
    · obtain rfl := Option.some.inj hq
      exact Nat.zero_add _
    · rename_i hsame
      obtain ⟨hfork, hprio⟩ := not_or.mp hsame
      have hprio := not_not.mp hprio
      rw [hprio] at hlt
      rw [(hfate q).spent (h.fair q) hprio hlt hfork]
      split at hq
      · rename_i hdisp
        obtain ⟨stay', hstay, rfl⟩ := Option.map_eq_some_iff.mp hq
        have hlaw := h.spent q stay' hstay hlt
        rw [if_pos hdisp, ← hlaw]
        exact Nat.add_right_comm ..
      · rename_i hdisp
        rw [if_neg hdisp]
        exact h.spent q stay hq hlt

/-- A process is demoted when all slices of its level are used up. -/
theorem Fate.all_spent (h : Fate s t q note) (hs : Fair s q)
    (hprio : (t.ptable q).priority = (s.ptable q).priority + 1) :
    (s.ptable q).priority < 3 ∧ s.spent q = quantum (s.ptable q).priority := by
  have hno : ∀ a : Account, (t.ptable q).account = a → a.priority ≤ (s.ptable q).priority → False :=
    fun a hacc hle => by
      have heq : (t.ptable q).priority = a.priority := congrArg Account.priority hacc
      omega
  cases h with
  | kept hacc hseat => exact (hno _ hacc (Nat.le_refl _)).elim
  | demoted hoff hused hacc hoff' =>
      refine ⟨hused.1, ?_⟩
      rw [spent_off fun c => hoff c _]
      exact Nat.le_antisymm (hs.slice _ hused.1) hused.2
  | dispatched c hoff hle hused hacc hseat => exact (hno _ hacc (Nat.le_refl _)).elim
  | completed c lvl hon hone hacc hoff' => exact (hno _ hacc (Nat.le_refl _)).elim
  | bumped hoff hacc hseat =>
      refine (hno _ hacc ?_).elim
      split
      · rcases (s.ptable q).account.bump_cases with ⟨-, -, -, hbump⟩ | ⟨-, hbump⟩
        · rw [hbump]
          exact Nat.sub_le _ 1
        · rw [hbump]
          exact Nat.le_refl _
      · exact Nat.le_refl _
  | forked hacc hseat => exact (hno _ hacc (Nat.zero_le _)).elim

/-- What was used up before a stay is missing in it. -/
theorem stay_length {x : Sys n × (Slot → Option Stay)} (h : StayInv x) (e : Event n) :
    Demotes (fun lvl stay => stay.dispatches + stay.spent = quantum lvl) x e := fun y hy q stay hprio hq => by
  obtain ⟨hstep, -⟩ := watch_eq_some.mp hy
  obtain ⟨hlt, hspent⟩ := (fate h.sound hstep q).all_spent (h.fair q) hprio
  exact (h.spent q stay hq hlt).trans hspent

theorem full_iff_unspent {x : Sys n × (Slot → Option Stay)} (h : StayInv x) (e : Event n) :
    Demotes Full x e ↔ Demotes Unspent x e := by
  refine forall_congr' fun y => forall_congr' fun hy => forall_congr' fun q => forall_congr' fun stay =>
    forall_congr' fun hprio => forall_congr' fun hq => ?_
  have hlaw := stay_length h e y hy q stay hprio hq
  rw [Full, Unspent]
  omega

end

/-! ## Up and down again -/

section

local instance neZero_one_stays : NeZero 1 := ⟨Nat.one_ne_zero⟩

/-- On one CPU, the running process goes to sleep, is woken and goes on. -/
def nap : List (Event 1) := [.sleep 0 (.other 2), .wakeup 0 (.other 2), .pass 0, .resume 0]

def naps (k : Nat) : List (Event 1) := (List.replicate k nap).flatten

/-- Ticks with nothing to run. -/
def idleTicks (k : Nat) : List (Event 1) :=
  (List.replicate k [.timer 0 false, .trap 0, .trap 0, .trap 0, .trap 0]).flatten

/-- A tick; the process at the front of the table goes on after it. -/
def tickYield : List (Event 1) := [.timer 0 true, .trap 0, .trap 0, .trap 0, .pass 0, .resume 0]

/-- `init` makes two children, and the second of them runs three times at level 1.
At tick 100 it waits while two other processes come back from `yield`; both call
`bump_priority`, and it is bumped to level 0, runs there five times and is
demoted.  Now it runs twice at level 1. -/
def bumpedRun : List (Event 1) :=
  [[.pass 0, .resume 0, .fork 0, .publish 0 true, .reset 0, .fork 0, .publish 0 true, .reset 0],
    [.sleep 0 (.other 0), .pass 0, .resume 0, .sleep 0 (.other 1), .pass 0, .resume 0], naps 4,
    [.sleep 0 (.other 2), .wakeup 0 (.other 2), .pass 0, .pass 0, .resume 0], naps 2,
    [.sleep 0 (.other 2)], idleTicks 97,
    [.wakeup 0 (.other 1), .pass 0, .resume 0, .wakeup 0 (.other 0), .wakeup 0 (.other 2)],
    tickYield, tickYield, [.trap 0, .trap 0], tickYield, [.trap 0, .trap 0],
    [.sleep 0 (.other 0), .pass 0, .resume 0, .trap 0, .trap 0],
    [.sleep 0 (.other 1), .pass 0, .resume 0], naps 4,
    [.sleep 0 (.other 2), .wakeup 0 (.other 2), .pass 0, .pass 0, .resume 0], naps 1,
    [.sleep 0 (.other 2), .wakeup 0 (.other 2)]].flatten

end

end Cs537.Mlfq
