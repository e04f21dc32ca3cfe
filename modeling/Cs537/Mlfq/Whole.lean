/-
# `Cs537.Mlfq.Whole` — `fork` initialises the child in one step

`fork` makes the child `RUNNABLE` before it clears the account that the slot had
before.  In the steps of this module (`Sys.whole`) nothing comes between the two.
-/
import Cs537.Mlfq.Account

namespace Cs537.Mlfq

open Cs537.Lib

section

variable {n : Nat}

/-- A step; `fork` goes from `np->state = RUNNABLE` to its end in one. -/
def Sys.whole (s : Sys n) : Event n → Option (Sys n)
  | .publish c true => (s.step (.publish c true)).bind fun t => t.step (.reset c)
  | .reset _ => none
  | e => s.step e

/-- The child that the caller on CPU `c` is making. -/
def Sys.born (s : Sys n) (c : Fin n) : Option Slot :=
  (s.caller c).bind fun (p, _) => (s.ptable p).child.map Prod.fst

/-- What process `q` sees of such a step. -/
def Sys.wholeNote (s : Sys n) (e : Event n) (q : Slot) : Note :=
  match e with
  | .publish c true => if s.born c = some q then .forked else .nothing
  | e => s.note e q

variable {s t : Sys n} {c : Fin n} {p q : Slot} {lvl : Nat} {e : Event n}

/-- The end of `fork`. -/
theorem whole_publish (ht : s.whole (.publish c true) = some t) : ∃ p lvl np,
    s.caller c = some (p, lvl) ∧ (s.ptable p).child = some (np, false) ∧
      t = (s.publish p np true).reset p np := by
  obtain ⟨u, hu, ht⟩ := Option.bind_eq_some_iff.mp ht
  obtain ⟨a, ha, rfl⟩ := Option.map_eq_some_iff.mp hu
  obtain ⟨⟨p, lvl⟩, hcur, ha⟩ := Option.bind_eq_some_iff.mp ha
  simp only at ha
  split at ha
  · rename_i np hch
    cases ha
    refine ⟨p, lvl, np, hcur, hch, ?_⟩
    obtain ⟨b, hb, rfl⟩ := Option.map_eq_some_iff.mp ht
    obtain ⟨⟨p', lvl'⟩, hcur', hb⟩ := Option.bind_eq_some_iff.mp hb
    have hsame : (s.publish p np true).current = s.current :=
      (SameCpus.of_eq (publish_cpu s p np true)).current
    have hp : s.current c = some (p', lvl') := by
      rw [← hsame]
      exact caller_current hcur'
    obtain ⟨rfl, -⟩ := Prod.mk.inj (Option.some.inj ((caller_current hcur).symm.trans hp))
    have hchild : ((s.publish p np true).ptable p).child = some (np, true) := by
      rw [Sys.publish, if_pos rfl]
      simp [Sys.setProc]
    simp only [Act.finish, hchild, Option.some.injEq] at hb
    rw [← hb]
    rfl
  · cases ha

/-- The other steps are as they were. -/
theorem whole_cases (ht : s.whole e = some t) :
    (∃ c, e = .publish c true) ∨ s.step e = some t ∧ ∀ q, s.wholeNote e q = s.note e q := by
  cases e with
  | publish c ok =>
      cases ok with
      | true => exact .inl ⟨c, rfl⟩
      | false => exact .inr ⟨ht, fun _ => rfl⟩
  | reset c => cases ht
  | pass | timer | trap | resume | sleep | wakeup | kill | exit | wait | fork =>
      exact .inr ⟨ht, fun _ => rfl⟩

theorem Sound.whole (h : Sound s) (ht : s.whole e = some t) : Sound t := by
  rcases whole_cases ht with ⟨c, rfl⟩ | ⟨hstep, -⟩
  · obtain ⟨u, hu, hut⟩ := Option.bind_eq_some_iff.mp ht
    exact (h.step hu).step hut
  · exact h.step hstep

theorem whole_fate (h : Sound s) (ht : s.whole e = some t) (q : Slot) :
    Fate s t q (s.wholeNote e q) := by
  rcases whole_cases ht with ⟨c, rfl⟩ | ⟨hstep, hnote⟩
  · obtain ⟨p, lvl, np, hcur, hch, rfl⟩ := whole_publish ht
    have hacc : ((s.publish p np true).reset p np).ptable.accounts =
        Function.update s.ptable.accounts np .fresh := by
      rw [reset_accounts, (publish_sameAccounts s p np true).accounts]
    have hsame : ((s.publish p np true).reset p np).current = s.current :=
      (SameCpus.of_eq (publish_cpu s p np true)).current
    have hborn : s.born c = some np := by
      rw [Sys.born, hcur]
      simp only [Option.bind_some, hch, Option.map_some]
    have hq := congrFun hacc q
    rw [Sys.wholeNote, hborn]
    by_cases hnp : np = q
    · subst hnp
      rw [Function.update_self] at hq
      rw [if_pos rfl]
      exact .forked hq fun d lvl => by rw [hsame]
    · rw [Function.update_of_ne (Ne.symm hnp)] at hq
      rw [if_neg fun he => hnp (Option.some.inj he)]
      exact .kept hq fun d lvl => by rw [hsame]
  · rw [hnote q]
    exact fate h hstep q

/-- A process that `fork` initialises is not running yet. -/
theorem whole_forked (h : Seated s) (ht : s.whole e = some t) (hq : s.wholeNote e q = .forked) :
    Off s q := by
  rcases whole_cases ht with ⟨c, rfl⟩ | ⟨hstep, hnote⟩
  · obtain ⟨p, lvl, np, hcur, hch, rfl⟩ := whole_publish ht
    have hborn : s.born c = some np := by
      rw [Sys.born, hcur]
      simp only [Option.bind_some, hch, Option.map_some]
    rw [Sys.wholeNote, hborn] at hq
    split at hq
    · rename_i he
      obtain rfl := Option.some.inj he
      exact h.child_off hch
    · cases hq
  · rw [hnote q] at hq
    obtain ⟨c, rfl⟩ := note_forked hstep hq
    cases ht

end

end Cs537.Mlfq
