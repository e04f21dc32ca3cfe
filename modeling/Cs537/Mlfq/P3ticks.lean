/-
# `Cs537.Mlfq.P3ticks` — who writes `p3ticks`

`scheduler` writes `p3ticks` of the process that comes back to it from level 3,
and `fork` that of the child.  So a process that is on no CPU keeps its
`p3ticks` in any step but the end of `fork`: `step_p3ticks`.
-/
import Cs537.Mlfq.Account

namespace Cs537.Mlfq

open Cs537.Lib

/-! ## The scheduler -/

section

variable {T : Table} {p q : Slot}

theorem bump_p3ticks (p : Proc) : (bump p).1.p3ticks = p.p3ticks := by
  rw [bump]
  split
  · rfl
  · split
    · split
      · rfl
      · rfl
    · rfl

theorem visit_p3ticks (now : BitVec 32) (T : Table) (Q : Queue) (p q : Slot) :
    ((visit now T Q p).2.1 q).p3ticks = (T q).p3ticks := by
  have hupdate : ∀ x : Proc, x.p3ticks = (T p).p3ticks →
      (Function.update T p x q).p3ticks = (T q).p3ticks := fun x hx => by
    by_cases hq : q = p
    · rw [hq, Function.update_self, hx]
    · rw [Function.update_of_ne hq]
  rw [visit_eq]
  split
  · exact hupdate _ rfl
  · refine hupdate _ ?_
    rw [Proc.passed]
    split
    · rfl
    · rfl

/-- The loop changes no `p3ticks`. -/
theorem scan_p3ticks (now : BitVec 32) (l : List Slot) (T : Table) (Q : Queue) (q : Slot) :
    ((scan now l T Q).2.1 q).p3ticks = (T q).p3ticks := by
  induction l generalizing T Q with
  | nil => rfl
  | cons p l ih =>
      have hvisit := visit_p3ticks now T Q p q
      rw [scan]
      rcases hv : visit now T Q p with ⟨b, T₁, Q₁⟩
      rw [hv] at hvisit
      cases b with
      | true => exact hvisit
      | false => exact (ih T₁ Q₁).trans hvisit

/-- After the switch, only the process that comes back may have another one. -/
theorem back_p3ticks {lvl : Nat} {Q : Queue} (hq : q ≠ p) :
    ((back lvl p T Q).1 q).p3ticks = (T q).p3ticks := by
  rw [back]
  split
  · split
    · exact congrArg Proc.p3ticks (Function.update_of_ne hq ..)
    · exact congrArg Proc.p3ticks (Function.update_of_ne hq ..)
  · exact congrArg Proc.p3ticks (Function.update_of_ne hq ..)

end

/-! ## Steps -/

section

variable {n : Nat} {s t : Sys n} {c : Fin n} {p q : Slot} {lvl : Nat} {e : Event n} {a : Act n}

/-- The `p3ticks` of the processes that are on no CPU stay, up to the loop. -/
def KeepsOff (s : Sys n) : Act n → Prop
  | .stay t | .loop t _ _ => ∀ q, Off s q → (t.ptable q).p3ticks = (s.ptable q).p3ticks

theorem SameAccounts.keepsOff (h : SameAccounts s.ptable t.ptable) : KeepsOff s (.stay t) :=
  fun q _ => (h q).2

theorem sched_keepsOff (hon : s.current c = some (p, lvl)) (ht : SameAccounts s.ptable t.ptable) :
    KeepsOff s (t.sched c p lvl) := fun q hoff => by
  have hqp : q ≠ p := fun he => hoff c lvl (he ▸ hon)
  exact (back_p3ticks hqp).trans (ht q).2

theorem exit_keepsOff (hon : s.current c = some (p, lvl)) (ha : s.exit c p lvl = some a) :
    KeepsOff s a := by
  rw [Sys.exit] at ha
  split at ha
  · cases ha
  · obtain rfl := Option.some.inj ha
    have hchildren := (sameAccounts_wakeParent p s.ptable).trans (sameAccounts_abandon p _)
    exact sched_keepsOff hon (hchildren.trans (.update rfl rfl))

theorem trapExit_keepsOff (ha : s.trapExit c = some a) : KeepsOff s a := by
  obtain ⟨⟨p, lvl⟩, hcur, ha⟩ := Option.bind_eq_some_iff.mp ha
  simp only at ha
  split at ha
  · exact exit_keepsOff hcur ha
  · cases ha

theorem waitLoop_keepsOff (hon : s.current c = some (p, lvl)) (ht : SameAccounts s.ptable t.ptable) :
    KeepsOff s (t.waitLoop c p lvl) := by
  rw [Sys.waitLoop]
  split
  · rename_i q _
    have hreap : SameAccounts s.ptable (t.setProc q { t.ptable q with
        state := .unused, pid := 0, parent := none, killed := false }).ptable :=
      ht.trans (.update rfl rfl)
    exact (hreap.trans (setPc_sameAccounts _ p .free)).keepsOff
  · split
    · exact (ht.trans (setPc_sameAccounts t p .free)).keepsOff
    · exact sched_keepsOff hon (ht.trans (.update rfl rfl))

theorem trap_keepsOff {user : Bool} {st : Stage} (ha : s.trap c user st = some a) : KeepsOff s a := by
  have hstay : ∀ (t : Sys n) (stage : Option Stage), SameAccounts s.ptable t.ptable →
      KeepsOff s (.stay (t.setStage c user stage)) := fun t stage ht =>
    (ht.trans (setStage_sameAccounts t c user stage)).keepsOff
  have hrefl : SameAccounts s.ptable s.ptable := fun q => ⟨rfl, rfl⟩
  cases st with
  | tick =>
      rw [Sys.trap] at ha
      split at ha
      · split at ha
        · cases ha
          exact hstay _ _ (sameAccounts_wakeup1 .ticks s.ptable)
        · cases ha
      · cases ha
        exact hstay _ _ hrefl
  | check =>
      rw [Sys.trap] at ha
      split at ha
      · exact trapExit_keepsOff ha
      · split at ha
        · cases ha
          exact hstay _ _ hrefl
        · cases ha
          exact hstay _ _ hrefl
  | yield =>
      rw [Sys.trap] at ha
      split at ha
      · obtain ⟨q, -, rfl⟩ := Option.map_eq_some_iff.mp ha
        have hstate : SameAccounts s.ptable (s.ptable.setState q .runnable) := .update rfl rfl
        simp only
        split
        · rename_i p lvl hon
          exact sched_keepsOff (current_of_on hon) (hstate.trans (.update rfl rfl))
        · exact hstate.keepsOff
      · cases ha
  | bump =>
      rw [Sys.trap] at ha
      split at ha
      · split at ha
        · cases ha
          intro q _
          exact (setStage_sameAccounts _ c user (some .last) q).2.trans (bump_p3ticks (s.ptable q))
        · cases ha
      · cases ha
        exact hstay _ _ hrefl
  | last =>
      rw [Sys.trap] at ha
      split at ha
      · exact trapExit_keepsOff ha
      · cases ha
        exact hstay _ _ hrefl

theorem act_keepsOff (ha : s.act e = some a) (he : ∀ c, e ≠ .reset c) : KeepsOff s a := by
  cases e with
  | pass c =>
      have ha := whenFree_some ha
      split at ha
      · cases ha
        exact fun q _ => rfl
      · cases ha
  | timer c user =>
      rw [Sys.act] at ha
      split at ha
      · cases ha
        exact (setStage_sameAccounts s c _ _).keepsOff
      · cases ha
  | trap c =>
      obtain ⟨⟨user, st⟩, -, ha⟩ := Option.bind_eq_some_iff.mp ha
      exact trap_keepsOff ha
  | resume c =>
      obtain ⟨⟨p, lvl⟩, hcur, ha⟩ := Option.bind_eq_some_iff.mp ha
      simp only at ha
      split at ha
      · split at ha
        · rename_i r _ _
          cases ha
          cases r with
          | forkret | yielded | slept => exact SameAccounts.keepsOff (.update rfl rfl)
          | waited => exact waitLoop_keepsOff hcur (.update rfl rfl)
        · cases ha
      · cases ha
  | sleep c chan =>
      obtain ⟨⟨p, lvl⟩, hcur, ha⟩ := Option.bind_eq_some_iff.mp (whenFree_some ha)
      simp only at ha
      split at ha
      · cases ha
      · cases ha
        exact sched_keepsOff (syscaller_current hcur) (.update rfl rfl)
  | wakeup c chan =>
      have ha := whenFree_some ha
      split at ha
      · cases ha
        exact SameAccounts.keepsOff (sameAccounts_wakeup1 chan s.ptable)
      · cases ha
  | kill c pid =>
      obtain ⟨_, -, rfl⟩ := Option.map_eq_some_iff.mp (whenFree_some ha)
      exact SameAccounts.keepsOff (sameAccounts_kill pid s.ptable)
  | exit c =>
      obtain ⟨⟨p, lvl⟩, hcur, ha⟩ := Option.bind_eq_some_iff.mp (whenFree_some ha)
      exact exit_keepsOff (syscaller_current hcur) ha
  | wait c =>
      obtain ⟨⟨p, lvl⟩, hcur, rfl⟩ := Option.map_eq_some_iff.mp (whenFree_some ha)
      exact waitLoop_keepsOff (syscaller_current hcur) fun q => ⟨rfl, rfl⟩
  | fork c =>
      obtain ⟨⟨p, lvl⟩, -, rfl⟩ := Option.map_eq_some_iff.mp (whenFree_some ha)
      exact (fork_sameAccounts s p).keepsOff
  | publish c ok =>
      obtain ⟨⟨p, lvl⟩, -, ha⟩ := Option.bind_eq_some_iff.mp ha
      simp only at ha
      split at ha
      · rename_i np _
        cases ha
        exact (publish_sameAccounts s p np ok).keepsOff
      · cases ha
  | reset c => exact absurd rfl (he c)

/-- Only the end of `fork` writes `p3ticks` of a process that is on no CPU. -/
theorem step_p3ticks (ht : s.step e = some t) (he : ∀ c, e ≠ .reset c) (hoff : Off s q) :
    (t.ptable q).p3ticks = (s.ptable q).p3ticks := by
  obtain ⟨a, ha, rfl⟩ := Option.map_eq_some_iff.mp ht
  have hact := act_keepsOff ha he
  cases a with
  | stay t => exact hact q hoff
  | loop u c l =>
      have hscan := scan_p3ticks u.ticks l u.ptable u.queue q
      rw [Act.finish, loop_ptable]
      exact hscan.trans (hact q hoff)

end

end Cs537.Mlfq
