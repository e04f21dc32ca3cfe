/-
# `Cs537.Mlfq.Starved` — who is promoted by `bump_priority`

`starved` is one bit, which `fork` and `bump_priority` set and every switch to the
process clears.  With the history of the process beside it (`seeWaiting`), the
bit says that the process has been `RUNNABLE` in a call of `bump_priority` since
it last ran; or else it has just been forked, and is at level 0.
-/
import Cs537.Mlfq.Whole

namespace Cs537.Mlfq

open Cs537.Lib

section

variable {n : Nat}

def Note.waiting (note : Note) (runnable waiting : Bool) : Bool :=
  match note with
  | .dispatched | .forked => false
  | .bumped => waiting || runnable
  | .completed _ | .nothing => waiting

/-- Whether a process was `RUNNABLE` in a call of `bump_priority` after which
`scheduler` has not switched to it. -/
def seeWaiting (waiting : Slot → Bool) (s : Sys n) (e : Event n) (_ : Sys n) : Slot → Bool := fun q =>
  (s.wholeNote e q).waiting ((s.ptable q).state = .runnable) (waiting q)

def stepWaiting : Sys n × (Slot → Bool) → Event n → Option (Sys n × (Slot → Bool)) :=
  watch Sys.whole seeWaiting

/-- A call of `bump_priority` raises the processes that are `RUNNABLE`, below level
0 and waiting since an earlier call, by one level, and no others. -/
def RaisesStarved (x : Sys n × (Slot → Bool)) (e : Event n) : Prop :=
  x.1.bumps e = true → ∀ y, stepWaiting x e = some y → ∀ q,
    (y.1.ptable q).priority =
      if (x.1.ptable q).state = .runnable ∧ 1 ≤ (x.1.ptable q).priority ∧ x.2 q = true then
        (x.1.ptable q).priority - 1
      else (x.1.ptable q).priority

/-- A process that has not run since `fork`. -/
structure Newborn (s : Sys n) (q : Slot) : Prop where
  off : Off s q
  starved : (s.ptable q).starved = true
  priority : (s.ptable q).priority = 0
  slice : (s.ptable q).slice 0 = 0

/-- What `starved` says. -/
structure Known (s : Sys n) (w : Bool) (q : Slot) : Prop where
  starved : (s.ptable q).starved = w ∨ w = false ∧ Newborn s q
  running : ∀ c lvl, s.current c = some (q, lvl) → (s.ptable q).starved = false

structure WaitInv (x : Sys n × (Slot → Bool)) : Prop where
  sound : Sound x.1
  fair : ∀ q, Fair x.1 q
  known : ¬ Stuck x.1 → ∀ q, Known x.1 (x.2 q) q

theorem boot_waitInv (n : Nat) : WaitInv (boot n, fun _ => false) where
  sound := boot_sound n
  fair := boot_fair
  known _ _ := ⟨.inl rfl, fun _ _ _ => rfl⟩

variable {s t : Sys n} {q : Slot} {e : Event n} {note : Note} {w : Bool}

theorem Newborn.keep (h : Newborn s q) (hacc : (t.ptable q).account = (s.ptable q).account)
    (hseat : ∀ c lvl, t.current c = some (q, lvl) ↔ s.current c = some (q, lvl)) : Newborn t q where
  off c lvl hc := h.off c lvl ((hseat c lvl).mp hc)
  starved := (congrArg Account.starved hacc).trans h.starved
  priority := (congrArg Account.priority hacc).trans h.priority
  slice := (congrFun (congrArg Account.slice hacc) 0).trans h.slice

theorem Newborn.not_usedUp (h : Newborn s q) : ¬ (s.ptable q).account.UsedUp := fun hused => by
  have hle : quantum (s.ptable q).priority ≤ ((s.ptable q).slice (s.ptable q).priority).toNat := hused.2
  rw [h.priority, h.slice] at hle
  exact absurd hle (by decide)

theorem Known.step (h : Known s w q) (hfate : Fate s t q note) (hforked : note = .forked → Off s q) :
    Known t (note.waiting ((s.ptable q).state = .runnable) w) q := by
  -- an account that is not touched, or whose priority and slices only are
  have hkeep : (t.ptable q).account = (s.ptable q).account →
      (∀ c lvl, t.current c = some (q, lvl) ↔ s.current c = some (q, lvl)) → Known t w q :=
    fun hacc hseat => by
      have hst : (t.ptable q).starved = (s.ptable q).starved := congrArg Account.starved hacc
      refine ⟨?_, fun c lvl hc => hst.trans (h.running c lvl ((hseat c lvl).mp hc))⟩
      rcases h.starved with hw | ⟨hw, hnew⟩
      · exact .inl (hst.trans hw)
      · exact .inr ⟨hw, hnew.keep hacc hseat⟩
  cases hfate with
  | kept hacc hseat => exact hkeep hacc hseat
  | demoted hoff hused hacc hoff' =>
      have hst : (t.ptable q).starved = (s.ptable q).starved := congrArg Account.starved hacc
      refine ⟨?_, fun c lvl hc => absurd hc (hoff' c lvl)⟩
      rcases h.starved with hw | ⟨-, hnew⟩
      · exact .inl (hst.trans hw)
      · exact absurd hused hnew.not_usedUp
  | dispatched c hoff hle hused hacc hseat =>
      have hst : (t.ptable q).starved = false := congrArg Account.starved hacc
      exact ⟨.inl hst, fun _ _ _ => hst⟩
  | completed c lvl hon hone hacc hoff' =>
      have hst : (t.ptable q).starved = (s.ptable q).starved := congrArg Account.starved hacc
      refine ⟨?_, fun c lvl hc => absurd hc (hoff' c lvl)⟩
      rcases h.starved with hw | ⟨-, hnew⟩
      · exact .inl (hst.trans hw)
      · exact absurd hon (hnew.off c lvl)
  | bumped hoff hacc hseat =>
      by_cases hr : (s.ptable q).state = .runnable
      · rw [if_pos hr] at hacc
        have hw : Note.waiting .bumped ((s.ptable q).state = .runnable) w = true := by
          simp [Note.waiting, hr]
        have hst : (t.ptable q).starved = true := by
          rcases (s.ptable q).account.bump_cases with ⟨hst, -, -, hbump⟩ | ⟨-, hbump⟩
          · rw [hbump] at hacc
            exact (congrArg Account.starved hacc).trans hst
          · rw [hbump] at hacc
            exact congrArg Account.starved hacc
        refine ⟨.inl (hst.trans hw.symm), fun c lvl hc => ?_⟩
        exact absurd ((hseat c lvl).mp hc) (hoff hr c lvl)
      · rw [if_neg hr] at hacc
        have hw : Note.waiting .bumped ((s.ptable q).state = .runnable) w = w := by
          simp [Note.waiting, hr]
        rw [hw]
        exact hkeep hacc hseat
  | forked hacc hseat =>
      have hoff : Off t q := fun c lvl hc => hforked rfl c lvl ((hseat c lvl).mp hc)
      refine ⟨.inr ⟨rfl, hoff, ?_, ?_, ?_⟩, fun c lvl hc => absurd hc (hoff c lvl)⟩
      · exact congrArg Account.starved hacc
      · exact congrArg Account.priority hacc
      · exact congrFun (congrArg Account.slice hacc) 0

theorem Stuck.whole (h : Stuck s) (ht : s.whole e = some t) : Stuck t := by
  rcases whole_cases ht with ⟨c, rfl⟩ | ⟨ht, -⟩
  · obtain ⟨u, hu, hut⟩ := Option.bind_eq_some_iff.mp ht
    exact (h.step hu).step hut
  · exact h.step ht

theorem step_waitInv {x y : Sys n × (Slot → Bool)} (h : WaitInv x) (hy : stepWaiting x e = some y) :
    WaitInv y := by
  obtain ⟨hstep, hsee⟩ := watch_eq_some.mp hy
  have hfate := whole_fate h.sound hstep
  refine ⟨h.sound.whole hstep, fun q => (hfate q).fair (h.fair q), fun hno q => ?_⟩
  have hno' : ¬ Stuck x.1 := fun hstuck => hno (hstuck.whole hstep)
  rw [← hsee]
  exact (h.known hno' q).step (hfate q) fun hq =>
    whole_forked (h.sound.resolve_right hno') hstep hq

/-- `bump_priority` is called in the steps of `trap` only. -/
theorem whole_bumped {q : Slot} (hb : s.bumps e = true) (ht : s.whole e = some t) :
    s.wholeNote e q = .bumped ∧ ¬ Stuck s := by
  cases e with
  | trap c =>
      obtain ⟨a, ha, rfl⟩ := Option.map_eq_some_iff.mp (show s.step (.trap c) = some t from ht)
      obtain ⟨hlock, u, rfl⟩ := bumps_act ha hb
      refine ⟨?_, fun hstuck => hstuck.locked hlock⟩
      show s.note (.trap c) q = .bumped
      have hinit : s.initialises (.trap c) = none := rfl
      rw [note_stay ha, hinit, if_neg nofun, if_pos hb]
  | _ => cases hb

/-- On every run in which `fork` initialises the child in one step, each call of
`bump_priority` raises just the starved processes. -/
theorem starved_run (n : Nat) (es : List (Event n)) :
    AllTried stepWaiting RaisesStarved (boot n, fun _ => false) es := by
  have hinv : AllStates stepWaiting WaitInv (boot n, fun _ => false) es :=
    allStates_of_step (fun _ _ _ h hy => step_waitInv h hy) (boot_waitInv n)
  refine hinv.tried fun x e h hb y hy q => ?_
  obtain ⟨hstep, -⟩ := watch_eq_some.mp hy
  obtain ⟨hnote, hno⟩ := whole_bumped (q := q) hb hstep
  have hfate := whole_fate h.sound hstep q
  rw [hnote] at hfate
  cases hfate with
  | bumped hoff hacc hseat =>
      by_cases hr : (x.1.ptable q).state = .runnable
      · rw [if_pos hr] at hacc
        have hle := (h.fair q).priority
        have hknown := (h.known hno q).starved
        rcases (x.1.ptable q).account.bump_cases with ⟨hst, hpos, -, hbump⟩ | ⟨hlow, hbump⟩
        · rw [hbump] at hacc
          have hpos : 1 ≤ (x.1.ptable q).priority := hpos
          have hw : x.2 q = true := by
            rcases hknown with hw | ⟨-, hnew⟩
            · exact hw.symm.trans hst
            · have hzero := hnew.priority
              omega
          rw [if_pos ⟨hr, hpos, hw⟩]
          exact congrArg Account.priority hacc
        · rw [hbump] at hacc
          have hnot : 1 ≤ (x.1.ptable q).priority → x.2 q ≠ true := fun hpos hw => by
            rcases hknown with hst | ⟨hfalse, -⟩
            · exact hlow (hst.trans hw) ⟨hpos, hle⟩
            · rw [hfalse] at hw
              cases hw
          rw [if_neg fun h => hnot h.2.1 h.2.2]
          exact congrArg Account.priority hacc
      · rw [if_neg hr] at hacc
        rw [if_neg fun h => hr h.1]
        exact congrArg Account.priority hacc

end

end Cs537.Mlfq
