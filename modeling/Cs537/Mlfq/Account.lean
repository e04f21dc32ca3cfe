/-
# `Cs537.Mlfq.Account` — what a step does to the account of a process

`scheduler`, `bump_priority` and `fork` keep `priority`, `ticks`, `slice` and
`starved` of a process; nothing else writes them.  A step is seen by a process
in one of five ways (`Note`), and this says what happens to its account and to
its place on a CPU (`Fate`):

    dispatched    scheduler switches to it          starved is cleared
    completed     it comes back to scheduler        one more tick, and slice
    bumped        bump_priority is called           one level up if it starved
    forked        fork initialises it               all anew
    nothing       else                              a level down, or as it was

`fate` holds of every step of every run.
-/
import Cs537.Mlfq.Seats

namespace Cs537.Mlfq

open Cs537.Lib

/-! ## Accounts -/

structure Account where
  priority : Nat
  ticks : Nat → BitVec 32
  slice : Nat → BitVec 32
  starved : Bool

def Proc.account (p : Proc) : Account := ⟨p.priority, p.ticks, p.slice, p.starved⟩

def Table.accounts (T : Table) : Slot → Account := fun p => (T p).account

namespace Account

def charge (a : Account) (lvl : Nat) : Account :=
  { a with
    ticks := Function.update a.ticks lvl (a.ticks lvl + 1)
    slice := Function.update a.slice lvl (a.slice lvl + 1) }

def demote (a : Account) : Account := { a with priority := a.priority + 1 }

def start (a : Account) : Account := { a with starved := false }

/-- The account that `fork` makes. -/
def fresh : Account := ⟨0, fun _ => 0, fun _ => 0, true⟩

def raise (a : Account) : Account :=
  { a with
    priority := a.priority - 1
    slice := Function.update a.slice (a.priority - 1) 0 }

/-- `bump_priority`, for a process that is `RUNNABLE`. -/
def bump (a : Account) : Account :=
  if a.starved then if a.priority = 1 ∨ a.priority = 2 ∨ a.priority = 3 then a.raise else a
  else { a with starved := true }

theorem bump_cases (a : Account) :
    (a.starved = true ∧ 1 ≤ a.priority ∧ a.priority ≤ 3 ∧ a.bump = a.raise) ∨
      ((a.starved = true → ¬ (1 ≤ a.priority ∧ a.priority ≤ 3)) ∧ a.bump = { a with starved := true }) := by
  by_cases hst : a.starved = true
  · by_cases hp : a.priority = 1 ∨ a.priority = 2 ∨ a.priority = 3
    · exact .inl ⟨hst, by omega, by omega, (if_pos hst).trans (if_pos hp)⟩
    · refine .inr ⟨fun _ => by omega, (if_pos hst).trans ((if_neg hp).trans ?_)⟩
      rw [← hst]
  · exact .inr ⟨fun h => absurd h hst, if_neg hst⟩

/-- All slices at the level have been used. -/
def UsedUp (a : Account) : Prop := a.priority < 3 ∧ quantum a.priority ≤ (a.slice a.priority).toNat

instance (a : Account) : Decidable a.UsedUp := inferInstanceAs (Decidable (_ ∧ _))

end Account

section

variable {T T' : Table} {p q : Slot} {lvl : Nat}

theorem accounts_update {x : Proc} :
    Table.accounts (Function.update T p x) = Function.update T.accounts p x.account := by
  funext q
  rw [Table.accounts]
  by_cases hq : q = p
  · rw [hq, Function.update_self, Function.update_self]
  · rw [Function.update_of_ne hq, Function.update_of_ne hq]
    rfl

/-- One process changes, and keeps its account. -/
theorem accounts_keep {x : Proc} (hx : x.account = (T p).account) :
    Table.accounts (Function.update T p x) = T.accounts := by
  rw [accounts_update, hx]
  exact Function.update_eq_self p T.accounts

/-- Nobody is charged. -/
def SameAccounts (T T' : Table) : Prop :=
  ∀ q, (T' q).account = (T q).account ∧ (T' q).p3ticks = (T q).p3ticks

theorem SameAccounts.accounts (h : SameAccounts T T') : T'.accounts = T.accounts :=
  funext fun q => (h q).1

theorem SameAccounts.trans {T'' : Table} (h : SameAccounts T T') (h' : SameAccounts T' T'') :
    SameAccounts T T'' := fun q => ⟨(h' q).1.trans (h q).1, (h' q).2.trans (h q).2⟩

theorem SameAccounts.update {x : Proc} (hx : x.account = (T p).account)
    (hp3 : x.p3ticks = (T p).p3ticks) : SameAccounts T (Function.update T p x) := fun q => by
  by_cases hq : q = p
  · rw [hq, Function.update_self]
    exact ⟨hx, hp3⟩
  · rw [Function.update_of_ne hq]
    exact ⟨rfl, rfl⟩

theorem sameAccounts_wakeup1 (chan : Chan) (T : Table) : SameAccounts T (wakeup1 chan T) := fun q => by
  rw [wakeup1]
  split
  · exact ⟨rfl, rfl⟩
  · exact ⟨rfl, rfl⟩

theorem sameAccounts_wakeParent (p : Slot) (T : Table) : SameAccounts T (wakeParent p T) := by
  rw [wakeParent]
  split
  · exact sameAccounts_wakeup1 _ T
  · exact fun q => ⟨rfl, rfl⟩

theorem sameAccounts_abandon (p : Slot) (T : Table) : SameAccounts T (abandon p T) := by
  have hparent : SameAccounts T fun q =>
      if (T q).parent = some p then { T q with parent := some initproc } else T q := fun q => by
    dsimp only
    split
    · exact ⟨rfl, rfl⟩
    · exact ⟨rfl, rfl⟩
  rw [abandon]
  split
  · exact hparent.trans (sameAccounts_wakeup1 _ _)
  · exact hparent

theorem sameAccounts_kill (pid : Int) (T : Table) : SameAccounts T (kill pid T) := by
  rw [kill]
  split
  · exact fun q => ⟨rfl, rfl⟩
  · dsimp only
    split
    · exact .update rfl rfl
    · exact .update rfl rfl

theorem accounts_back (lvl : Nat) (p : Slot) (T : Table) (Q : Queue) :
    (back lvl p T Q).1.accounts = Function.update T.accounts p ((T.accounts p).charge lvl) := by
  rw [back]
  split
  · split
    · exact accounts_update
    · exact accounts_update
  · exact accounts_update

theorem bump_account (p : Proc) :
    (bump p).1.account = if p.state = .runnable then p.account.bump else p.account := by
  rw [bump, Account.bump]
  by_cases hr : p.state = .runnable
  · rw [if_neg (not_not.mpr hr), if_pos hr]
    show _ = if p.starved = true then _ else _
    split
    · show _ = if p.priority = 1 ∨ p.priority = 2 ∨ p.priority = 3 then _ else _
      split
      · rfl
      · rfl
    · rfl
  · rw [if_pos hr, if_neg hr]

theorem passed_account (p : Proc) :
    p.passed.account = if p.state = .runnable ∧ p.account.UsedUp then p.account.demote else p.account := by
  rw [Proc.passed]
  by_cases h : p.state = .runnable ∧ p.UsedUp
  · rw [if_pos h, if_pos (show p.state = .runnable ∧ p.account.UsedUp from h)]
    rfl
  · rw [if_neg h, if_neg (show ¬ (p.state = .runnable ∧ p.account.UsedUp) from h)]

/-- The slots behind `p` are other ones. -/
theorem not_mem_drop (p : Slot) : p ∉ (List.finRange nproc).drop (p.val + 1) := fun hp => by
  obtain ⟨i, hi, heq⟩ := List.mem_drop_iff_getElem.mp hp
  have hval := congrArg Fin.val heq
  simp at hval
  omega

end

/-! ## What is seen of a step -/

inductive Note where
  | nothing
  | dispatched
  | completed (lvl : Nat)
  | bumped
  | forked
  deriving DecidableEq

section

variable {n : Nat}

/-- The step calls `bump_priority`. -/
def Sys.bumps (s : Sys n) : Event n → Bool
  | .trap c => match s.stage c with
    | some (_, .bump) => s.ticks.toNat % 100 = 0
    | _ => false
  | _ => false

/-- The child that the step initialises in `fork`. -/
def Sys.initialises (s : Sys n) : Event n → Option Slot
  | .reset c => (s.caller c).bind fun (p, _) => match (s.ptable p).child with
    | some (np, true) => some np
    | _ => none
  | _ => none

/-- What the process in slot `q` sees of a step.  The step enters the loop of
`scheduler` when a CPU begins a pass, or comes back from a process. -/
def Sys.note (s : Sys n) (e : Event n) (q : Slot) : Note :=
  match s.act e with
  | some (.loop t c l) =>
      if (scan t.ticks l t.ptable t.queue).1 = some q then .dispatched
      else match s.current c with
        | some (p, lvl) => if p = q then .completed lvl else .nothing
        | none => .nothing
  | _ => if s.initialises e = some q then .forked else if s.bumps e then .bumped else .nothing

variable {s t : Sys n} {c : Fin n} {p q : Slot} {lvl : Nat} {e : Event n} {a : Act n}

theorem note_stay (ha : s.act e = some (.stay t)) (q : Slot) : s.note e q =
    if s.initialises e = some q then .forked else if s.bumps e then .bumped else .nothing := by
  rw [Sys.note, ha]

theorem note_loop {l : List Slot} (ha : s.act e = some (.loop t c l)) (q : Slot) : s.note e q =
    if (scan t.ticks l t.ptable t.queue).1 = some q then .dispatched
    else match s.current c with
      | some (p, lvl) => if p = q then .completed lvl else .nothing
      | none => .nothing := by
  rw [Sys.note, ha]

/-! ## Up to the loop -/

/-- The accounts after a step, up to the loop. -/
inductive Effect (s : Sys n) (e : Event n) : Act n → Prop
  | still {t : Sys n} (hacc : t.ptable.accounts = s.ptable.accounts) (hcpu : t.current = s.current)
      (hinit : s.initialises e = none) (hbump : s.bumps e = false) : Effect s e (.stay t)
  | bump {t : Sys n} (hacc : ∀ q, (t.ptable q).account = (Mlfq.bump (s.ptable q)).1.account)
      (hcpu : t.current = s.current) (hinit : s.initialises e = none) (hbump : s.bumps e = true) :
      Effect s e (.stay t)
  | init {t : Sys n} {np : Slot} (hacc : t.ptable.accounts = Function.update s.ptable.accounts np .fresh)
      (hcpu : t.current = s.current) (hinit : s.initialises e = some np) (hbump : s.bumps e = false) :
      Effect s e (.stay t)
  | pass {l : List Slot} (hcpu : s.current e.cpu = none) : Effect s e (.loop s e.cpu l)
  | back {t : Sys n} {p : Slot} {lvl : Nat} {l : List Slot} (hon : s.current e.cpu = some (p, lvl))
      (hacc : t.ptable.accounts = Function.update s.ptable.accounts p ((s.ptable p).account.charge lvl))
      (hcpu : t.current = s.current) (hp : p ∉ l) : Effect s e (.loop t e.cpu l)

theorem sched_effect (he : e.cpu = c) (hon : s.current c = some (p, lvl))
    (hcpu : t.current = s.current) (hacc : t.ptable.accounts = s.ptable.accounts) :
    Effect s e (t.sched c p lvl) := by
  subst he
  refine .back hon ?_ hcpu ?_
  · show (Mlfq.back lvl p t.ptable t.queue).1.accounts = _
    rw [accounts_back, hacc]
    rfl
  · split
    · exact List.not_mem_nil
    · exact not_mem_drop p

theorem exit_effect (he : e.cpu = c) (hon : s.current c = some (p, lvl))
    (ha : s.exit c p lvl = some a) : Effect s e a := by
  rw [Sys.exit] at ha
  split at ha
  · cases ha
  · obtain rfl := Option.some.inj ha
    refine sched_effect he hon rfl ((accounts_keep ?_).trans ?_)
    · rfl
    · exact ((sameAccounts_wakeParent p _).trans (sameAccounts_abandon p _)).accounts

theorem trapExit_effect (he : e.cpu = c) (ha : s.trapExit c = some a) : Effect s e a := by
  obtain ⟨⟨p, lvl⟩, hcur, ha⟩ := Option.bind_eq_some_iff.mp ha
  simp only at ha
  split at ha
  · exact exit_effect he hcur ha
  · cases ha

theorem waitLoop_effect (he : e.cpu = c) (hon : s.current c = some (p, lvl)) (hcpu : t.current = s.current)
    (hacc : t.ptable.accounts = s.ptable.accounts) (hinit : s.initialises e = none)
    (hbump : s.bumps e = false) : Effect s e (t.waitLoop c p lvl) := by
  rw [Sys.waitLoop]
  split
  · refine .still ?_ hcpu hinit hbump
    refine (accounts_keep ?_).trans ((accounts_keep ?_).trans hacc)
    · rfl
    · rfl
  · split
    · refine .still ((accounts_keep ?_).trans hacc) hcpu hinit hbump
      rfl
    · refine sched_effect he hon hcpu ((accounts_keep ?_).trans hacc)
      rfl

theorem setPc_sameAccounts (s : Sys n) (p : Slot) (pc : Pc) :
    SameAccounts s.ptable (s.setPc p pc).ptable := .update rfl rfl

theorem setStage_sameAccounts (s : Sys n) (c : Fin n) (user : Bool) (stage : Option Stage) :
    SameAccounts s.ptable (s.setStage c user stage).ptable := by
  unfold Sys.setStage
  split
  · exact setPc_sameAccounts s _ _
  · exact setPc_sameAccounts s _ _
  · exact fun q => ⟨rfl, rfl⟩
  · exact fun q => ⟨rfl, rfl⟩

theorem trap_effect {user : Bool} {st : Stage} (hst : s.stage c = some (user, st))
    (ha : s.trap c user st = some a) : Effect s (.trap c) a := by
  have hquiet : ∀ (t : Sys n) (stage : Option Stage), t.ptable.accounts = s.ptable.accounts →
      t.current = s.current → s.bumps (.trap c) = false →
      Effect s (.trap c) (.stay (t.setStage c user stage)) := fun t stage hacc hcpu hbump =>
    .still ((setStage_sameAccounts t c user stage).accounts.trans hacc)
      ((setStage_same t c user stage).current.trans hcpu) rfl hbump
  have hnot : st ≠ .bump → s.bumps (.trap c) = false := fun hne => by
    rw [Sys.bumps, hst]
    cases st with
    | bump => exact absurd rfl hne
    | tick | check | yield | last => rfl
  cases st with
  | tick =>
      have hbump := hnot (by decide)
      rw [Sys.trap] at ha
      split at ha
      · split at ha
        · cases ha
          exact hquiet _ _ (sameAccounts_wakeup1 .ticks s.ptable).accounts rfl hbump
        · cases ha
      · cases ha
        exact hquiet _ _ rfl rfl hbump
  | check =>
      have hbump := hnot (by decide)
      rw [Sys.trap] at ha
      split at ha
      · exact trapExit_effect rfl ha
      · split at ha
        · cases ha
          exact hquiet _ _ rfl rfl hbump
        · cases ha
          exact hquiet _ _ rfl rfl hbump
  | yield =>
      have hbump := hnot (by decide)
      rw [Sys.trap] at ha
      split at ha
      · obtain ⟨q, -, rfl⟩ := Option.map_eq_some_iff.mp ha
        simp only
        split
        · rename_i p lvl hon
          refine sched_effect rfl (current_of_on hon) rfl ((accounts_keep ?_).trans (accounts_keep ?_))
          · rfl
          · rfl
        · rename_i hno
          have hsame : SameCpus s (s.setAt c .wild) :=
            .setAt (current_none hno) fun p lvl he => by cases he
          exact .still (accounts_keep rfl) hsame.current rfl hbump
      · cases ha
  | bump =>
      rw [Sys.trap] at ha
      split at ha
      · rename_i hticks
        have hbump : s.bumps (.trap c) = true := by
          rw [Sys.bumps, hst]
          exact decide_eq_true hticks
        split at ha
        · cases ha
          refine .bump (fun q => ?_) (setStage_same _ c user _).current rfl hbump
          exact (setStage_sameAccounts _ c user (some .last) q).1
        · cases ha
      · rename_i hticks
        have hbump : s.bumps (.trap c) = false := by
          rw [Sys.bumps, hst]
          exact decide_eq_false hticks
        cases ha
        exact hquiet _ _ rfl rfl hbump
  | last =>
      have hbump := hnot (by decide)
      rw [Sys.trap] at ha
      split at ha
      · exact trapExit_effect rfl ha
      · cases ha
        exact hquiet _ _ rfl rfl hbump

theorem fork_sameAccounts (s : Sys n) (p : Slot) : SameAccounts s.ptable (s.fork p).ptable := by
  rw [Sys.fork, Sys.allocproc]
  split
  · rename_i h
    split at h
    · cases h
      exact fun q => ⟨rfl, rfl⟩
    · cases h
  · rename_i h
    split at h
    · cases h
    · cases h
      refine SameAccounts.trans (.update ?_ ?_) (.update ?_ ?_)
      · rfl
      · rfl
      · rfl
      · rfl

theorem publish_sameAccounts (s : Sys n) (p np : Slot) (ok : Bool) :
    SameAccounts s.ptable (s.publish p np ok).ptable := by
  rw [Sys.publish]
  split
  · refine SameAccounts.trans (.update ?_ ?_) (.update ?_ ?_)
    · rfl
    · rfl
    · rfl
    · rfl
  · refine SameAccounts.trans (.update ?_ ?_) (.update ?_ ?_)
    · rfl
    · rfl
    · rfl
    · rfl

theorem reset_accounts (s : Sys n) (p np : Slot) : (s.reset p np).ptable.accounts =
    Function.update s.ptable.accounts np .fresh := by
  refine (accounts_keep ?_).trans accounts_update
  rfl

theorem act_effect (ha : s.act e = some a) : Effect s e a := by
  cases e with
  | pass c =>
      have ha := whenFree_some ha
      split at ha
      · rename_i hidle
        cases ha
        exact .pass (current_none fun p lvl => hidle ▸ nofun)
      · cases ha
  | timer c user =>
      rw [Sys.act] at ha
      split at ha
      · cases ha
        exact .still (setStage_sameAccounts s c _ _).accounts (setStage_same s c _ _).current rfl rfl
      · cases ha
  | trap c =>
      obtain ⟨⟨user, st⟩, hst, ha⟩ := Option.bind_eq_some_iff.mp ha
      exact trap_effect hst ha
  | resume c =>
      obtain ⟨⟨p, lvl⟩, hcur, ha⟩ := Option.bind_eq_some_iff.mp ha
      simp only at ha
      split at ha
      · split at ha
        · rename_i r _ _
          cases ha
          cases r with
          | forkret | yielded | slept => exact .still (accounts_keep rfl) rfl rfl rfl
          | waited => exact waitLoop_effect rfl hcur rfl (accounts_keep rfl) rfl rfl
        · cases ha
      · cases ha
  | sleep c chan =>
      obtain ⟨⟨p, lvl⟩, hcur, ha⟩ := Option.bind_eq_some_iff.mp (whenFree_some ha)
      simp only at ha
      split at ha
      · cases ha
      · cases ha
        exact sched_effect rfl (syscaller_current hcur) rfl (accounts_keep rfl)
  | wakeup c chan =>
      have ha := whenFree_some ha
      split at ha
      · cases ha
        exact .still (sameAccounts_wakeup1 chan s.ptable).accounts rfl rfl rfl
      · cases ha
  | kill c pid =>
      obtain ⟨_, -, rfl⟩ := Option.map_eq_some_iff.mp (whenFree_some ha)
      exact .still (sameAccounts_kill pid s.ptable).accounts rfl rfl rfl
  | exit c =>
      obtain ⟨⟨p, lvl⟩, hcur, ha⟩ := Option.bind_eq_some_iff.mp (whenFree_some ha)
      exact exit_effect rfl (syscaller_current hcur) ha
  | wait c =>
      obtain ⟨⟨p, lvl⟩, hcur, rfl⟩ := Option.map_eq_some_iff.mp (whenFree_some ha)
      exact waitLoop_effect rfl (syscaller_current hcur) rfl rfl rfl rfl
  | fork c =>
      obtain ⟨⟨p, lvl⟩, -, rfl⟩ := Option.map_eq_some_iff.mp (whenFree_some ha)
      exact .still (fork_sameAccounts s p).accounts (SameCpus.of_eq (fork_cpu s p)).current rfl rfl
  | publish c ok =>
      obtain ⟨⟨p, lvl⟩, -, ha⟩ := Option.bind_eq_some_iff.mp ha
      simp only at ha
      split at ha
      · rename_i np _
        cases ha
        have hsame := (publish_sameAccounts s p np ok).accounts
        exact .still hsame (SameCpus.of_eq (publish_cpu s p np ok)).current rfl rfl
      · cases ha
  | reset c =>
      obtain ⟨⟨p, lvl⟩, hcur, ha⟩ := Option.bind_eq_some_iff.mp ha
      simp only at ha
      split at ha
      · rename_i np hch
        cases ha
        refine .init (reset_accounts s p np) rfl ?_ rfl
        rw [Sys.initialises, hcur]
        simp only [Option.bind_some, hch]
      · cases ha

/-! ## The loop -/

/-- The loop switches to a process, demotes it, or leaves its account alone. -/
theorem scan_account {now : BitVec 32} {l : List Slot} {T T' : Table} {Q Q' : Queue} {r : Option Slot}
    (hnd : l.Nodup) (h : scan now l T Q = (r, T', Q')) (q : Slot) :
    (r = some q ∧ q ∈ l ∧ (T q).state = .runnable ∧ (T q).priority ≤ 3 ∧ ¬ (T q).account.UsedUp ∧
        (T' q).account = (T q).account.start) ∨
      (r ≠ some q ∧ q ∈ l ∧ (T q).state = .runnable ∧ (T q).account.UsedUp ∧
        (T' q).account = (T q).account.demote) ∨
      (r ≠ some q ∧ (T' q).account = (T q).account) := by
  have hpassed : ∀ m : List Slot, m ⊆ l → r ≠ some q →
      (r ≠ some q ∧ q ∈ l ∧ (T q).state = .runnable ∧ (T q).account.UsedUp ∧
        (T.passedAll m q).account = (T q).account.demote) ∨
      (r ≠ some q ∧ (T.passedAll m q).account = (T q).account) := fun m hm hr => by
    rw [Table.passedAll]
    by_cases hq : q ∈ m
    · rw [if_pos hq, passed_account]
      by_cases hu : (T q).state = .runnable ∧ (T q).account.UsedUp
      · rw [if_pos hu]
        exact .inl ⟨hr, hm hq, hu.1, hu.2, rfl⟩
      · rw [if_neg hu]
        exact .inr ⟨hr, rfl⟩
    · rw [if_neg hq]
      exact .inr ⟨hr, rfl⟩
  cases r with
  | none =>
      have hnone : T' = T.passedAll l := by
        rcases first_or_none T Q l with ⟨pre, p, post, rfl, hp⟩ | hno
        · obtain ⟨Q₁, hscan⟩ : ∃ Q₁, scan now (pre ++ p :: post) T Q =
            (some p, (T.passedAll pre).start now p, Q₁) := scan_first hnd hp
          rw [hscan] at h
          cases h
        · rw [scan_none hnd hno] at h
          cases h
          rfl
      subst hnone
      exact .inr (hpassed l (List.Subset.refl l) fun he => by cases he)
  | some p =>
      obtain ⟨pre, post, rfl, hfirst, rfl⟩ := scan_some hnd h
      have hpre : p ∉ pre := fun hm => (List.nodup_append.mp hnd).2.2 p hm p List.mem_cons_self rfl
      by_cases hq : q = p
      · subst hq
        obtain ⟨hr, hready⟩ := hfirst.1
        refine .inl ⟨rfl, by simp, hr, ?_, ?_, ?_⟩
        · rcases hready with ⟨hlt, -⟩ | ⟨heq, -⟩
          · exact Nat.le_of_lt hlt
          · exact Nat.le_of_eq heq
        · rcases hready with ⟨-, hu⟩ | ⟨heq, -⟩
          · exact hu
          · exact fun hu => absurd heq (Nat.ne_of_lt hu.1)
        · rw [Table.start, Function.update_self, Table.passedAll, if_neg hpre]
          rfl
      · have hne : some p ≠ some q := fun he => hq (Option.some.inj he).symm
        rw [Table.start, Function.update_of_ne hq]
        exact .inr (hpassed pre (List.subset_append_left pre (p :: post)) hne)

/-! ## A step, for one process -/

/-- The process is on no CPU. -/
def Off (s : Sys n) (q : Slot) : Prop := ∀ c lvl, s.current c ≠ some (q, lvl)

/-- What happens to the process in slot `q` in a step from `s` to `t`. -/
inductive Fate (s t : Sys n) (q : Slot) : Note → Prop
  | kept (hacc : (t.ptable q).account = (s.ptable q).account)
      (hseat : ∀ c lvl, t.current c = some (q, lvl) ↔ s.current c = some (q, lvl)) : Fate s t q .nothing
  | demoted (hoff : Off s q) (hused : (s.ptable q).account.UsedUp)
      (hacc : (t.ptable q).account = (s.ptable q).account.demote) (hoff' : Off t q) : Fate s t q .nothing
  | dispatched (c : Fin n) (hoff : Off s q) (hle : (s.ptable q).priority ≤ 3)
      (hused : ¬ (s.ptable q).account.UsedUp) (hacc : (t.ptable q).account = (s.ptable q).account.start)
      (hseat : ∀ d lvl, t.current d = some (q, lvl) ↔ d = c ∧ lvl = (s.ptable q).priority) :
      Fate s t q .dispatched
  | completed (c : Fin n) (lvl : Nat) (hon : s.current c = some (q, lvl))
      (hone : ∀ d lvl', s.current d = some (q, lvl') → d = c)
      (hacc : (t.ptable q).account = (s.ptable q).account.charge lvl) (hoff' : Off t q) :
      Fate s t q (.completed lvl)
  | bumped (hoff : (s.ptable q).state = .runnable → Off s q)
      (hacc : (t.ptable q).account =
        if (s.ptable q).state = .runnable then (s.ptable q).account.bump else (s.ptable q).account)
      (hseat : ∀ c lvl, t.current c = some (q, lvl) ↔ s.current c = some (q, lvl)) : Fate s t q .bumped
  | forked (hacc : (t.ptable q).account = .fresh)
      (hseat : ∀ c lvl, t.current c = some (q, lvl) ↔ s.current c = some (q, lvl)) : Fate s t q .forked

theorem Seated.off (h : Seated s) (hr : (s.ptable q).state ≠ .running) : Off s q := fun c lvl hc =>
  hr (h.on c q lvl hc).2

/-- A child that `fork` has not made `RUNNABLE` is on no CPU. -/
theorem Seated.child_off (h : Seated s) (hch : (s.ptable p).child = some (q, false)) : Off s q :=
  h.off fun hr => by
    rw [h.forks.embryo p q hch] at hr
    cases hr

theorem loop_current_self {l : List Slot} {T : Table} {Q : Queue} {r : Option Slot}
    (h : scan t.ticks l t.ptable t.queue = (r, T, Q)) :
    (t.loop c l).current c = r.map fun p => (p, (t.ptable p).priority) := by
  cases r with
  | none =>
      rw [loop_none h]
      exact current_idle
  | some p =>
      rw [loop_some h]
      exact current_of_on (by simp [Sys.setCpu])

theorem loop_current_of_ne {l : List Slot} {d : Fin n} (hd : d ≠ c) :
    (t.loop c l).current d = t.current d := by
  rcases h : scan t.ticks l t.ptable t.queue with ⟨r, T, Q⟩
  cases r with
  | none =>
      rw [loop_none h]
      exact current_setAt_of_ne hd
  | some p =>
      rw [loop_some h]
      have hcell : (t.setCpu c ⟨some p, .on p (t.ptable p).priority⟩).cpu d = t.cpu d :=
        Function.update_of_ne hd ..
      rw [Sys.current, Sys.current, hcell]

theorem loop_ptable {l : List Slot} : (t.loop c l).ptable = (scan t.ticks l t.ptable t.queue).2.1 := by
  rcases h : scan t.ticks l t.ptable t.queue with ⟨r, T, Q⟩
  cases r with
  | none => rw [loop_none h]
  | some p => rw [loop_some h]

/-! ## Stuck -/

theorem Stuck.keep (h : Stuck s) (hlock : t.lock = s.lock)
    (hwild : ∀ d, (s.cpu d).stack = .wild → (t.cpu d).stack = .wild) : Stuck t := by
  obtain ⟨d, hd, hw⟩ := h
  exact ⟨d, hlock.trans hd, hwild d hw⟩

theorem Stuck.locked (h : Stuck s) : s.lock ≠ none := by
  obtain ⟨d, hd, -⟩ := h
  rw [hd]
  exact nofun

theorem Stuck.whenFree {α : Type} {x : Option α} (h : Stuck s) : s.whenFree x = none :=
  if_neg h.locked

theorem Stuck.setStage {user : Bool} {stage : Option Stage} (h : Stuck s) (hc : (s.cpu c).stack ≠ .wild) :
    Stuck (s.setStage c user stage) := by
  have hset : ∀ x : At, Stuck (s.setAt c x) := fun x => h.keep rfl fun d hd => by
    have hdc : d ≠ c := fun he => hc (he ▸ hd)
    have hcell : (s.setAt c x).cpu d = s.cpu d := Function.update_of_ne hdc ..
    rw [hcell]
    exact hd
  unfold Sys.setStage
  split
  · exact h.keep rfl fun _ => id
  · exact h.keep rfl fun _ => id
  · exact hset _
  · exact hset _

theorem stage_calm {x : Bool × Stage} (h : s.stage c = some x) : (s.cpu c).stack ≠ .wild := fun hw => by
  rw [Sys.stage, hw] at h
  cases h

theorem open_calm (h : s.open c = true) : (s.cpu c).stack ≠ .wild := fun hw => by
  simp [Sys.open, Sys.caller, Sys.current, hw] at h

theorem Stuck.trap {user : Bool} {st : Stage} (h : Stuck s) (hst : s.stage c = some (user, st))
    (ha : s.trap c user st = some a) : ∃ t, a = .stay t ∧ Stuck t := by
  have hstay : ∀ stage, Stuck (s.setStage c user stage) := fun _ => h.setStage (stage_calm hst)
  have hexit : s.trapExit c = none := by
    rw [Sys.trapExit]
    cases s.current c with
    | none => rfl
    | some x => exact if_neg h.locked
  cases st with
  | tick =>
      rw [Sys.trap, if_neg h.locked] at ha
      split at ha
      · cases ha
      · cases ha
        exact ⟨_, rfl, hstay _⟩
  | check =>
      rw [Sys.trap, hexit] at ha
      split at ha
      · cases ha
      · split at ha
        · cases ha
          exact ⟨_, rfl, hstay _⟩
        · cases ha
          exact ⟨_, rfl, hstay _⟩
  | yield =>
      rw [Sys.trap, if_neg h.locked] at ha
      cases ha
  | bump =>
      rw [Sys.trap, if_neg h.locked] at ha
      split at ha
      · cases ha
      · cases ha
        exact ⟨_, rfl, hstay _⟩
  | last =>
      rw [Sys.trap, hexit] at ha
      split at ha
      · cases ha
      · cases ha
        exact ⟨_, rfl, hstay _⟩

/-- Nothing is scheduled any more. -/
theorem Stuck.act (h : Stuck s) (ha : s.act e = some a) : ∃ t, a = .stay t ∧ Stuck t := by
  cases e with
  | pass c | sleep c chan | wakeup c chan | kill c pid | exit c | wait c | fork c =>
      rw [Sys.act, h.whenFree] at ha
      cases ha
  | timer c user =>
      rw [Sys.act] at ha
      split at ha
      · rename_i hopen
        cases ha
        exact ⟨_, rfl, h.setStage (open_calm hopen)⟩
      · cases ha
  | trap c =>
      obtain ⟨⟨user, st⟩, hst, ha⟩ := Option.bind_eq_some_iff.mp ha
      exact h.trap hst ha
  | resume c =>
      obtain ⟨⟨p, lvl⟩, hcur, ha⟩ := Option.bind_eq_some_iff.mp ha
      simp only at ha
      split at ha
      · split at ha
        · rename_i hlock
          obtain ⟨d, hd, hw⟩ := h
          obtain rfl := Option.some.inj (hlock.symm.trans hd)
          rw [Sys.current, hw] at hcur
          cases hcur
        · cases ha
      · cases ha
  | publish c ok =>
      obtain ⟨⟨p, lvl⟩, -, ha⟩ := Option.bind_eq_some_iff.mp ha
      simp only at ha
      split at ha
      · rename_i np _
        cases ha
        refine ⟨_, rfl, h.keep ?_ fun d hd => ?_⟩
        · cases ok with
          | true => rfl
          | false => rfl
        · rw [publish_cpu]
          exact hd
      · cases ha
  | reset c =>
      obtain ⟨⟨p, lvl⟩, -, ha⟩ := Option.bind_eq_some_iff.mp ha
      simp only at ha
      split at ha
      · cases ha
        exact ⟨_, rfl, h.keep rfl fun _ => id⟩
      · cases ha

/-! ## Every step -/

/-- A process has a CPU of its own, or nothing is scheduled any more. -/
def Sound (s : Sys n) : Prop := Seated s ∨ Stuck s

theorem boot_sound (n : Nat) : Sound (boot n) := .inl (boot_seated n)

theorem Sound.step (h : Sound s) (ht : s.step e = some t) : Sound t := by
  obtain ⟨a, ha, rfl⟩ := Option.map_eq_some_iff.mp ht
  rcases h with h | h
  · have hact := act_seated h ha
    cases a with
    | stay t => exact hact
    | loop t c l =>
        obtain ⟨rfl, hseated⟩ := hact
        exact .inl hseated.loop
  · obtain ⟨t, rfl, hstuck⟩ := h.act ha
    exact .inr hstuck

/-- `bump_priority` takes the lock, and does not enter the loop. -/
theorem bumps_act (ha : s.act e = some a) (hb : s.bumps e = true) :
    s.lock = none ∧ ∃ t, a = .stay t := by
  cases e with
  | trap c =>
      obtain ⟨⟨user, st⟩, hst, ha⟩ := Option.bind_eq_some_iff.mp ha
      rw [Sys.bumps, hst] at hb
      cases st with
      | bump =>
          have ha : s.trap c user .bump = some a := ha
          rw [Sys.trap, if_pos (of_decide_eq_true hb)] at ha
          split at ha
          · cases ha
            exact ⟨‹_›, _, rfl⟩
          · cases ha
      | tick | check | yield | last => cases hb
  | _ => cases hb

/-- The fate of a process in the loop, which CPU `c` has entered at `u`. -/
theorem loop_fate {u : Sys n} {l : List Slot} (h : Seated s) (ha : s.act e = some (.loop u c l))
    (q : Slot) : Fate s (u.loop c l) q (s.note e q) := by
  obtain ⟨rfl, hseated⟩ := act_seated h ha
  have hnd : l.Nodup := act_once ha
  rcases hscan : scan u.ticks l u.ptable u.queue with ⟨r, T, Q⟩
  have hT : (u.loop e.cpu l).ptable = T := by rw [loop_ptable, hscan]
  have hself := loop_current_self (c := e.cpu) hscan
  have hnote := note_loop ha q
  rw [hscan] at hnote
  -- the process that comes back, if one does, is another one than `q`
  have hother : (∀ lvl, s.current e.cpu ≠ some (q, lvl)) → u.current = s.current →
      (u.ptable q).account = (s.ptable q).account → (∀ lvl, s.note e q ≠ .completed lvl) ∧
        Fate s (u.loop e.cpu l) q (s.note e q) := fun hnot hcur hacc => by
    have hstate : (u.ptable q).state = .runnable → Off s q := fun hr d lvl hd => by
      by_cases hdc : d = e.cpu
      · exact hnot lvl (hdc ▸ hd)
      · have hnrun : ((u.setAt e.cpu .idle).ptable q).state ≠ .running := fun he => by
          have hrun : (u.ptable q).state = .running := he
          rw [hr] at hrun
          cases hrun
        refine hseated.off hnrun d lvl ?_
        rw [current_setAt_of_ne hdc, hcur]
        exact hd
    have hseat : r ≠ some q → ∀ d lvl, (u.loop e.cpu l).current d = some (q, lvl) ↔
        s.current d = some (q, lvl) := fun hr d lvl => by
      by_cases hdc : d = e.cpu
      · rw [hdc, hself]
        refine iff_of_false (fun he => ?_) (hnot lvl)
        obtain ⟨p, hp, heq⟩ := Option.map_eq_some_iff.mp he
        cases heq
        exact hr hp
      · rw [loop_current_of_ne hdc, hcur]
    have hidle : (match s.current e.cpu with
        | some (p, lvl) => if p = q then Note.completed lvl else .nothing
        | none => .nothing) = .nothing := by
      split
      · rename_i p lvl hon
        refine if_neg fun he => hnot lvl ?_
        rw [hon, he]
      · rfl
    rw [hidle] at hnote
    rcases scan_account hnd hscan q with ⟨rfl, -, hr, hle, hu, hacc'⟩ | ⟨hr, -, hrun, hu, hacc'⟩ | ⟨hr, hacc'⟩
    · rw [if_pos rfl] at hnote
      rw [hnote]
      rw [hacc] at hu
      have hprio : (u.ptable q).priority = (s.ptable q).priority := congrArg Account.priority hacc
      refine ⟨nofun, .dispatched e.cpu (hstate hr) (hprio ▸ hle) hu ?_ fun d lvl => ?_⟩
      · rw [hT, hacc', hacc]
      · by_cases hdc : d = e.cpu
        · rw [hdc, hself, Option.map_some, Option.some_inj, Prod.mk.injEq, hprio]
          exact ⟨fun hq => ⟨rfl, hq.2.symm⟩, fun hq => ⟨rfl, hq.2.symm⟩⟩
        · rw [loop_current_of_ne hdc, hcur]
          exact iff_of_false (hstate hr d lvl) fun hq => hdc hq.1
    · rw [if_neg hr] at hnote
      rw [hnote]
      rw [hacc] at hu
      refine ⟨nofun, .demoted (hstate hrun) hu ?_ fun d lvl hd => ?_⟩
      · rw [hT, hacc', hacc]
      · exact hstate hrun d lvl ((hseat hr d lvl).mp hd)
    · rw [if_neg hr] at hnote
      rw [hnote]
      exact ⟨nofun, .kept (by rw [hT, hacc', hacc]) (hseat hr)⟩
  cases act_effect ha with
  | pass hcpu => exact (hother (fun lvl he => by rw [hcpu] at he; cases he) rfl rfl).2
  | back hon hacc hcpu hp =>
      rename_i p lvl
      by_cases hq : q = p
      · subst hq
        have hnone : r ≠ some q := fun hr => by
          rcases scan_account hnd hscan q with ⟨-, hmem, -⟩ | ⟨hne, -⟩ | ⟨hne, -⟩
          · exact hp hmem
          · exact hne hr
          · exact hne hr
        have hacc' : ((u.loop e.cpu l).ptable q).account = (s.ptable q).account.charge lvl := by
          have hq := congrFun hacc q
          rw [Function.update_self] at hq
          rw [hT]
          rcases scan_account hnd hscan q with ⟨hr, -⟩ | ⟨-, hmem, -⟩ | ⟨-, heq⟩
          · exact absurd hr hnone
          · exact absurd hmem hp
          · exact heq.trans hq
        have hone : ∀ d lvl', s.current d = some (q, lvl') → d = e.cpu := fun d lvl' hd =>
          h.one d e.cpu q lvl' lvl hd hon
        rw [if_neg hnone, hon] at hnote
        simp only [if_true] at hnote
        rw [hnote]
        refine .completed e.cpu lvl hon hone hacc' fun d lvl' hd => ?_
        by_cases hdc : d = e.cpu
        · rw [hdc, hself] at hd
          obtain ⟨p, hp, heq⟩ := Option.map_eq_some_iff.mp hd
          cases heq
          exact hnone hp
        · rw [loop_current_of_ne hdc, hcpu] at hd
          exact hdc (hone d lvl' hd)
      · refine (hother (fun lvl' he => ?_) hcpu ?_).2
        · rw [hon] at he
          cases he
          exact hq rfl
        · have hq' := congrFun hacc q
          rw [Function.update_of_ne hq] at hq'
          exact hq'

/-- What a step does to the process in slot `q`. -/
theorem fate (h : Sound s) (ht : s.step e = some t) (q : Slot) : Fate s t q (s.note e q) := by
  obtain ⟨a, ha, rfl⟩ := Option.map_eq_some_iff.mp ht
  cases a with
  | loop u c l =>
      rcases h with h | h
      · exact loop_fate h ha q
      · obtain ⟨t, heq, -⟩ := h.act ha
        cases heq
  | stay t =>
      have hnote := note_stay ha q
      cases act_effect ha with
      | still hacc hcpu hinit hbump =>
          rw [hinit, hbump, if_neg nofun, if_neg nofun] at hnote
          rw [hnote]
          exact .kept (congrFun hacc q) fun d lvl => by rw [Act.finish, hcpu]
      | bump hacc hcpu hinit hbump =>
          rw [hinit, hbump, if_neg nofun, if_pos rfl] at hnote
          rw [hnote]
          have hseated : Seated s := h.resolve_right fun hstuck => hstuck.locked (bumps_act ha hbump).1
          refine .bumped (fun hr => hseated.off (hr ▸ nofun)) ?_ fun d lvl => by rw [Act.finish, hcpu]
          exact (hacc q).trans (bump_account _)
      | init hacc hcpu hinit hbump =>
          rename_i np
          have hq := congrFun hacc q
          rw [hinit, hbump] at hnote
          by_cases hnp : q = np
          · subst hnp
            rw [if_pos rfl] at hnote
            rw [Function.update_self] at hq
            rw [hnote]
            exact .forked hq fun d lvl => by rw [Act.finish, hcpu]
          · rw [if_neg fun he => hnp (Option.some.inj he).symm, if_neg nofun] at hnote
            rw [Function.update_of_ne hnp] at hq
            rw [hnote]
            exact .kept hq fun d lvl => by rw [Act.finish, hcpu]

/-- Only `reset` initialises a process. -/
theorem note_forked (ht : s.step e = some t) (hq : s.note e q = .forked) : ∃ c, e = .reset c := by
  obtain ⟨a, ha, rfl⟩ := Option.map_eq_some_iff.mp ht
  cases a with
  | loop u c l =>
      rw [note_loop ha] at hq
      split at hq
      · cases hq
      · split at hq
        · split at hq
          · cases hq
          · cases hq
        · cases hq
  | stay u =>
      rw [note_stay ha] at hq
      split at hq
      · rename_i hinit
        cases e with
        | reset c => exact ⟨c, rfl⟩
        | _ => cases hinit
      · split at hq
        · cases hq
        · cases hq

theorem Stuck.step (h : Stuck s) (ht : s.step e = some t) : Stuck t := by
  obtain ⟨a, ha, rfl⟩ := Option.map_eq_some_iff.mp ht
  obtain ⟨u, rfl, hu⟩ := h.act ha
  exact hu

/-- Nobody is switched to when nothing is scheduled any more. -/
theorem Stuck.note (h : Stuck s) (ht : s.step e = some t) (q : Slot) : s.note e q ≠ .dispatched := by
  obtain ⟨a, ha, rfl⟩ := Option.map_eq_some_iff.mp ht
  obtain ⟨u, rfl, -⟩ := h.act ha
  rw [note_stay ha]
  split
  · exact nofun
  · split
    · exact nofun
    · exact nofun

/-! ## Bounds on every run -/

/-- The bounds on the account of a process. -/
structure Fair (s : Sys n) (q : Slot) : Prop where
  priority : (s.ptable q).priority ≤ 3
  slice : ∀ l < 3, ((s.ptable q).slice l).toNat ≤ quantum l
  room : ∀ c l, s.current c = some (q, l) →
    l ≤ 3 ∧ (l < 3 → ((s.ptable q).slice l).toNat < quantum l)

theorem quantum_pos (l : Nat) : 0 < quantum l := by
  rw [quantum]
  split
  · decide
  · decide

theorem quantum_le (l : Nat) : quantum l ≤ 10 := by
  rw [quantum]
  split
  · decide
  · decide

theorem toNat_succ {x : BitVec 32} {m : Nat} (h : x.toNat < m) (hm : m ≤ 10) :
    (x + 1).toNat = x.toNat + 1 := by
  rw [BitVec.toNat_add]
  exact Nat.mod_eq_of_lt (show x.toNat + 1 < 2 ^ 32 by omega)

theorem boot_fair (q : Slot) : Fair (boot n) q where
  priority := Nat.zero_le 3
  slice l _ := Nat.zero_le (quantum l)
  room _ _ hc := by
    rw [Sys.current] at hc
    cases hc

theorem Fate.fair {note : Note} (h : Fate s t q note) (hs : Fair s q) : Fair t q := by
  -- the fields of an account that is given by an equation
  have hsame : (t.ptable q).account = (s.ptable q).account →
      (t.ptable q).priority = (s.ptable q).priority ∧ (t.ptable q).slice = (s.ptable q).slice :=
    fun hacc => ⟨congrArg Account.priority hacc, congrArg Account.slice hacc⟩
  cases h with
  | kept hacc hseat =>
      obtain ⟨hprio, hslice⟩ := hsame hacc
      refine ⟨by rw [hprio]; exact hs.priority, by rw [hslice]; exact hs.slice, fun c l hc => ?_⟩
      rw [hslice]
      exact hs.room c l ((hseat c l).mp hc)
  | demoted hoff hused hacc hoff' =>
      have hprio : (t.ptable q).priority = (s.ptable q).priority + 1 := congrArg Account.priority hacc
      have hslice : (t.ptable q).slice = (s.ptable q).slice := congrArg Account.slice hacc
      refine ⟨by rw [hprio]; exact hused.1, by rw [hslice]; exact hs.slice, fun c l hc => ?_⟩
      exact absurd hc (hoff' c l)
  | dispatched c hoff hle hused hacc hseat =>
      have hprio : (t.ptable q).priority = (s.ptable q).priority := congrArg Account.priority hacc
      have hslice : (t.ptable q).slice = (s.ptable q).slice := congrArg Account.slice hacc
      refine ⟨by rw [hprio]; exact hle, by rw [hslice]; exact hs.slice, fun d l hd => ?_⟩
      obtain ⟨-, rfl⟩ := (hseat d l).mp hd
      rw [hslice]
      exact ⟨hle, fun hlt => Nat.lt_of_not_le fun hge => hused ⟨hlt, hge⟩⟩
  | completed c lvl hon hone hacc hoff' =>
      have hprio : (t.ptable q).priority = (s.ptable q).priority := congrArg Account.priority hacc
      have hslice : (t.ptable q).slice =
          Function.update (s.ptable q).slice lvl ((s.ptable q).slice lvl + 1) :=
        congrArg Account.slice hacc
      refine ⟨by rw [hprio]; exact hs.priority, fun l hl => ?_, fun c l hc => absurd hc (hoff' c l)⟩
      rw [hslice]
      by_cases hlvl : l = lvl
      · subst hlvl
        have hlt := (hs.room c l hon).2 hl
        rw [Function.update_self, toNat_succ hlt (quantum_le l)]
        exact hlt
      · rw [Function.update_of_ne hlvl]
        exact hs.slice l hl
  | bumped hoff hacc hseat =>
      by_cases hr : (s.ptable q).state = .runnable
      · rw [if_pos hr] at hacc
        have hroom : ∀ c l, t.current c = some (q, l) →
            l ≤ 3 ∧ (l < 3 → ((t.ptable q).slice l).toNat < quantum l) := fun c l hc =>
          absurd ((hseat c l).mp hc) (hoff hr c l)
        rcases (s.ptable q).account.bump_cases with ⟨-, -, -, hbump⟩ | ⟨-, hbump⟩
        · rw [hbump] at hacc
          have hprio : (t.ptable q).priority = (s.ptable q).priority - 1 :=
            congrArg Account.priority hacc
          have hslice : (t.ptable q).slice =
              Function.update (s.ptable q).slice ((s.ptable q).priority - 1) 0 :=
            congrArg Account.slice hacc
          refine ⟨?_, fun l hl => ?_, hroom⟩
          · rw [hprio]
            exact Nat.le_trans (Nat.sub_le _ 1) hs.priority
          · rw [hslice]
            by_cases hlvl : l = (s.ptable q).priority - 1
            · rw [hlvl, Function.update_self]
              exact Nat.zero_le _
            · rw [Function.update_of_ne hlvl]
              exact hs.slice l hl
        · rw [hbump] at hacc
          have hprio : (t.ptable q).priority = (s.ptable q).priority := congrArg Account.priority hacc
          have hslice : (t.ptable q).slice = (s.ptable q).slice := congrArg Account.slice hacc
          exact ⟨by rw [hprio]; exact hs.priority, by rw [hslice]; exact hs.slice, hroom⟩
      · rw [if_neg hr] at hacc
        obtain ⟨hprio, hslice⟩ := hsame hacc
        refine ⟨by rw [hprio]; exact hs.priority, by rw [hslice]; exact hs.slice, fun c l hc => ?_⟩
        rw [hslice]
        exact hs.room c l ((hseat c l).mp hc)
  | forked hacc hseat =>
      have hprio : (t.ptable q).priority = 0 := congrArg Account.priority hacc
      have hslice : (t.ptable q).slice = fun _ => 0 := congrArg Account.slice hacc
      refine ⟨by rw [hprio]; exact Nat.zero_le 3, fun l _ => ?_, fun c l hc => ?_⟩
      · rw [hslice]
        exact Nat.zero_le _
      · rw [hslice]
        exact ⟨(hs.room c l ((hseat c l).mp hc)).1, fun _ => quantum_pos l⟩

end

end Cs537.Mlfq
