/-
# `Cs537.Syscount.Counter` — what `getnumsyscallp` returns

`syscall` adds one to `proc->counter` for each call but `getnumsyscallp`, which
returns it.  `fork` sets the counter of the child to zero, but after it has made
the child `RUNNABLE`: a child that runs in between goes on with the counter of
the slot's last process, and the calls that it has entered are lost.

Beside the table a run keeps, for each process, the calls that it has entered
since `fork` made it `RUNNABLE` (`Life`).  In every run, a `getnumsyscallp`
returns their number just when `fork` has made its assignment before the first of
them, or has not made it yet and the counter had been left at zero; with fewer
than 2 ^ 31 calls, the counter being an `int` (`numsyscall_run`).
-/
import Cs537.Syscount.Family

namespace Cs537.Syscount

open Cs537.Lib

/-! ## Histories -/

/-- The calls other than `getnumsyscallp` that a process has entered since it was
made. -/
structure Life where
  /-- those entered in front of `np->counter = 0` -/
  early : Nat
  late : Nat
  /-- this assignment is still to come -/
  pending : Bool
  /-- the counter when the process became `RUNNABLE` -/
  left : BitVec 32
  deriving DecidableEq

def Life.calls (x : Life) : Nat := x.early + x.late

def Life.enter (x : Life) : Life :=
  if x.pending then { x with early := x.early + 1 } else { x with late := x.late + 1 }

/-- The counter, as the process has it. -/
def Life.Counts (x : Life) (counter : BitVec 32) : Prop :=
  if x.pending then x.late = 0 ∧ counter = x.left + BitVec.ofNat 32 x.early
  else counter = BitVec.ofNat 32 x.late

section

variable {n : Nat}

/-- The process that enters a call other than `getnumsyscallp`. -/
def Sys.enters (s : Sys n) : Event n → Option Slot
  | .syscall c num => if num ≠ SYS_getnumsyscallp then s.cpu c else none
  | _ => none

/-- The child that becomes `RUNNABLE`. -/
def Sys.publishes (s : Sys n) : Event n → Option Slot
  | .publish c true => (s.current c).bind fun (_, pc) => match pc with
      | .fork np false => some np
      | _ => none
  | _ => none

/-- The child whose counter is set to zero. -/
def Sys.resets (s : Sys n) : Event n → Option Slot
  | .reset c => (s.current c).bind fun (_, pc) => match pc with
      | .fork np true => some np
      | _ => none
  | _ => none

def seeLife (life : Slot → Life) (s : Sys n) (e : Event n) (_ : Sys n) : Slot → Life := fun q =>
  if s.publishes e = some q then ⟨0, 0, true, (s.ptable q).counter⟩
  else if s.resets e = some q then { life q with pending := false }
  else if s.enters e = some q then (life q).enter
  else life q

def stepLife : Sys n × (Slot → Life) → Event n → Option (Sys n × (Slot → Life)) :=
  watch Sys.step seeLife

def start (n : Nat) : Sys n × (Slot → Life) := (boot n, fun _ => ⟨0, 0, false, 0⟩)

/-! ## The property, and the condition -/

/-- `getnumsyscallp` returns the number of calls that the caller has entered. -/
def Answers (x : Sys n × (Slot → Life)) : Event n → Prop
  | .ret c v => ∀ p, x.1.current c = some (p, .call SYS_getnumsyscallp) →
      ∀ t, x.1.step (.ret c v) = some t → (t.ptable p).eax = (x.2 p).calls
  | _ => True

/-- The caller has entered no call before `fork` set its counter to zero; or this is
still to come, and the counter was zero. -/
def Settled (x : Sys n × (Slot → Life)) : Event n → Prop
  | .ret c _ => ∀ p, x.1.current c = some (p, .call SYS_getnumsyscallp) →
      (x.2 p).calls < 2 ^ 31 ∧ if (x.2 p).pending then (x.2 p).left = 0 else (x.2 p).early = 0
  | _ => True

/-! ## Counts -/

theorem toInt_ofNat_lt {k : Nat} (hk : k < 2 ^ 31) : (BitVec.ofNat 32 k).toInt = k := by
  rw [BitVec.toInt_ofNat', Int.bmod_eq_of_le (by omega) (by omega)]

theorem Life.Counts.answer {x : Life} {counter : BitVec 32} (h : x.Counts counter) :
    counter.toInt = x.calls ↔
      x.calls < 2 ^ 31 ∧ if x.pending then x.left = 0 else x.early = 0 := by
  have hlt : counter.toInt < 2 ^ 31 := BitVec.toInt_lt
  rw [Life.Counts] at h
  rw [Life.calls]
  split
  · rename_i hpending
    rw [if_pos hpending] at h
    obtain ⟨hlate, hcounter⟩ := h
    rw [hlate, Nat.add_zero]
    constructor
    · intro heq
      have hearly : x.early < 2 ^ 31 := by omega
      have hsame : counter = BitVec.ofNat 32 x.early :=
        BitVec.toInt_inj.mp (heq.trans (toInt_ofNat_lt hearly).symm)
      refine ⟨hearly, ?_⟩
      rw [hcounter] at hsame
      exact BitVec.add_left_eq_self.mp hsame
    · rintro ⟨hearly, hleft⟩
      have hzero : x.left = 0#32 := hleft
      rw [hcounter, hzero, BitVec.zero_add, toInt_ofNat_lt hearly]
  · rename_i hpending
    rw [if_neg hpending] at h
    constructor
    · intro heq
      have hlate : x.late < 2 ^ 31 := by omega
      rw [h, toInt_ofNat_lt hlate] at heq
      omega
    · rintro ⟨hcalls, hearly⟩
      rw [h, toInt_ofNat_lt (by omega), hearly]
      omega

theorem Life.Counts.enter {x : Life} {counter : BitVec 32} (h : x.Counts counter) :
    x.enter.Counts (counter + 1) := by
  rw [Life.Counts] at h
  rw [Life.enter]
  split
  · rename_i hpending
    rw [if_pos hpending] at h
    rw [Life.Counts, if_pos hpending]
    refine ⟨h.1, ?_⟩
    rw [h.2, BitVec.ofNat_add, BitVec.add_assoc]
    rfl
  · rename_i hpending
    rw [if_neg hpending] at h
    rw [Life.Counts, if_neg hpending, h, BitVec.ofNat_add]
    rfl

/-! ## Steps -/

/-- What a step does to the counters, and to the children that have been made
`RUNNABLE`. -/
structure Effect (s t : Sys n) (e : Event n) : Prop where
  inv : Inv t.ptable t.cpu
  counter : ∀ q, (t.ptable q).counter =
    if s.resets e = some q then 0
    else if s.enters e = some q then (s.ptable q).counter + 1 else (s.ptable q).counter
  child : ∀ p q, (t.ptable p).pc.child = some (q, true) →
    s.resets e ≠ some q ∧ (s.publishes e = some q ∨ (s.ptable p).pc.child = some (q, true))
  cleared : ∀ q, s.resets e = some q → ∃ p, (s.ptable p).pc.child = some (q, true)

variable {s t : Sys n} {c : Fin n} {p q np : Slot} {pc : Pc} {e : Event n}

theorem Steady.effect (h : Steady s t) (hres : s.resets e = none) (hent : s.enters e = none) :
    Effect s t e where
  inv := h.inv
  counter q := by
    rw [hres, hent, h.counter q]
    rfl
  child p q hp := by
    refine ⟨fun hq => ?_, .inr (h.child p q hp)⟩
    rw [hres] at hq
    cases hq
  cleared q hq := by
    rw [hres] at hq
    cases hq

theorem current_cpu (h : s.current c = some (p, pc)) : s.cpu c = some p ∧ (s.ptable p).pc = pc := by
  obtain ⟨q, hq, he⟩ := Option.map_eq_some_iff.mp h
  cases he
  exact ⟨hq, rfl⟩

/-- The counters do not matter to the processes. -/
theorem Inv.congr {T T' : Table} {cpu : Fin n → Option Slot} (h : Inv T cpu)
    (hT : ∀ q, (T' q).state = (T q).state ∧ (T' q).parent = (T q).parent ∧
      (T' q).pc.child = (T q).pc.child) : Inv T' cpu where
  family := {
    embryo := fun p np hp => by
      rw [(hT p).2.2] at hp
      rw [(hT np).1]
      exact h.family.embryo p np hp
    apart := fun p q np hp hq => by
      rw [(hT p).2.2] at hp
      rw [(hT q).2.2] at hq
      exact h.family.apart p q np hp hq
    born := fun p np hp => by
      rw [(hT p).2.2] at hp
      rw [(hT np).1, (hT np).2.1]
      exact h.family.born p np hp }
  on c p hc := (hT p).1.trans (h.on c p hc)
  one := h.one

theorem syscall_effect {num : Int} (h : Inv s.ptable s.cpu) (hc : s.cpu c = some p)
    (hp : (s.ptable p).pc = .user) :
    Effect s (s.setProc p ((s.ptable p).syscall num)) (.syscall c num) := by
  have hother : ∀ q, q ≠ p → (s.setProc p ((s.ptable p).syscall num)).ptable q = s.ptable q :=
    fun q hq => Function.update_of_ne hq ..
  have hself : (s.setProc p ((s.ptable p).syscall num)).ptable p = (s.ptable p).syscall num :=
    Function.update_self ..
  have hsame : ∀ q, ((s.setProc p ((s.ptable p).syscall num)).ptable q).state = (s.ptable q).state ∧
      ((s.setProc p ((s.ptable p).syscall num)).ptable q).parent = (s.ptable q).parent ∧
      ((s.setProc p ((s.ptable p).syscall num)).ptable q).pc.child = (s.ptable q).pc.child := by
    intro q
    by_cases hq : q = p
    · rw [hq, hself]
      refine ⟨rfl, rfl, ?_⟩
      rw [hp]
      rfl
    · rw [hother q hq]
      exact ⟨rfl, rfl, rfl⟩
  refine ⟨h.congr hsame, fun q => ?_, fun q m hq => ⟨fun he => (by cases he), .inr ?_⟩,
    fun q he => by cases he⟩
  · have hent : s.enters (.syscall c num) = if num ≠ SYS_getnumsyscallp then some p else none := by
      rw [Sys.enters, hc]
    have hres : s.resets (.syscall c num) = none := rfl
    rw [hent, hres, if_neg nofun]
    by_cases hq : q = p
    · rw [hq, hself, Proc.syscall]
      by_cases hnum : num = SYS_getnumsyscallp
      · rw [if_neg (not_not.mpr hnum), if_neg (not_not.mpr hnum), if_neg nofun]
      · rw [if_pos hnum, if_pos hnum, if_pos rfl]
    · rw [hother q hq, if_neg]
      split
      · exact fun he => hq (Option.some.inj he).symm
      · exact nofun
  · rw [← (hsame q).2.2]
    exact hq

theorem ret_steady {v : Int} {num : Int} (h : Inv s.ptable s.cpu)
    (hp : (s.ptable p).pc = .call num) :
    Steady s (s.return p v) :=
  h.steady (return_quiet (by rw [hp]; rfl) v) rfl

/-- In every step. -/
theorem step_effect (h : Inv s.ptable s.cpu) (ht : s.step e = some t) : Effect s t e := by
  cases e with
  | pass c =>
      rw [Sys.step] at ht
      split at ht
      · rename_i hidle
        cases ht
        have hsame : Function.update s.cpu c none = s.cpu := by
          rw [← hidle.2]
          exact Function.update_eq_self c s.cpu
        obtain ⟨hinv, hkin⟩ := Inv.loop (l := List.finRange nproc) (hsame.symm ▸ h)
        exact (Steady.of_kin hinv hkin).effect rfl rfl
      · cases ht
  | resume c =>
      obtain ⟨⟨p, pc⟩, hcur, ht⟩ := Option.bind_eq_some_iff.mp ht
      obtain ⟨hc, hp⟩ := current_cpu hcur
      simp only at ht
      split at ht
      · refine Steady.effect ?_ rfl rfl
        cases pc with
        | user | call | fork => cases ht
        | forkret =>
            cases ht
            exact h.steady (.update (by rw [hp]; rfl) rfl rfl rfl) rfl
        | yielded pc =>
            cases ht
            exact h.steady (.update (by rw [hp]; rfl) rfl rfl rfl) rfl
        | slept num =>
            cases ht
            exact h.steady (.update (by rw [hp]; rfl) rfl rfl rfl) rfl
        | waited =>
            cases ht
            refine waitLoop_steady h hc ?_ (.update rfl rfl rfl rfl) rfl
            have hself : (s.setProc p { s.ptable p with chan := none }).ptable p =
                { s.ptable p with chan := none } := Function.update_self ..
            rw [hself, hp]
            rfl
      · cases ht
  | yield c =>
      obtain ⟨⟨p, pc⟩, hcur, ht⟩ := Option.bind_eq_some_iff.mp ht
      obtain ⟨hc, hp⟩ := current_cpu hcur
      simp only at ht
      split at ht
      · cases ht
        refine Steady.effect ?_ rfl rfl
        exact h.sched hc (.refl _) rfl rfl rfl rfl rfl rfl
      · cases ht
  | fault c =>
      obtain ⟨⟨p, pc⟩, hcur, ht⟩ := Option.bind_eq_some_iff.mp ht
      simp only at ht
      split at ht
      · cases ht
        refine Steady.effect ?_ rfl rfl
        exact h.steady (.update rfl rfl rfl rfl) rfl
      · cases ht
  | syscall c num =>
      obtain ⟨⟨p, pc⟩, hcur, ht⟩ := Option.bind_eq_some_iff.mp ht
      obtain ⟨hc, hp⟩ := current_cpu hcur
      simp only at ht
      split at ht
      · rename_i huser
        cases ht
        exact syscall_effect h hc (hp.trans huser.1)
      · cases ht
  | ret c v =>
      obtain ⟨⟨p, pc⟩, hcur, ht⟩ := Option.bind_eq_some_iff.mp ht
      obtain ⟨-, hp⟩ := current_cpu hcur
      simp only at ht
      split at ht
      · split at ht
        · cases ht
        · cases ht
          exact (ret_steady h hp).effect rfl rfl
      · cases ht
  | sleep c a =>
      obtain ⟨⟨p, pc⟩, hcur, ht⟩ := Option.bind_eq_some_iff.mp ht
      obtain ⟨hc, hp⟩ := current_cpu hcur
      simp only at ht
      split at ht
      · split at ht
        · cases ht
          refine Steady.effect ?_ rfl rfl
          exact h.sched hc (.refl _) rfl rfl (by rw [hp]; rfl) rfl rfl rfl
        · cases ht
      · cases ht
  | wakeup c a =>
      rw [Sys.step] at ht
      split at ht
      · cases ht
        refine Steady.effect ?_ rfl rfl
        exact h.steady (quiet_wakeup1 _ _) rfl
      · cases ht
  | kill c pid =>
      obtain ⟨⟨p, pc⟩, hcur, ht⟩ := Option.bind_eq_some_iff.mp ht
      obtain ⟨-, hp⟩ := current_cpu hcur
      simp only at ht
      split at ht
      · rename_i hcall
        cases ht
        have hkill := quiet_kill pid s.ptable
        have hnone : ((Syscount.kill pid s.ptable).2 p).pc.child = none := by
          rw [(hkill.kin p).child, hp, hcall.2]
          rfl
        refine Steady.effect ?_ rfl rfl
        exact h.steady (hkill.trans (return_quiet hnone _)) rfl
      · cases ht
  | exit c =>
      obtain ⟨⟨p, pc⟩, hcur, ht⟩ := Option.bind_eq_some_iff.mp ht
      obtain ⟨hc, hp⟩ := current_cpu hcur
      simp only at ht
      split at ht
      · rename_i hcall
        refine (exit_steady h hc ?_ ht).effect rfl rfl
        rcases hcall.2 with hcall | ⟨huser, -⟩
        · rw [hp, hcall]
          rfl
        · rw [hp, huser]
          rfl
      · cases ht
  | wait c =>
      obtain ⟨⟨p, pc⟩, hcur, ht⟩ := Option.bind_eq_some_iff.mp ht
      obtain ⟨hc, hp⟩ := current_cpu hcur
      simp only at ht
      split at ht
      · rename_i hcall
        cases ht
        refine (waitLoop_steady h hc ?_ (.refl _) rfl).effect rfl rfl
        rw [hp, hcall.2]
        rfl
      · cases ht
  | fork c =>
      obtain ⟨⟨p, pc⟩, hcur, ht⟩ := Option.bind_eq_some_iff.mp ht
      obtain ⟨hc, hp⟩ := current_cpu hcur
      simp only at ht
      split at ht
      · rename_i hcall
        cases ht
        refine (fork_steady h hc ?_).effect rfl rfl
        rw [hp, hcall.2]
        rfl
      · cases ht
  | publish c ok =>
      obtain ⟨⟨p, pc⟩, hcur, ht⟩ := Option.bind_eq_some_iff.mp ht
      obtain ⟨hc, hp⟩ := current_cpu hcur
      simp only at ht
      split at ht
      · rename_i np
        cases ht
        cases ok with
        | false => exact (publish_steady h hc hp).effect rfl rfl
        | true =>
            obtain ⟨hinv, hcounter, hchild⟩ := publish_born h hc hp
            have hpub : s.publishes (.publish c true) = some np := by
              rw [Sys.publishes, hcur]
              rfl
            refine ⟨hinv, hcounter, fun q m hq => ⟨fun he => (by cases he), ?_⟩,
              fun q he => by cases he⟩
            rcases hchild q m hq with rfl | hold
            · exact .inl hpub
            · exact .inr hold
      · cases ht
  | reset c =>
      obtain ⟨⟨p, pc⟩, hcur, ht⟩ := Option.bind_eq_some_iff.mp ht
      obtain ⟨hc, hp⟩ := current_cpu hcur
      simp only at ht
      split at ht
      · rename_i np
        cases ht
        obtain ⟨hinv, hcounter, hchild⟩ := reset_cleared h hc hp
        have hres : s.resets (.reset c) = some np := by
          rw [Sys.resets, hcur]
          rfl
        refine ⟨hinv, fun q => ?_, fun q m hq => ?_, fun q hq => ⟨p, ?_⟩⟩
        · rw [hcounter, hres]
          by_cases hq : q = np
          · rw [if_pos hq, if_pos (congrArg some hq.symm)]
          · rw [if_neg hq, if_neg fun he => hq (Option.some.inj he).symm]
            rfl
        · obtain ⟨hne, hold⟩ := hchild q m hq
          exact ⟨fun he => hne (Option.some.inj (hres.symm.trans he)).symm, .inr hold⟩
        · rw [hres] at hq
          cases hq
          rw [hp]
          rfl
      · cases ht

/-! ## Runs -/

structure CountInv (x : Sys n × (Slot → Life)) : Prop where
  inv : Inv x.1.ptable x.1.cpu
  /-- a process that `fork` is not done with has not been counted anew -/
  pending : ∀ p q, (x.1.ptable p).pc.child = some (q, true) → (x.2 q).pending = true
  counts : ∀ q, (x.2 q).Counts (x.1.ptable q).counter

theorem start_countInv (n : Nat) : CountInv (start n) where
  inv := {
    family := ⟨fun _ _ h => (by cases h), fun _ _ _ h => (by cases h), fun _ _ h => (by cases h)⟩
    on := fun _ _ h => by cases h
    one := fun _ _ _ h => by cases h }
  pending _ _ h := by cases h
  counts q := by
    rw [Life.Counts, if_neg (fun h => by cases h)]
    rfl

variable {x y : Sys n × (Slot → Life)}

theorem CountInv.step (h : CountInv x) (hy : stepLife x e = some y) : CountInv y := by
  obtain ⟨ht, hsee⟩ := watch_eq_some.mp hy
  have heff := step_effect h.inv ht
  have hlife : ∀ q, y.2 q = if x.1.publishes e = some q then ⟨0, 0, true, (x.1.ptable q).counter⟩
      else if x.1.resets e = some q then { x.2 q with pending := false }
      else if x.1.enters e = some q then (x.2 q).enter else x.2 q := fun q => by
    rw [← hsee]
    rfl
  refine ⟨heff.inv, fun p q hp => ?_, fun q => ?_⟩
  · obtain ⟨hres, hchild⟩ := heff.child p q hp
    rw [hlife]
    split
    · rfl
    · rename_i hpub
      have hold := h.pending p q (hchild.resolve_left hpub)
      split
      · rw [Life.enter, if_pos hold]
        exact hold
      · exact hold
  · rw [hlife, heff.counter]
    have hcounts := h.counts q
    split
    · rename_i hpub
      -- nothing else happens in this step
      have hres : x.1.resets e = none := by
        cases e with
        | publish c ok => rfl
        | _ => cases hpub
      have hent : x.1.enters e = none := by
        cases e with
        | publish c ok => rfl
        | _ => cases hpub
      rw [hres, hent, if_neg nofun, if_neg nofun, Life.Counts, if_pos rfl]
      exact ⟨rfl, (BitVec.add_zero _).symm⟩
    · split
      · rename_i hres
        obtain ⟨p, hp⟩ := heff.cleared q hres
        rw [Life.Counts, if_pos (h.pending p q hp)] at hcounts
        rw [Life.Counts, if_neg nofun]
        show (0 : BitVec 32) = BitVec.ofNat 32 (x.2 q).late
        rw [hcounts.1]
        rfl
      · split
        · exact hcounts.enter
        · exact hcounts

/-- What a `getnumsyscallp` returns. -/
theorem CountInv.answers (h : CountInv x) : Answers x e ↔ Settled x e := by
  cases e with
  | ret c v =>
      refine forall_congr' fun p => forall_congr' fun hcur => ?_
      have hstep : x.1.step (.ret c v) =
          some (x.1.return p ((x.1.ptable p).handler SYS_getnumsyscallp v)) := by
        rw [Sys.step, hcur]
        rfl
      have heax : ((x.1.return p ((x.1.ptable p).handler SYS_getnumsyscallp v)).ptable p).eax =
          (x.1.ptable p).counter.toInt := by
        have hself : (x.1.return p ((x.1.ptable p).handler SYS_getnumsyscallp v)).ptable p =
            { x.1.ptable p with
              eax := (x.1.ptable p).handler SYS_getnumsyscallp v, pc := .user } :=
          Function.update_self ..
        rw [hself]
        rfl
      rw [hstep]
      constructor
      · intro hans
        have hval := hans _ rfl
        rw [heax] at hval
        exact (h.counts p).answer.mp hval
      · intro hset t ht
        cases ht
        rw [heax]
        exact (h.counts p).answer.mpr hset
  | _ => exact Iff.rfl

/-- In every run, on any number of CPUs, every `getnumsyscallp` returns the number of
the calls that its caller has entered just when every one of them is settled. -/
theorem numsyscall_run (n : Nat) (es : List (Event n)) :
    AllTried stepLife Answers (start n) es ↔ AllTried stepLife Settled (start n) es :=
  allTried_iff (fun _ _ h => h.answers) (fun _ _ _ h hy => h.step hy) (start_countInv n)

end

/-- One CPU: `init` is stopped in front of `np->counter = 0`; the child calls
`getpid`; `init` goes on; the child calls `getnumsyscallp`. -/
def lostRun : List (Event 1) :=
  let c : Fin 1 := ⟨0, Nat.one_pos⟩
  [.pass c, .resume c, .syscall c SYS_fork, .fork c, .publish c true, .yield c,
    .resume c, .syscall c 18, .ret c 2, .yield c, .pass c, .resume c, .reset c, .yield c,
    .resume c, .syscall c SYS_getnumsyscallp]

/-- It returns 0. -/
theorem call_lost : ¬ AllTried stepLife Answers (start 1) (lostRun ++ [.ret ⟨0, by decide⟩ 0]) := by
  intro h
  have hrun : (run stepLife (start 1) lostRun).map (fun x =>
      (x.1.current ⟨0, by decide⟩, (x.1.step (.ret ⟨0, by decide⟩ 0)).map fun t =>
        (t.ptable ⟨1, by decide⟩).eax, (x.2 ⟨1, by decide⟩).calls)) =
      some (some (⟨1, by decide⟩, .call SYS_getnumsyscallp), some 0, 1) := by
    decide +kernel
  obtain ⟨x, hx, heq⟩ := Option.map_eq_some_iff.mp hrun
  obtain ⟨hcur, hret, hcalls⟩ : _ ∧ _ ∧ _ := by simpa only [Prod.mk.injEq] using heq
  obtain ⟨t, ht, heax⟩ := Option.map_eq_some_iff.mp hret
  have hans := h.last hx _ hcur t ht
  rw [heax, hcalls] at hans
  cases hans

end Cs537.Syscount
