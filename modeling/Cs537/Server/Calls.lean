/-
# `Cs537.Server.Calls` — the producer and the workers, call by call (p4/linux)

`main` and the workers of `server.c`, with a step for each call of the pthread
library: the mutex is taken and given back, a thread that blocks in
`pthread_cond_wait` gives it back and takes it again when it has been woken.
What a thread does to the buffer with the mutex is one step.

`pthread_cond_signal` wakes one or more of the threads that are blocked, if
there is any, and a blocked thread may wake for no reason.  A worker that has
been woken takes the mutex when it can; by then another worker may have taken
what it was woken for, and it blocks again.

**Proved here.**  No wake-up is lost (`stuck_run`).
-/
import Cs537.Lib.Run

namespace Cs537.Server.Calls

open Cs537.Lib

/-- The next thing that a worker does. -/
inductive Worker where
  /-- not created yet -/
  | unborn
  | lock
  /-- `while (count == 0)` -/
  | test
  /-- `pthread_cond_wait(&fill,&mutex)` -/
  | wait
  /-- blocked there -/
  | blocked
  /-- woken there: takes the mutex again -/
  | woken
  /-- takes a descriptor out of the buffer -/
  | take
  /-- `pthread_cond_signal(&empty)` -/
  | signal (curr_fd : Int)
  | unlock (curr_fd : Int)
  | handle (curr_fd : Int)
  | close (curr_fd : Int)
  deriving DecidableEq

/-- The next thing that `main` does. -/
inductive Main where
  /-- `pthread_create`, for thread `i` -/
  | create (i : Nat)
  | accept
  | lock (connfd : Int)
  /-- `while(count == nbuffers)` -/
  | test (connfd : Int)
  /-- `pthread_cond_wait(&empty,&mutex)` -/
  | wait (connfd : Int)
  | blocked (connfd : Int)
  | woken (connfd : Int)
  /-- puts the descriptor into the buffer -/
  | put (connfd : Int)
  /-- `pthread_cond_signal(&fill)` -/
  | signal
  | unlock
  deriving DecidableEq

/-- Who holds the mutex. -/
inductive Owner (N : Nat) where
  | main
  | worker (w : Fin N)
  deriving DecidableEq

structure Sys (N : Nat) where
  buffer : Int → Int
  count : Int
  filled : Int
  used : Int
  mutex : Option (Owner N)
  main : Main
  worker : Fin N → Worker

inductive Event (N : Nat) where
  | accept (connfd : Int)
  /-- `pthread_cond_signal(&fill)` wakes `ws` -/
  | signal (ws : List (Fin N))
  /-- `main` does any other thing -/
  | main
  | worker (w : Fin N)
  /-- `pthread_cond_wait` returns for no reason -/
  | wakeMain
  | wake (w : Fin N)

section

variable {N : Nat}

def Sys.setWorker (s : Sys N) (w : Fin N) (x : Worker) : Sys N :=
  { s with worker := Function.update s.worker w x }

/-- The threads `ws` are woken in `pthread_cond_wait(&fill,&mutex)`. -/
def Sys.wakeAll (s : Sys N) (ws : List (Fin N)) : Sys N :=
  { s with worker := fun w => if w ∈ ws then .woken else s.worker w }

/-- `pthread_cond_signal(&empty)`; only `main` waits for it. -/
def Main.signalEmpty : Main → Main
  | .blocked connfd => .woken connfd
  | m => m

def Sys.stepMain (nbuffers : Int) (s : Sys N) : Option (Sys N) :=
  match s.main with
  | .create i =>
      if h : i < N then some { s.setWorker ⟨i, h⟩ .lock with main := .create (i + 1) }
      else some { s with main := .accept }
  | .lock connfd | .woken connfd =>
      if s.mutex = none then some { s with mutex := some .main, main := .test connfd } else none
  | .test connfd => some { s with main := if s.count = nbuffers then .wait connfd else .put connfd }
  | .wait connfd => some { s with mutex := none, main := .blocked connfd }
  | .put connfd =>
      some { s with
        buffer := Function.update s.buffer s.filled connfd
        filled := (s.filled + 1).tmod nbuffers
        count := s.count + 1
        main := .signal }
  | .unlock => some { s with mutex := none, main := .accept }
  | .accept | .signal | .blocked _ => none

def Sys.stepWorker (nbuffers : Int) (s : Sys N) (w : Fin N) : Option (Sys N) :=
  match s.worker w with
  | .lock | .woken =>
      if s.mutex = none then some { s.setWorker w .test with mutex := some (.worker w) } else none
  | .test => some (s.setWorker w (if s.count = 0 then .wait else .take))
  | .wait => some { s.setWorker w .blocked with mutex := none }
  | .take =>
      some { s.setWorker w (.signal (s.buffer s.used)) with
        used := (s.used + 1).tmod nbuffers
        count := s.count - 1 }
  | .signal curr_fd => some { s.setWorker w (.unlock curr_fd) with main := s.main.signalEmpty }
  | .unlock curr_fd => some { s.setWorker w (.handle curr_fd) with mutex := none }
  | .handle curr_fd => some (s.setWorker w (.close curr_fd))
  | .close _ => some (s.setWorker w .lock)
  | .unborn | .blocked => none

def Sys.step (nbuffers : Int) (s : Sys N) : Event N → Option (Sys N)
  | .accept connfd => if s.main = .accept then some { s with main := .lock connfd } else none
  | .signal ws =>
      if s.main = .signal ∧ (∀ w ∈ ws, s.worker w = .blocked) ∧
          (ws = [] → ∀ w, s.worker w ≠ .blocked) then
        some { s.wakeAll ws with main := .unlock }
      else none
  | .main => s.stepMain nbuffers
  | .worker w => s.stepWorker nbuffers w
  | .wakeMain => match s.main with
      | .blocked connfd => some { s with main := .woken connfd }
      | _ => none
  | .wake w => if s.worker w = .blocked then some (s.setWorker w .woken) else none

/-- `main` is about to create the threads; the buffer is what `malloc` returned. -/
def start (N : Nat) (buffer : Int → Int) : Sys N where
  buffer := buffer
  count := 0
  filled := 0
  used := 0
  mutex := none
  main := .create 0
  worker _ := .unborn

/-! ## What it means to be stuck -/

/-- The call of `pthread_cond_wait(&fill,&mutex)` has not returned. -/
def Worker.InWait (x : Worker) : Prop := x = .blocked ∨ x = .woken

/-- The call of `pthread_cond_wait(&empty,&mutex)` has not returned. -/
def Main.InWait (m : Main) : Prop := ∃ connfd, m = .blocked connfd ∨ m = .woken connfd

/-- A worker has been woken, or `main` is about to signal `fill`. -/
def Sys.FillPending (s : Sys N) : Prop := (∃ w, s.worker w = .woken) ∨ s.main = .signal

/-- `main` has been woken, or a worker is about to signal `empty`. -/
def Sys.EmptyPending (s : Sys N) : Prop :=
  (∃ connfd, s.main = .woken connfd) ∨ ∃ w curr_fd, s.worker w = .signal curr_fd

structure NotStuck (nbuffers : Int) (s : Sys N) : Prop where
  workers : ¬ (0 < s.count ∧ (∀ w, (s.worker w).InWait) ∧ ¬ s.FillPending)
  producer : ¬ (s.count < nbuffers ∧ s.main.InWait ∧ ¬ s.EmptyPending)
  /-- with the mutex free, no signal is still to come -/
  free : s.mutex = none → (0 < s.count → ∃ w, s.worker w ≠ .blocked) ∧
    (s.count < nbuffers → ∀ connfd, s.main ≠ .blocked connfd)

/-! ## The invariant -/

/-- Between `pthread_mutex_lock` and `pthread_mutex_unlock`, or the wait. -/
def Worker.inside : Worker → Bool
  | .test | .wait | .take | .signal _ | .unlock _ => true
  | _ => false

def Main.inside : Main → Bool
  | .test _ | .wait _ | .put _ | .signal | .unlock => true
  | _ => false

def Sys.inside (s : Sys N) : Owner N → Bool
  | .main => s.main.inside
  | .worker w => (s.worker w).inside

structure Inv (nbuffers : Int) (s : Sys N) : Prop where
  owner : ∀ o, s.inside o = true → s.mutex = some o
  /-- what the test has found is still so -/
  empty : ∀ w, s.worker w = .wait → s.count = 0
  full : ∀ connfd, s.main = .wait connfd → s.count = nbuffers
  /-- a worker is awake while there is something to take, or `main` will wake one -/
  fill : 0 < s.count → (∃ w, s.worker w ≠ .blocked) ∨ s.main = .signal
  /-- `main` is only blocked while the buffer is full, or a worker will wake it -/
  room : ∀ connfd, s.main = .blocked connfd →
    s.count = nbuffers ∨ ∃ w curr_fd, s.worker w = .signal curr_fd

variable {s t : Sys N} {nbuffers : Int} {w w' : Fin N} {x : Worker} {m : Main} {o : Owner N}

theorem Inv.notStuck (h : Inv nbuffers s) : NotStuck nbuffers s where
  workers := by
    rintro ⟨hcount, hall, hno⟩
    rcases h.fill hcount with ⟨w, hw⟩ | hsignal
    · rcases hall w with hb | hwoken
      · exact hw hb
      · exact hno (.inl ⟨w, hwoken⟩)
    · exact hno (.inr hsignal)
  producer := by
    rintro ⟨hcount, ⟨connfd, hb | hwoken⟩, hno⟩
    · rcases h.room connfd hb with hfull | hsignal
      · omega
      · exact hno (.inr hsignal)
    · exact hno (.inl ⟨connfd, hwoken⟩)
  free := by
    intro hfree
    constructor
    · intro hcount
      rcases h.fill hcount with hawake | hsignal
      · exact hawake
      · have hown := h.owner .main (by rw [Sys.inside, hsignal]; rfl)
        cases hfree.symm.trans hown
    · intro hcount connfd hb
      rcases h.room connfd hb with hfull | ⟨w, curr_fd, hsignal⟩
      · omega
      · have hown := h.owner (.worker w) (by rw [Sys.inside, hsignal]; rfl)
        cases hfree.symm.trans hown

/-! ## The mutex -/

@[simp] theorem setWorker_self : (s.setWorker w x).worker w = x := Function.update_self ..

theorem setWorker_of_ne (h : w' ≠ w) : (s.setWorker w x).worker w' = s.worker w' :=
  Function.update_of_ne h ..

/-- Thread `o` moves, and takes the mutex, gives it back or does neither. -/
theorem owner_step (h : ∀ o, s.inside o = true → s.mutex = some o)
    (hother : ∀ o', o' ≠ o → t.inside o' = s.inside o')
    (ho : (t.mutex = s.mutex ∧ (t.inside o = true → s.inside o = true)) ∨
      (s.mutex = none ∧ t.mutex = some o) ∨ (s.mutex = some o ∧ t.inside o = false)) :
    ∀ o, t.inside o = true → t.mutex = some o := by
  intro o' hin
  by_cases he : o' = o
  · subst he
    rcases ho with ⟨hm, hs⟩ | ⟨-, hm⟩ | ⟨-, hout⟩
    · rw [hm]
      exact h o' (hs hin)
    · exact hm
    · cases hout.symm.trans hin
  · have hs := h o' (by rwa [← hother o' he])
    rcases ho with ⟨hm, -⟩ | ⟨hnone, -⟩ | ⟨hown, -⟩
    · rw [hm]
      exact hs
    · cases hnone.symm.trans hs
    · cases hown.symm.trans hs
      exact absurd rfl he

theorem inside_setWorker (hmain : t.main.inside = s.main.inside)
    (hworker : t.worker = Function.update s.worker w x) :
    (∀ o, o ≠ .worker w → t.inside o = s.inside o) ∧ t.inside (.worker w) = x.inside := by
  constructor
  · intro o ho
    cases o with
    | main => exact hmain
    | worker w' =>
        have hne : w' ≠ w := fun he => ho (he ▸ rfl)
        rw [Sys.inside, Sys.inside, hworker, Function.update_of_ne hne]
  · rw [Sys.inside, hworker, Function.update_self]

theorem inside_setMain (hworker : ∀ w, (t.worker w).inside = (s.worker w).inside) :
    ∀ o, o ≠ .main → t.inside o = s.inside o := by
  intro o ho
  cases o with
  | main => exact absurd rfl ho
  | worker w => exact hworker w

/-! ## The steps of a worker -/

/-- A worker moves on without touching the buffer; it has not been about to
signal. -/
theorem Inv.moveWorker (h : Inv nbuffers s) {μ : Option (Owner N)}
    (hno : ∀ curr_fd, s.worker w ≠ .signal curr_fd)
    (ho : (μ = s.mutex ∧ (x.inside = true → (s.worker w).inside = true)) ∨
      (s.mutex = none ∧ μ = some (.worker w)) ∨ (s.mutex = some (.worker w) ∧ x.inside = false))
    (hwait : x = .wait → s.count = 0) (hblocked : x = .blocked → s.count = 0) :
    Inv nbuffers { s.setWorker w x with mutex := μ } where
  owner := by
    obtain ⟨hother, hself⟩ := inside_setWorker (s := s)
      (t := { s.setWorker w x with mutex := μ }) (w := w) (x := x) rfl rfl
    refine owner_step h.owner hother ?_
    rw [hself]
    exact ho
  empty w' hw' := by
    by_cases hne : w' = w
    · subst hne
      exact hwait ((Function.update_self ..).symm.trans hw')
    · exact h.empty w' ((Function.update_of_ne hne ..).symm.trans hw')
  full := h.full
  fill hcount := by
    refine .inl ⟨w, fun hw => ?_⟩
    have hzero := hblocked ((Function.update_self ..).symm.trans hw)
    have hpos : 0 < s.count := hcount
    omega
  room connfd hmain := by
    refine (h.room connfd hmain).imp id ?_
    rintro ⟨w', curr_fd, hw'⟩
    have hne : w' ≠ w := fun he => hno curr_fd (he ▸ hw')
    exact ⟨w', curr_fd, (Function.update_of_ne hne ..).trans hw'⟩

/-- A worker takes a descriptor, and will signal. -/
theorem Inv.take (h : Inv nbuffers s) (hw : s.worker w = .take) {curr_fd used count : Int} :
    Inv nbuffers { s.setWorker w (.signal curr_fd) with used := used, count := count } where
  owner := by
    obtain ⟨hother, hself⟩ := inside_setWorker (s := s) (w := w) (x := .signal curr_fd)
      (t := { s.setWorker w (.signal curr_fd) with used := used, count := count }) rfl rfl
    refine owner_step h.owner hother (.inl ⟨rfl, fun _ => ?_⟩)
    rw [Sys.inside, hw]
    rfl
  empty w' hw' := by
    -- nobody else is inside
    have hown := h.owner (.worker w) (by rw [Sys.inside, hw]; rfl)
    by_cases hne : w' = w
    · subst hne
      cases (Function.update_self ..).symm.trans hw'
    · have hs : s.worker w' = .wait := (Function.update_of_ne hne ..).symm.trans hw'
      cases hown.symm.trans (h.owner (.worker w') (by rw [Sys.inside, hs]; rfl))
      exact absurd rfl hne
  full connfd hmain := by
    have hown := h.owner (.worker w) (by rw [Sys.inside, hw]; rfl)
    have hs : s.main = .wait connfd := hmain
    cases hown.symm.trans (h.owner .main (by rw [Sys.inside, hs]; rfl))
  fill _ := .inl ⟨w, fun hb => by cases (Function.update_self ..).symm.trans hb⟩
  room _ _ := .inr ⟨w, curr_fd, Function.update_self ..⟩

/-- A worker wakes `main`. -/
theorem Inv.signalEmpty (h : Inv nbuffers s) {curr_fd : Int} (hw : s.worker w = .signal curr_fd) :
    Inv nbuffers { s.setWorker w (.unlock curr_fd) with main := s.main.signalEmpty } where
  owner := by
    have hmain : s.main.signalEmpty.inside = s.main.inside := by
      cases s.main <;> rfl
    obtain ⟨hother, hself⟩ := inside_setWorker (s := s) (w := w) (x := .unlock curr_fd)
      (t := { s.setWorker w (.unlock curr_fd) with main := s.main.signalEmpty }) hmain rfl
    refine owner_step h.owner hother (.inl ⟨rfl, fun _ => ?_⟩)
    rw [Sys.inside, hw]
    rfl
  empty w' hw' := by
    by_cases hne : w' = w
    · subst hne
      cases (Function.update_self ..).symm.trans hw'
    · exact h.empty w' ((Function.update_of_ne hne ..).symm.trans hw')
  full connfd hmain := by
    refine h.full connfd ?_
    have hs : s.main.signalEmpty = .wait connfd := hmain
    revert hs
    cases s.main <;> intro hs <;> cases hs
    rfl
  fill _ := .inl ⟨w, fun hb => by cases (Function.update_self ..).symm.trans hb⟩
  room connfd hmain := by
    have hs : s.main.signalEmpty = .blocked connfd := hmain
    revert hs
    cases s.main <;> intro hs <;> cases hs

theorem stepWorker_inv (h : Inv nbuffers s) (ht : s.stepWorker nbuffers w = some t) :
    Inv nbuffers t := by
  have hown : (s.worker w).inside = true → s.mutex = some (.worker w) := h.owner (.worker w)
  unfold Sys.stepWorker at ht
  cases hw : s.worker w with
  | unborn | blocked =>
      simp only [hw] at ht
      cases ht
  | lock | woken =>
      simp only [hw] at ht
      split at ht
      · rename_i hfree
        cases ht
        exact h.moveWorker (by rw [hw]; exact fun _ he => by cases he) (.inr (.inl ⟨hfree, rfl⟩))
          (fun he => by cases he) fun he => by cases he
      · cases ht
  | test =>
      simp only [hw] at ht
      cases ht
      refine h.moveWorker (by rw [hw]; exact fun _ he => by cases he)
        (.inl ⟨rfl, fun _ => by rw [hw]; rfl⟩) (fun he => ?_) fun he => ?_
      · by_contra hne
        rw [if_neg hne] at he
        cases he
      · split at he <;> cases he
  | wait =>
      simp only [hw] at ht
      cases ht
      exact h.moveWorker (by rw [hw]; exact fun _ he => by cases he)
        (.inr (.inr ⟨hown (by rw [hw]; rfl), rfl⟩)) (fun he => by cases he) fun _ => h.empty w hw
  | take =>
      simp only [hw] at ht
      cases ht
      exact h.take hw
  | signal curr_fd =>
      simp only [hw] at ht
      cases ht
      exact h.signalEmpty hw
  | unlock curr_fd =>
      simp only [hw] at ht
      cases ht
      exact h.moveWorker (by rw [hw]; exact fun _ he => by cases he)
        (.inr (.inr ⟨hown (by rw [hw]; rfl), rfl⟩)) (fun he => by cases he) fun he => by cases he
  | handle curr_fd | close curr_fd =>
      simp only [hw] at ht
      cases ht
      exact h.moveWorker (by rw [hw]; exact fun _ he => by cases he)
        (.inl ⟨rfl, fun he => by cases he⟩) (fun he => by cases he) fun he => by cases he

/-! ## The steps of `main` -/

/-- `main` moves on without touching the buffer. -/
theorem Inv.moveMain (h : Inv nbuffers s) {μ : Option (Owner N)} (hno : s.main ≠ .signal)
    (ho : (μ = s.mutex ∧ (m.inside = true → s.main.inside = true)) ∨
      (s.mutex = none ∧ μ = some .main) ∨ (s.mutex = some .main ∧ m.inside = false))
    (hwait : ∀ connfd, m = .wait connfd ∨ m = .blocked connfd → s.count = nbuffers) :
    Inv nbuffers { s with mutex := μ, main := m } where
  owner := owner_step (o := .main) h.owner (inside_setMain fun _ => rfl) ho
  empty := h.empty
  full connfd hm := hwait connfd (.inl hm)
  fill hcount := .inl ((h.fill hcount).resolve_right hno)
  room connfd hm := .inl (hwait connfd (.inr hm))

/-- A worker is created. -/
theorem Inv.create (h : Inv nbuffers s) {j : Nat} :
    Inv nbuffers { s.setWorker w .lock with main := .create j } where
  owner o hin := by
    cases o with
    | main => cases hin
    | worker w' =>
        by_cases hne : w' = w
        · subst hne
          rw [Sys.inside, show Sys.worker _ w' = .lock from setWorker_self] at hin
          cases hin
        · rw [Sys.inside, show Sys.worker _ w' = s.worker w' from setWorker_of_ne hne] at hin
          exact h.owner (.worker w') hin
  empty w' hw' := by
    by_cases hne : w' = w
    · subst hne
      cases setWorker_self.symm.trans hw'
    · exact h.empty w' ((setWorker_of_ne hne).symm.trans hw')
  full _ he := by cases he
  fill _ := .inl ⟨w, fun hb => by cases setWorker_self.symm.trans hb⟩
  room _ he := by cases he

/-- A descriptor more, and `main` will signal. -/
theorem Inv.put (h : Inv nbuffers s) {connfd filled count : Int} (hm : s.main = .put connfd)
    {buffer : Int → Int} :
    Inv nbuffers { s with buffer := buffer, filled := filled, count := count, main := .signal } where
  owner := owner_step (o := .main) h.owner (inside_setMain fun _ => rfl)
    (.inl ⟨rfl, fun _ => by rw [Sys.inside, hm]; rfl⟩)
  empty w hw := by
    have hown := h.owner .main (by rw [Sys.inside, hm]; rfl)
    have hs : s.worker w = .wait := hw
    cases hown.symm.trans (h.owner (.worker w) (by rw [Sys.inside, hs]; rfl))
  full _ he := by cases he
  fill _ := .inr rfl
  room _ he := by cases he

/-- `main` wakes workers: if it wakes none, none is blocked. -/
theorem Inv.signalFill (hN : 0 < N) (h : Inv nbuffers s) (hm : s.main = .signal)
    {ws : List (Fin N)} (hws : ∀ w ∈ ws, s.worker w = .blocked)
    (hnil : ws = [] → ∀ w, s.worker w ≠ .blocked) :
    Inv nbuffers { s.wakeAll ws with main := .unlock } where
  owner := by
    refine owner_step (o := .main) h.owner (inside_setMain fun w => ?_)
      (.inl ⟨rfl, fun _ => by rw [Sys.inside, hm]; rfl⟩)
    show (if w ∈ ws then Worker.woken else s.worker w).inside = _
    split
    · rename_i hw
      rw [hws w hw]
      rfl
    · rfl
  empty w hw := by
    have hs : (if w ∈ ws then Worker.woken else s.worker w) = .wait := hw
    split at hs
    · cases hs
    · exact h.empty w hs
  full _ he := by cases he
  fill _ := by
    left
    cases ws with
    | nil => exact ⟨⟨0, hN⟩, by simpa [Sys.wakeAll] using hnil rfl ⟨0, hN⟩⟩
    | cons w ws => exact ⟨w, by simp [Sys.wakeAll]⟩
  room _ he := by cases he

theorem stepMain_inv (h : Inv nbuffers s) (ht : s.stepMain nbuffers = some t) : Inv nbuffers t := by
  have hown : s.main.inside = true → s.mutex = some .main := h.owner .main
  unfold Sys.stepMain at ht
  cases hm : s.main with
  | accept | signal | blocked =>
      simp only [hm] at ht
      cases ht
  | create i =>
      simp only [hm] at ht
      split at ht
      · rename_i hi
        cases ht
        exact h.create
      · cases ht
        exact h.moveMain (by rw [hm]; exact fun he => by cases he) (.inl ⟨rfl, fun he => by cases he⟩)
          (fun _ he => by rcases he with he | he <;> cases he)
  | lock connfd | woken connfd =>
      simp only [hm] at ht
      split at ht
      · rename_i hfree
        cases ht
        exact h.moveMain (by rw [hm]; exact fun he => by cases he) (.inr (.inl ⟨hfree, rfl⟩))
          (fun _ he => by rcases he with he | he <;> cases he)
      · cases ht
  | test connfd =>
      simp only [hm] at ht
      cases ht
      refine h.moveMain (by rw [hm]; exact fun he => by cases he)
        (.inl ⟨rfl, fun _ => by rw [hm]; rfl⟩) (fun _ he => ?_)
      by_contra hne
      rw [if_neg hne] at he
      rcases he with he | he <;> cases he
  | wait connfd =>
      simp only [hm] at ht
      cases ht
      exact h.moveMain (by rw [hm]; exact fun he => by cases he)
        (.inr (.inr ⟨hown (by rw [hm]; rfl), rfl⟩)) (fun _ _ => h.full connfd hm)
  | put connfd =>
      simp only [hm] at ht
      cases ht
      exact h.put hm
  | unlock =>
      simp only [hm] at ht
      cases ht
      exact h.moveMain (by rw [hm]; exact fun he => by cases he)
        (.inr (.inr ⟨hown (by rw [hm]; rfl), rfl⟩))
        (fun _ he => by rcases he with he | he <;> cases he)

theorem step_inv (hN : 0 < N) {e : Event N} (h : Inv nbuffers s) (ht : s.step nbuffers e = some t) :
    Inv nbuffers t := by
  cases e with
  | accept connfd =>
      simp only [Sys.step] at ht
      split at ht
      · rename_i hm
        cases ht
        exact h.moveMain (by rw [hm]; exact fun he => by cases he) (.inl ⟨rfl, fun he => by cases he⟩)
          (fun _ he => by rcases he with he | he <;> cases he)
      · cases ht
  | signal ws =>
      simp only [Sys.step] at ht
      split at ht
      · rename_i hws
        cases ht
        exact h.signalFill hN hws.1 hws.2.1 hws.2.2
      · cases ht
  | main => exact stepMain_inv h ht
  | worker w => exact stepWorker_inv h ht
  | wakeMain =>
      simp only [Sys.step] at ht
      split at ht
      · rename_i connfd hm
        cases ht
        exact h.moveMain (by rw [hm]; exact fun he => by cases he) (.inl ⟨rfl, fun he => by cases he⟩)
          (fun _ he => by rcases he with he | he <;> cases he)
      · cases ht
  | wake w =>
      simp only [Sys.step] at ht
      split at ht
      · rename_i hw
        cases ht
        exact h.moveWorker (by rw [hw]; exact fun _ he => by cases he)
          (.inl ⟨rfl, fun he => by cases he⟩) (fun he => by cases he) fun he => by cases he
      · cases ht

theorem start_inv (buffer : Int → Int) : Inv nbuffers (start N buffer) where
  owner o hin := by cases o <;> cases hin
  empty _ he := by cases he
  full _ he := by cases he
  fill hcount := absurd hcount (Int.lt_irrefl 0)
  room _ he := by cases he

end

/-- However the threads take turns, and whichever the signals wake, nobody is
left blocked with work or room and no wake-up to come. -/
theorem stuck_run {N : Nat} (hN : 1 ≤ N) (nbuffers : Int) (buffer : Int → Int) (es : List (Event N)) :
    AllStates (Sys.step nbuffers) (NotStuck nbuffers) (start N buffer) es :=
  (allStates_of_step (fun _ _ _ hs ht => step_inv hN hs ht) (start_inv buffer)).mono
    fun _ hs => hs.notStuck

/-- One slot, and a worker that is woken for a descriptor which the other takes. -/
theorem stuck_run_stolen : 1 ≤ 2 ∧ AllStates (Sys.step 1) (NotStuck 1) (start 2 fun _ => 0)
    [.main, .main, .main, .worker 0, .worker 0, .worker 0, .accept 4, .main, .main, .main,
      .signal [0], .main, .worker 1, .worker 1, .worker 1, .worker 1, .worker 1, .worker 0,
      .worker 0, .worker 0] :=
  ⟨by decide, stuck_run (by decide) 1 _ _⟩

end Cs537.Server.Calls
