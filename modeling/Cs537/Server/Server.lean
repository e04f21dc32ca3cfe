/-
# `Cs537.Server.Server` — the bounded buffer of the web server (p4/linux)

`main` of `server.c` accepts connections and puts their descriptors into a ring
of `nbuffers` slots; each of `nthreads` workers takes one out, handles it and
closes it.  A section between `pthread_mutex_lock` and `pthread_mutex_unlock`
is one step, and so is one that ends in `pthread_cond_wait`; a thread that has
been woken starts with the test of the `while` again.  Threads are woken by
`pthread_cond_signal`, which wakes one that waits if there is any, or for no
reason.

`accepted`, `taken` and `log` are not in the program: what `Accept` has
returned, what the workers have taken, and what they have done with it.
-/
import Cs537.Lib.Run
import Cs537.Lib.Ring

namespace Cs537.Server

open Cs537.Lib

inductive Worker where
  /-- about to lock the mutex, or woken in `pthread_cond_wait` -/
  | ready
  | asleep
  /-- has taken `curr_fd`, the `k`-th descriptor to be taken -/
  | took (curr_fd : Int) (k : Nat)
  /-- `requestHandle(curr_fd)` has returned -/
  | handled (curr_fd : Int) (k : Nat)
  deriving DecidableEq

inductive Main where
  | accepting
  /-- about to lock the mutex, or woken -/
  | ready (connfd : Int)
  | asleep (connfd : Int)

/-- What a worker has done with the `k`-th descriptor taken. -/
inductive Entry (N : Nat) where
  | handled (w : Fin N) (k : Nat) (fd : Int)
  | closed (w : Fin N) (k : Nat) (fd : Int)

structure Sys (N : Nat) where
  buffer : Int → Int
  count : Int
  filled : Int
  used : Int
  main : Main
  worker : Fin N → Worker
  accepted : List Int
  taken : List (Fin N × Int)
  log : List (Entry N)

variable {N : Nat}

def Sys.setWorker (s : Sys N) (w : Fin N) (x : Worker) : Sys N :=
  { s with worker := Function.update s.worker w x }

/-- `pthread_cond_signal(&fill)`; `k` is the worker it wakes, `none` if no
worker waits. -/
def Sys.signalFill (s : Sys N) (k : Option (Fin N)) : Option (Sys N) :=
  match k with
  | some w => if s.worker w = .asleep then some (s.setWorker w .ready) else none
  | none => if ∀ w, s.worker w ≠ .asleep then some s else none

/-- `pthread_cond_signal(&empty)`; only `main` waits for it. -/
def Main.signalEmpty : Main → Main
  | .asleep connfd => .ready connfd
  | m => m

inductive Event (N : Nat) where
  | accept (connfd : Int)
  /-- the section in `main`; its signal wakes `k` -/
  | produce (k : Option (Fin N))
  /-- the section in a worker -/
  | consume (w : Fin N)
  | handle (w : Fin N)
  | close (w : Fin N)
  /-- `pthread_cond_wait` returns for no reason -/
  | wakeMain
  | wake (w : Fin N)

def Sys.put (nbuffers : Int) (s : Sys N) (connfd : Int) : Sys N :=
  { s with
    buffer := Function.update s.buffer s.filled connfd
    filled := (s.filled + 1).tmod nbuffers
    count := s.count + 1
    main := .accepting }

def Sys.produce (nbuffers : Int) (s : Sys N) (connfd : Int) (k : Option (Fin N)) : Option (Sys N) :=
  if s.count = nbuffers then some { s with main := .asleep connfd }
  else (s.put nbuffers connfd).signalFill k

def Sys.consume (nbuffers : Int) (s : Sys N) (w : Fin N) : Sys N :=
  if s.count = 0 then s.setWorker w .asleep
  else
    let curr_fd := s.buffer s.used
    { s.setWorker w (.took curr_fd s.taken.length) with
      used := (s.used + 1).tmod nbuffers
      count := s.count - 1
      main := s.main.signalEmpty
      taken := s.taken ++ [(w, curr_fd)] }

def Sys.step (nbuffers : Int) (s : Sys N) : Event N → Option (Sys N)
  | .accept connfd => match s.main with
      | .accepting => some { s with main := .ready connfd, accepted := s.accepted ++ [connfd] }
      | _ => none
  | .produce k => match s.main with
      | .ready connfd => s.produce nbuffers connfd k
      | _ => none
  | .consume w => if s.worker w = .ready then some (s.consume nbuffers w) else none
  | .handle w => match s.worker w with
      | .took fd k => some { s.setWorker w (.handled fd k) with log := .handled w k fd :: s.log }
      | _ => none
  | .close w => match s.worker w with
      | .handled fd k => some { s.setWorker w .ready with log := .closed w k fd :: s.log }
      | _ => none
  | .wakeMain => match s.main with
      | .asleep connfd => some { s with main := .ready connfd }
      | _ => none
  | .wake w => if s.worker w = .asleep then some (s.setWorker w .ready) else none

/-- The threads have been created; the buffer is what `malloc` returned. -/
def start (N : Nat) (buffer : Int → Int) : Sys N where
  buffer := buffer
  count := 0
  filled := 0
  used := 0
  main := .accepting
  worker _ := .ready
  accepted := []
  taken := []
  log := []

/-! ## What the server promises -/

/-- The descriptors in the buffer, the first accepted first. -/
def Sys.unread (nbuffers : Int) (s : Sys N) : List Int :=
  ring nbuffers s.buffer s.used s.count.toNat

/-- The descriptor that `main` has accepted and not put into the buffer yet. -/
def Main.pending : Main → List Int
  | .accepting => []
  | .ready connfd | .asleep connfd => [connfd]

def Entry.index : Entry N → Nat
  | .handled _ k _ | .closed _ k _ => k

/-- What has been done with the `k`-th descriptor taken. -/
def Sys.about (s : Sys N) (k : Nat) : List (Entry N) := s.log.filter fun e => e.index = k

def Worker.Holds : Worker → Int → Nat → Prop
  | .took fd k, fd', k' | .handled fd k, fd', k' => fd = fd' ∧ k = k'
  | _, _, _ => False

/-- The `k`-th descriptor taken, `fd`, is with the worker `w` that took it, to be
handled or to be closed, or `w` has handled it and closed it. -/
def Sys.InHand (s : Sys N) (w : Fin N) (fd : Int) (k : Nat) : Prop :=
  (s.worker w = .took fd k ∧ s.about k = []) ∨
    (s.worker w = .handled fd k ∧ s.about k = [.handled w k fd]) ∨
    ((∀ fd', ¬ (s.worker w).Holds fd' k) ∧ s.about k = [.closed w k fd, .handled w k fd])

structure Right (nbuffers : Int) (s : Sys N) : Prop where
  count_nonneg : 0 ≤ s.count
  count_le : s.count ≤ nbuffers
  filled : s.filled = (s.used + s.count) % nbuffers
  /-- the slot to be written is not one with an unread descriptor -/
  free : s.count < nbuffers → ∀ i, 0 ≤ i → i < s.count → (s.used + i) % nbuffers ≠ s.filled
  /-- taken in the order accepted, none lost -/
  order : s.accepted = s.taken.map Prod.snd ++ s.unread nbuffers ++ s.main.pending
  /-- every descriptor taken is handled and closed by the worker that took it -/
  once : ∀ k w fd, s.taken[k]? = some (w, fd) → s.InHand w fd k
  /-- and by no other -/
  only : ∀ k w fd, (s.worker w).Holds fd k → s.taken[k]? = some (w, fd)
  /-- and nothing else is -/
  none : ∀ k, s.taken.length ≤ k → s.about k = []
  /-- while there is something to take, some worker does not wait for a signal -/
  awake : 0 < s.count → ∃ w, s.worker w ≠ .asleep
  /-- `main` only waits for a signal while the buffer is full -/
  full : ∀ connfd, s.main = .asleep connfd → s.count = nbuffers
  /-- when only `Accept` can go on, all that was accepted has been closed -/
  idle : (∀ w, s.worker w = .asleep) → (∀ connfd, s.main ≠ .ready connfd) →
    s.accepted = s.taken.map Prod.snd ∧
      ∀ k w fd, s.taken[k]? = some (w, fd) → s.about k = [.closed w k fd, .handled w k fd]

/-! ## The invariant -/

section

variable {s t : Sys N} {nbuffers fd : Int} {w w' : Fin N} {k : Nat}

@[simp] theorem setWorker_self {x : Worker} : (s.setWorker w x).worker w = x :=
  Function.update_self ..

theorem setWorker_of_ne {x : Worker} (h : w' ≠ w) : (s.setWorker w x).worker w' = s.worker w' :=
  Function.update_of_ne h ..

theorem inHand_keep (h : s.InHand w fd k)
    (hw : t.worker w = s.worker w ∨
      ((∀ fd', ¬ (s.worker w).Holds fd' k) ∧ ∀ fd', ¬ (t.worker w).Holds fd' k))
    (ha : t.about k = s.about k) : t.InHand w fd k := by
  rw [Sys.InHand, ha]
  rcases hw with hw | ⟨hs, ht⟩
  · rw [hw]
    exact h
  · rcases h with ⟨hx, -⟩ | ⟨hx, -⟩ | ⟨-, habout⟩
    · exact absurd (by rw [hx]; exact ⟨rfl, rfl⟩) (hs fd)
    · exact absurd (by rw [hx]; exact ⟨rfl, rfl⟩) (hs fd)
    · exact .inr (.inr ⟨ht, habout⟩)

/-- The part about the workers and what they have taken. -/
structure Hands (s : Sys N) : Prop where
  once : ∀ k w fd, s.taken[k]? = some (w, fd) → s.InHand w fd k
  only : ∀ k w fd, (s.worker w).Holds fd k → s.taken[k]? = some (w, fd)
  none : ∀ k, s.taken.length ≤ k → s.about k = []

/-- The part about the ring. -/
structure Ring (nbuffers : Int) (s : Sys N) : Prop where
  used_nonneg : 0 ≤ s.used
  used_lt : s.used < nbuffers
  count_nonneg : 0 ≤ s.count
  count_le : s.count ≤ nbuffers
  filled : s.filled = (s.used + s.count) % nbuffers
  order : s.accepted = s.taken.map Prod.snd ++ s.unread nbuffers ++ s.main.pending

structure Inv (nbuffers : Int) (s : Sys N) : Prop extends Ring nbuffers s, Hands s where
  awake : 0 < s.count → ∃ w, s.worker w ≠ .asleep
  full : ∀ connfd, s.main = .asleep connfd → s.count = nbuffers

theorem Inv.right (h : Inv nbuffers s) : Right nbuffers s where
  count_nonneg := h.count_nonneg
  count_le := h.count_le
  filled := h.filled
  free hlt i hi hic := by
    rw [h.filled]
    exact slot_ne hic (by omega)
  order := h.order
  once := h.once
  only := h.only
  none := h.none
  awake := h.awake
  full := h.full
  idle hasleep hmain := by
    have hzero : s.count = 0 := by
      by_contra hne
      obtain ⟨w, hw⟩ := h.awake (by have := h.count_nonneg; omega)
      exact hw (hasleep w)
    have hpending : s.main.pending = [] := by
      cases hc : s.main with
      | accepting => rfl
      | ready connfd => exact absurd hc (hmain connfd)
      | asleep connfd =>
          have := h.full connfd hc
          have := h.used_nonneg
          have := h.used_lt
          omega
    refine ⟨?_, fun k w fd hk => ?_⟩
    · rw [h.order, hpending, Sys.unread, hzero]
      simp
    · rcases h.once k w fd hk with ⟨hx, -⟩ | ⟨hx, -⟩ | ⟨-, habout⟩
      · cases hx.symm.trans (hasleep w)
      · cases hx.symm.trans (hasleep w)
      · exact habout

/-- A worker that has nothing goes to sleep or wakes up. -/
theorem Hands.setWorker (h : Hands s) {x : Worker} (hx : ∀ fd k, ¬ x.Holds fd k)
    (hw : ∀ fd k, ¬ (s.worker w).Holds fd k) : Hands (s.setWorker w x) where
  once k w' fd hk := by
    refine inHand_keep (h.once k w' fd hk) ?_ rfl
    by_cases hww : w' = w
    · rw [hww]
      refine .inr ⟨fun fd' => hw fd' k, fun fd' => ?_⟩
      rw [setWorker_self]
      exact hx fd' k
    · exact .inl (Function.update_of_ne hww ..)
  only k w' fd hk := by
    by_cases hww : w' = w
    · rw [hww, setWorker_self] at hk
      exact absurd hk (hx fd k)
    · rw [setWorker_of_ne hww] at hk
      exact h.only k w' fd hk
  none := h.none

theorem not_holds_ready (fd : Int) (k : Nat) : ¬ Worker.ready.Holds fd k := id

theorem not_holds_asleep (fd : Int) (k : Nat) : ¬ Worker.asleep.Holds fd k := id

/-- A worker takes a descriptor. -/
theorem Hands.take (h : Hands s) (hw : s.worker w = .ready)
    (hworker : t.worker = Function.update s.worker w (.took fd s.taken.length))
    (htaken : t.taken = s.taken ++ [(w, fd)]) (hlog : t.log = s.log) : Hands t := by
  have habout : ∀ k, t.about k = s.about k := fun k => by rw [Sys.about, hlog]; rfl
  have hself : t.worker w = .took fd s.taken.length := by rw [hworker, Function.update_self]
  have hother : ∀ w', w' ≠ w → t.worker w' = s.worker w' := fun w' hww => by
    rw [hworker, Function.update_of_ne hww]
  have hold : ∀ {k}, k < s.taken.length → t.taken[k]? = s.taken[k]? := fun hk => by
    rw [htaken, List.getElem?_append_left hk]
  constructor
  · intro k w' fd' hk
    rcases Nat.lt_or_ge k s.taken.length with hlt | hge
    · rw [hold hlt] at hk
      refine inHand_keep (h.once k w' fd' hk) ?_ (habout k)
      by_cases hww : w' = w
      · rw [hww, hw, hself]
        refine .inr ⟨fun fd' => not_holds_ready fd' k, fun fd' hholds => ?_⟩
        exact Nat.ne_of_gt hlt hholds.2
      · exact .inl (hother w' hww)
    · rw [htaken, List.getElem?_append_right hge, List.getElem?_singleton] at hk
      split at hk
      · rename_i hzero
        obtain ⟨rfl, rfl⟩ := Prod.mk.inj (Option.some.inj hk)
        obtain rfl : k = s.taken.length := by omega
        exact .inl ⟨hself, (habout _).trans (h.none _ hge)⟩
      · cases hk
  · intro k w' fd' hholds
    by_cases hww : w' = w
    · subst hww
      rw [hself] at hholds
      obtain ⟨rfl, rfl⟩ := hholds
      rw [htaken, List.getElem?_concat_length]
    · rw [hother w' hww] at hholds
      have hk := h.only k w' fd' hholds
      rw [hold (List.getElem?_eq_some_iff.mp hk).1]
      exact hk
  · intro k hk
    rw [htaken, List.length_append] at hk
    exact (habout k).trans (h.none k (by simp at hk; omega))

/-- A worker handles what it has taken, or closes it. -/
theorem Hands.log (h : Hands s) {x : Worker} {e : Entry N} (hx : ∀ fd' k', x.Holds fd' k' → fd' = fd ∧ k' = k)
    (hw : (s.worker w).Holds fd k) (he : e.index = k)
    (hstep : s.InHand w fd k → Sys.InHand { s.setWorker w x with log := e :: s.log } w fd k) :
    Hands { s.setWorker w x with log := e :: s.log } := by
  have hkey := h.only k w fd hw
  have hlt := (List.getElem?_eq_some_iff.mp hkey).1
  have hholds : ∀ fd' k', (s.worker w).Holds fd' k' → fd' = fd ∧ k' = k := by
    intro fd' k' hh
    cases hc : s.worker w with
    | ready | asleep =>
        rw [hc] at hh
        exact hh.elim
    | took | handled =>
        rw [hc] at hh hw
        exact ⟨hh.1.symm.trans hw.1, hh.2.symm.trans hw.2⟩
  have habout : ∀ k', k' ≠ k →
      Sys.about { s.setWorker w x with log := e :: s.log } k' = s.about k' := fun k' hk => by
    show (e :: s.log).filter _ = s.log.filter _
    exact List.filter_cons_of_neg (by simpa [he] using hk.symm)
  constructor
  · intro k' w' fd' hk'
    by_cases hkk : k' = k
    · subst hkk
      obtain ⟨rfl, rfl⟩ := Prod.mk.inj (Option.some.inj (hkey.symm.trans hk'))
      exact hstep (h.once k' w fd hkey)
    · refine inHand_keep (h.once k' w' fd' hk') ?_ (habout k' hkk)
      by_cases hww : w' = w
      · rw [hww]
        refine .inr ⟨fun fd'' hh => hkk (hholds fd'' k' hh).2, fun fd'' hh => ?_⟩
        rw [show Sys.worker _ w = x from setWorker_self] at hh
        exact hkk (hx fd'' k' hh).2
      · exact .inl (Function.update_of_ne hww ..)
  · intro k' w' fd' hh
    by_cases hww : w' = w
    · rw [hww, show Sys.worker _ w = x from setWorker_self] at hh
      obtain ⟨rfl, rfl⟩ := hx fd' k' hh
      rw [hww]
      exact hkey
    · rw [show Sys.worker _ w' = s.worker w' from setWorker_of_ne hww] at hh
      exact h.only k' w' fd' hh
  · intro k' hk'
    have hkk : k' ≠ k := fun he => absurd hlt (by rw [← he]; exact Nat.not_lt.mpr hk')
    exact (habout k' hkk).trans (h.none k' hk')

/-! ## The steps -/

/-- A worker goes to sleep, or wakes up. -/
theorem Inv.setWorker (h : Inv nbuffers s) {x : Worker} (hx : ∀ fd k, ¬ x.Holds fd k)
    (hw : ∀ fd k, ¬ (s.worker w).Holds fd k) (hawake : x = .asleep → s.count = 0) :
    Inv nbuffers (s.setWorker w x) where
  toRing := ⟨h.used_nonneg, h.used_lt, h.count_nonneg, h.count_le, h.filled, h.order⟩
  toHands := h.toHands.setWorker hx hw
  awake hcount := by
    have hne : x ≠ .asleep := fun hx => by
      have hc : 0 < s.count := hcount
      have := hawake hx
      omega
    exact ⟨w, by rwa [setWorker_self]⟩
  full := h.full

theorem succ_filled (h : Ring nbuffers s) :
    (s.filled + 1).tmod nbuffers = (s.used + (s.count + 1)) % nbuffers := by
  have hb : 0 < nbuffers := by
    have := h.used_nonneg
    have := h.used_lt
    omega
  have hpos : 0 ≤ s.filled := h.filled ▸ Int.emod_nonneg _ (by omega)
  rw [Int.tmod_eq_emod_of_nonneg (by omega), h.filled, Int.emod_add_emod, Int.add_assoc]

/-- A descriptor more in the buffer. -/
theorem Ring.put (h : Ring nbuffers s) (hcount : s.count ≠ nbuffers) (hmain : s.main = .ready fd) :
    Ring nbuffers (s.put nbuffers fd) := by
  have hc := h.count_nonneg
  have hle := h.count_le
  have hunread : (s.put nbuffers fd).unread nbuffers = s.unread nbuffers ++ [fd] := by
    have hput : ring nbuffers (Function.update s.buffer ((s.used + s.count.toNat) % nbuffers) fd)
        s.used (s.count.toNat + 1) = ring nbuffers s.buffer s.used s.count.toNat ++ [fd] :=
      ring_put fd (by omega)
    rw [Int.toNat_of_nonneg hc, ← h.filled] at hput
    rw [Sys.unread, Sys.unread, ← hput]
    congr 1
    show (s.count + 1).toNat = s.count.toNat + 1
    omega
  refine ⟨h.used_nonneg, h.used_lt, by show 0 ≤ s.count + 1; omega,
    by show s.count + 1 ≤ nbuffers; omega, succ_filled h, ?_⟩
  rw [hunread]
  refine h.order.trans ?_
  rw [hmain]
  simp [Main.pending, Sys.put]

/-- The oldest descriptor is taken. -/
theorem Ring.take (h : Ring nbuffers s) (hcount : s.count ≠ 0)
    (hused : t.used = (s.used + 1).tmod nbuffers) (hcnt : t.count = s.count - 1)
    (hbuf : t.buffer = s.buffer) (hfilled : t.filled = s.filled)
    (hmain : t.main.pending = s.main.pending) (hacc : t.accepted = s.accepted)
    (htaken : t.taken = s.taken ++ [(w, s.buffer s.used)]) : Ring nbuffers t := by
  have hu := h.used_nonneg
  have hul := h.used_lt
  have hc := h.count_nonneg
  have hle := h.count_le
  have hb : 0 < nbuffers := by omega
  rw [Int.tmod_eq_emod_of_nonneg (by omega)] at hused
  have hunread : s.unread nbuffers = s.buffer s.used :: t.unread nbuffers := by
    rw [Sys.unread, show s.count.toNat = t.count.toNat + 1 by omega, ring_take,
      Int.emod_eq_of_lt hu hul, Sys.unread, hbuf, hused]
  refine ⟨?_, ?_, by omega, by omega, ?_, ?_⟩
  · rw [hused]
    exact Int.emod_nonneg _ (by omega)
  · rw [hused]
    exact Int.emod_lt_of_pos _ hb
  · rw [hfilled, h.filled, hused, hcnt, Int.emod_add_emod]
    congr 1
    omega
  · rw [hacc, h.order, hunread, htaken, hmain]
    simp

theorem signalFill_cases {k : Option (Fin N)} (h : s.signalFill k = some t) :
    (∃ w, s.worker w = .asleep ∧ t = s.setWorker w .ready) ∨
      ((∀ w, s.worker w ≠ .asleep) ∧ t = s) := by
  unfold Sys.signalFill at h
  split at h
  · rename_i w
    split at h
    · exact .inl ⟨w, ‹_›, (Option.some.inj h).symm⟩
    · cases h
  · split at h
    · exact .inr ⟨‹_›, (Option.some.inj h).symm⟩
    · cases h

theorem produce_inv (hN : 0 < N) (h : Inv nbuffers s) (hmain : s.main = .ready fd)
    {k : Option (Fin N)} (ht : s.produce nbuffers fd k = some t) : Inv nbuffers t := by
  rw [Sys.produce] at ht
  split at ht
  · rename_i hfull
    obtain rfl := Option.some.inj ht
    have horder := h.order
    rw [hmain] at horder
    exact { h with
      order := horder
      full := fun _ _ => hfull }
  · rename_i hroom
    have hring := h.toRing.put hroom hmain
    have hhands : Hands (s.put nbuffers fd) := ⟨h.once, h.only, h.none⟩
    rcases signalFill_cases ht with ⟨w, hw, rfl⟩ | ⟨hno, rfl⟩
    · have hholds : ∀ fd' k, ¬ ((s.put nbuffers fd).worker w).Holds fd' k := by
        rw [hw]
        exact not_holds_asleep
      exact {
        toRing := ⟨hring.used_nonneg, hring.used_lt, hring.count_nonneg, hring.count_le,
          hring.filled, hring.order⟩
        toHands := hhands.setWorker not_holds_ready hholds
        awake := fun _ => ⟨w, by rw [setWorker_self]; exact nofun⟩
        full := nofun }
    · exact {
        toRing := hring
        toHands := hhands
        awake := fun _ => ⟨⟨0, hN⟩, hno _⟩
        full := nofun }

theorem consume_inv (h : Inv nbuffers s) (hw : s.worker w = .ready) :
    Inv nbuffers (s.consume nbuffers w) := by
  have hholds : ∀ fd k, ¬ (s.worker w).Holds fd k := by
    rw [hw]
    exact not_holds_ready
  rw [Sys.consume]
  split
  · rename_i hzero
    exact h.setWorker not_holds_asleep hholds fun _ => hzero
  · rename_i hcount
    have hpending : s.main.signalEmpty.pending = s.main.pending := by
      cases s.main <;> rfl
    exact {
      toRing := h.toRing.take (w := w) hcount rfl rfl rfl rfl hpending rfl rfl
      toHands := h.toHands.take hw rfl rfl rfl
      awake := fun _ => ⟨w, by
        show (s.setWorker w _).worker w ≠ _
        rw [setWorker_self]
        exact nofun⟩
      full := fun c hc => by
        have hne : s.main.signalEmpty ≠ .asleep c := by cases s.main <;> exact nofun
        exact absurd hc hne }

/-- A worker goes on with the descriptor it has. -/
theorem Inv.log (h : Inv nbuffers s) {x : Worker} {e : Entry N} (hne : x ≠ .asleep)
    (hhands : Hands { s.setWorker w x with log := e :: s.log }) :
    Inv nbuffers { s.setWorker w x with log := e :: s.log } where
  toRing := ⟨h.used_nonneg, h.used_lt, h.count_nonneg, h.count_le, h.filled, h.order⟩
  toHands := hhands
  awake _ := ⟨w, by
    show (s.setWorker w x).worker w ≠ _
    rwa [setWorker_self]⟩
  full := h.full

theorem about_cons {u : Sys N} (e : Entry N) {l : List (Entry N)} (hlog : u.log = e :: s.log)
    (he : e.index = k) (habout : s.about k = l) : u.about k = e :: l := by
  rw [Sys.about, hlog, ← habout]
  exact List.filter_cons_of_pos (by simpa using he)

theorem handle_inv (h : Inv nbuffers s) (hw : s.worker w = .took fd k) :
    Inv nbuffers { s.setWorker w (.handled fd k) with log := .handled w k fd :: s.log } := by
  have hholds : (s.worker w).Holds fd k := by
    rw [hw]
    exact ⟨rfl, rfl⟩
  refine h.log nofun (h.toHands.log (fun fd' k' hh => ⟨hh.1.symm, hh.2.symm⟩) hholds rfl ?_)
  intro hin
  have habout : s.about k = [] := by
    rcases hin with ⟨-, ha⟩ | ⟨hx, -⟩ | ⟨hno, -⟩
    · exact ha
    · cases hw.symm.trans hx
    · exact absurd hholds (hno fd)
  exact .inr (.inl ⟨setWorker_self, about_cons (.handled w k fd) rfl rfl habout⟩)

theorem close_inv (h : Inv nbuffers s) (hw : s.worker w = .handled fd k) :
    Inv nbuffers { s.setWorker w .ready with log := .closed w k fd :: s.log } := by
  have hholds : (s.worker w).Holds fd k := by
    rw [hw]
    exact ⟨rfl, rfl⟩
  refine h.log nofun (h.toHands.log (fun fd' k' hh => hh.elim) hholds rfl ?_)
  intro hin
  have habout : s.about k = [.handled w k fd] := by
    rcases hin with ⟨hx, -⟩ | ⟨-, ha⟩ | ⟨hno, -⟩
    · cases hw.symm.trans hx
    · exact ha
    · exact absurd hholds (hno fd)
  refine .inr (.inr ⟨fun fd' => ?_, ?_⟩)
  · rw [show Sys.worker _ w = .ready from setWorker_self]
    exact not_holds_ready fd' k
  · exact about_cons (.closed w k fd) rfl rfl habout

theorem step_inv (hN : 0 < N) {e : Event N} (h : Inv nbuffers s)
    (ht : s.step nbuffers e = some t) : Inv nbuffers t := by
  unfold Sys.step at ht
  split at ht
  · split at ht
    · rename_i fd hmain
      obtain rfl := Option.some.inj ht
      have horder := h.order
      rw [hmain] at horder
      exact { h with
        order := by
          rw [horder]
          simp [Main.pending, Sys.unread]
        full := nofun }
    · cases ht
  · split at ht
    · rename_i fd hmain
      exact produce_inv hN h hmain ht
    · cases ht
  · split at ht
    · exact Option.some.inj ht ▸ consume_inv h ‹_›
    · cases ht
  · split at ht
    · exact Option.some.inj ht ▸ handle_inv h ‹_›
    · cases ht
  · split at ht
    · exact Option.some.inj ht ▸ close_inv h ‹_›
    · cases ht
  · split at ht
    · rename_i fd hmain
      obtain rfl := Option.some.inj ht
      have horder := h.order
      rw [hmain] at horder
      exact { h with
        order := horder
        full := nofun }
    · cases ht
  · split at ht
    · rename_i w hw
      refine Option.some.inj ht ▸ h.setWorker not_holds_ready ?_ nofun
      rw [hw]
      exact not_holds_asleep
    · cases ht

theorem start_inv (hb : 1 ≤ nbuffers) (buffer : Int → Int) : Inv nbuffers (start N buffer) where
  used_nonneg := Int.le_refl 0
  used_lt := hb
  count_nonneg := Int.le_refl 0
  count_le := by
    show (0 : Int) ≤ nbuffers
    omega
  filled := (Int.zero_emod _).symm
  order := rfl
  once _ _ _ hk := by cases hk
  only _ _ _ hh := hh.elim
  none _ _ := rfl
  awake hc := absurd hc (Int.lt_irrefl 0)
  full := nofun

end

/-- Every state that any interleaving reaches is right. -/
theorem buffer_run {nbuffers : Int} (hN : 0 < N) (hb : 1 ≤ nbuffers) (buffer : Int → Int)
    (es : List (Event N)) :
    AllStates (Sys.step nbuffers) (Right nbuffers) (start N buffer) es :=
  (allStates_of_step (fun _ _ _ hs ht => step_inv hN hs ht) (start_inv hb buffer)).mono
    fun _ hs => hs.right

/-- Two workers and one slot. -/
theorem buffer_run_one_slot : (0 < 2 ∧ (1 : Int) ≤ 1) ∧
    AllStates (Sys.step 1) (Right 1) (start 2 fun _ => 0)
      [.consume 0, .consume 1, .accept 4, .produce (some 1), .consume 1, .wake 0, .consume 0,
        .accept 5, .handle 1, .produce (some 0), .close 1, .consume 1, .consume 0] :=
  ⟨by decide, buffer_run (by decide) (by decide) _ _⟩

end Cs537.Server
