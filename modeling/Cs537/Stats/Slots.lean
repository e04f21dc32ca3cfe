/-
# `Cs537.Stats.Slots` — whose slot is whose

Who is between `sem_wait` and `sem_post` is alone there (`Inv.mutex`,
`Inv.inside`), so a slot that `stats_init` finds is not one that another client
is finding or clearing.  A client that has written its pid keeps others off by
that (`Inv.marked`).  What is left is the time between: a slot that has been
returned and not yet marked can be returned again.  Where that does not happen,
and no client starts with a pid that an ended one has left in a slot, the slots
are exclusive and each client clears its own (`stats_run`).
-/
import Cs537.Stats.Clients

namespace Cs537.Stats

open Cs537.Lib

variable {s t : Sys} {p q : Pid} {c c' d : Client} {i : Nat} {v : Int}

/-! ## The invariant -/

/-- Between `sem_wait` and `sem_post` of `stats_init`. -/
def Line.Inside : Line → Prop
  | .look _ | .post => True
  | _ => False

/-- Between `sem_wait` and `sem_post` of `stats_unlink`. -/
def HLine.Inside : HLine → Prop
  | .wait => False
  | _ => True

def Client.Inside (c : Client) : Prop := c.main.Inside ∨ ∃ h, c.handler = some h ∧ h.Inside

/-- Past the write of the pid. -/
def Line.Marked : Line → Prop
  | .wait | .look _ | .post | .pid => False
  | _ => True

/-- Past the write of -1 in the pid. -/
def HLine.Cleared : HLine → Prop
  | .wait | .look _ | .clearPid _ => False
  | _ => True

def Client.Marked (c : Client) : Prop :=
  c.main.Marked ∧ ∀ h, c.handler = some h → ¬ h.Cleared

/-- Before the slot is found. -/
def Line.Searching : Line → Prop
  | .wait | .look _ => True
  | _ => False

structure Inv (s : Sys) : Prop where
  mutex : s.mutex ≤ 1
  closed : ∀ p c, s.clients p = some c → c.Inside → s.mutex = 0
  inside : ∀ p q c d, s.clients p = some c → s.clients q = some d → c.Inside → d.Inside → p = q
  exclusive : Exclusive s
  searching : ∀ p c, s.clients p = some c → c.main.Searching → c.addr = none
  marked : ∀ p c i, s.clients p = some c → c.addr = some i → c.Marked → (s.mem i).pid = p
  /-- a slot with a client's pid is its own -/
  own : ∀ p c i, s.clients p = some c → (s.mem i).pid = p → c.addr = some i
  clears : ClearsOwn s

theorem boot_inv : Inv boot := by
  refine ⟨Nat.le_refl 1, ?_, ?_, ?_, ?_, ?_, ?_, ?_⟩
  · intro p c h
    cases h
  · intro p q c d h
    cases h
  · intro p q c d i h
    cases h
  · intro p c h
    cases h
  · intro p c i h
    cases h
  · intro p c i h
    cases h
  · intro p c l i h
    cases h

theorem pid_ne_empty (p : Pid) : (p : Int) ≠ -1 := by omega

namespace Inv

/-! ## One client changes -/

/-- The client `p` becomes `c'`, and the pid changes in its own slot at most. -/
theorem change (h : Inv s) (hcl : t.clients = Function.update s.clients p (some c'))
    (hmutex : t.mutex ≤ 1) (hclosed : c'.Inside → t.mutex = 0)
    (hothers : ∀ q d, q ≠ p → s.clients q = some d → d.Inside → t.mutex = 0 ∧ ¬ c'.Inside)
    (hex : ∀ i, c'.addr = some i → ∀ q d, q ≠ p → s.clients q = some d → d.addr ≠ some i)
    (hsearch : c'.main.Searching → c'.addr = none)
    (hpid : ∀ i, (t.mem i).pid = (s.mem i).pid ∨
      c'.addr = some i ∧ ((t.mem i).pid = p ∨ (t.mem i).pid = -1))
    (hmarked : ∀ i, c'.addr = some i → c'.Marked → (t.mem i).pid = p)
    (hown : ∀ i, (t.mem i).pid = p → c'.addr = some i)
    (hclears : ∀ l i, c'.handler = some l → l.target = some i → c'.addr = some i) : Inv t := by
  have hself : t.clients p = some c' := by rw [hcl, Function.update_self]
  have hother : ∀ q, q ≠ p → t.clients q = s.clients q := fun q hq => by
    rw [hcl, Function.update_of_ne hq]
  -- every clause is the one for `p`, or the old one for another client
  have hsplit : ∀ q d, t.clients q = some d →
      (q = p ∧ d = c') ∨ (q ≠ p ∧ s.clients q = some d) := fun q d hd => by
    by_cases hq : q = p
    · subst hq
      exact .inl ⟨rfl, (Option.some.inj (hself.symm.trans hd)).symm⟩
    · exact .inr ⟨hq, (hother q hq).symm.trans hd⟩
  refine ⟨hmutex, fun q d hd hin => ?_, fun q r d e hd he hdin hein => ?_,
    fun q r d e i hd he hdi hei => ?_, fun q d hd hs => ?_, fun q d i hd hdi hm => ?_,
    fun q d i hd hqi => ?_, fun q d l i hd hl hi => ?_⟩
  · rcases hsplit q d hd with ⟨rfl, rfl⟩ | ⟨hq, hd⟩
    · exact hclosed hin
    · exact (hothers q d hq hd hin).1
  · rcases hsplit q d hd with ⟨rfl, rfl⟩ | ⟨hq, hd⟩ <;>
      rcases hsplit r e he with ⟨rfl, rfl⟩ | ⟨hr, he⟩
    · rfl
    · exact absurd hdin (hothers r e hr he hein).2
    · exact absurd hein (hothers q d hq hd hdin).2
    · exact h.inside q r d e hd he hdin hein
  · rcases hsplit q d hd with ⟨rfl, rfl⟩ | ⟨hq, hd⟩ <;>
      rcases hsplit r e he with ⟨rfl, rfl⟩ | ⟨hr, he⟩
    · rfl
    · exact absurd hei (hex i hdi r e hr he)
    · exact absurd hdi (hex i hei q d hq hd)
    · exact h.exclusive q r d e i hd he hdi hei
  · rcases hsplit q d hd with ⟨rfl, rfl⟩ | ⟨hq, hd⟩
    · exact hsearch hs
    · exact h.searching q d hd hs
  · rcases hsplit q d hd with ⟨rfl, rfl⟩ | ⟨hq, hd⟩
    · exact hmarked i hdi hm
    · rcases hpid i with hsame | ⟨hi, -⟩
      · rw [hsame]
        exact h.marked q d i hd hdi hm
      · exact absurd hdi (hex i hi q d hq hd)
  · rcases hsplit q d hd with ⟨rfl, rfl⟩ | ⟨hq, hd⟩
    · exact hown i hqi
    · rcases hpid i with hsame | ⟨-, hnew⟩
      · exact h.own q d i hd (hsame ▸ hqi)
      · have := pid_ne_empty q
        have : (q : Int) ≠ p := fun he => hq (Int.ofNat.inj he)
        omega
  · rcases hsplit q d hd with ⟨rfl, rfl⟩ | ⟨hq, hd⟩
    · exact hclears l i hl hi
    · exact h.clears q d l i hd hl hi

/-- A step that no other client can tell. -/
theorem quiet (h : Inv s) (hp : s.clients p = some c)
    (hcl : t.clients = Function.update s.clients p (some c')) (hmutex : t.mutex = s.mutex)
    (hpid : ∀ i, (t.mem i).pid = (s.mem i).pid) (haddr : c'.addr = c.addr)
    (hin : c'.Inside → c.Inside) (hsearch : c'.main.Searching → c.main.Searching)
    (hm : c'.Marked → c.Marked)
    (hclears : ∀ l i, c'.handler = some l → l.target = some i → c.addr = some i) : Inv t := by
  refine h.change hcl (hmutex ▸ h.mutex) (fun hi => hmutex ▸ h.closed p c hp (hin hi))
    (fun q d hq hd hdin => ⟨hmutex ▸ h.closed q d hd hdin, fun hi => hq ?_⟩)
    (fun i hi q d hq hd hdi => hq ?_) (fun hs => ?_) (fun i => .inl (hpid i)) (fun i hi hmi => ?_)
    (fun i hi => ?_) (fun l i hl hi => ?_)
  · exact h.inside q p d c hd hp hdin (hin hi)
  · exact h.exclusive q p d c i hd hp hdi (haddr ▸ hi)
  · rw [haddr]
    exact h.searching p c hp (hsearch hs)
  · rw [hpid]
    exact h.marked p c i hp (haddr ▸ hi) (hm hmi)
  · rw [haddr]
    exact h.own p c i hp (hpid i ▸ hi)
  · rw [haddr]
    exact hclears l i hl hi

/-- A client ends; where it is inside, it may give the semaphore back. -/
theorem ends (h : Inv s) (hcl : t.clients = Function.update s.clients p none)
    (hmem : t.mem = s.mem)
    (hmutex : t.mutex = s.mutex ∨
      t.mutex = s.mutex + 1 ∧ ∃ c, s.clients p = some c ∧ c.Inside) : Inv t := by
  have hsub : ∀ q d, t.clients q = some d → q ≠ p ∧ s.clients q = some d := fun q d hd => by
    by_cases hq : q = p
    · rw [hcl, hq, Function.update_self] at hd
      cases hd
    · rw [hcl, Function.update_of_ne hq] at hd
      exact ⟨hq, hd⟩
  refine ⟨?_, fun q d hd hin => ?_, fun q r d e hd he => ?_, fun q r d e i hd he => ?_,
    fun q d hd => ?_, fun q d i hd => ?_, fun q d i hd => ?_, fun q d l i hd => ?_⟩
  · rcases hmutex with hm | ⟨hm, c, hc, hin⟩
    · exact hm ▸ h.mutex
    · rw [hm, h.closed p c hc hin]
  · obtain ⟨hq, hd⟩ := hsub q d hd
    rcases hmutex with hm | ⟨hm, c, hc, hcin⟩
    · exact hm ▸ h.closed q d hd hin
    · exact absurd (h.inside q p d c hd hc hin hcin) hq
  · exact h.inside q r d e (hsub q d hd).2 (hsub r e he).2
  · exact h.exclusive q r d e i (hsub q d hd).2 (hsub r e he).2
  · exact h.searching q d (hsub q d hd).2
  · rw [hmem]
    exact h.marked q d i (hsub q d hd).2
  · rw [hmem]
    exact h.own q d i (hsub q d hd).2
  · exact h.clears q d l i (hsub q d hd).2

/-! ## `main` -/

theorem inside_main {l : Line} (hh : c.handler = none) :
    ({ c with main := l } : Client).Inside ↔ l.Inside := by
  constructor
  · rintro (hl | ⟨x, hx, -⟩)
    · exact hl
    · rw [hh] at hx
      cases hx
  · exact .inl

/-- A line that leaves the pids and the semaphore. -/
theorem quietMain (h : Inv s) (hp : s.clients p = some c) (hh : c.handler = none) {l : Line}
    (hcl : t.clients = Function.update s.clients p (some { c with main := l }))
    (hmutex : t.mutex = s.mutex) (hpid : ∀ i, (t.mem i).pid = (s.mem i).pid)
    (hin : l.Inside → c.main.Inside) (hsearch : l.Searching → c.main.Searching)
    (hm : l.Marked → c.main.Marked) : Inv t := by
  refine h.quiet hp hcl hmutex hpid rfl (fun hi => .inl (hin ((inside_main hh).mp hi))) hsearch
    (fun hmk => ⟨hm hmk.1, hmk.2⟩) fun l i hl => ?_
  rw [show c.handler = some l from hl] at hh
  cases hh

theorem write_pid {f : StatsT → StatsT} (hf : ∀ x, (f x).pid = x.pid) (i j : Nat) :
    ((s.write i f).mem j).pid = (s.mem j).pid := by
  show (Function.update s.mem i (f (s.mem i)) j).pid = (s.mem j).pid
  by_cases hj : j = i
  · rw [hj, Function.update_self, hf]
  · rw [Function.update_of_ne hj]

theorem write_newPid (s : Sys) (p : Pid) (c' : Client) {f : StatsT → StatsT} {x : Int}
    (hf : ∀ y, (f y).pid = x) (k i : Nat) :
    (((s.write k f).set p c').mem i).pid = if i = k then x else (s.mem i).pid := by
  show (Function.update s.mem k (f (s.mem k)) i).pid = _
  by_cases hi : i = k
  · rw [hi, Function.update_self, if_pos rfl, hf]
  · rw [Function.update_of_ne hi, if_neg hi]

/-- A write to another field. -/
theorem store (h : Inv s) {l : Line} {f : StatsT → StatsT} (ht : s.store p c l f = some t)
    (hp : s.clients p = some c) (hh : c.handler = none) (hl : l.Marked) (hm : c.main.Marked)
    (hf : ∀ x, (f x).pid = x.pid) : Inv t := by
  obtain ⟨i, -, rfl⟩ := Option.map_eq_some_iff.mp ht
  refine h.quietMain hp hh (l := l) rfl rfl (write_pid hf i) (fun hi => ?_) (fun hs => ?_) fun _ => hm
  · cases l <;> first | exact hi.elim | exact hl.elim
  · cases l <;> first | exact hs.elim | exact hl.elim

/-- `stats_init` finds a slot that is nobody's. -/
theorem found_free (h : Inv s) (hp : s.clients p = some c) (hin : c.Inside)
    (hi : (s.mem i).pid = -1)
    (halone : ∀ q d, q ≠ p → s.clients q = some d → d.main = .pid → d.addr ≠ some i) :
    ∀ q d, q ≠ p → s.clients q = some d → d.addr ≠ some i := by
  intro q d hq hd hdi
  have hout : ¬ d.Inside := fun hdin => hq (h.inside q p d c hd hp hdin hin)
  have hmark : ¬ d.main.Marked := fun hm => by
    by_cases hc : ∃ l, d.handler = some l ∧ l.Cleared
    · obtain ⟨l, hl, hcl⟩ := hc
      refine hout (.inr ⟨l, hl, ?_⟩)
      cases l <;> first | exact hcl.elim | trivial
    · have hpid := h.marked q d i hd hdi ⟨hm, fun l hl hcl => hc ⟨l, hl, hcl⟩⟩
      exact pid_ne_empty q (hpid.symm.trans hi)
  cases hline : d.main with
  | wait | look =>
      have hnone := h.searching q d hd (by rw [hline]; trivial)
      rw [hnone] at hdi
      cases hdi
  | post => exact hout (.inl (by rw [hline]; trivial))
  | pid => exact halone q d hq hd hline hdi
  | _ => exact hmark (by rw [hline]; trivial)

theorem mainStep (h : Inv s) (hp : s.clients p = some c) (hh : c.handler = none)
    (halone : Alone s (.step p v)) (ht : s.mainStep p c v = some t) : Inv t := by
  have hnoclear : ∀ l i, c.handler = some l → l.target = some i → c.addr = some i := fun l i hl => by
    rw [hh] at hl
    cases hl
  have hex : ∀ i, c.addr = some i → ∀ q d, q ≠ p → s.clients q = some d → d.addr ≠ some i :=
    fun i hi q d hq hd hdi => hq (h.exclusive q p d c i hd hp hdi hi)
  rw [Sys.mainStep] at ht
  cases hline : c.main with
  | wait =>
      simp only [hline] at ht
      obtain ⟨s', hs', rfl⟩ := Option.map_eq_some_iff.mp ht
      rw [sem_wait] at hs'
      split at hs'
      · cases hs'
      · next hne =>
          cases hs'
          have h1 : s.mutex = 1 := by
            have := h.mutex
            omega
          have hzero : s.mutex - 1 = 0 := by rw [h1]
          have hnone := h.searching p c hp (by rw [hline]; trivial)
          have hnobody : ∀ q d, s.clients q = some d → ¬ d.Inside := fun q d hd hi =>
            hne (h.closed q d hd hi)
          refine h.change rfl (hzero ▸ Nat.zero_le 1) (fun _ => hzero)
            (fun q d _ hd hi => absurd hi (hnobody q d hd)) (fun i hi => hex i hi) (fun _ => hnone)
            (fun i => .inl rfl) (fun i _ hm => hm.1.elim) (fun i hi => h.own p c i hp hi) hnoclear
  | look k =>
      simp only [hline] at ht
      have hin : c.Inside := .inl (by rw [hline]; trivial)
      have hnone := h.searching p c hp (by rw [hline]; trivial)
      split at ht
      · next hk =>
          split at ht
          · next hfree =>
              cases ht
              have hnew := h.found_free hp hin hfree (halone c k hp hh hline hk hfree)
              have hunmarked : ∀ i, (s.mem i).pid ≠ p := fun i hi => by
                have := h.own p c i hp hi
                rw [hnone] at this
                cases this
              refine h.change rfl h.mutex (fun _ => h.closed p c hp hin)
                (fun q d hq hd hi => absurd (h.inside q p d c hd hp hi hin) hq) (fun i hi => ?_)
                (fun hs => hs.elim) (fun i => .inl rfl) (fun i _ hm => hm.1.elim)
                (fun i hi => absurd hi (hunmarked i)) (fun l i hl => ?_)
              · obtain rfl : k = i := Option.some.inj hi
                exact hnew
              · rw [show c.handler = some l from hl] at hh
                cases hh
          · cases ht
            refine h.quietMain hp hh (l := .look (k + 1)) rfl rfl (fun _ => rfl) ?_ ?_ ?_
            all_goals rw [hline]; exact id
      · cases ht
        refine h.quietMain hp hh (l := .post) rfl rfl (fun _ => rfl) ?_ ?_ ?_
        all_goals rw [hline]
        · exact id
        · exact fun hs => hs.elim
        · exact id
  | post =>
      simp only [hline] at ht
      have hin : c.Inside := .inl (by rw [hline]; trivial)
      have hzero := h.closed p c hp hin
      split at ht
      · cases ht
        exact h.ends rfl rfl (.inr ⟨rfl, c, hp, hin⟩)
      · cases ht
        have hone : s.mutex + 1 = 1 := by rw [hzero]
        refine h.change rfl (hone ▸ Nat.le_refl 1) (fun hi => ((inside_main hh).mp hi).elim)
          (fun q d hq hd hi => absurd (h.inside q p d c hd hp hi hin) hq) (fun i hi => hex i hi)
          (fun hs => hs.elim) (fun i => .inl rfl) (fun i _ hm => hm.1.elim)
          (fun i hi => h.own p c i hp hi) hnoclear
  | pid =>
      simp only [hline] at ht
      obtain ⟨k, hk, rfl⟩ := Option.map_eq_some_iff.mp ht
      have hat := fun i => write_newPid s p { c with main := .pname }
        (f := fun x => { x with pid := p }) (fun _ => rfl) k i
      refine h.change rfl h.mutex (fun hi => ((inside_main hh).mp hi).elim)
        (fun q d hq hd hi => ⟨h.closed q d hd hi, fun hi => ((inside_main hh).mp hi).elim⟩)
        (fun i hi => hex i hi) (fun hs => hs.elim) (fun i => ?_) (fun i hi _ => ?_) (fun i hi => ?_)
        hnoclear
      · by_cases hi : i = k
        · exact .inr ⟨hi ▸ hk, .inl ((hat i).trans (if_pos hi))⟩
        · exact .inl ((hat i).trans (if_neg hi))
      · obtain rfl : k = i := Option.some.inj (hk.symm.trans hi)
        exact (hat k).trans (if_pos rfl)
      · by_cases hik : i = k
        · rw [hik]
          exact hk
        · exact h.own p c i hp (((hat i).trans (if_neg hik)).symm.trans hi)
  | setpriority | nanosleep =>
      simp only [hline] at ht
      cases ht
      refine h.quietMain hp hh rfl rfl (fun _ => rfl) (fun hi => hi.elim) (fun hs => hs.elim) ?_
      rw [hline]
      exact id
  | loadCounter =>
      simp only [hline] at ht
      obtain ⟨k, -, rfl⟩ := Option.map_eq_some_iff.mp ht
      refine h.quietMain hp hh rfl rfl (fun _ => rfl) (fun hi => hi.elim) (fun hs => hs.elim) ?_
      rw [hline]
      exact id
  | pname | counter | cpu_secs | priority | newSecs | storeCounter | newPriority =>
      simp only [hline] at ht
      exact h.store ht hp hh trivial (by rw [hline]; trivial) fun _ => rfl

/-! ## The handler -/

/-- A line of the handler that leaves the pids and the semaphore. -/
theorem quietHandler (h : Inv s) (hp : s.clients p = some c) {l l' : HLine}
    (hh : c.handler = some l)
    (hcl : t.clients = Function.update s.clients p (some { c with handler := some l' }))
    (hmutex : t.mutex = s.mutex) (hpid : ∀ i, (t.mem i).pid = (s.mem i).pid)
    (hin : l.Inside) (hm : l.Cleared → l'.Cleared)
    (hclears : ∀ i, l'.target = some i → c.addr = some i) : Inv t := by
  refine h.quiet hp hcl hmutex hpid rfl (fun _ => .inr ⟨l, hh, hin⟩) id (fun hmk => ⟨hmk.1, ?_⟩) ?_
  · rintro k hk hcl
    obtain rfl : l = k := Option.some.inj (hh.symm.trans hk)
    exact hmk.2 l' rfl (hm hcl)
  · rintro k i hk hi
    obtain rfl : l' = k := Option.some.inj hk
    exact hclears i hi

/-- A write to another field in `stats_unlink`. -/
theorem clear (h : Inv s) {l l' : HLine} {k : Nat} {f : StatsT → StatsT}
    (ht : t = s.clear p c k l' f) (hp : s.clients p = some c) (hh : c.handler = some l)
    (hin : l.Inside) (hm : l.Cleared → l'.Cleared)
    (hclears : ∀ i, l'.target = some i → c.addr = some i) (hf : ∀ x, (f x).pid = x.pid) : Inv t := by
  subst ht
  exact h.quietHandler hp hh rfl rfl (write_pid hf k) hin hm hclears

theorem handlerStep (h : Inv s) (hp : s.clients p = some c) {l : HLine} (hh : c.handler = some l)
    (ht : s.handlerStep p c l = some t) : Inv t := by
  have hclear : ∀ i, l.target = some i → c.addr = some i := fun i hi => h.clears p c l i hp hh hi
  have hex : ∀ i, c.addr = some i → ∀ q d, q ≠ p → s.clients q = some d → d.addr ≠ some i :=
    fun i hi q d hq hd hdi => hq (h.exclusive q p d c i hd hp hdi hi)
  cases l with
  | wait =>
      obtain ⟨s', hs', rfl⟩ := Option.map_eq_some_iff.mp ht
      rw [sem_wait] at hs'
      split at hs'
      · cases hs'
      · next hne =>
          cases hs'
          have hzero : s.mutex - 1 = 0 := by
            have := h.mutex
            omega
          have hnobody : ∀ q d, s.clients q = some d → ¬ d.Inside := fun q d hd hi =>
            hne (h.closed q d hd hi)
          refine h.change rfl (hzero ▸ Nat.zero_le 1) (fun _ => hzero)
            (fun q d _ hd hi => absurd hi (hnobody q d hd)) (fun i hi => hex i hi)
            (fun hs => h.searching p c hp hs) (fun i => .inl rfl) (fun i hi hm => ?_)
            (fun i hi => h.own p c i hp hi) (fun k i hk hi => ?_)
          · refine h.marked p c i hp hi ⟨hm.1, fun k hk hcl => ?_⟩
            obtain rfl : HLine.wait = k := Option.some.inj (hh.symm.trans hk)
            exact hcl
          · obtain rfl : HLine.look 0 = k := Option.some.inj hk
            cases hi
  | look k =>
      simp only [Sys.handlerStep] at ht
      split at ht
      · split at ht
        · next hmine =>
            cases ht
            refine h.quietHandler hp hh rfl rfl (fun _ => rfl) trivial (fun hcl => hcl.elim) ?_
            intro i hi
            obtain rfl : k = i := Option.some.inj hi
            exact h.own p c k hp hmine
        · cases ht
          exact h.quietHandler hp hh rfl rfl (fun _ => rfl) trivial id fun i hi => nomatch hi
      · cases ht
        exact h.quietHandler hp hh rfl rfl (fun _ => rfl) trivial (fun hcl => hcl.elim)
          fun i hi => nomatch hi
  | clearPid k =>
      cases ht
      have hk := hclear k rfl
      have hin : c.Inside := .inr ⟨_, hh, trivial⟩
      have hat := fun i => write_newPid s p
        { c with handler := some (.clearCounter k) } (f := fun x => { x with pid := -1 })
        (fun _ => rfl) k i
      refine h.change rfl h.mutex (fun _ => h.closed p c hp hin)
        (fun q d hq hd hi => absurd (h.inside q p d c hd hp hi hin) hq) (fun i hi => hex i hi)
        (fun hs => h.searching p c hp hs) (fun i => ?_) (fun i _ hm => ?_) (fun i hi => ?_)
        (fun m i hm hi => ?_)
      · by_cases hi : i = k
        · exact .inr ⟨hi ▸ hk, .inr ((hat i).trans (if_pos hi))⟩
        · exact .inl ((hat i).trans (if_neg hi))
      · exact (hm.2 (.clearCounter k) rfl trivial).elim
      · by_cases hik : i = k
        · rw [hik]
          exact hk
        · exact h.own p c i hp (((hat i).trans (if_neg hik)).symm.trans hi)
      · obtain rfl : HLine.clearCounter k = m := Option.some.inj hm
        exact hclear i hi
  | clearCounter k | clearPriority k =>
      exact h.clear (Option.some.inj ht).symm hp hh trivial id hclear fun _ => rfl
  | clearSecs k =>
      exact h.clear (Option.some.inj ht).symm hp hh trivial id (fun i hi => nomatch hi) fun _ => rfl
  | post =>
      cases ht
      exact h.ends rfl rfl (.inr ⟨rfl, c, hp, .inr ⟨_, hh, trivial⟩⟩)

/-! ## Runs -/

theorem step (h : Inv s) {e : Event} (halone : Alone s e) (hfresh : Fresh s e)
    (ht : s.step e = some t) : Inv t := by
  cases e with
  | start p argv0 =>
      rw [Sys.step] at ht
      split at ht
      · cases ht
        have hnew : ∀ i, (s.mem i).pid ≠ p := hfresh
        refine h.change rfl h.mutex (fun hi => ?_) (fun q d _ hd hi => ⟨h.closed q d hd hi, ?_⟩)
          (fun i hi => nomatch hi) (fun _ => rfl) (fun _ => .inl rfl) (fun i hi => nomatch hi)
          (fun i hi => absurd hi (hnew i)) fun l i hl => nomatch hl
        · rcases hi with hi | ⟨l, hl, -⟩
          · exact hi.elim
          · cases hl
        · rintro (hi | ⟨l, hl, -⟩)
          · exact hi
          · cases hl
      · cases ht
  | step p v =>
      obtain ⟨c, hp, ht⟩ := Option.bind_eq_some_iff.mp ht
      split at ht
      · next hh => exact h.mainStep hp hh halone ht
      · next l hh => exact h.handlerStep hp hh ht
  | interrupt p =>
      obtain ⟨c, hp, ht⟩ := Option.bind_eq_some_iff.mp ht
      split at ht
      · next hh =>
          cases ht
          refine h.quiet hp rfl rfl (fun _ => rfl) rfl (fun hi => ?_) id (fun hm => ⟨hm.1, ?_⟩) ?_
          · rcases hi with hi | ⟨l, hl, hin⟩
            · exact .inl hi
            · obtain rfl : HLine.wait = l := Option.some.inj hl
              exact hin.elim
          · intro l hl
            rw [hh] at hl
            cases hl
          · intro l i hl hi
            obtain rfl : HLine.wait = l := Option.some.inj hl
            cases hi
      · cases ht
  | exit p =>
      obtain ⟨c, hp, rfl⟩ := Option.map_eq_some_iff.mp ht
      exact h.ends rfl rfl (.inl rfl)

end Inv

theorem step_main (hp : s.clients p = some c) (hh : c.handler = none) :
    s.step (.step p v) = s.mainStep p c v := by
  rw [Sys.step, hp, Option.bind_some, hh]

/-- A slot that is found where another client has had it returned is had by both. -/
theorem alone_of_exclusive {e : Event} (ht : s.step e = some t) (hex : Exclusive t) :
    Alone s e := by
  cases e with
  | step p v =>
      intro c i hp hh hline hi hfree q d hq hd _ hdi
      have hfound : s.step (.step p v) =
          some (s.set p { c with main := .post, addr := some i }) := by
        rw [step_main hp hh, Sys.mainStep, hline]
        show (if i < 16 then _ else _) = _
        rw [if_pos hi, if_pos hfree, hh]
      obtain rfl := Option.some.inj (hfound.symm.trans ht)
      refine hq (hex q p d { c with main := .post, addr := some i } i ?_ ?_ hdi rfl)
      · exact (Function.update_of_ne hq ..).trans hd
      · exact Function.update_self ..
  | start | interrupt | exit => trivial

/-- The slots are exclusive, and `stats_unlink` clears the client's own, in a run
where no slot is found between its return to another client and that client's
write of its pid, and no client starts with a pid that is in a slot.  The first
of these is necessary. -/
theorem stats_run (es : List Event) :
    (AllSteps Sys.step (fun s e => Alone s e ∧ Fresh s e) boot es →
        AllStates Sys.step (fun s => Exclusive s ∧ ClearsOwn s) boot es) ∧
      (AllStates Sys.step Exclusive boot es → AllSteps Sys.step Alone boot es) := by
  constructor
  · intro h
    have hinv : AllStates Sys.step Inv boot es :=
      allStates_of_allSteps (fun _ _ _ hs hC ht => hs.step hC.1 hC.2 ht) boot_inv h
    exact hinv.mono fun _ hs => ⟨hs.exclusive, hs.clears⟩
  · intro h
    have hall : ∀ (s : Sys) (es : List Event), AllStates Sys.step Exclusive s es →
        AllSteps Sys.step Alone s es := by
      intro s es
      induction es generalizing s with
      | nil => exact fun _ => trivial
      | cons e es ih =>
          intro h t ht
          exact ⟨alone_of_exclusive ht (h.2 t ht).head, ih t (h.2 t ht)⟩
    exact hall boot es h

/-- Two clients start, and each calls `stats_init` before the other's write. -/
def clash : List Event :=
  [.start 1 [], .start 2 [], .step 1 0, .step 1 0, .step 1 0, .step 2 0, .step 2 0, .step 2 0]

/-- Both have the first slot. -/
theorem same_slot : ((run Sys.step boot clash).map fun s =>
      ((s.clients 1).map fun c => (c.main, c.addr), (s.clients 2).map fun c => (c.main, c.addr))) =
        some (some (.pid, some 0), some (.pid, some 0)) ∧
    ¬ AllStates Sys.step Exclusive boot clash := by
  have hlast : ((run Sys.step boot clash).map fun s =>
      ((s.clients 1).map fun c => (c.main, c.addr), (s.clients 2).map fun c => (c.main, c.addr))) =
        some (some (.pid, some 0), some (.pid, some 0)) := by
    decide +kernel
  refine ⟨hlast, fun hall => ?_⟩
  obtain ⟨s, hrun, hs⟩ := Option.map_eq_some_iff.mp hlast
  obtain ⟨h1, h2⟩ := Prod.mk.inj hs
  obtain ⟨c, hc, hc1⟩ := Option.map_eq_some_iff.mp h1
  obtain ⟨d, hd, hd1⟩ := Option.map_eq_some_iff.mp h2
  exact absurd (hall.last hrun 1 2 c d 0 hc hd (Prod.mk.inj hc1).2 (Prod.mk.inj hd1).2) (by decide)

end Cs537.Stats
