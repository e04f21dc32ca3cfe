/-
# `Cs537.Threads.Family` — who is whose thread

What `fork`, `clone`, `exec`, `exit`, `wait` and `join` need to know of the
process table: which slots are in use and by whom, the parents, the page
directories, and the pid that `clone` leaves in `parent_pid`.  `FamilyInv` ties
these to what `clone` and `join` have returned so far: a thread that is in the
table, of a live process, has that process as parent and its page directory,
and it has been joined just when it is not in the table any more.
-/
import Mathlib.Data.Finset.Card
import Mathlib.Data.Fintype.Basic
import Cs537.Lib.Holdings
import Cs537.Threads.Table

namespace Cs537.Threads

inductive Life where
  | gone
  | live
  | zombie
  deriving DecidableEq

def PState.life : PState → Life
  | .unused => .gone
  | .runnable | .sleeping => .live
  | .zombie => .zombie

/-- A slot of the table. -/
structure Member where
  life : Life
  pid : Int
  parent : Option Slot
  parent_pid : Int
  pgdir : Option Dir

abbrev Family := Slot → Member

def Proc.member (p : Proc) : Member := ⟨p.state.life, p.pid, p.parent, p.parent_pid, p.pgdir⟩

def family (T : Table) : Family := fun p => (T p).member

/-- In the table. -/
def Member.Used (m : Member) : Prop := m.life ≠ .gone

def Member.Live (m : Member) : Prop := m.life = .live

instance (m : Member) : Decidable m.Used := inferInstanceAs (Decidable (¬ _))

instance (m : Member) : Decidable m.Live := inferInstanceAs (Decidable (_ = _))

theorem Member.Live.used {m : Member} (h : m.Live) : m.Used := by
  simp [Member.Used, show m.life = .live from h]

/-- The processes in the table with the pid `k` in `parent_pid`. -/
def threads (F : Family) (k : Int) : Finset Slot := {q | (F q).Used ∧ (F q).parent_pid = k}

/-- The invariant, with `n` for `nextpid`. -/
structure FamilyInv (F : Family) (n : Int) (log : List Entry) : Prop where
  init : (F initproc).Live
  pid_lt : ∀ p, (F p).Used → 0 < (F p).pid ∧ (F p).pid < n
  pid_inj : ∀ p q, (F p).Used → (F q).Used → (F p).pid = (F q).pid → p = q
  free : ∀ p, ¬ (F p).Used → (F p).parent = none
  parent_live : ∀ p q, (F q).parent = some p → (F p).Live
  cloned_lt : ∀ a k, .cloned a k ∈ log → a < k ∧ k < n
  joined_lt : ∀ a k, .joined a k ∈ log → k < n
  cloner : ∀ a b k, .cloned a k ∈ log → .cloned b k ∈ log → a = b
  /-- a process in the table is from `clone` or from `fork` -/
  made : ∀ q, (F q).Used → .cloned (F q).parent_pid (F q).pid ∈ log ∨
    ((F q).parent_pid = -1 ∧ ∀ a, .cloned a (F q).pid ∉ log)
  /-- a child not passed to `initproc` is its parent's own -/
  born : ∀ p q, (F q).parent = some p → p ≠ initproc →
    (F q).parent_pid = (F p).pid ∨ .forked (F p).pid (F q).pid ∈ log
  thread : ∀ p q, (F p).Live → (F q).Used → (F q).parent_pid = (F p).pid →
    (F q).parent = some p ∧ (F q).pgdir = (F p).pgdir
  once : ∀ p k, (F p).Live → .cloned (F p).pid k ∈ log →
    log.count (.joined (F p).pid k) = if ∃ q, (F q).Used ∧ (F q).pid = k then 0 else 1

/-- `num_child` counts the threads in the table. -/
def Counted (F : Family) (num_child : Slot → Int) : Prop :=
  ∀ p, (F p).Live → num_child p = (threads F (F p).pid).card

section

variable {F : Family} {n k : Int} {log : List Entry} {x p q np : Slot}

/-! ## Exits and reaps -/

/-- The children of `x` go to `initproc`. -/
def orphaned (F : Family) (x : Slot) : Family := fun p =>
  if (F p).parent = some x then { F p with parent := some initproc } else F p

/-- `x` has exited, and left its page directory for `d`. -/
def exited (F : Family) (x : Slot) (d : Option Dir) : Family :=
  Function.update (orphaned F x) x { orphaned F x x with life := .zombie, pgdir := d }

theorem orphaned_kept (F : Family) (x q : Slot) :
    (orphaned F x q).life = (F q).life ∧ (orphaned F x q).pid = (F q).pid ∧
      (orphaned F x q).parent_pid = (F q).parent_pid ∧ (orphaned F x q).pgdir = (F q).pgdir := by
  rw [orphaned]
  split <;> exact ⟨rfl, rfl, rfl, rfl⟩

theorem orphaned_parent : (orphaned F x q).parent = some p ↔
    ((F q).parent = some x ∧ p = initproc) ∨ ((F q).parent = some p ∧ p ≠ x) := by
  rw [orphaned]
  split
  · rename_i hq
    simp only [hq, Option.some.injEq, true_and]
    constructor
    · intro hp
      exact .inl hp.symm
    · rintro (rfl | ⟨rfl, hne⟩)
      · rfl
      · exact absurd rfl hne
  · rename_i hq
    constructor
    · intro hp
      exact .inr ⟨hp, fun he => hq (he ▸ hp)⟩
    · rintro (⟨hx, -⟩ | ⟨hp, -⟩)
      · exact absurd hx hq
      · exact hp

theorem exited_parent (F : Family) (x : Slot) (d : Option Dir) (q : Slot) :
    (exited F x d q).parent = (orphaned F x q).parent := by
  by_cases hq : q = x
  · rw [hq, exited, Function.update_self]
  · rw [exited, Function.update_of_ne hq]

theorem exited_pid (F : Family) (x : Slot) (d : Option Dir) (q : Slot) :
    (exited F x d q).pid = (F q).pid := by
  by_cases hq : q = x
  · rw [hq, exited, Function.update_self]
    exact (orphaned_kept F x x).2.1
  · rw [exited, Function.update_of_ne hq]
    exact (orphaned_kept F x q).2.1

theorem exited_parent_pid (F : Family) (x : Slot) (d : Option Dir) (q : Slot) :
    (exited F x d q).parent_pid = (F q).parent_pid := by
  by_cases hq : q = x
  · rw [hq, exited, Function.update_self]
    exact (orphaned_kept F x x).2.2.1
  · rw [exited, Function.update_of_ne hq]
    exact (orphaned_kept F x q).2.2.1

theorem exited_used (hx : (F x).Live) (d : Option Dir) (q : Slot) :
    (exited F x d q).Used ↔ (F q).Used := by
  by_cases hq : q = x
  · rw [hq, exited, Function.update_self]
    exact iff_of_true (by simp [Member.Used]) hx.used
  · rw [exited, Function.update_of_ne hq, Member.Used, (orphaned_kept F x q).1]
    rfl

theorem exited_live (F : Family) (x : Slot) (d : Option Dir) (q : Slot) :
    (exited F x d q).Live ↔ (F q).Live ∧ q ≠ x := by
  by_cases hq : q = x
  · rw [hq, exited, Function.update_self]
    exact iff_of_false (by simp [Member.Live]) fun hne => hne.2 rfl
  · rw [exited, Function.update_of_ne hq, Member.Live, (orphaned_kept F x q).1]
    exact (and_iff_left hq).symm

/-- The slot `q` has been reaped. -/
def reaped (F : Family) (q : Slot) : Family :=
  Function.update F q { F q with life := .gone, pid := 0, parent := none }

namespace FamilyInv

theorem pid_pos (h : FamilyInv F n log) (hp : (F p).Live) : 0 < (F p).pid := (h.pid_lt p hp.used).1

/-- Who `clone` returned a process in the table to. -/
theorem cloned_iff (h : FamilyInv F n log) (hq : (F q).Used) (hk : 0 < k) :
    .cloned k (F q).pid ∈ log ↔ (F q).parent_pid = k := by
  rcases h.made q hq with hc | ⟨hf, hno⟩
  · constructor
    · intro hk
      exact h.cloner _ _ _ hc hk
    · rintro rfl
      exact hc
  · constructor
    · intro hc
      exact absurd hc (hno k)
    · omega

/-! ## A new process -/

/-- `fork` and `clone`: slot `np` gets a child of `x`. -/
theorem child (h : FamilyInv F n log) (hx : (F x).Live) (hnp : ¬ (F np).Used) {pp : Int}
    {d : Option Dir} {e : Entry}
    (he : (pp = -1 ∧ e = .forked (F x).pid n) ∨
      (pp = (F x).pid ∧ d = (F x).pgdir ∧ e = .cloned (F x).pid n)) :
    FamilyInv (Function.update F np ⟨.live, n, some x, pp, d⟩) (n + 1) (e :: log) := by
  have hself : Function.update F np ⟨.live, n, some x, pp, d⟩ np = ⟨.live, n, some x, pp, d⟩ :=
    Function.update_self ..
  have hother : ∀ q, q ≠ np → Function.update F np ⟨.live, n, some x, pp, d⟩ q = F q :=
    fun q hq => Function.update_of_ne hq ..
  have hxp := h.pid_lt x hx.used
  have hxnp : x ≠ np := fun hxe => hnp (hxe ▸ hx.used)
  have hlive : ∀ q, (F q).Live → q ≠ np := fun q hq hqe => hnp (hqe ▸ hq.used)
  generalize Function.update F np ⟨.live, n, some x, pp, d⟩ = G at hself hother
  have hcloned : ∀ a k, .cloned a k ∈ e :: log →
      (a = (F x).pid ∧ k = n ∧ pp = a) ∨ .cloned a k ∈ log := fun a k hk => by
    rcases List.mem_cons.mp hk with rfl | hk
    · rcases he with ⟨-, he⟩ | ⟨hpp, -, he⟩
      · cases he
      · cases he
        exact .inl ⟨rfl, rfl, hpp⟩
    · exact .inr hk
  have hjoined : ∀ a k, .joined a k ∈ e :: log ↔ .joined a k ∈ log := fun a k => by
    rcases he with ⟨-, rfl⟩ | ⟨-, -, rfl⟩ <;> simp
  have hcount : ∀ a k, (e :: log).count (.joined a k) = log.count (.joined a k) := fun a k => by
    rcases he with ⟨-, rfl⟩ | ⟨-, -, rfl⟩ <;> simp
  exact {
    init := by rw [hother _ (hlive _ h.init)]; exact h.init
    pid_lt := fun q hq => by
      by_cases hqn : q = np
      · subst hqn
        rw [hself]
        exact ⟨by show 0 < n; omega, by show n < n + 1; omega⟩
      · rw [hother q hqn] at hq ⊢
        have := h.pid_lt q hq
        omega
    pid_inj := fun q r hq hr hqr => by
      by_cases hqn : q = np <;> by_cases hrn : r = np
      · rw [hqn, hrn]
      · subst hqn
        rw [hself, hother r hrn] at hqr
        rw [hother r hrn] at hr
        have := h.pid_lt r hr
        simp only at hqr
        omega
      · subst hrn
        rw [hself, hother q hqn] at hqr
        rw [hother q hqn] at hq
        have := h.pid_lt q hq
        simp only at hqr
        omega
      · rw [hother q hqn] at hq hqr
        rw [hother r hrn] at hr hqr
        exact h.pid_inj q r hq hr hqr
    free := fun q hq => by
      by_cases hqn : q = np
      · subst hqn
        exact absurd (by simp [hself, Member.Used]) hq
      · rw [hother q hqn] at hq ⊢
        exact h.free q hq
    parent_live := fun p q hq => by
      by_cases hqn : q = np
      · subst hqn
        rw [hself] at hq
        cases hq
        rwa [hother x hxnp]
      · rw [hother q hqn] at hq
        have hp := h.parent_live p q hq
        rwa [hother p (hlive p hp)]
    cloned_lt := fun a k hk => by
      rcases hcloned a k hk with ⟨rfl, rfl, -⟩ | hk
      · omega
      · have := h.cloned_lt a k hk
        omega
    joined_lt := fun a k hk => by
      have := h.joined_lt a k ((hjoined a k).mp hk)
      omega
    cloner := fun a b k ha hb => by
      rcases hcloned a k ha with ⟨rfl, rfl, -⟩ | ha <;> rcases hcloned b k hb with ⟨rfl, hk, -⟩ | hb
      · rfl
      · have := h.cloned_lt b _ hb
        omega
      · have := h.cloned_lt a _ ha
        omega
      · exact h.cloner a b k ha hb
    made := fun q hq => by
      by_cases hqn : q = np
      · subst hqn
        rw [hself]
        rcases he with ⟨rfl, rfl⟩ | ⟨rfl, -, rfl⟩
        · refine .inr ⟨rfl, fun a ha => ?_⟩
          have := h.cloned_lt a n (by simpa using ha)
          omega
        · exact .inl (List.mem_cons_self ..)
      · rw [hother q hqn] at hq ⊢
        refine (h.made q hq).imp (List.mem_cons_of_mem _) fun ⟨hf, hno⟩ => ⟨hf, fun a ha => ?_⟩
        rcases hcloned a _ ha with ⟨-, hk, -⟩ | ha
        · have := h.pid_lt q hq
          omega
        · exact hno a ha
    born := fun p q hq hp => by
      by_cases hqn : q = np
      · subst hqn
        rw [hself] at hq ⊢
        cases hq
        rw [hother x hxnp]
        exact he.symm.imp (fun hc => hc.1) fun hf => by
          rw [hf.2]
          exact List.mem_cons_self ..
      · rw [hother q hqn] at hq ⊢
        rw [hother p (hlive p (h.parent_live p q hq))]
        exact (h.born p q hq hp).imp id (List.mem_cons_of_mem _)
    thread := fun p q hp hq hpq => by
      by_cases hqn : q = np
      · subst hqn
        by_cases hpn : p = q
        · subst hpn
          rw [hself] at hpq
          rcases he with ⟨rfl, -⟩ | ⟨rfl, -, -⟩ <;> simp only at hpq <;> omega
        · rw [hother p hpn] at hp hpq ⊢
          rw [hself] at hpq ⊢
          rcases he with ⟨rfl, -⟩ | ⟨rfl, rfl, -⟩
          · have := h.pid_pos hp
            simp only at hpq
            omega
          · cases h.pid_inj x p hx.used hp.used hpq
            exact ⟨rfl, rfl⟩
      · rw [hother q hqn] at hq hpq ⊢
        by_cases hpn : p = np
        · subst hpn
          rw [hself] at hpq
          rcases h.made q hq with hc | ⟨hf, -⟩
          · have := h.cloned_lt _ _ hc
            simp only at hpq
            omega
          · simp only at hpq
            omega
        · rw [hother p hpn] at hp hpq ⊢
          exact h.thread p q hp hq hpq
    once := fun p k hp hk => by
      by_cases hpn : p = np
      · subst hpn
        rw [hself] at hk
        rcases hcloned _ k hk with ⟨hxn, -, -⟩ | hk
        · simp only at hxn
          omega
        · have := h.cloned_lt _ _ hk
          simp only at this
          omega
      · rw [hother p hpn] at hp hk ⊢
        rw [hcount]
        rcases hcloned _ k hk with ⟨-, rfl, -⟩ | hk
        · rw [if_pos ⟨np, by simp [hself, Member.Used], by rw [hself]⟩, List.count_eq_zero]
          intro hj
          have := h.joined_lt _ _ hj
          omega
        · rw [h.once p k hp hk]
          have hkn := (h.cloned_lt _ _ hk).2
          refine if_congr ⟨?_, ?_⟩ rfl rfl
          · rintro ⟨q, hq, rfl⟩
            have hqn : q ≠ np := fun hqe => hnp (hqe ▸ hq)
            exact ⟨q, by rwa [hother q hqn], by rw [hother q hqn]⟩
          · rintro ⟨q, hq, hqk⟩
            by_cases hqn : q = np
            · subst hqn
              rw [hself] at hqk
              simp only at hqk
              omega
            · rw [hother q hqn] at hq hqk
              exact ⟨q, hq, hqk⟩ }

/-! ## `exec` and `exit` -/

/-- `exec`, by a process that has no threads and is nobody's thread. -/
theorem exec (h : FamilyInv F n log) {d : Option Dir}
    (hown : ∀ q, (F q).Used → (F q).parent_pid ≠ (F x).pid)
    (hof : ∀ p, (F p).Live → (F x).parent_pid ≠ (F p).pid) :
    FamilyInv (Function.update F x { F x with pgdir := d }) n log := by
  have hself : Function.update F x { F x with pgdir := d } x = { F x with pgdir := d } :=
    Function.update_self ..
  have hother : ∀ q, q ≠ x → Function.update F x { F x with pgdir := d } q = F q :=
    fun q hq => Function.update_of_ne hq ..
  generalize Function.update F x { F x with pgdir := d } = G at hself hother
  have hsame : ∀ q, (G q).life = (F q).life ∧ (G q).pid = (F q).pid ∧
      (G q).parent = (F q).parent ∧ (G q).parent_pid = (F q).parent_pid := fun q => by
    by_cases hq : q = x
    · rw [hq, hself]
      exact ⟨rfl, rfl, rfl, rfl⟩
    · rw [hother q hq]
      exact ⟨rfl, rfl, rfl, rfl⟩
  have hused : ∀ q, (G q).Used ↔ (F q).Used := fun q => by rw [Member.Used, (hsame q).1]; rfl
  have hlive : ∀ q, (G q).Live ↔ (F q).Live := fun q => by rw [Member.Live, (hsame q).1]; rfl
  have hpid : ∀ q, (G q).pid = (F q).pid := fun q => (hsame q).2.1
  have hparent : ∀ q, (G q).parent = (F q).parent := fun q => (hsame q).2.2.1
  have hpp : ∀ q, (G q).parent_pid = (F q).parent_pid := fun q => (hsame q).2.2.2
  exact {
    init := (hlive _).mpr h.init
    pid_lt := fun p hp => hpid p ▸ h.pid_lt p ((hused p).mp hp)
    pid_inj := fun p q hp hq hpq =>
      h.pid_inj p q ((hused p).mp hp) ((hused q).mp hq) (by rwa [hpid, hpid] at hpq)
    free := fun p hp => (hparent p).trans (h.free p fun hu => hp ((hused p).mpr hu))
    parent_live := fun p q hq => (hlive p).mpr (h.parent_live p q ((hparent q).symm.trans hq))
    cloned_lt := h.cloned_lt
    joined_lt := h.joined_lt
    cloner := h.cloner
    made := fun q hq => by
      rw [hpp, hpid]
      exact h.made q ((hused q).mp hq)
    born := fun p q hq hp => by
      rw [hpp, hpid, hpid]
      exact h.born p q ((hparent q).symm.trans hq) hp
    thread := fun p q hp hq hpq => by
      rw [hlive] at hp
      rw [hused] at hq
      rw [hpp, hpid] at hpq
      have hpx : p ≠ x := fun he => hown q hq (he ▸ hpq)
      have hqx : q ≠ x := fun he => hof p hp (he ▸ hpq)
      rw [hother p hpx, hother q hqx]
      exact h.thread p q hp hq hpq
    once := fun p k hp hk => by
      rw [hpid] at hk ⊢
      rw [h.once p k ((hlive p).mp hp) hk]
      refine if_congr (exists_congr fun q => ?_) rfl rfl
      rw [hused, hpid] }

/-- `exit`, by a process that keeps its page directory or is nobody's thread. -/
theorem exit (h : FamilyInv F n log) (hinit : x ≠ initproc) (hx : (F x).Live) {d : Option Dir}
    (hof : d = (F x).pgdir ∨ ∀ p, (F p).Live → (F x).parent_pid ≠ (F p).pid) :
    FamilyInv (exited F x d) n log := by
  have hother : ∀ q, q ≠ x → exited F x d q = orphaned F x q :=
    fun q hq => Function.update_of_ne hq ..
  have hparent := exited_parent F x d
  have hpid := exited_pid F x d
  have hpp := exited_parent_pid F x d
  have hused := exited_used hx d
  have hlive := exited_live F x d
  have hinitlive := (hlive _).mpr ⟨h.init, hinit.symm⟩
  exact {
    init := hinitlive
    pid_lt := fun p hp => hpid p ▸ h.pid_lt p ((hused p).mp hp)
    pid_inj := fun p q hp hq hpq =>
      h.pid_inj p q ((hused p).mp hp) ((hused q).mp hq) (by rwa [hpid, hpid] at hpq)
    free := fun p hp => by
      have hnone := h.free p fun hu => hp ((hused p).mpr hu)
      rw [hparent, orphaned, if_neg (by simp [hnone]), hnone]
    parent_live := fun p q hq => by
      rw [hparent] at hq
      rcases orphaned_parent.mp hq with ⟨-, rfl⟩ | ⟨hq, hne⟩
      · exact hinitlive
      · exact (hlive p).mpr ⟨h.parent_live p q hq, hne⟩
    cloned_lt := h.cloned_lt
    joined_lt := h.joined_lt
    cloner := h.cloner
    made := fun q hq => by
      rw [hpp, hpid]
      exact h.made q ((hused q).mp hq)
    born := fun p q hq hp => by
      rw [hparent] at hq
      rw [hpp, hpid, hpid]
      rcases orphaned_parent.mp hq with ⟨-, rfl⟩ | ⟨hq, -⟩
      · exact absurd rfl hp
      · exact h.born p q hq hp
    thread := fun p q hp hq hpq => by
      obtain ⟨hpl, hpx⟩ := (hlive p).mp hp
      rw [hused] at hq
      rw [hpp, hpid] at hpq
      obtain ⟨hqp, hdir⟩ := h.thread p q hpl hq hpq
      refine ⟨(hparent q).trans (orphaned_parent.mpr (.inr ⟨hqp, hpx⟩)), ?_⟩
      rw [hother p hpx, (orphaned_kept F x p).2.2.2, ← hdir]
      by_cases hqx : q = x
      · subst hqx
        rw [exited, Function.update_self]
        rcases hof with rfl | hof
        · rfl
        · exact absurd hpq (hof p hpl)
      · rw [hother q hqx, (orphaned_kept F x q).2.2.2]
    once := fun p k hp hk => by
      rw [hpid] at hk ⊢
      rw [h.once p k ((hlive p).mp hp).1 hk]
      refine if_congr (exists_congr fun q => ?_) rfl rfl
      rw [hused, hpid] }

/-! ## `wait` and `join` -/

/-- `wait` reaps a child with another page directory than `x`, and `join` one
with the same. -/
theorem reap (h : FamilyInv F n log) (hz : (F q).life = .zombie) (hqx : (F q).parent = some x)
    {log' : List Entry} (hlog : (log' = log ∧ (F q).pgdir ≠ (F x).pgdir) ∨
      log' = .joined (F x).pid (F q).pid :: log) :
    FamilyInv (reaped F q) n log' := by
  have hself : reaped F q q = { F q with life := .gone, pid := 0, parent := none } :=
    Function.update_self ..
  have hother : ∀ r, r ≠ q → reaped F q r = F r := fun r hr => Function.update_of_ne hr ..
  have hused : ∀ r, (reaped F q r).Used → r ≠ q ∧ (F r).Used := fun r hr => by
    by_cases hrq : r = q
    · subst hrq
      exact absurd rfl (hself ▸ hr)
    · exact ⟨hrq, hother r hrq ▸ hr⟩
  have hqused : (F q).Used := by simp [Member.Used, hz]
  have hlive : ∀ r, (F r).Live → r ≠ q := fun r hr he => by
    subst he
    cases hz.symm.trans hr
  have hcloned : ∀ a k, .cloned a k ∈ log' ↔ .cloned a k ∈ log := fun a k => by
    rcases hlog with ⟨rfl, -⟩ | rfl <;> simp
  have hinit := h.init
  exact {
    init := by rwa [hother _ (hlive _ hinit)]
    pid_lt := fun p hp => by
      obtain ⟨hpq, hp⟩ := hused p hp
      rw [hother p hpq]
      exact h.pid_lt p hp
    pid_inj := fun p r hp hr hpr => by
      obtain ⟨hpq, hp⟩ := hused p hp
      obtain ⟨hrq, hr⟩ := hused r hr
      rw [hother p hpq, hother r hrq] at hpr
      exact h.pid_inj p r hp hr hpr
    free := fun p hp => by
      by_cases hpq : p = q
      · rw [hpq, hself]
      · rw [hother p hpq] at hp ⊢
        exact h.free p hp
    parent_live := fun p r hr => by
      by_cases hrq : r = q
      · rw [hrq, hself] at hr
        cases hr
      · rw [hother r hrq] at hr
        have hp := h.parent_live p r hr
        rwa [hother p (hlive p hp)]
    cloned_lt := fun a k hk => h.cloned_lt a k ((hcloned a k).mp hk)
    joined_lt := fun a k hk => by
      rcases hlog with ⟨rfl, -⟩ | rfl
      · exact h.joined_lt a k hk
      · rcases List.mem_cons.mp hk with he | hk
        · cases he
          exact (h.pid_lt q hqused).2
        · exact h.joined_lt a k hk
    cloner := fun a b k ha hb => h.cloner a b k ((hcloned a k).mp ha) ((hcloned b k).mp hb)
    made := fun r hr => by
      obtain ⟨hrq, hr⟩ := hused r hr
      rw [hother r hrq]
      exact (h.made r hr).imp (hcloned _ _).mpr fun ⟨hf, hno⟩ =>
        ⟨hf, fun a ha => hno a ((hcloned _ _).mp ha)⟩
    born := fun p r hr hp => by
      by_cases hrq : r = q
      · rw [hrq, hself] at hr
        cases hr
      · rw [hother r hrq] at hr ⊢
        rw [hother p (hlive p (h.parent_live p r hr))]
        refine (h.born p r hr hp).imp id fun hf => ?_
        rcases hlog with ⟨rfl, -⟩ | rfl
        · exact hf
        · exact List.mem_cons_of_mem _ hf
    thread := fun p r hp hr hpr => by
      obtain ⟨hrq, hr⟩ := hused r hr
      have hpq := (hused p hp.used).1
      rw [hother p hpq, hother r hrq] at hpr ⊢
      rw [hother p hpq] at hp
      exact h.thread p r hp hr hpr
    once := fun p k hp hk => by
      have hpq := (hused p hp.used).1
      rw [hother p hpq] at hp hk ⊢
      rw [hcloned] at hk
      have honce := h.once p k hp hk
      by_cases hkq : k = (F q).pid
      · -- a thread of `p`: then `p` is `x`, and this is `join`
        subst hkq
        obtain ⟨hpar, hdir⟩ := h.thread p q hp hqused
          ((h.cloned_iff hqused (h.pid_pos hp)).mp hk)
        cases hqx.symm.trans hpar
        rcases hlog with ⟨-, hne⟩ | rfl
        · exact absurd hdir hne
        · rw [if_pos ⟨q, hqused, rfl⟩] at honce
          rw [List.count_cons_self, honce, if_neg]
          rintro ⟨r, hr, hrk⟩
          obtain ⟨hrq, hr⟩ := hused r hr
          rw [hother r hrq] at hrk
          exact hrq (h.pid_inj r q hr hqused hrk)
      · have hcount : log'.count (.joined (F p).pid k) = log.count (.joined (F p).pid k) := by
          rcases hlog with ⟨rfl, -⟩ | rfl
          · rfl
          · exact List.count_cons_of_ne fun he => hkq (Entry.joined.inj he).2.symm
        rw [hcount, honce]
        refine if_congr ⟨?_, ?_⟩ rfl rfl
        · rintro ⟨r, hr, rfl⟩
          have hrq : r ≠ q := fun he => hkq (he ▸ rfl)
          exact ⟨r, by rwa [hother r hrq], by rw [hother r hrq]⟩
        · rintro ⟨r, hr, hrk⟩
          obtain ⟨hrq, hr⟩ := hused r hr
          exact ⟨r, hr, by rwa [hother r hrq] at hrk⟩ }

/-- A free slot that only got a pid. -/
theorem spent (h : FamilyInv F n log) (hnp : ¬ (F np).Used) :
    FamilyInv (Function.update F np { F np with pid := n, parent_pid := -1 }) (n + 1) log := by
  have hself : Function.update F np { F np with pid := n, parent_pid := -1 } np =
      { F np with pid := n, parent_pid := -1 } := Function.update_self ..
  have hother : ∀ q, q ≠ np → Function.update F np { F np with pid := n, parent_pid := -1 } q =
      F q := fun q hq => Function.update_of_ne hq ..
  generalize Function.update F np { F np with pid := n, parent_pid := -1 } = G at hself hother
  have hused : ∀ q, (G q).Used ↔ (F q).Used ∧ q ≠ np := fun q => by
    by_cases hq : q = np
    · subst hq
      exact iff_of_false (hself ▸ hnp) fun hne => hne.2 rfl
    · rw [hother q hq]
      exact (and_iff_left hq).symm
  have hlive : ∀ q, (F q).Live → q ≠ np := fun q hq hqe => hnp (hqe ▸ hq.used)
  have hlive' : ∀ q, (G q).Live → q ≠ np := fun q hq => ((hused q).mp hq.used).2
  exact {
    init := by
      rw [hother _ (hlive _ h.init)]
      exact h.init
    pid_lt := fun p hp => by
      obtain ⟨hp, hne⟩ := (hused p).mp hp
      rw [hother p hne]
      have := h.pid_lt p hp
      omega
    pid_inj := fun p q hp hq hpq => by
      obtain ⟨hp, hpn⟩ := (hused p).mp hp
      obtain ⟨hq, hqn⟩ := (hused q).mp hq
      rw [hother p hpn, hother q hqn] at hpq
      exact h.pid_inj p q hp hq hpq
    free := fun p hp => by
      by_cases hpn : p = np
      · subst hpn
        rw [hself]
        exact h.free p hnp
      · rw [hother p hpn] at hp ⊢
        exact h.free p hp
    parent_live := fun p q hq => by
      by_cases hqn : q = np
      · subst hqn
        rw [hself] at hq
        cases (h.free q hnp).symm.trans hq
      · rw [hother q hqn] at hq
        have hp := h.parent_live p q hq
        rwa [hother p (hlive p hp)]
    cloned_lt := fun a k hk => by
      have := h.cloned_lt a k hk
      omega
    joined_lt := fun a k hk => by
      have := h.joined_lt a k hk
      omega
    cloner := h.cloner
    made := fun q hq => by
      obtain ⟨hq, hqn⟩ := (hused q).mp hq
      rw [hother q hqn]
      exact h.made q hq
    born := fun p q hq hp => by
      by_cases hqn : q = np
      · subst hqn
        rw [hself] at hq
        cases (h.free q hnp).symm.trans hq
      · rw [hother q hqn] at hq ⊢
        rw [hother p (hlive p (h.parent_live p q hq))]
        exact h.born p q hq hp
    thread := fun p q hp hq hpq => by
      obtain ⟨hq, hqn⟩ := (hused q).mp hq
      have hpn := hlive' p hp
      rw [hother p hpn] at hp hpq ⊢
      rw [hother q hqn] at hpq ⊢
      exact h.thread p q hp hq hpq
    once := fun p k hp hk => by
      have hpn := hlive' p hp
      rw [hother p hpn] at hp hk ⊢
      rw [h.once p k hp hk]
      refine if_congr ⟨?_, ?_⟩ rfl rfl
      · rintro ⟨q, hq, rfl⟩
        have hqn : q ≠ np := fun he => hnp (he ▸ hq)
        exact ⟨q, (hused q).mpr ⟨hq, hqn⟩, by rw [hother q hqn]⟩
      · rintro ⟨q, hq, hqk⟩
        obtain ⟨hq, hqn⟩ := (hused q).mp hq
        exact ⟨q, hq, by rwa [hother q hqn] at hqk⟩ }

end FamilyInv

/-! ## The count of threads -/

theorem mem_threads : q ∈ threads F k ↔ (F q).Used ∧ (F q).parent_pid = k := by
  simp [threads]

namespace Counted

variable {c : Slot → Int} {G : Family}

theorem same (h : Counted F c) (hlive : ∀ p, (G p).Live → (F p).Live)
    (hpid : ∀ p, (G p).Live → (G p).pid = (F p).pid) (hused : ∀ q, (G q).Used ↔ (F q).Used)
    (hpp : ∀ q, (G q).parent_pid = (F q).parent_pid) : Counted G c := fun p hp => by
  have hthreads : threads G (G p).pid = threads F (F p).pid := by
    ext q
    rw [mem_threads, mem_threads, hused, hpp, hpid p hp]
  rw [h p (hlive p hp), hthreads]

theorem exit (h : Counted F c) (hx : (F x).Live) (d : Option Dir) : Counted (exited F x d) c :=
  h.same (fun p hp => ((exited_live F x d p).mp hp).1) (fun p _ => exited_pid F x d p)
    (exited_used hx d) (exited_parent_pid F x d)

theorem exec (h : Counted F c) (d : Option Dir) :
    Counted (Function.update F x { F x with pgdir := d }) c := by
  have hsame : ∀ q, (Function.update F x { F x with pgdir := d } q).life = (F q).life ∧
      (Function.update F x { F x with pgdir := d } q).pid = (F q).pid ∧
      (Function.update F x { F x with pgdir := d } q).parent_pid = (F q).parent_pid := fun q => by
    by_cases hq : q = x
    · rw [hq, Function.update_self]
      exact ⟨rfl, rfl, rfl⟩
    · rw [Function.update_of_ne hq]
      exact ⟨rfl, rfl, rfl⟩
  refine h.same (fun p hp => ?_) (fun p _ => (hsame p).2.1) (fun q => ?_) fun q => (hsame q).2.2
  · rwa [Member.Live, (hsame p).1] at hp
  · rw [Member.Used, (hsame q).1]
    rfl

theorem spent (h : Counted F c) (hnp : ¬ (F np).Used) {n : Int} :
    Counted (Function.update F np { F np with pid := n, parent_pid := -1 })
      (Function.update c np 0) := fun p hp => by
  have hpn : p ≠ np := fun he => by
    rw [he, Function.update_self] at hp
    exact hnp hp.used
  rw [Function.update_of_ne hpn] at hp ⊢
  rw [Function.update_of_ne hpn, h p hp]
  congr 2
  ext q
  by_cases hq : q = np
  · rw [mem_threads, mem_threads, hq, Function.update_self]
    exact iff_of_false (fun hu => hnp hu.1) fun hu => hnp hu.1
  · rw [mem_threads, mem_threads, Function.update_of_ne hq]

/-- A new process, which is a thread of the process with pid `pp`, if there is one. -/
theorem child (h : Counted F c) (hnp : ¬ (F np).Used) {m : Member} (hm : m.Used)
    (hnew : threads F m.pid = ∅) (hself : m.parent_pid ≠ m.pid) {c' : Slot → Int}
    (hc : ∀ p, (F p).Live → c' p = c p + if m.parent_pid = (F p).pid then 1 else 0)
    (hc' : c' np = 0) : Counted (Function.update F np m) c' := fun p hp => by
  have hmem : ∀ k q, q ∈ threads (Function.update F np m) k ↔
      q ∈ threads F k ∨ (q = np ∧ m.parent_pid = k) := fun k q => by
    by_cases hq : q = np
    · rw [mem_threads, mem_threads, hq, Function.update_self]
      simp [hm, hnp]
    · rw [mem_threads, mem_threads, Function.update_of_ne hq]
      simp [hq]
  have hnot : ∀ k, np ∉ threads F k := fun k hk => hnp (mem_threads.mp hk).1
  by_cases hpn : p = np
  · have hempty : threads (Function.update F np m) m.pid = ∅ := by
      ext q
      simp [hmem, hnew, hself]
    rw [hpn, Function.update_self, hc', hempty]
    rfl
  · rw [Function.update_of_ne hpn] at hp ⊢
    rw [hc p hp, h p hp]
    exact (Lib.card_join (hnot _) (hmem (F p).pid)).symm

theorem reap (h : Counted F c) (hq : (F q).Used) {c' : Slot → Int}
    (hc : ∀ p, (F p).Live → p ≠ q → c' p = c p - if (F p).pid = (F q).parent_pid then 1 else 0) :
    Counted (reaped F q) c' := fun p hp => by
  have hpq : p ≠ q := fun he => by
    rw [he, reaped, Function.update_self] at hp
    cases hp
  rw [reaped, Function.update_of_ne hpq] at hp ⊢
  -- the process that is reaped joins the threads that are left
  have hmem : ∀ r, r ∈ threads F (F p).pid ↔ r ∈ threads (Function.update F q
      { F q with life := .gone, pid := 0, parent := none }) (F p).pid ∨
        (r = q ∧ (F p).pid = (F q).parent_pid) := fun r => by
    by_cases hr : r = q
    · rw [mem_threads, mem_threads, hr, Function.update_self]
      rw [or_iff_right fun hu => hu.1 rfl, and_iff_right hq, and_iff_right rfl, eq_comm]
    · rw [mem_threads, mem_threads, Function.update_of_ne hr]
      simp [hr]
  have hnot : q ∉ threads (Function.update F q
      { F q with life := .gone, pid := 0, parent := none }) (F p).pid := fun hm => by
    rw [mem_threads, Function.update_self] at hm
    exact hm.1 rfl
  rw [hc p hp hpq, h p hp, Lib.card_join hnot hmem]
  omega

end Counted

end

end Cs537.Threads
