/-
# `Cs537.Syscount.Family` — the child of a process in `fork`

A process that has made its child `RUNNABLE` may be stopped in front of the last
statement of `fork` for any time.  The child can run, fork and exit meanwhile,
but it stays in its slot: only its parent would reap it, and is in `fork`
(`Family.born`).  So `np` still points to the child when `fork` goes on.
-/
import Cs537.Syscount.Kernel

namespace Cs537.Syscount

open Cs537.Lib

/-! ## States and children -/

/-- What a state means for the slot: it is free, `allocproc` has taken it, or it
holds a process, which runs on a CPU or does not. -/
inductive Kind where
  | free
  | new
  | on
  | off
  deriving DecidableEq

def PState.kind : PState → Kind
  | unused => .free
  | embryo => .new
  | running => .on
  | sleeping | runnable | zombie => .off

/-- The child of a process in `fork`, and whether it has been made `RUNNABLE`. -/
def Pc.child : Pc → Option (Slot × Bool)
  | .fork np published => some (np, published)
  | .yielded pc => pc.child
  | .user | .call _ | .forkret | .slept _ | .waited => none

/-- The process in slot `q` does not enter or leave `fork`, and is left by its parent
only if that one is not in `fork` either; its counter stays. -/
structure Kin (T T' : Table) (q : Slot) : Prop where
  child : (T' q).pc.child = (T q).pc.child
  parent : (T' q).parent = (T q).parent ∨ ∃ p, (T q).parent = some p ∧ (T p).pc.child = none
  counter : (T' q).counter = (T q).counter

/-- And all slots are what they were. -/
structure Quiet (T T' : Table) : Prop where
  kin : ∀ q, Kin T T' q
  kind : ∀ q, (T' q).state.kind = (T q).state.kind

section

variable {T T' T'' : Table} {p q np : Slot} {x : Proc}

theorem Kin.refl (T : Table) (q : Slot) : Kin T T q := ⟨rfl, .inl rfl, rfl⟩

theorem Kin.trans (h : ∀ q, Kin T T' q) (h' : ∀ q, Kin T' T'' q) (q : Slot) : Kin T T'' q where
  child := (h' q).child.trans (h q).child
  parent := by
    rcases (h q).parent with hq | hq
    · rcases (h' q).parent with hp | ⟨p, hp, hc⟩
      · exact .inl (hp.trans hq)
      · exact .inr ⟨p, hq ▸ hp, (h p).child ▸ hc⟩
    · exact .inr hq
  counter := (h' q).counter.trans (h q).counter

theorem Kin.update (hc : x.pc.child = (T p).pc.child) (hpar : x.parent = (T p).parent)
    (hcount : x.counter = (T p).counter) (q : Slot) : Kin T (Function.update T p x) q := by
  by_cases hq : q = p
  · subst hq
    exact ⟨by rw [Function.update_self, hc], .inl (by rw [Function.update_self, hpar]),
      by rw [Function.update_self, hcount]⟩
  · exact ⟨by rw [Function.update_of_ne hq], .inl (by rw [Function.update_of_ne hq]),
      by rw [Function.update_of_ne hq]⟩

theorem Quiet.refl (T : Table) : Quiet T T := ⟨.refl T, fun _ => rfl⟩

theorem Quiet.trans (h : Quiet T T') (h' : Quiet T' T'') : Quiet T T'' :=
  ⟨.trans h.kin h'.kin, fun q => (h'.kind q).trans (h.kind q)⟩

theorem kind_update (hk : x.state.kind = (T p).state.kind) (q : Slot) :
    (Function.update T p x q).state.kind = (T q).state.kind := by
  by_cases hq : q = p
  · rw [hq, Function.update_self, hk]
  · rw [Function.update_of_ne hq]

theorem Quiet.update (hc : x.pc.child = (T p).pc.child) (hpar : x.parent = (T p).parent)
    (hcount : x.counter = (T p).counter) (hk : x.state.kind = (T p).state.kind) :
    Quiet T (Function.update T p x) := ⟨.update hc hpar hcount, kind_update hk⟩

theorem quiet_wakeup1 (chan : Chan) (T : Table) : Quiet T (wakeup1 chan T) := by
  have hproc : ∀ q, (wakeup1 chan T q).pc = (T q).pc ∧ (wakeup1 chan T q).parent = (T q).parent ∧
      (wakeup1 chan T q).counter = (T q).counter ∧
      (wakeup1 chan T q).state.kind = (T q).state.kind := fun q => by
    rw [wakeup1]
    split
    · rename_i h
      exact ⟨rfl, rfl, rfl, by rw [h.1]; rfl⟩
    · exact ⟨rfl, rfl, rfl, rfl⟩
  exact ⟨fun q => ⟨congrArg Pc.child (hproc q).1, .inl (hproc q).2.1, (hproc q).2.2.1⟩,
    fun q => (hproc q).2.2.2⟩

theorem quiet_wakeParent (p : Slot) (T : Table) : Quiet T (wakeParent p T) := by
  rw [wakeParent]
  split
  · exact quiet_wakeup1 _ T
  · exact .refl T

/-- A process that is not in `fork` leaves its children. -/
theorem quiet_abandon (T : Table) (hp : (T p).pc.child = none) : Quiet T (abandon p T) := by
  have hparent : Quiet T fun q =>
      if (T q).parent = some p then { T q with parent := some initproc } else T q := by
    refine ⟨fun q => ?_, fun q => ?_⟩
    · by_cases hq : (T q).parent = some p
      · refine ⟨?_, .inr ⟨p, hq, hp⟩, ?_⟩
        · rw [if_pos hq]
        · rw [if_pos hq]
      · refine ⟨?_, .inl ?_, ?_⟩
        · rw [if_neg hq]
        · rw [if_neg hq]
        · rw [if_neg hq]
    · dsimp only
      split
      · rfl
      · rfl
  rw [abandon]
  split
  · exact hparent.trans (quiet_wakeup1 _ _)
  · exact hparent

theorem quiet_kill (pid : Int) (T : Table) : Quiet T (kill pid T).2 := by
  rw [kill]
  split
  · exact .refl T
  · rename_i p _
    dsimp only
    split
    · rename_i hs
      refine .update rfl rfl rfl ?_
      rw [hs]
      rfl
    · exact .update rfl rfl rfl rfl

/-! ## The invariant -/

structure Family (T : Table) : Prop where
  embryo : ∀ p np, (T p).pc.child = some (np, false) → (T np).state = .embryo
  apart : ∀ p q np, (T p).pc.child = some (np, false) → (T q).pc.child = some (np, false) → p = q
  born : ∀ p np, (T p).pc.child = some (np, true) → (T np).parent = some p ∧ np ≠ p ∧
    (T np).state ≠ .unused ∧ (T np).state ≠ .embryo

theorem kind_new {st : PState} : st.kind = .new ↔ st = .embryo := by
  cases st with
  | embryo => exact iff_of_true rfl rfl
  | unused | sleeping | runnable | running | zombie =>
      exact iff_of_false (fun h => by cases h) fun h => by cases h

theorem kind_on {st : PState} : st.kind = .on ↔ st = .running := by
  cases st with
  | running => exact iff_of_true rfl rfl
  | unused | sleeping | runnable | embryo | zombie =>
      exact iff_of_false (fun h => by cases h) fun h => by cases h

theorem kind_free {st : PState} : st.kind = .free ↔ st = .unused := by
  cases st with
  | unused => exact iff_of_true rfl rfl
  | running | sleeping | runnable | embryo | zombie =>
      exact iff_of_false (fun h => by cases h) fun h => by cases h

/-- A slot holds a process, or the same as before; or the process was a child of one
that is not in `fork`. -/
theorem Family.keep (h : Family T) (hkin : ∀ q, Kin T T' q)
    (hnew : ∀ q, (T q).state = .embryo → (T' q).state = .embryo)
    (hold : ∀ q, (T q).state ≠ .unused → (T q).state ≠ .embryo →
      (T' q).state ≠ .unused ∧ (T' q).state ≠ .embryo ∨
        ∃ p, (T q).parent = some p ∧ (T p).pc.child = none) : Family T' where
  embryo p np hp := hnew np (h.embryo p np ((hkin p).child ▸ hp))
  apart p q np hp hq := h.apart p q np ((hkin p).child ▸ hp) ((hkin q).child ▸ hq)
  born p np hp := by
    rw [(hkin p).child] at hp
    obtain ⟨hparent, hne, hused, hborn⟩ := h.born p np hp
    -- the parent is in `fork`
    have hin : ∀ q, (T np).parent = some q → (T q).pc.child ≠ none := fun q hq hc => by
      obtain rfl := Option.some.inj (hparent.symm.trans hq)
      rw [hp] at hc
      cases hc
    refine ⟨?_, hne, (hold np hused hborn).resolve_right fun hleft => ?_⟩
    · rcases (hkin np).parent with he | ⟨q, hq, hc⟩
      · exact he.trans hparent
      · exact absurd hc (hin q hq)
    · obtain ⟨q, hq, hc⟩ := hleft
      exact hin q hq hc

theorem Family.quiet (h : Family T) (hq : Quiet T T') : Family T' :=
  h.keep hq.kin (fun q he => kind_new.mp ((hq.kind q).trans (kind_new.mpr he)))
    fun q hu hb => .inl ⟨fun he => hu (kind_free.mp ((hq.kind q).symm.trans (kind_free.mpr he))),
      fun he => hb (kind_new.mp ((hq.kind q).symm.trans (kind_new.mpr he)))⟩

/-- A process comes to a CPU, or leaves it. -/
theorem Family.move (h : Family T) (hkin : Kin T (Function.update T p x) p)
    (hold : (T p).state ≠ .unused ∧ (T p).state ≠ .embryo)
    (hx : x.state ≠ .unused ∧ x.state ≠ .embryo) : Family (Function.update T p x) := by
  refine h.keep (fun q => ?_) (fun q hq => ?_) fun q hu hb => .inl ?_
  · by_cases hq : q = p
    · exact hq ▸ hkin
    · refine ⟨?_, .inl ?_, ?_⟩
      · rw [Function.update_of_ne hq]
      · rw [Function.update_of_ne hq]
      · rw [Function.update_of_ne hq]
  · by_cases hqp : q = p
    · exact absurd (hqp ▸ hq) hold.2
    · rwa [Function.update_of_ne hqp]
  · by_cases hqp : q = p
    · rw [hqp, Function.update_self]
      exact hx
    · rw [Function.update_of_ne hqp]
      exact ⟨hu, hb⟩

end

section

variable {n : Nat}

/-- With it: a process on a CPU is `RUNNING`, and on no other one. -/
structure Inv (T : Table) (cpu : Fin n → Option Slot) : Prop where
  family : Family T
  on : ∀ c p, cpu c = some p → (T p).state = .running
  one : ∀ c d p, cpu c = some p → cpu d = some p → c = d

variable {T T' : Table} {cpu : Fin n → Option Slot} {s t : Sys n} {c d : Fin n} {p q np : Slot}
  {x : Proc} {l : List Slot} {e : Event n}

theorem Inv.quiet (h : Inv T cpu) (hq : Quiet T T') : Inv T' cpu where
  family := h.family.quiet hq
  on c p hc := kind_on.mp ((hq.kind p).trans (kind_on.mpr (h.on c p hc)))
  one := h.one

/-- What CPU `c` runs changes; the others run what they did. -/
theorem Inv.switch (h : Inv T cpu) (hfam : Family T') (r : Option Slot)
    (hr : ∀ p, r = some p → (T' p).state = .running ∧ ∀ d, d ≠ c → cpu d ≠ some p)
    (hother : ∀ d p, d ≠ c → cpu d = some p → (T' p).state = .running) :
    Inv T' (Function.update cpu c r) where
  family := hfam
  on d p hd := by
    by_cases hdc : d = c
    · rw [hdc, Function.update_self] at hd
      exact (hr p hd).1
    · rw [Function.update_of_ne hdc] at hd
      exact hother d p hdc hd
  one d d' p hd hd' := by
    by_cases hdc : d = c
    · by_cases hdc' : d' = c
      · rw [hdc, hdc']
      · rw [hdc, Function.update_self] at hd
        rw [Function.update_of_ne hdc'] at hd'
        exact absurd hd' ((hr p hd).2 d' hdc')
    · rw [Function.update_of_ne hdc] at hd
      by_cases hdc' : d' = c
      · rw [hdc', Function.update_self] at hd'
        exact absurd hd ((hr p hd').2 d hdc)
      · rw [Function.update_of_ne hdc'] at hd'
        exact h.one d d' p hd hd'

/-! ## Steps -/

/-- No counter changes, and no child becomes `RUNNABLE`. -/
structure Steady (s t : Sys n) : Prop where
  inv : Inv t.ptable t.cpu
  counter : ∀ q, (t.ptable q).counter = (s.ptable q).counter
  child : ∀ q np, (t.ptable q).pc.child = some (np, true) → (s.ptable q).pc.child = some (np, true)

theorem Steady.of_kin (hinv : Inv t.ptable t.cpu) (hkin : ∀ q, Kin s.ptable t.ptable q) :
    Steady s t :=
  ⟨hinv, fun q => (hkin q).counter, fun q _ hq => (hkin q).child ▸ hq⟩

theorem Inv.steady (h : Inv s.ptable s.cpu) (hq : Quiet s.ptable t.ptable) (hcpu : t.cpu = s.cpu) :
    Steady s t := .of_kin (hcpu ▸ h.quiet hq) hq.kin

/-- The loop switches to a process, or ends. -/
theorem Inv.loop (h : Inv s.ptable (Function.update s.cpu c none)) :
    Inv (s.loop c l).ptable (s.loop c l).cpu ∧ ∀ q, Kin s.ptable (s.loop c l).ptable q := by
  rw [Sys.loop]
  split
  · rename_i p hp
    have hrun := List.find?_some hp
    simp only [decide_eq_true_eq] at hrun
    have hkin : ∀ q, Kin s.ptable
        (Function.update s.ptable p { s.ptable p with state := .running }) q := .update rfl rfl rfl
    have hfam : Family (Function.update s.ptable p { s.ptable p with state := .running }) :=
      h.family.move (hkin p) (by rw [hrun]; decide) ⟨fun he => (by cases he), fun he => (by cases he)⟩
    have hoff : ∀ d, d ≠ c → s.cpu d ≠ some p := fun d hd hdp => by
      have hon := h.on d p (by rw [Function.update_of_ne hd, hdp])
      rw [hrun] at hon
      cases hon
    refine ⟨?_, hkin⟩
    have hswitch := h.switch (c := c) hfam (some p) (fun q hq => ?_) fun d q hd hdq => ?_
    · rw [Function.update_idem] at hswitch
      exact hswitch
    · obtain rfl := Option.some.inj hq
      refine ⟨by rw [Function.update_self], fun d hd => ?_⟩
      rw [Function.update_of_ne hd]
      exact hoff d hd
    · rw [Function.update_of_ne hd] at hdq
      have hqp : q ≠ p := fun he => hoff d hd (he ▸ hdq)
      rw [Function.update_of_ne hqp]
      exact h.on d q (by rw [Function.update_of_ne hd, hdq])
  · exact ⟨h, .refl _⟩

/-- The process of CPU `c` gives it up. -/
theorem Inv.sched (h : Inv s.ptable s.cpu) (hc : s.cpu c = some p) (hq : Quiet s.ptable T')
    (ht : t.ptable = Function.update T' p x) (hcpu : t.cpu = s.cpu)
    (hchild : x.pc.child = (T' p).pc.child) (hparent : x.parent = (T' p).parent)
    (hcounter : x.counter = (T' p).counter) (hx : x.state.kind = .off) : Steady s (t.sched c p) := by
  have h' := h.quiet hq
  have hon : (T' p).state = .running := h'.on c p hc
  have hkin : ∀ q, Kin T' (Function.update T' p x) q := .update hchild hparent hcounter
  have hfam : Family (Function.update T' p x) := by
    refine h'.family.move (hkin p) (by rw [hon]; decide) ⟨fun he => ?_, fun he => ?_⟩
    · rw [he] at hx
      cases hx
    · rw [he] at hx
      cases hx
  have hidle : Inv (Function.update T' p x) (Function.update s.cpu c none) := by
    refine h'.switch hfam none (fun q hq => by cases hq) fun d q hd hdq => ?_
    have hqp : q ≠ p := fun he => hd (h.one d c p (he ▸ hdq) hc)
    rw [Function.update_of_ne hqp]
    exact h'.on d q hdq
  rw [← ht, ← hcpu] at hidle
  obtain ⟨hinv, hloop⟩ := hidle.loop (l := (List.finRange nproc).drop (p.val + 1))
  refine .of_kin hinv (Kin.trans (Kin.trans hq.kin ?_) hloop)
  rw [ht]
  exact hkin

theorem exit_steady (h : Inv s.ptable s.cpu) (hc : s.cpu c = some p)
    (hp : (s.ptable p).pc.child = none) (ht : s.exit c p = some t) : Steady s t := by
  rw [Sys.exit] at ht
  split at ht
  · cases ht
  · cases ht
    have hparent := quiet_wakeParent p s.ptable
    have hquiet := hparent.trans (quiet_abandon _ ((hparent.kin p).child.trans hp))
    exact h.sched hc hquiet rfl rfl rfl rfl rfl rfl

/-- The handler returns to user code. -/
theorem return_quiet (hp : (T p).pc.child = none) (v : Int) :
    Quiet T (Function.update T p { T p with eax := v, pc := .user }) := .update hp.symm rfl rfl rfl

/-- A process that is not in `fork` waits. -/
theorem waitLoop_steady (h : Inv s.ptable s.cpu) (hc : s.cpu c = some p)
    (hp : (t.ptable p).pc.child = none) (hq : Quiet s.ptable t.ptable) (hcpu : t.cpu = s.cpu) :
    Steady s (t.waitLoop c p) := by
  have h' := h.quiet hq
  rw [Sys.waitLoop]
  split
  · rename_i q hfind
    obtain ⟨hparent, hz⟩ : (t.ptable q).parent = some p ∧ (t.ptable q).state = .zombie := by
      have hsome := List.find?_some hfind
      simpa only [decide_eq_true_eq] using hsome
    obtain ⟨y, hy⟩ : ∃ y : Proc, y = { t.ptable q with
        state := .unused, pid := 0, parent := none, killed := false } := ⟨_, rfl⟩
    -- the child goes; its parent is not in `fork`
    have hkin : ∀ r, Kin t.ptable (Function.update t.ptable q y) r := fun r => by
      by_cases hr : r = q
      · subst hr
        refine ⟨by rw [Function.update_self, hy], .inr ⟨p, hparent, hp⟩, ?_⟩
        rw [Function.update_self, hy]
      · refine ⟨?_, .inl ?_, ?_⟩
        · rw [Function.update_of_ne hr]
        · rw [Function.update_of_ne hr]
        · rw [Function.update_of_ne hr]
    have hfam : Family (Function.update t.ptable q y) := by
      refine h'.family.keep hkin (fun r hr => ?_) fun r hu hb => ?_
      · have hrq : r ≠ q := fun he => by
          rw [he, hz] at hr
          cases hr
        rwa [Function.update_of_ne hrq]
      · by_cases hrq : r = q
        · exact .inr ⟨p, hrq ▸ hparent, hp⟩
        · rw [Function.update_of_ne hrq]
          exact .inl ⟨hu, hb⟩
    have hinv : Inv (Function.update t.ptable q y) s.cpu := by
      refine ⟨hfam, fun d r hd => ?_, h.one⟩
      have hon := h'.on d r hd
      have hrq : r ≠ q := fun he => by
        rw [he, hz] at hon
        cases hon
      rwa [Function.update_of_ne hrq]
    have hret : Quiet (Function.update t.ptable q y) (((t.setProc q y).return p
        (t.ptable q).pid).ptable) := return_quiet ((hkin p).child.trans hp) _
    subst hy
    exact .of_kin (hcpu ▸ hinv.quiet hret) (Kin.trans (Kin.trans hq.kin hkin) hret.kin)
  · split
    · exact h.steady (hq.trans (return_quiet hp _)) hcpu
    · exact h.sched hc hq rfl hcpu hp.symm rfl rfl rfl

/-! ## `fork` -/

/-- Two slots are written. -/
theorem update_two {y : Proc} (hnp : np ≠ p) :
    Function.update (Function.update T np y) p x p = x ∧
      Function.update (Function.update T np y) p x np = y ∧
      ∀ q, q ≠ p → q ≠ np → Function.update (Function.update T np y) p x q = T q := by
  refine ⟨Function.update_self .., ?_, fun q hq hq' => ?_⟩
  · rw [Function.update_of_ne hnp, Function.update_self]
  · rw [Function.update_of_ne hq, Function.update_of_ne hq']

/-- A step of `fork`, which `p` is in: `x` and `y` are what it makes of `p` and of the
child `np`, which is no one else's. -/
structure Handed (T : Table) (p np : Slot) (x y : Proc) : Prop where
  ne : np ≠ p
  alone : ∀ q b, q ≠ p → (T q).pc.child ≠ some (np, b)
  state : x.state = (Function.update T np y p).state
  parent : x.parent = (Function.update T np y p).parent
  only : ∀ m b, x.pc.child = some (m, b) → m = np
  embryo : x.pc.child = some (np, false) → y.state = .embryo
  born : x.pc.child = some (np, true) → y.parent = some p ∧ y.state ≠ .unused ∧ y.state ≠ .embryo
  child : y.pc.child = (T np).pc.child ∨ y.pc.child = none
  running : (T np).state = .running → y.state = .running

/-- The children after it. -/
theorem Handed.children {y : Proc} {m : Slot} {b : Bool} (h : Handed T p np x y)
    (hq : (Function.update (Function.update T np y) p x q).pc.child = some (m, b)) :
    q = p ∧ x.pc.child = some (m, b) ∨ q ≠ p ∧ (T q).pc.child = some (m, b) := by
  obtain ⟨hp, hnp, hother⟩ := update_two (T := T) (x := x) (y := y) h.ne
  by_cases hqp : q = p
  · rw [hqp, hp] at hq
    exact .inl ⟨hqp, hq⟩
  · refine .inr ⟨hqp, ?_⟩
    by_cases hqn : q = np
    · rw [hqn, hnp] at hq
      rcases h.child with hy | hy
      · rw [hqn, ← hy, hq]
      · rw [hy] at hq
        cases hq
    · rwa [hother q hqp hqn] at hq

theorem Inv.hand {y : Proc} (h : Inv T cpu) (hc : cpu c = some p) (hand : Handed T p np x y) :
    Inv (Function.update (Function.update T np y) p x) cpu := by
  have hon := h.on c p hc
  have hstate := hand.state
  have hparent := hand.parent
  rw [Function.update_of_ne hand.ne.symm] at hstate hparent
  obtain ⟨hp', hnp', hother⟩ := update_two (T := T) (x := x) (y := y) hand.ne
  refine ⟨⟨fun q m hq => ?_, fun q r m hq hr => ?_, fun q m hq => ?_⟩, fun d r hd => ?_, h.one⟩
  · rcases hand.children hq with ⟨rfl, hx⟩ | ⟨hqp, hx⟩
    · obtain rfl := hand.only m false hx
      rw [hnp']
      exact hand.embryo hx
    · have hm := h.family.embryo q m hx
      have hmp : m ≠ p := fun he => by
        rw [he, hon] at hm
        cases hm
      rwa [hother m hmp fun he => hand.alone q false hqp (he ▸ hx)]
  · rcases hand.children hq with ⟨rfl, hx⟩ | ⟨hqp, hx⟩
    · rcases hand.children hr with ⟨rfl, -⟩ | ⟨hrp, hy⟩
      · rfl
      · obtain rfl := hand.only m false hx
        exact absurd hy (hand.alone r false hrp)
    · rcases hand.children hr with ⟨rfl, hy⟩ | ⟨-, hy⟩
      · obtain rfl := hand.only m false hy
        exact absurd hx (hand.alone q false hqp)
      · exact h.family.apart q r m hx hy
  · rcases hand.children hq with ⟨rfl, hx⟩ | ⟨hqp, hx⟩
    · obtain rfl := hand.only m true hx
      rw [hnp']
      obtain ⟨hpar, hlive⟩ := hand.born hx
      exact ⟨hpar, hand.ne, hlive⟩
    · obtain ⟨hpar, hne, hlive⟩ := h.family.born q m hx
      have hmn : m ≠ np := fun he => hand.alone q true hqp (he ▸ hx)
      by_cases hmp : m = p
      · subst hmp
        rw [hp', hparent, hstate]
        exact ⟨hpar, hne, hlive⟩
      · rw [hother m hmp hmn]
        exact ⟨hpar, hne, hlive⟩
  · have hr := h.on d r hd
    by_cases hrp : r = p
    · rw [hrp, hp', hstate, hon]
    · by_cases hrn : r = np
      · rw [hrn, hnp']
        exact hand.running (hrn ▸ hr)
      · rwa [hother r hrp hrn]

/-- The counters after it. -/
theorem Handed.counter {y : Proc} (h : Handed T p np x y)
    (hx : x.counter = (Function.update T np y p).counter) (q : Slot) :
    (Function.update (Function.update T np y) p x q).counter =
      if q = np then y.counter else (T q).counter := by
  obtain ⟨hp', hnp', hother⟩ := update_two (T := T) (x := x) (y := y) h.ne
  by_cases hqn : q = np
  · rw [hqn, hnp', if_pos rfl]
  · rw [if_neg hqn]
    by_cases hqp : q = p
    · rw [hqp, hp', hx, Function.update_of_ne h.ne.symm]
    · rw [hother q hqp hqn]

/-- `allocproc` takes a free slot for a child of `p`. -/
theorem fork_steady (h : Inv s.ptable s.cpu) (hc : s.cpu c = some p)
    (hp : (s.ptable p).pc.child = none) : Steady s (s.fork p) := by
  have hrun := h.on c p hc
  rw [Sys.fork]
  split
  · exact h.steady (return_quiet hp _) rfl
  · rename_i np hfind
    have hfree := List.find?_some hfind
    simp only [decide_eq_true_eq] at hfree
    have hne : np ≠ p := fun he => by
      rw [he, hrun] at hfree
      cases hfree
    have hnone : ∀ q b, (s.ptable q).pc.child ≠ some (np, b) := fun q b hq => by
      cases b with
      | false =>
          have hm := h.family.embryo q np hq
          rw [hfree] at hm
          cases hm
      | true => exact (h.family.born q np hq).2.2.1 hfree
    obtain ⟨y, hy⟩ : ∃ y : Proc, y = { s.ptable np with
        state := .embryo, pid := s.nextpid, pc := .forkret } := ⟨_, rfl⟩
    have hand : Handed s.ptable p np
        { Function.update s.ptable np y p with pc := .fork np false } y := {
      ne := hne
      alone := fun q b _ => hnone q b
      state := rfl
      parent := rfl
      only := fun m b hm => by
        cases hm
        rfl
      embryo := fun _ => hy ▸ rfl
      born := fun hm => by cases hm
      child := .inr (hy ▸ rfl)
      running := fun hm => by
        rw [hfree] at hm
        cases hm }
    subst hy
    refine ⟨h.hand hc hand, fun q => (hand.counter rfl q).trans ?_, fun q m hq => ?_⟩
    · split
      · rename_i he
        rw [he]
      · rfl
    · rcases hand.children hq with ⟨-, hm⟩ | ⟨-, hq⟩
      · cases hm
      · exact hq

/-- The child `np` of a process in `fork`. -/
theorem Inv.alone {b : Bool} (h : Inv T cpu) (hc : cpu c = some p)
    (hch : (T p).pc.child = some (np, b)) :
    np ≠ p ∧ ∀ q b', q ≠ p → (T q).pc.child ≠ some (np, b') := by
  cases b with
  | false =>
      have hnew := h.family.embryo p np hch
      refine ⟨fun he => ?_, fun q b' hq hm => ?_⟩
      · rw [he, h.on c p hc] at hnew
        cases hnew
      · cases b' with
        | false => exact hq (h.family.apart q p np hm hch)
        | true => exact (h.family.born q np hm).2.2.2 hnew
  | true =>
      obtain ⟨hparent, hne, -, hborn⟩ := h.family.born p np hch
      refine ⟨hne, fun q b' hq hm => ?_⟩
      cases b' with
      | false => exact hborn (h.family.embryo q np hm)
      | true =>
          have hparent' := (h.family.born q np hm).1
          exact hq (Option.some.inj (hparent'.symm.trans hparent))

/-- `fork` fails. -/
theorem publish_steady (h : Inv s.ptable s.cpu) (hc : s.cpu c = some p)
    (hp : (s.ptable p).pc = .fork np false) : Steady s (s.publish p np false) := by
  have hch : (s.ptable p).pc.child = some (np, false) := by rw [hp]; rfl
  obtain ⟨hne, halone⟩ := h.alone hc hch
  obtain ⟨y, hy⟩ : ∃ y : Proc, y = { s.ptable np with state := .unused } := ⟨_, rfl⟩
  have hand : Handed s.ptable p np
      { Function.update s.ptable np y p with eax := -1, pc := .user } y := {
    ne := hne
    alone := halone
    state := rfl
    parent := rfl
    only := fun m b hm => by cases hm
    embryo := fun hm => by cases hm
    born := fun hm => by cases hm
    child := .inl (hy ▸ rfl)
    running := fun hm => by
      rw [h.family.embryo p np hch] at hm
      cases hm }
  subst hy
  refine ⟨h.hand hc hand, fun q => (hand.counter rfl q).trans ?_, fun q m hq => ?_⟩
  · split
    · rename_i he
      rw [he]
    · rfl
  · rcases hand.children hq with ⟨-, hm⟩ | ⟨-, hq⟩
    · cases hm
    · exact hq

/-- The child becomes `RUNNABLE`. -/
theorem publish_born (h : Inv s.ptable s.cpu) (hc : s.cpu c = some p)
    (hp : (s.ptable p).pc = .fork np false) :
    Inv (s.publish p np true).ptable s.cpu ∧
      (∀ q, ((s.publish p np true).ptable q).counter = (s.ptable q).counter) ∧
      ∀ q m, ((s.publish p np true).ptable q).pc.child = some (m, true) →
        m = np ∨ (s.ptable q).pc.child = some (m, true) := by
  have hch : (s.ptable p).pc.child = some (np, false) := by rw [hp]; rfl
  obtain ⟨hne, halone⟩ := h.alone hc hch
  obtain ⟨y, hy⟩ : ∃ y : Proc, y = { s.ptable np with
      parent := some p, eax := 0, state := .runnable } := ⟨_, rfl⟩
  have hand : Handed s.ptable p np { Function.update s.ptable np y p with pc := .fork np true } y := {
    ne := hne
    alone := halone
    state := rfl
    parent := rfl
    only := fun m b hm => by
      cases hm
      rfl
    embryo := fun hm => by cases hm
    born := fun _ => by
      rw [hy]
      exact ⟨rfl, fun he => (by cases he), fun he => (by cases he)⟩
    child := .inl (hy ▸ rfl)
    running := fun hm => by
      rw [h.family.embryo p np hch] at hm
      cases hm }
  subst hy
  refine ⟨h.hand hc hand, fun q => (hand.counter rfl q).trans ?_, fun q m hq => ?_⟩
  · split
    · rename_i he
      rw [he]
    · rfl
  · rcases hand.children hq with ⟨-, hm⟩ | ⟨-, hq⟩
    · exact .inl (hand.only m true hm)
    · exact .inr hq

/-- `np->counter = 0`. -/
theorem reset_cleared (h : Inv s.ptable s.cpu) (hc : s.cpu c = some p)
    (hp : (s.ptable p).pc = .fork np true) :
    Inv (s.reset p np).ptable s.cpu ∧
      (∀ q, ((s.reset p np).ptable q).counter = if q = np then 0 else (s.ptable q).counter) ∧
      ∀ q m, ((s.reset p np).ptable q).pc.child = some (m, true) →
        m ≠ np ∧ (s.ptable q).pc.child = some (m, true) := by
  have hch : (s.ptable p).pc.child = some (np, true) := by rw [hp]; rfl
  obtain ⟨hne, halone⟩ := h.alone hc hch
  obtain ⟨y, hy⟩ : ∃ y : Proc, y = { s.ptable np with counter := 0 } := ⟨_, rfl⟩
  have hand : Handed s.ptable p np { Function.update s.ptable np y p with
      eax := (s.ptable np).pid, pc := .user } y := {
    ne := hne
    alone := halone
    state := rfl
    parent := rfl
    only := fun m b hm => by cases hm
    embryo := fun hm => by cases hm
    born := fun hm => by cases hm
    child := .inl (hy ▸ rfl)
    running := fun hm => hy ▸ hm }
  subst hy
  refine ⟨h.hand hc hand, hand.counter rfl, fun q m hq => ?_⟩
  rcases hand.children hq with ⟨-, hm⟩ | ⟨hqp, hq⟩
  · cases hm
  · exact ⟨fun he => halone q true hqp (he ▸ hq), hq⟩

end

end Cs537.Syscount
