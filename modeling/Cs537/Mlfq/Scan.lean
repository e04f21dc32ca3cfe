/-
# `Cs537.Mlfq.Scan` — what one turn through the table does

`visit` either switches to a process or steps over it; it switches exactly when
the process is `Ready`.  Stepping over a process may demote it and may put its
pid into the queue.  So the loop switches to the first slot that is ready, with
the slots before it demoted if their slices are used up (`scan_some`), or goes
round when there is none (`scan_none`).
-/
import Cs537.Mlfq.Proc
import Mathlib.Data.List.Nodup

namespace Cs537.Mlfq

/-- The process has had all its slices at its level. -/
def Proc.UsedUp (p : Proc) : Prop := p.priority < 3 ∧ quantum p.priority ≤ (p.slice p.priority).toNat

instance (p : Proc) : Decidable p.UsedUp := inferInstanceAs (Decidable (_ ∧ _))

/-- Waiting at level 3. -/
def Proc.Last (p : Proc) : Prop := p.state = .runnable ∧ p.priority = 3

instance (p : Proc) : Decidable p.Last := inferInstanceAs (Decidable (_ ∧ _))

/-- `scheduler` switches to the process, with the queue at `Q`. -/
def Proc.Ready (p : Proc) (Q : Queue) : Prop :=
  p.state = .runnable ∧
    ((p.priority < 3 ∧ ¬ p.UsedUp) ∨ (p.priority = 3 ∧ p.pid = (Q.addq p.pid).frontq))

instance (p : Proc) (Q : Queue) : Decidable (p.Ready Q) := inferInstanceAs (Decidable (_ ∧ _))

/-- The process after it has been stepped over. -/
def Proc.passed (p : Proc) : Proc :=
  if p.state = .runnable ∧ p.UsedUp then { p with priority := p.priority + 1 } else p

/-- The queue after a process has been looked at, and after several. -/
def Queue.after (Q : Queue) (p : Proc) : Queue := if p.Last then Q.addq p.pid else Q

def Queue.afterAll (Q : Queue) (T : Table) (l : List Slot) : Queue :=
  l.foldl (fun Q q => Q.after (T q)) Q

section

variable {now : BitVec 32} {T T' : Table} {Q Q' : Queue} {p q : Slot} {l : List Slot}

theorem not_last (hp : (T p).priority ≠ 3) : Q.after (T p) = Q := if_neg fun h => hp h.2

theorem update_eq (T : Table) (p : Slot) : Function.update T p (T p) = T := Function.update_eq_self p T

/-- The loop body, in one equation. -/
theorem visit_eq (now : BitVec 32) (T : Table) (Q : Queue) (p : Slot) : visit now T Q p =
    if (T p).Ready Q then (true, T.start now p, Q.after (T p))
    else (false, Function.update T p (T p).passed, Q.after (T p)) := by
  rw [visit]
  by_cases hr : (T p).state = .runnable
  · rw [if_neg (not_not.mpr hr)]
    have hlevel : ∀ lvl, lvl < 3 → (T p).priority = lvl → visitLevel now lvl T Q p =
        if (T p).Ready Q then (true, T.start now p, Q.after (T p))
        else (false, Function.update T p (T p).passed, Q.after (T p)) := fun lvl hlt hp => by
      have hused : (T p).UsedUp ↔ quantum lvl ≤ ((T p).slice lvl).toNat := by
        rw [Proc.UsedUp, hp]
        exact and_iff_right hlt
      have hne : (T p).priority ≠ 3 := by omega
      have hready : (T p).Ready Q ↔ ¬ quantum lvl ≤ ((T p).slice lvl).toNat := by
        rw [Proc.Ready, and_iff_right hr, hused, or_iff_left fun h => hne h.1, hp, and_iff_right hlt]
      rw [visitLevel, not_last hne]
      by_cases hu : quantum lvl ≤ ((T p).slice lvl).toNat
      · rw [if_pos hu, if_neg (hready.not.mpr (not_not.mpr hu)), Proc.passed,
          if_pos ⟨hr, hused.mpr hu⟩, hp, Table.demote]
      · rw [if_neg hu, if_pos (hready.mpr hu)]
    split
    · rename_i hp
      exact hlevel 0 (by decide) hp
    · rename_i hp
      exact hlevel 1 (by decide) hp
    · rename_i hp
      exact hlevel 2 (by decide) hp
    · rename_i hp
      have hready : (T p).Ready Q ↔ (T p).pid = (Q.addq (T p).pid).frontq := by
        rw [Proc.Ready, and_iff_right hr, hp]
        simp
      have hpassed : (T p).passed = T p := if_neg fun h => by
        have := h.2.1
        omega
      have hafter : Q.after (T p) = Q.addq (T p).pid := if_pos ⟨hr, hp⟩
      rw [visitLast, hpassed, update_eq, hafter]
      exact if_congr hready.symm rfl rfl
    · rename_i h0 h1 h2 h3
      have hge : 3 < (T p).priority := by
        have h0 : (T p).priority ≠ 0 := h0
        have h1 : (T p).priority ≠ 1 := h1
        have h2 : (T p).priority ≠ 2 := h2
        have h3 : (T p).priority ≠ 3 := h3
        omega
      have hpassed : (T p).passed = T p := if_neg fun h => by
        have := h.2.1
        omega
      rw [if_neg fun h => by rcases h.2 with h | h <;> omega, hpassed, update_eq, not_last (by omega)]
  · have hpassed : (T p).passed = T p := if_neg fun h => hr h.1
    rw [if_pos hr, if_neg fun h => hr h.1, hpassed, update_eq, Queue.after, if_neg fun h => hr h.1]

/-! ## The loop -/

/-- `p`, which comes after the slots `pre`, is the first process that is ready. -/
def FirstReady (T : Table) (Q : Queue) (pre : List Slot) (p : Slot) : Prop :=
  (T p).Ready (Q.afterAll T pre) ∧
    ∀ pre' q post', pre = pre' ++ q :: post' → ¬ (T q).Ready (Q.afterAll T pre')

/-- The table after the slots `l` have been stepped over. -/
def Table.passedAll (T : Table) (l : List Slot) : Table := fun q =>
  if q ∈ l then (T q).passed else T q

theorem afterAll_cons (Q : Queue) (T : Table) (p : Slot) (l : List Slot) :
    Q.afterAll T (p :: l) = (Q.after (T p)).afterAll T l := rfl

/-- What happens to a slot does not matter to those after it. -/
theorem afterAll_update {x : Proc} (hp : p ∉ l) :
    Q.afterAll (Function.update T p x) l = Q.afterAll T l := by
  induction l generalizing Q with
  | nil => rfl
  | cons q l ih =>
      obtain ⟨hqp, hpl⟩ := List.ne_and_not_mem_of_not_mem_cons hp
      rw [afterAll_cons, afterAll_cons, Function.update_of_ne hqp.symm, ih hpl]

theorem passedAll_cons (hp : p ∉ l) :
    Table.passedAll (Function.update T p (T p).passed) l = T.passedAll (p :: l) := by
  funext q
  rw [Table.passedAll, Table.passedAll]
  by_cases hq : q = p
  · subst hq
    rw [if_neg hp, Function.update_self, if_pos List.mem_cons_self]
  · rw [Function.update_of_ne hq]
    simp only [List.mem_cons, hq, false_or]

theorem FirstReady.tail {pre : List Slot} (h : FirstReady T Q (p :: pre) q) (hp : p ∉ pre)
    (hq : q ≠ p) {x : Proc} :
    FirstReady (Function.update T p x) (Q.after (T p)) pre q := by
  refine ⟨?_, fun pre' r post' he => ?_⟩
  · rw [Function.update_of_ne hq, afterAll_update hp]
    exact h.1
  · have hrp : r ≠ p := fun hr => hp (by simp [he, hr])
    have hpre : p ∉ pre' := fun hm => hp (by simp [he, hm])
    rw [Function.update_of_ne hrp, afterAll_update hpre]
    exact h.2 (p :: pre') r post' (by rw [he, List.cons_append])

/-- The loop switches to the first process that is ready. -/
theorem scan_first {pre post : List Slot} (hnd : (pre ++ p :: post).Nodup)
    (h : FirstReady T Q pre p) : ∃ Q',
      scan now (pre ++ p :: post) T Q = (some p, (T.passedAll pre).start now p, Q') := by
  induction pre generalizing T Q with
  | nil =>
      refine ⟨Q.after (T p), ?_⟩
      have hnone : T.passedAll [] = T := funext fun q => if_neg List.not_mem_nil
      have hready : (T p).Ready Q := h.1
      rw [List.nil_append, scan, visit_eq, if_pos hready, hnone]
  | cons q pre ih =>
      rw [List.cons_append] at hnd ⊢
      obtain ⟨hq, hnd⟩ := List.nodup_cons.mp hnd
      simp only [List.mem_append, List.mem_cons, not_or] at hq
      have hready : ¬ (T q).Ready Q := h.2 [] q pre rfl
      rw [scan, visit_eq, if_neg hready, ← passedAll_cons hq.1]
      exact ih hnd (h.tail hq.1 (Ne.symm hq.2.1))

/-- It goes round if there is none. -/
theorem scan_none (hnd : l.Nodup)
    (h : ∀ pre q post, l = pre ++ q :: post → ¬ (T q).Ready (Q.afterAll T pre)) :
    scan now l T Q = (none, T.passedAll l, Q.afterAll T l) := by
  induction l generalizing T Q with
  | nil =>
      have hnone : T.passedAll [] = T := funext fun q => if_neg List.not_mem_nil
      rw [scan, hnone]
      rfl
  | cons q l ih =>
      obtain ⟨hq, hnd⟩ := List.nodup_cons.mp hnd
      have hready : ¬ (T q).Ready Q := h [] q l rfl
      rw [scan, visit_eq, if_neg hready, ← passedAll_cons hq, afterAll_cons,
        ← afterAll_update (x := (T q).passed) hq]
      refine ih hnd fun pre r post he => ?_
      have hrq : r ≠ q := fun hr => hq (by simp [he, hr])
      have hpre : q ∉ pre := fun hm => hq (by simp [he, hm])
      rw [Function.update_of_ne hrq, afterAll_update hpre]
      exact h (q :: pre) r post (by rw [he, List.cons_append])

/-- One of the two. -/
theorem first_or_none (T : Table) (Q : Queue) (l : List Slot) :
    (∃ pre p post, l = pre ++ p :: post ∧ FirstReady T Q pre p) ∨
      ∀ pre q post, l = pre ++ q :: post → ¬ (T q).Ready (Q.afterAll T pre) := by
  by_cases h : ∃ k, ∃ pre p post, pre.length = k ∧ l = pre ++ p :: post ∧
      (T p).Ready (Q.afterAll T pre)
  · left
    classical
    obtain ⟨pre, p, post, hk, hl, hr⟩ := Nat.find_spec h
    refine ⟨pre, p, post, hl, hr, fun pre' q post' he hq => ?_⟩
    refine Nat.find_min h (m := pre'.length) ?_ ⟨pre', q, post' ++ p :: post, rfl, ?_, hq⟩
    · rw [← hk, he]
      simp
    · rw [hl, he, List.append_assoc, List.cons_append]
  · right
    exact fun pre q post hl hr => h ⟨pre.length, pre, q, post, rfl, hl, hr⟩

theorem scan_some {Q' : Queue} (hnd : l.Nodup) (h : scan now l T Q = (some p, T', Q')) :
    ∃ pre post, l = pre ++ p :: post ∧ FirstReady T Q pre p ∧
      T' = (T.passedAll pre).start now p := by
  rcases first_or_none T Q l with ⟨pre, q, post, rfl, hq⟩ | hno
  · obtain ⟨Q₁, hscan⟩ : ∃ Q₁, scan now (pre ++ q :: post) T Q =
        (some q, (T.passedAll pre).start now q, Q₁) := scan_first hnd hq
    rw [hscan] at h
    cases h
    exact ⟨pre, post, rfl, hq, rfl⟩
  · rw [scan_none hnd hno] at h
    cases h

end

end Cs537.Mlfq
