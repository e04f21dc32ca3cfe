/-
# `Cs537.Lib.Guard` — loops of checks

A check `f : σ → α → Except ε σ` stops with an error or goes on.  `Guards f P g`
says that it goes on just where `P` holds, with the state `g` makes.  A loop of
such checks goes on just when all of its elements are met where `P` holds, each
in the state after the ones before it (`foldlM_ok_iff`); a loop that stops does
so at one of them (`foldlM_error`).
-/
import Mathlib.Data.List.Basic

namespace Cs537.Lib

universe u

variable {ε α : Type*} {σ β : Type u}

theorem bind_ok_iff {x : Except ε σ} {f : σ → Except ε β} {b : β} :
    x >>= f = .ok b ↔ ∃ a, x = .ok a ∧ f a = .ok b := by
  cases x with
  | error e => exact iff_of_false nofun fun h => nomatch h.choose_spec.1
  | ok a =>
      constructor
      · intro h
        exact ⟨a, rfl, h⟩
      · rintro ⟨a', ha, h⟩
        cases ha
        exact h

theorem bind_error_iff {x : Except ε σ} {f : σ → Except ε β} {e : ε} :
    x >>= f = .error e ↔ x = .error e ∨ ∃ a, x = .ok a ∧ f a = .error e := by
  cases x with
  | error e' =>
      constructor
      · intro h
        cases h
        exact .inl rfl
      · rintro (h | ⟨a, ha, -⟩)
        · cases h
          rfl
        · cases ha
  | ok a =>
      constructor
      · intro h
        exact .inr ⟨a, rfl, h⟩
      · rintro (h | ⟨a', ha, h⟩)
        · cases h
        · cases ha
          exact h

/-- `f` goes on just where `P` holds, in the state `g`. -/
def Guards (f : σ → α → Except ε σ) (P : σ → α → Prop) (g : σ → α → σ) : Prop :=
  ∀ s a t, f s a = .ok t ↔ P s a ∧ t = g s a

/-- Each element of the list has `P` in the state after those before it. -/
def Along (P : σ → α → Prop) (g : σ → α → σ) : σ → List α → Prop
  | _, [] => True
  | s, a :: l => P s a ∧ Along P g (g s a) l

variable {f : σ → α → Except ε σ} {P : σ → α → Prop} {g : σ → α → σ} {s t : σ} {l : List α}

theorem foldlM_ok_iff (h : Guards f P g) :
    l.foldlM f s = .ok t ↔ Along P g s l ∧ t = l.foldl g s := by
  induction l generalizing s with
  | nil =>
      show Except.ok s = .ok t ↔ _
      rw [Except.ok.injEq]
      exact ⟨fun he => ⟨trivial, he.symm⟩, fun he => he.2.symm⟩
  | cons a l ih =>
      rw [List.foldlM_cons, bind_ok_iff, Along, List.foldl_cons]
      constructor
      · rintro ⟨u, hu, ht⟩
        obtain ⟨hP, rfl⟩ := (h s a u).mp hu
        obtain ⟨hrest, ht⟩ := ih.mp ht
        exact ⟨⟨hP, hrest⟩, ht⟩
      · rintro ⟨⟨hP, hrest⟩, ht⟩
        exact ⟨g s a, (h s a _).mpr ⟨hP, rfl⟩, ih.mpr ⟨hrest, ht⟩⟩

/-- A loop from `s` comes to the element `a` of its list, in the state `t`. -/
def Reaches (f : σ → α → Except ε σ) (l : List α) (s t : σ) (a : α) : Prop :=
  ∃ pre post, l = pre ++ a :: post ∧ pre.foldlM f s = .ok t

/-- A loop that stops has come to an element at which the check stops. -/
theorem foldlM_error {e : ε} (h : l.foldlM f s = .error e) :
    ∃ a t, Reaches f l s t a ∧ f t a = .error e := by
  induction l generalizing s with
  | nil => cases h
  | cons a l ih =>
      rw [List.foldlM_cons] at h
      rcases bind_error_iff.mp h with ha | ⟨u, hu, h⟩
      · exact ⟨a, s, ⟨[], l, rfl, rfl⟩, ha⟩
      · obtain ⟨b, t, ⟨pre, post, rfl, ht⟩, hb⟩ := ih h
        refine ⟨b, t, ⟨a :: pre, post, rfl, ?_⟩, hb⟩
        rw [List.foldlM_cons, bind_ok_iff]
        exact ⟨u, hu, ht⟩

theorem reaches_range'_iff {f : σ → Nat → Except ε σ} {lo n k : Nat} :
    Reaches f (List.range' lo n) s t k ↔
      lo ≤ k ∧ k < lo + n ∧ (List.range' lo (k - lo)).foldlM f s = .ok t := by
  constructor
  · rintro ⟨pre, post, hsplit, hpre⟩
    obtain ⟨j, hj, rfl, hpost⟩ := List.range'_eq_append_iff.mp hsplit
    rw [Nat.mul_one] at hpost
    obtain ⟨rfl, hlt, -⟩ := List.range'_eq_cons_iff.mp hpost.symm
    refine ⟨Nat.le_add_right _ _, by omega, ?_⟩
    rwa [Nat.add_sub_cancel_left]
  · rintro ⟨h1, h2, hpre⟩
    refine ⟨_, List.range' (k + 1) (lo + n - (k + 1)), ?_, hpre⟩
    have happ := @List.range'_append_1 lo (k - lo) (n - (k - lo))
    have hk : lo + (k - lo) = k := by omega
    have hn : k - lo + (n - (k - lo)) = n := by omega
    rw [hk, hn] at happ
    have hlen : n - (k - lo) = lo + n - (k + 1) + 1 := by omega
    rw [← happ, hlen, List.range'_succ]

/-- For a check that does not look at the state. -/
theorem along_const {Q : α → Prop} : Along (fun _ a => Q a) g s l ↔ ∀ a ∈ l, Q a := by
  induction l generalizing s with
  | nil => exact iff_of_true trivial nofun
  | cons a l ih => rw [Along, ih, List.forall_mem_cons]

theorem along_append {l' : List α} :
    Along P g s (l ++ l') ↔ Along P g s l ∧ Along P g (l.foldl g s) l' := by
  induction l generalizing s with
  | nil => exact ⟨fun h => ⟨trivial, h⟩, fun h => h.2⟩
  | cons a l ih => rw [List.cons_append, Along, Along, ih, List.foldl_cons, and_assoc]

theorem along_and {Q : σ → α → Prop} :
    Along (fun s a => P s a ∧ Q s a) g s l ↔ Along P g s l ∧ Along Q g s l := by
  induction l generalizing s with
  | nil => exact iff_of_true trivial ⟨trivial, trivial⟩
  | cons a l ih =>
      rw [Along, Along, Along, ih]
      constructor
      · rintro ⟨⟨hP, hQ⟩, hPs, hQs⟩
        exact ⟨⟨hP, hPs⟩, hQ, hQs⟩
      · rintro ⟨⟨hP, hPs⟩, hQ, hQs⟩
        exact ⟨⟨hP, hQ⟩, hPs, hQs⟩

/-- A loop in a loop is a loop over all the inner elements. -/
theorem along_flatMap {γ : Type*} {h : γ → List α} {l : List γ} :
    Along (fun s c => Along P g s (h c)) (fun s c => (h c).foldl g s) s l ↔
      Along P g s (l.flatMap h) := by
  induction l generalizing s with
  | nil => exact Iff.rfl
  | cons c l ih => rw [Along, ih, List.flatMap_cons, along_append]

/-- Only a part `p` of the state matters. -/
theorem along_part {τ : Type*} {p : σ → τ} {Q : τ → α → Prop} {h : τ → α → τ}
    (hg : ∀ s a, p (g s a) = h (p s) a) :
    Along (fun s a => Q (p s) a) g s l ↔ Along Q h (p s) l := by
  induction l generalizing s with
  | nil => exact Iff.rfl
  | cons a l ih => rw [Along, Along, ih, hg]

theorem foldl_part {τ : Type*} {p : σ → τ} {h : τ → α → τ}
    (hg : ∀ s a, p (g s a) = h (p s) a) : p (l.foldl g s) = l.foldl h (p s) := by
  induction l generalizing s with
  | nil => rfl
  | cons a l ih => rw [List.foldl_cons, List.foldl_cons, ih, hg]

end Cs537.Lib
