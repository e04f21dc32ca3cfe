/-
# `Cs537.Lib.Run` — runs of a partial step function

A system is a step function `step : σ → ε → Option σ`; `none` is a stop (a
panic, or an event that the state does not allow), after which nothing else
happens.  A run is a start state and a list of events.

Four ways to speak about a run:

    run step s es          the state after `es`, if no step stopped
    AllStates step P s es  every state that `es` reaches from `s` has `P`
    AllSteps step C s es   every step that `es` takes from `s` meets `C`
    AllTried step C s es   the same, and also the step that stops

A statement "in every run whose steps all meet `C`, `P` holds in every state
reached" is `AllSteps step C s es → AllStates step P s es`; the rule for it
is `allStates_of_allSteps`, one induction for every invariant.  Where one
step keeps the invariant exactly when it meets `C`, the run does so too:
`allStates_iff_allSteps`; the rule for a property of the steps besides is
`allStates_and_allTried_iff`.  An invariant that every step keeps holds in every
state (`allStates_of_step`), and what it says of a step holds of the steps tried
(`allTried_iff`).

A run can be watched: `watch step see` carries along what `see` makes of the
steps, for statements about the history of a state.
-/
import Mathlib.Data.List.Infix

namespace Cs537.Lib

variable {σ ε : Type*} {step : σ → ε → Option σ}

/-- The state after the events `es`, if every step is defined. -/
def run (step : σ → ε → Option σ) : σ → List ε → Option σ
  | s, [] => some s
  | s, e :: es => (step s e).bind fun t => run step t es

/-- Every state reached from `s` by a prefix of `es` has `P`. -/
def AllStates (step : σ → ε → Option σ) (P : σ → Prop) : σ → List ε → Prop
  | s, [] => P s
  | s, e :: es => P s ∧ ∀ t, step s e = some t → AllStates step P t es

/-- Every step that `es` takes from `s` meets `C`, a condition on the state
before the step and the event. -/
def AllSteps (step : σ → ε → Option σ) (C : σ → ε → Prop) : σ → List ε → Prop
  | _, [] => True
  | s, e :: es => ∀ t, step s e = some t → C s e ∧ AllSteps step C t es

/-- Every step that `es` tries from `s`, the one that stops included, meets `C`. -/
def AllTried (step : σ → ε → Option σ) (C : σ → ε → Prop) : σ → List ε → Prop
  | _, [] => True
  | s, e :: es => C s e ∧ ∀ t, step s e = some t → AllTried step C t es

instance decidableAllSteps {C : σ → ε → Prop} [∀ s e, Decidable (C s e)] :
    ∀ (s : σ) (es : List ε), Decidable (AllSteps step C s es)
  | _, [] => .isTrue trivial
  | s, e :: es =>
      match h : step s e with
      | none => .isTrue fun _ ht => absurd (h.symm.trans ht) nofun
      | some u =>
          have : Decidable (AllSteps step C u es) := decidableAllSteps u es
          decidable_of_iff (C s e ∧ AllSteps step C u es)
            ⟨fun hu _ ht => Option.some.inj (h.symm.trans ht) ▸ hu, fun hall => hall u h⟩

instance decidableAllTried {C : σ → ε → Prop} [∀ s e, Decidable (C s e)] :
    ∀ (s : σ) (es : List ε), Decidable (AllTried step C s es)
  | _, [] => .isTrue trivial
  | s, e :: es =>
      match h : step s e with
      | none => decidable_of_iff (C s e) ⟨fun hC => ⟨hC, fun _ ht => absurd (h.symm.trans ht) nofun⟩,
          fun hall => hall.1⟩
      | some u =>
          have : Decidable (AllTried step C u es) := decidableAllTried u es
          decidable_of_iff (C s e ∧ AllTried step C u es)
            ⟨fun hu => ⟨hu.1, fun _ ht => Option.some.inj (h.symm.trans ht) ▸ hu.2⟩,
              fun hall => ⟨hall.1, hall.2 u h⟩⟩

instance decidableAllStates {P : σ → Prop} [∀ s, Decidable (P s)] :
    ∀ (s : σ) (es : List ε), Decidable (AllStates step P s es)
  | s, [] => inferInstanceAs (Decidable (P s))
  | s, e :: es =>
      match h : step s e with
      | none => decidable_of_iff (P s) ⟨fun hP => ⟨hP, fun _ ht => absurd (h.symm.trans ht) nofun⟩,
          fun hall => hall.1⟩
      | some u =>
          have : Decidable (AllStates step P u es) := decidableAllStates u es
          decidable_of_iff (P s ∧ AllStates step P u es)
            ⟨fun hu => ⟨hu.1, fun _ ht => Option.some.inj (h.symm.trans ht) ▸ hu.2⟩,
              fun hall => ⟨hall.1, hall.2 u h⟩⟩

/-! ## What the quantifiers say -/

theorem run_append {s : σ} {es fs : List ε} :
    run step s (es ++ fs) = (run step s es).bind fun t => run step t fs := by
  induction es generalizing s with
  | nil => rfl
  | cons e es ih =>
      rw [List.cons_append, run, run]
      cases step s e with
      | none => rfl
      | some t => exact ih

theorem AllStates.head {P : σ → Prop} {s : σ} {es : List ε}
    (h : AllStates step P s es) : P s := by
  cases es with
  | nil => exact h
  | cons e es => exact h.1

theorem AllStates.mono {P Q : σ → Prop} (hPQ : ∀ s, P s → Q s) :
    ∀ {s : σ} {es : List ε}, AllStates step P s es → AllStates step Q s es
  | _, [], h => hPQ _ h
  | _, _ :: _, h => ⟨hPQ _ h.1, fun t ht => (h.2 t ht).mono hPQ⟩

theorem allSteps_true : ∀ {s : σ} {es : List ε}, AllSteps step (fun _ _ => True) s es
  | _, [] => trivial
  | _, _ :: _ => fun _ _ => ⟨trivial, allSteps_true⟩

/-- A condition on the events alone. -/
theorem allSteps_of_forall {P : ε → Prop} :
    ∀ {s : σ} {es : List ε}, (∀ e ∈ es, P e) → AllSteps step (fun _ e => P e) s es
  | _, [], _ => trivial
  | _, e :: _, h => fun _ _ =>
      ⟨h e List.mem_cons_self, allSteps_of_forall fun e' he' => h e' (List.mem_cons_of_mem e he')⟩

theorem AllTried.mono {C D : σ → ε → Prop} (hCD : ∀ s e, C s e → D s e) :
    ∀ {s : σ} {es : List ε}, AllTried step C s es → AllTried step D s es
  | _, [], _ => trivial
  | _, _ :: _, h => ⟨hCD _ _ h.1, fun t ht => (h.2 t ht).mono hCD⟩

theorem AllTried.and {C D : σ → ε → Prop} :
    ∀ {s : σ} {es : List ε}, AllTried step C s es → AllTried step D s es →
      AllTried step (fun s e => C s e ∧ D s e) s es
  | _, [], _, _ => trivial
  | _, _ :: _, hC, hD => ⟨⟨hC.1, hD.1⟩, fun t ht => (hC.2 t ht).and (hD.2 t ht)⟩

/-- Two properties that agree at every step tried. -/
theorem AllTried.congr {C D : σ → ε → Prop} {s : σ} {es : List ε}
    (h : AllTried step (fun s e => C s e ↔ D s e) s es) :
    AllTried step C s es ↔ AllTried step D s es := by
  constructor
  · intro hC
    exact (hC.and h).mono fun _ _ hCD => hCD.2.mp hCD.1
  · intro hD
    exact (hD.and h).mono fun _ _ hCD => hCD.2.mpr hCD.1

theorem AllTried.allSteps {C : σ → ε → Prop} :
    ∀ {s : σ} {es : List ε}, AllTried step C s es → AllSteps step C s es
  | _, [], _ => trivial
  | _, _ :: _, h => fun t ht => ⟨h.1, (h.2 t ht).allSteps⟩

/-- What holds of every step from a state with `I`. -/
theorem AllStates.tried {I : σ → Prop} {D : σ → ε → Prop} (hD : ∀ s e, I s → D s e) :
    ∀ {s : σ} {es : List ε}, AllStates step I s es → AllTried step D s es
  | _, [], _ => trivial
  | s, e :: _, h => ⟨hD s e h.1, fun t ht => (h.2 t ht).tried hD⟩

/-- What holds of every step that meets `C` from a state with `I`. -/
theorem AllStates.steps {I : σ → Prop} {C D : σ → ε → Prop} (hD : ∀ s e, I s → C s e → D s e) :
    ∀ {s : σ} {es : List ε}, AllStates step I s es → AllSteps step C s es → AllSteps step D s es
  | _, [], _, _ => trivial
  | s, e :: _, h, hC => fun t ht =>
      ⟨hD s e h.1 (hC t ht).1, (h.2 t ht).steps hD (hC t ht).2⟩

/-- `AllStates` is a statement about the prefixes of the run. -/
theorem allStates_iff_prefix {P : σ → Prop} {s : σ} {es : List ε} :
    AllStates step P s es ↔ ∀ pre, pre <+: es → ∀ t, run step s pre = some t → P t := by
  induction es generalizing s with
  | nil =>
      constructor
      · intro h pre hpre t ht
        obtain rfl := List.prefix_nil.mp hpre
        obtain rfl : s = t := by simpa [run] using ht
        exact h
      · intro h
        exact h [] (List.prefix_refl _) s rfl
  | cons e es ih =>
      constructor
      · rintro ⟨hs, hrest⟩ pre hpre t ht
        cases pre with
        | nil =>
            obtain rfl : s = t := by simpa [run] using ht
            exact hs
        | cons e' pre =>
            obtain ⟨rfl, hpre'⟩ := List.cons_prefix_cons.mp hpre
            obtain ⟨u, hu, hut⟩ := Option.bind_eq_some_iff.mp ht
            exact ih.mp (hrest u hu) pre hpre' t hut
      · intro h
        refine ⟨h [] List.nil_prefix s rfl, fun t ht => ih.mpr ?_⟩
        intro pre hpre u hu
        refine h (e :: pre) (List.cons_prefix_cons.mpr ⟨rfl, hpre⟩) u ?_
        simp [run, ht, hu]

/-- In particular about the last state. -/
theorem AllStates.last {P : σ → Prop} {s t : σ} {es : List ε} (h : AllStates step P s es)
    (ht : run step s es = some t) : P t :=
  allStates_iff_prefix.mp h es (List.prefix_refl es) t ht

/-- A step tried from the state after `es`. -/
theorem AllTried.last {C : σ → ε → Prop} {s t : σ} {es : List ε} {e : ε}
    (h : AllTried step C s (es ++ [e])) (ht : run step s es = some t) : C t e := by
  induction es generalizing s with
  | nil =>
      obtain rfl := Option.some.inj ht
      exact h.1
  | cons e' es ih =>
      obtain ⟨u, hu, hut⟩ := Option.bind_eq_some_iff.mp ht
      exact ih (h.2 u hu) hut

/-! ## The rules -/

/-- The invariant rule: `I` holds at the start and every step that meets `C`
keeps it, so every state of a run whose steps all meet `C` has it. -/
theorem allStates_of_allSteps {I : σ → Prop} {C : σ → ε → Prop}
    (hstep : ∀ s e t, I s → C s e → step s e = some t → I t) :
    ∀ {s : σ} {es : List ε}, I s → AllSteps step C s es → AllStates step I s es
  | _, [], hs, _ => hs
  | s, e :: _, hs, hC => by
      refine ⟨hs, fun t ht => ?_⟩
      obtain ⟨hCe, hrest⟩ := hC t ht
      exact allStates_of_allSteps hstep (hstep s e t hs hCe ht) hrest

/-- The same for an invariant that every step keeps. -/
theorem allStates_of_step {I : σ → Prop} (hstep : ∀ s e t, I s → step s e = some t → I t) {s : σ}
    {es : List ε} (hs : I s) : AllStates step I s es :=
  allStates_of_allSteps (fun s e t h _ ht => hstep s e t h ht) hs allSteps_true

/-- The exact rule.  `I` strengthens `P`.  A step from a state with `I`, if it
meets `B`, must meet `C` when the state it reaches has `P`, and when it meets
`C` it keeps `I`.  So in runs whose steps meet `B`, `P` holds all along just
when every step meets `C`. -/
theorem allStates_iff_allSteps {I P : σ → Prop} {B C : σ → ε → Prop}
    (hP : ∀ s, I s → P s)
    (hnec : ∀ s e t, I s → B s e → step s e = some t → P t → C s e)
    (hsuf : ∀ s e t, I s → B s e → C s e → step s e = some t → I t) :
    ∀ {s : σ} {es : List ε}, I s → AllSteps step B s es →
      (AllStates step P s es ↔ AllSteps step C s es)
  | s, [], hs, _ => ⟨fun _ => trivial, fun _ => hP s hs⟩
  | s, e :: es, hs, hB => by
      constructor
      · rintro ⟨-, hrest⟩ t ht
        obtain ⟨hBe, hBrest⟩ := hB t ht
        have hCe : C s e := hnec s e t hs hBe ht (hrest t ht).head
        have hIt : I t := hsuf s e t hs hBe hCe ht
        exact ⟨hCe, (allStates_iff_allSteps hP hnec hsuf hIt hBrest).mp (hrest t ht)⟩
      · intro hC
        refine ⟨hP s hs, fun t ht => ?_⟩
        obtain ⟨hBe, hBrest⟩ := hB t ht
        obtain ⟨hCe, hCrest⟩ := hC t ht
        have hIt : I t := hsuf s e t hs hBe hCe ht
        exact (allStates_iff_allSteps hP hnec hsuf hIt hBrest).mpr hCrest

/-- The exact rule for a property `P` of the states together with a property `D`
of the steps tried, also those that stop. -/
theorem allStates_and_allTried_iff {I P : σ → Prop} {B C D : σ → ε → Prop}
    (hP : ∀ s, I s → P s)
    (hnec : ∀ s e, I s → D s e → (∀ t, step s e = some t → P t) → C s e)
    (hD : ∀ s e, I s → C s e → D s e)
    (hsuf : ∀ s e t, I s → B s e → C s e → step s e = some t → I t) :
    ∀ {s : σ} {es : List ε}, I s → AllSteps step B s es →
      (AllStates step P s es ∧ AllTried step D s es ↔ AllTried step C s es)
  | s, [], hs, _ => ⟨fun _ => trivial, fun _ => ⟨hP s hs, trivial⟩⟩
  | s, e :: es, hs, hB => by
      constructor
      · rintro ⟨hPs, hDe, hDrest⟩
        have hCe : C s e := hnec s e hs hDe fun t ht => (hPs.2 t ht).head
        refine ⟨hCe, fun t ht => ?_⟩
        obtain ⟨hBe, hBrest⟩ := hB t ht
        have hIt : I t := hsuf s e t hs hBe hCe ht
        exact (allStates_and_allTried_iff hP hnec hD hsuf hIt hBrest).mp ⟨hPs.2 t ht, hDrest t ht⟩
      · rintro ⟨hCe, hCrest⟩
        have hrest : ∀ t, step s e = some t → AllStates step P t es ∧ AllTried step D t es :=
          fun t ht => by
            obtain ⟨hBe, hBrest⟩ := hB t ht
            have hIt : I t := hsuf s e t hs hBe hCe ht
            exact (allStates_and_allTried_iff hP hnec hD hsuf hIt hBrest).mpr (hCrest t ht)
        exact ⟨⟨hP s hs, fun t ht => (hrest t ht).1⟩, hD s e hs hCe, fun t ht => (hrest t ht).2⟩

/-- The exact rule for a property `C` of the steps tried, when every step keeps `I`. -/
theorem allTried_iff {I : σ → Prop} {C D : σ → ε → Prop} {s : σ} {es : List ε}
    (hCD : ∀ s e, I s → (C s e ↔ D s e)) (hstep : ∀ s e t, I s → step s e = some t → I t)
    (hs : I s) : AllTried step C s es ↔ AllTried step D s es := by
  have hinv : AllStates step I s es := allStates_of_step hstep hs
  have hagree : AllTried step (fun s e => C s e ↔ D s e) s es := hinv.tried hCD
  exact hagree.congr

/-! ## Watched runs -/

/-- A step beside which something is written down. -/
def watch {γ : Type*} (step : σ → ε → Option σ) (see : γ → σ → ε → σ → γ) (x : σ × γ) (e : ε) :
    Option (σ × γ) :=
  (step x.1 e).map fun t => (t, see x.2 x.1 e t)

theorem watch_eq_some {γ : Type*} {see : γ → σ → ε → σ → γ} {x y : σ × γ} {e : ε} :
    watch step see x e = some y ↔ step x.1 e = some y.1 ∧ see x.2 x.1 e y.1 = y.2 := by
  rw [watch, Option.map_eq_some_iff]
  constructor
  · rintro ⟨t, ht, rfl⟩
    exact ⟨ht, rfl⟩
  · rintro ⟨ht, hy⟩
    exact ⟨y.1, ht, Prod.ext rfl hy⟩

end Cs537.Lib
