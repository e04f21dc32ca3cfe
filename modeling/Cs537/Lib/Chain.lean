/-
# `Cs537.Lib.Chain` — linked lists in a heap

A heap maps addresses to cells, a value and the address of the next cell.
`Chain h p l q` says that the cells of `l`, each with its address, lead from `p`
to `q`; `Listed h p l q e` that they are all different and that `q` holds the
last cell, `e`.

A cell can be taken out of such a list without its predecessor: the next cell
is copied over it and freed (`Heap.copyNext`).  When the next cell is the last
one, that moves (`Listed.copyNext`).
-/
import Mathlib.Data.List.Nodup
import Mathlib.Logic.Function.Basic

namespace Cs537.Lib

variable {P α : Type*}

structure Cell (P α : Type*) where
  val : α
  next : Option P

abbrev Heap (P α : Type*) := P → Option (Cell P α)

/-- The cells of `l` lead from `p` to `q`. -/
def Chain (h : Heap P α) : P → List (P × α) → P → Prop
  | p, [], q => p = q
  | p, (a, v) :: l, q => a = p ∧ ∃ n, h p = some ⟨v, some n⟩ ∧ Chain h n l q

variable {h h' : Heap P α} {p q r n s : P} {l l₁ l₂ : List (P × α)}

theorem chain_append : Chain h p (l₁ ++ l₂) q ↔ ∃ r, Chain h p l₁ r ∧ Chain h r l₂ q := by
  induction l₁ generalizing p with
  | nil =>
      constructor
      · intro hc
        exact ⟨p, rfl, hc⟩
      · rintro ⟨r, rfl, hc⟩
        exact hc
  | cons c l₁ ih =>
      constructor
      · rintro ⟨ha, n, hp, hc⟩
        obtain ⟨r, h1, h2⟩ := ih.mp hc
        exact ⟨r, ⟨ha, n, hp, h1⟩, h2⟩
      · rintro ⟨r, ⟨ha, n, hp, h1⟩, h2⟩
        exact ⟨ha, n, hp, ih.mpr ⟨r, h1, h2⟩⟩

/-- A chain depends on its own cells only. -/
theorem Chain.congr (hc : Chain h p l q) (hl : ∀ a ∈ l.map Prod.fst, h' a = h a) :
    Chain h' p l q := by
  induction l generalizing p with
  | nil => exact hc
  | cons c l ih =>
      obtain ⟨rfl, n, hp, hc⟩ := hc
      refine ⟨rfl, n, (hl _ (List.mem_cons_self ..)).trans hp, ih hc fun a ha => ?_⟩
      exact hl a (List.mem_cons_of_mem _ ha)

/-- The cell of a chain at its address. -/
theorem Chain.cell (hc : Chain h p l q) {c : P × α} (hm : c ∈ l) :
    ∃ n, h c.1 = some ⟨c.2, some n⟩ := by
  obtain ⟨m₁, m₂, rfl⟩ := List.append_of_mem hm
  obtain ⟨r, -, rfl, n, hn, -⟩ := chain_append.mp hc
  exact ⟨n, hn⟩

/-- Two chains that lead to the same place, and do not come past it before, are equal. -/
theorem Chain.unique (hc : Chain h p l q) (hc' : Chain h p l₁ q) (hq : q ∉ l.map Prod.fst)
    (hq' : q ∉ l₁.map Prod.fst) : l = l₁ := by
  induction l generalizing p l₁ with
  | nil =>
      obtain rfl : p = q := hc
      cases l₁ with
      | nil => rfl
      | cons c l₁ => exact absurd (hc'.1 ▸ List.mem_cons_self ..) hq'
  | cons c l ih =>
      obtain ⟨a, v⟩ := c
      obtain ⟨rfl, n, hp, hc⟩ := hc
      cases l₁ with
      | nil =>
          obtain rfl : a = q := hc'
          exact absurd (List.mem_cons_self ..) hq
      | cons c' l₁ =>
          obtain ⟨b, v'⟩ := c'
          obtain ⟨rfl, m, hp', hc'⟩ := hc'
          obtain ⟨rfl, rfl⟩ : v = v' ∧ n = m := by
            rw [hp] at hp'
            simpa using hp'
          rw [ih hc hc' (fun hm => hq (List.mem_cons_of_mem _ hm)) fun hm =>
            hq' (List.mem_cons_of_mem _ hm)]

/-- From `p`, nothing is reached but the cells of a chain to a last one. -/
theorem Chain.reached {e : Cell P α} (hc : Chain h p l q) (hq : h q = some e) (he : e.next = none) :
    (∃ l', Chain h p l' r) ↔ r ∈ l.map Prod.fst ++ [q] := by
  constructor
  · rintro ⟨l', hc'⟩
    induction l' generalizing p l with
    | nil =>
        obtain rfl : p = r := hc'
        cases l with
        | nil =>
            obtain rfl : p = q := hc
            exact List.mem_singleton_self p
        | cons c l =>
            obtain ⟨rfl, -⟩ := hc
            exact List.mem_cons_self ..
    | cons c' l' ih =>
        obtain ⟨-, n, hn, hc'⟩ := hc'
        cases l with
        | nil =>
            obtain rfl : p = q := hc
            obtain rfl := Option.some.inj (hn.symm.trans hq)
            cases he
        | cons c l =>
            obtain ⟨-, m, hm, hc⟩ := hc
            obtain rfl : n = m := by
              rw [hn] at hm
              simpa using congrArg (Option.bind · Cell.next) hm
            exact List.mem_cons_of_mem _ (ih hc hc')
  · intro hr
    rcases List.mem_append.mp hr with hr | hr
    · obtain ⟨k₁, k₂, hsplit⟩ := List.append_of_mem hr
      obtain ⟨m₁, m₂, rfl, -, hm₂⟩ := List.map_eq_append_iff.mp hsplit
      obtain ⟨c, m₂, rfl, hcr, -⟩ := List.map_eq_cons_iff.mp hm₂
      obtain ⟨r', h₁, rfl, -⟩ := chain_append.mp hc
      exact ⟨m₁, hcr ▸ h₁⟩
    · rw [List.mem_singleton.mp hr]
      exact ⟨l, hc⟩

/-- A chain that starts where it ends, and does not come back there, is empty. -/
theorem Chain.eq_nil (hc : Chain h q l q) (hq : q ∉ l.map Prod.fst) : l = [] := by
  cases l with
  | nil => rfl
  | cons c l =>
      obtain ⟨rfl, -⟩ := hc
      exact absurd (List.mem_cons_self ..) hq

/-- `l` leads from `p` to the last cell `e`, at `q`, through different cells. -/
structure Listed (h : Heap P α) (p : P) (l : List (P × α)) (q : P) (e : Cell P α) : Prop where
  chain : Chain h p l q
  nodup : (l.map Prod.fst ++ [q]).Nodup
  last : h q = some e

variable {e c : Cell P α} {v x : α}

theorem Listed.notMem (hl : Listed h p l q e) : q ∉ l.map Prod.fst := fun hmem =>
  (List.nodup_append.mp hl.nodup).2.2 q hmem q (List.mem_singleton_self q) rfl

theorem Listed.unique (hl : Listed h p l q e) (hl' : Listed h p l₁ q e) : l = l₁ :=
  hl.chain.unique hl'.chain hl.notMem hl'.notMem

/-- The other cells are at other addresses. -/
theorem Listed.ne_of_split (hl : Listed h s (l₁ ++ (p, x) :: l₂) q e) {c : P × α}
    (hc : c ∈ l₁ ++ l₂) : c.1 ≠ p := by
  have hnodup := (List.nodup_append.mp hl.nodup).1
  rw [List.map_append, List.map_cons] at hnodup
  obtain ⟨-, hnd₂, hapart⟩ := List.nodup_append.mp hnodup
  rcases List.mem_append.mp hc with hc | hc
  · exact hapart c.1 (List.mem_map_of_mem hc) p (List.mem_cons_self ..)
  · intro he
    have hm : c.1 ∈ l₂.map Prod.fst := List.mem_map_of_mem hc
    rw [he] at hm
    exact (List.nodup_cons.mp hnd₂).1 hm

variable [DecidableEq P]

/-- The cell `c` at `n` is copied to `p` and freed. -/
def Heap.copyNext (h : Heap P α) (p n : P) (c : Cell P α) : Heap P α :=
  Function.update (Function.update h p (some c)) n none

theorem Heap.copyNext_self (hne : p ≠ n) : h.copyNext p n c p = some c := by
  rw [copyNext, Function.update_of_ne hne, Function.update_self]

theorem Heap.copyNext_of_ne (hp : q ≠ p) (hn : q ≠ n) : h.copyNext p n c q = h q := by
  rw [copyNext, Function.update_of_ne hn, Function.update_of_ne hp]

/-- The last cell is given the value `v` and a new last cell follows it. -/
theorem Listed.snoc (hl : Listed h p l q e) (hr : h r = none) (v : α) (e' : Cell P α) :
    Listed (Function.update (Function.update h q (some ⟨v, some r⟩)) r (some e'))
      p (l ++ [(q, v)]) r e' := by
  have hq := hl.notMem
  have hrq : r ≠ q := by
    rintro rfl
    rw [hl.last] at hr
    cases hr
  have hrl : r ∉ l.map Prod.fst := by
    intro hmem
    obtain ⟨l₁, l₂, hsplit⟩ := List.append_of_mem hmem
    obtain ⟨m₁, m₂, rfl, -, hm₂⟩ := List.map_eq_append_iff.mp hsplit
    obtain ⟨c, m₂, rfl, hc, -⟩ := List.map_eq_cons_iff.mp hm₂
    obtain ⟨p', -, rfl, n, hrn, -⟩ := chain_append.mp hl.chain
    rw [hc, hr] at hrn
    cases hrn
  refine ⟨chain_append.mpr ⟨q, hl.chain.congr fun a ha => ?_, rfl, r, ?_, rfl⟩, ?_, ?_⟩
  · have har : a ≠ r := fun he => hrl (he ▸ ha)
    have haq : a ≠ q := fun he => hq (he ▸ ha)
    rw [Function.update_of_ne har, Function.update_of_ne haq]
  · rw [Function.update_of_ne hrq.symm, Function.update_self]
  · rw [List.map_append, List.nodup_append]
    refine ⟨hl.nodup, List.nodup_singleton r, fun a ha b hb => ?_⟩
    obtain rfl := List.mem_singleton.mp hb
    rintro rfl
    rcases List.mem_append.mp ha with ha | ha
    · exact hrl ha
    · exact hrq (List.mem_singleton.mp ha)
  · exact Function.update_self ..

/-- The cell at `p` is taken out: the next one moves there, which may be the last. -/
theorem Listed.copyNext_cases (hl : Listed h s (l₁ ++ (p, x) :: l₂) q e)
    (hp : h p = some ⟨x, some n⟩) (hn : h n = some c) :
    (n = q ∧ l₂ = [] ∧ Listed (h.copyNext p n c) s l₁ p e) ∨
      n ≠ q ∧ ∃ l₃, l₂ = (n, c.val) :: l₃ ∧
        Listed (h.copyNext p n c) s (l₁ ++ (p, c.val) :: l₃) q e := by
  obtain ⟨p', h₁, rfl, n', hp', h₂⟩ := chain_append.mp hl.chain
  obtain rfl : n = n' := by
    rw [hp] at hp'
    simpa using hp'
  have hnodup := hl.nodup
  rw [List.map_append, List.map_cons, List.append_assoc, List.cons_append] at hnodup
  obtain ⟨hnd₁, hnd₂, hapart⟩ := List.nodup_append.mp hnodup
  obtain ⟨hpl₂, hnd₂⟩ := List.nodup_cons.mp hnd₂
  have hp₁ : ∀ a ∈ l₁.map Prod.fst, a ≠ p := fun a ha =>
    hapart a ha p (List.mem_cons_self ..)
  have h₂₁ : ∀ a ∈ l₁.map Prod.fst, ∀ b ∈ l₂.map Prod.fst ++ [q], a ≠ b := fun a ha b hb =>
    hapart a ha b (List.mem_cons_of_mem _ hb)
  by_cases hnq : n = q
  · -- the last cell moves to `p`
    subst hnq
    obtain rfl : e = c := Option.some.inj (hl.last.symm.trans hn)
    have hnil : l₂ = [] :=
      h₂.eq_nil fun hmem => (List.nodup_append.mp hnd₂).2.2 n hmem n (List.mem_singleton_self n) rfl
    subst hnil
    have hpn : p ≠ n := fun he => hpl₂ (List.mem_singleton.mpr he)
    have hc₁ : Chain (h.copyNext p n e) s l₁ p := h₁.congr fun a ha =>
      Heap.copyNext_of_ne (hp₁ a ha) (h₂₁ a ha n (List.mem_singleton_self n))
    refine .inl ⟨rfl, rfl, hc₁, ?_, Heap.copyNext_self hpn⟩
    rw [List.nodup_append]
    refine ⟨hnd₁, List.nodup_singleton p, fun a ha b hb => ?_⟩
    rw [List.mem_singleton.mp hb]
    exact hp₁ a ha
  · cases l₂ with
    | nil => exact absurd h₂ hnq
    | cons y l₃ =>
        obtain ⟨a, y⟩ := y
        obtain ⟨ha, m, hm, h₃⟩ := h₂
        obtain rfl : n = a := ha.symm
        obtain rfl : c = ⟨y, some m⟩ := Option.some.inj (hn.symm.trans hm)
        obtain ⟨hnl₃, hnd₃⟩ := List.nodup_cons.mp hnd₂
        have hpn : p ≠ n := fun he => hpl₂ (he ▸ List.mem_cons_self ..)
        have hp₃ : ∀ a ∈ l₃.map Prod.fst ++ [q], a ≠ p := fun a ha he =>
          hpl₂ (he ▸ List.mem_cons_of_mem _ ha)
        have hn₃ : ∀ a ∈ l₃.map Prod.fst ++ [q], a ≠ n := fun a ha he => hnl₃ (he ▸ ha)
        have hc₁ : Chain (h.copyNext p n ⟨y, some m⟩) s l₁ p := h₁.congr fun a ha =>
          Heap.copyNext_of_ne (hp₁ a ha) (h₂₁ a ha n (List.mem_cons_self ..))
        have hc₂ : Chain (h.copyNext p n ⟨y, some m⟩) p ((p, y) :: l₃) q := by
          refine ⟨rfl, m, Heap.copyNext_self hpn, h₃.congr fun a ha => ?_⟩
          have hmem := List.mem_append_left [q] ha
          exact Heap.copyNext_of_ne (hp₃ a hmem) (hn₃ a hmem)
        refine .inr ⟨hnq, l₃, rfl, chain_append.mpr ⟨p, hc₁, hc₂⟩, ?_, ?_⟩
        · rw [List.map_append, List.map_cons, List.append_assoc, List.cons_append,
            List.nodup_append]
          refine ⟨hnd₁, List.nodup_cons.mpr ⟨fun hmem => hp₃ p hmem rfl, hnd₃⟩, fun a ha b hb => ?_⟩
          rcases List.mem_cons.mp hb with rfl | hb
          · exact hp₁ a ha
          · exact h₂₁ a ha b (List.mem_cons_of_mem _ hb)
        · have hmem : q ∈ l₃.map Prod.fst ++ [q] :=
            List.mem_append_right _ (List.mem_singleton_self q)
          rw [Heap.copyNext_of_ne (hp₃ q hmem) (hn₃ q hmem)]
          exact hl.last

/-- The same, as the two parts of the list. -/
theorem Listed.copyNext (hl : Listed h s (l₁ ++ (p, x) :: l₂) q e)
    (hp : h p = some ⟨x, some n⟩) (hn : h n = some c) :
    ∃ l₂', Listed (h.copyNext p n c) s (l₁ ++ l₂') (if n = q then p else q) e ∧
      Chain (h.copyNext p n c) s l₁ p ∧
      Chain (h.copyNext p n c) p l₂' (if n = q then p else q) ∧
      l₂'.map Prod.snd = l₂.map Prod.snd := by
  rcases hl.copyNext_cases hp hn with ⟨rfl, rfl, hl'⟩ | ⟨hnq, l₃, rfl, hl'⟩
  · rw [if_pos rfl]
    exact ⟨[], by rwa [List.append_nil], hl'.chain, rfl, rfl⟩
  · rw [if_neg hnq]
    obtain ⟨r, h₁, rfl, hc⟩ := chain_append.mp hl'.chain
    exact ⟨(p, c.val) :: l₃, hl', h₁, ⟨rfl, hc⟩, rfl⟩

end Cs537.Lib
