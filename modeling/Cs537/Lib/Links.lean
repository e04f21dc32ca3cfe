/-
# `Cs537.Lib.Links` — a ring of cells that point both ways

Cells with `next` and `prev`, around a head that is none of them (`none`).
`Ring h l` says that `next` leads from the head through the cells of `l` and back,
and `prev` the other way.

    h.unlink b       takes a cell out
    h.pushFront b    puts a cell behind the head
    h.ahead n        the cells in the order of `next`, at most `n`
    h.back n         the cells in the order of `prev`, at most `n`
-/
import Mathlib.Data.List.Basic
import Mathlib.Data.List.Nodup
import Mathlib.Logic.Function.Basic

namespace Cs537.Lib

variable {α : Type*}

structure Links (α : Type*) where
  next : Option α → Option α
  prev : Option α → Option α

/-- From `x` through `l` to `y`, and back. -/
def Links.Path (h : Links α) : Option α → List α → Option α → Prop
  | x, [], y => h.next x = y ∧ h.prev y = x
  | x, b :: l, y => h.next x = some b ∧ h.prev (some b) = x ∧ h.Path (some b) l y

structure Links.Ring (h : Links α) (l : List α) : Prop where
  nodup : l.Nodup
  path : h.Path none l none

variable {h h' : Links α} {x y z : Option α} {l l₁ l₂ : List α} {b : α}

theorem path_append : h.Path x (l₁ ++ b :: l₂) y ↔ h.Path x l₁ (some b) ∧ h.Path (some b) l₂ y := by
  induction l₁ generalizing x with
  | nil =>
      constructor
      · rintro ⟨hn, hp, hrest⟩
        exact ⟨⟨hn, hp⟩, hrest⟩
      · rintro ⟨⟨hn, hp⟩, hrest⟩
        exact ⟨hn, hp, hrest⟩
  | cons c l₁ ih =>
      constructor
      · rintro ⟨hn, hp, hrest⟩
        obtain ⟨h₁, h₂⟩ := ih.mp hrest
        exact ⟨⟨hn, hp, h₁⟩, h₂⟩
      · rintro ⟨⟨hn, hp, h₁⟩, h₂⟩
        exact ⟨hn, hp, ih.mpr ⟨h₁, h₂⟩⟩

/-- A path is about `next` of all but its end, and `prev` of all but its start. -/
theorem Links.Path.congr (hp : h.Path x l y) (hnext : ∀ z ∈ x :: l.map some, h'.next z = h.next z)
    (hprev : ∀ z ∈ y :: l.map some, h'.prev z = h.prev z) : h'.Path x l y := by
  induction l generalizing x with
  | nil =>
      obtain ⟨hn, hb⟩ := hp
      exact ⟨(hnext x List.mem_cons_self).trans hn, (hprev y List.mem_cons_self).trans hb⟩
  | cons c l ih =>
      obtain ⟨hn, hb, hrest⟩ := hp
      refine ⟨(hnext x List.mem_cons_self).trans hn, (hprev (some c) (by simp)).trans hb, ?_⟩
      refine ih hrest ?_ ?_
      · intro z hz
        exact hnext z (List.mem_cons_of_mem x hz)
      · intro z hz
        refine hprev z ?_
        rcases List.mem_cons.mp hz with rfl | hz
        · exact List.mem_cons_self
        · exact List.mem_cons_of_mem y (List.mem_cons_of_mem _ hz)

theorem Links.Path.prev_mem (hp : h.Path x l y) : h.prev y ∈ x :: l.map some := by
  induction l generalizing x with
  | nil =>
      rw [hp.2]
      exact List.mem_cons_self
  | cons c l ih => exact List.mem_cons_of_mem x (ih hp.2.2)

/-- The head alone. -/
def Links.empty : Links α := ⟨fun _ => none, fun _ => none⟩

theorem ring_empty : (Links.empty : Links α).Ring [] := ⟨List.nodup_nil, rfl, rfl⟩

theorem some_notMem_map (hb : b ∉ l) : some b ∉ l.map some := by
  intro hmem
  obtain ⟨c, hc, he⟩ := List.mem_map.mp hmem
  exact hb (Option.some.inj he ▸ hc)

theorem none_notMem_map : none ∉ l.map some := by simp

/-! ## Going around -/

/-- The cells from `x` on, by `next`. -/
def Links.aheadFrom (h : Links α) : Nat → Option α → List α
  | 0, _ => []
  | _ + 1, none => []
  | n + 1, some b => b :: h.aheadFrom n (h.next (some b))

def Links.ahead (h : Links α) (n : Nat) : List α := h.aheadFrom n (h.next none)

/-- The cells from `x` on, by `prev`. -/
def Links.backFrom (h : Links α) : Nat → Option α → List α
  | 0, _ => []
  | _ + 1, none => []
  | n + 1, some b => b :: h.backFrom n (h.prev (some b))

def Links.back (h : Links α) (n : Nat) : List α := h.backFrom n (h.prev none)

theorem aheadFrom_path {n : Nat} (hp : h.Path x l none) (hn : l.length ≤ n) :
    h.aheadFrom n (h.next x) = l := by
  induction l generalizing x n with
  | nil =>
      rw [hp.1]
      cases n <;> rfl
  | cons c l ih =>
      obtain ⟨hc, -, hrest⟩ := hp
      rw [hc]
      cases n with
      | zero => exact absurd hn (Nat.not_succ_le_zero _)
      | succ n => exact congrArg (List.cons c) (ih hrest (Nat.le_of_succ_le_succ hn))

theorem Links.Ring.ahead {n : Nat} (hr : h.Ring l) (hn : l.length ≤ n) : h.ahead n = l :=
  aheadFrom_path hr.path hn

/-- Backwards, `prev` is `next`. -/
theorem path_reverse (hp : h.Path x l y) : (Links.mk h.prev h.next).Path y l.reverse x := by
  induction l generalizing x with
  | nil => exact ⟨hp.2, hp.1⟩
  | cons c l ih =>
      obtain ⟨hn, hb, hrest⟩ := hp
      rw [List.reverse_cons]
      exact path_append.mpr ⟨ih hrest, hb, hn⟩

theorem backFrom_eq (h : Links α) (n : Nat) (x : Option α) :
    h.backFrom n x = (Links.mk h.prev h.next).aheadFrom n x := by
  induction n generalizing x with
  | zero => rfl
  | succ n ih =>
      cases x with
      | none => rfl
      | some b => exact congrArg (List.cons b) (ih _)

theorem Links.Ring.back {n : Nat} (hr : h.Ring l) (hn : l.length ≤ n) : h.back n = l.reverse := by
  rw [Links.back, backFrom_eq]
  exact aheadFrom_path (path_reverse hr.path) (by rwa [List.length_reverse])

/-! ## Two cells become neighbours -/

variable [DecidableEq α]

/-- `x->next = y; y->prev = x`. -/
def Links.link (h : Links α) (x y : Option α) : Links α :=
  ⟨Function.update h.next x y, Function.update h.prev y x⟩

/-- The end of a path is replaced. -/
theorem Links.Path.link (hp : h.Path x l y) (hnodup : l.Nodup) (hx : x ∉ l.map some)
    (hz : z ∉ l.map some) : (h.link (h.prev y) z).Path x l z := by
  induction l generalizing x with
  | nil =>
      rw [hp.2]
      exact ⟨Function.update_self .., Function.update_self ..⟩
  | cons c l ih =>
      obtain ⟨hn, hb, hrest⟩ := hp
      have hmem := hrest.prev_mem
      have hxc : x ≠ h.prev y := fun he => hx (he ▸ hmem)
      have hzc : some c ≠ z := fun he => hz (he ▸ List.mem_cons_self)
      refine ⟨(Function.update_of_ne hxc ..).trans hn, (Function.update_of_ne hzc ..).trans hb, ?_⟩
      refine ih hrest hnodup.of_cons ?_ fun hmem => hz (List.mem_cons_of_mem _ hmem)
      intro hc
      obtain ⟨d, hd, he⟩ := List.mem_map.mp hc
      obtain rfl := Option.some.inj he
      exact (List.nodup_cons.mp hnodup).1 hd

/-! ## Taking a cell out -/

/-- `b->next->prev = b->prev; b->prev->next = b->next`. -/
def Links.unlink (h : Links α) (b : α) : Links α := h.link (h.prev (some b)) (h.next (some b))

theorem Links.Ring.unlink (hr : h.Ring (l₁ ++ b :: l₂)) : (h.unlink b).Ring (l₁ ++ l₂) := by
  obtain ⟨hnodup, hpath⟩ := hr
  obtain ⟨h₁, h₂⟩ := path_append.mp hpath
  have hnodup₁ : l₁.Nodup := hnodup.of_append_left
  refine ⟨(List.nodup_middle.mp hnodup).of_cons, ?_⟩
  cases l₂ with
  | nil =>
      rw [List.append_nil, Links.unlink, h₂.1]
      exact h₁.link hnodup₁ none_notMem_map none_notMem_map
  | cons d l₂ =>
      obtain ⟨hn, -, hrest⟩ := h₂
      have hd₁ : d ∉ l₁ := fun hmem => List.disjoint_of_nodup_append hnodup hmem (by simp)
      have hd₂ : d ∉ l₂ := (List.nodup_cons.mp hnodup.of_append_right.of_cons).1
      rw [Links.unlink, hn]
      refine path_append.mpr ⟨h₁.link hnodup₁ none_notMem_map (some_notMem_map hd₁), ?_⟩
      refine hrest.congr ?_ ?_
      · intro z hz
        refine Function.update_of_ne ?_ ..
        rintro rfl
        -- the cell in front of `b` is the head or in `l₁`
        obtain ⟨c, hc, he⟩ := List.mem_map.mp (show h.prev (some b) ∈ (d :: l₂).map some from hz)
        rcases List.mem_cons.mp h₁.prev_mem with hnone | hmem
        · exact absurd (he.trans hnone) nofun
        · obtain ⟨c', hc', he'⟩ := List.mem_map.mp hmem
          obtain rfl := Option.some.inj (he.trans he'.symm)
          exact List.disjoint_of_nodup_append hnodup hc' (List.mem_cons_of_mem b hc)
      · intro z hz
        refine Function.update_of_ne ?_ ..
        rintro rfl
        rcases List.mem_cons.mp hz with he | hmem
        · cases he
        · exact some_notMem_map hd₂ hmem

/-! ## Putting a cell in -/

/-- `b->next = head.next; b->prev = &head; head.next->prev = b; head.next = b`. -/
def Links.pushFront (h : Links α) (b : α) : Links α :=
  ⟨Function.update (Function.update h.next (some b) (h.next none)) none (some b),
    Function.update (Function.update h.prev (some b) none) (h.next none) (some b)⟩

theorem Links.Ring.pushFront (hr : h.Ring l) (hb : b ∉ l) : (h.pushFront b).Ring (b :: l) := by
  obtain ⟨hnodup, hpath⟩ := hr
  refine ⟨List.nodup_cons.mpr ⟨hb, hnodup⟩, ?_⟩
  cases l with
  | nil =>
      obtain ⟨hn, -⟩ := hpath
      refine ⟨?_, ?_, ?_, ?_⟩ <;> simp [Links.pushFront, hn]
  | cons d l =>
      obtain ⟨hn, -, hrest⟩ := hpath
      have hbd : b ≠ d := fun he => hb (he ▸ List.mem_cons_self)
      refine ⟨?_, ?_, ?_, ?_, ?_⟩
      · simp [Links.pushFront]
      · simp [Links.pushFront, hn, hbd]
      · simp [Links.pushFront, hn]
      · simp [Links.pushFront, hn]
      refine hrest.congr ?_ ?_
      · intro z hz
        have hz' : z ∈ (d :: l).map some := hz
        have hne : z ≠ none := by
          rintro rfl
          exact none_notMem_map hz'
        have hzb : z ≠ some b := by
          rintro rfl
          exact some_notMem_map hb hz'
        simp [Links.pushFront, hne, hzb]
      · intro z hz
        have hzd : z ≠ some d := by
          rintro rfl
          rcases List.mem_cons.mp hz with he | hmem
          · cases he
          · exact some_notMem_map (List.nodup_cons.mp hnodup).1 hmem
        have hzb : z ≠ some b := by
          rintro rfl
          rcases List.mem_cons.mp hz with he | hmem
          · cases he
          · exact some_notMem_map (fun h => hb (List.mem_cons_of_mem d h)) hmem
        simp [Links.pushFront, hn, hzd, hzb]

/-- A ring that is made cell by cell. -/
theorem Links.Ring.foldl_pushFront (hr : h.Ring l) (hnew : l₁.Nodup) (hdisj : ∀ b ∈ l₁, b ∉ l) :
    (l₁.foldl Links.pushFront h).Ring (l₁.reverse ++ l) := by
  induction l₁ generalizing h l with
  | nil => exact hr
  | cons b l₁ ih =>
      obtain ⟨hb, hnew⟩ := List.nodup_cons.mp hnew
      have hpush := hr.pushFront (hdisj b List.mem_cons_self)
      have hrest := ih hpush hnew ?_
      · rwa [List.reverse_cons, List.append_assoc]
      · intro c hc hmem
        rcases List.mem_cons.mp hmem with rfl | hmem
        · exact hb hc
        · exact hdisj c (List.mem_cons_of_mem b hc) hmem

/-- A cell moves to the front. -/
theorem Links.Ring.toFront (hr : h.Ring l) (hb : b ∈ l) :
    ((h.unlink b).pushFront b).Ring (b :: l.erase b) := by
  obtain ⟨l₁, l₂, rfl⟩ := List.append_of_mem hb
  have hmid := (List.nodup_cons.mp (List.nodup_middle.mp hr.nodup)).1
  have hb₁ : b ∉ l₁ := fun hmem => hmid (List.mem_append_left l₂ hmem)
  rw [List.erase_append_right _ hb₁, List.erase_cons_head]
  exact hr.unlink.pushFront hmid

end Cs537.Lib
