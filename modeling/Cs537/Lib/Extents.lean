/-
# `Cs537.Lib.Extents` — pieces of an address space

An extent is where a piece starts and how long it is.  In an `Apart` list the extents are in
order with a gap between any two; in a `Packed` one no two overlap.

    front x l   x in front of l, joined with the first of l if it touches it
    put x l     x where it belongs in l, joined with the neighbours it touches

`put` keeps a list apart (`Apart.put`), overlaps nothing new (`disjoint_put`) and loses
nothing (`total_put`).
-/
import Mathlib.Data.List.Pairwise
import Mathlib.Algebra.Order.Ring.Nat

namespace Cs537.Lib

structure Extent where
  start : Nat
  len : Nat
  deriving DecidableEq

namespace Extent

def fin (x : Extent) : Nat := x.start + x.len

/-- There is a gap between `x` and `y`. -/
def Before (x y : Extent) : Prop := x.fin < y.start

def Disjoint (x y : Extent) : Prop := x.fin ≤ y.start ∨ y.fin ≤ x.start

theorem start_le_fin (x : Extent) : x.start ≤ x.fin := Nat.le_add_right _ _

variable {x y z w : Extent} {l l₁ l₂ : List Extent}

theorem Disjoint.symm (h : x.Disjoint y) : y.Disjoint x := Or.symm h

theorem Before.disjoint (h : x.Before y) : x.Disjoint y := .inl (Nat.le_of_lt h)

theorem Before.trans (hxy : x.Before y) (hyz : y.Before z) : x.Before z :=
  Nat.lt_trans (Nat.lt_of_lt_of_le hxy y.start_le_fin) hyz

def Apart (l : List Extent) : Prop := l.Pairwise Before

def Packed (l : List Extent) : Prop := l.Pairwise Disjoint

def total (l : List Extent) : Nat := (l.map len).sum

@[simp] theorem total_nil : total [] = 0 := rfl

@[simp] theorem total_cons : total (x :: l) = x.len + total l := rfl

@[simp] theorem total_append : total (l₁ ++ l₂) = total l₁ + total l₂ := by
  rw [total, total, total, List.map_append, List.sum_append]

theorem total_perm (h : l₁.Perm l₂) : total l₁ = total l₂ := (h.map len).sum_nat

theorem Apart.packed (h : Apart l) : Packed l := h.imp Before.disjoint

/-- No two extents of a list without overlaps start at the same place. -/
theorem Packed.eq_of_start (h : Packed l) (hpos : ∀ z ∈ l, 0 < z.len) (hx : x ∈ l) (hy : y ∈ l)
    (he : x.start = y.start) : x = y := by
  induction l with
  | nil => cases hx
  | cons w l ih =>
      obtain ⟨hw, hl⟩ := List.pairwise_cons.mp h
      have hapart : ∀ z ∈ l, z.start ≠ w.start := by
        intro z hz heq
        have hz₀ := hpos z (List.mem_cons_of_mem w hz)
        have hw₀ := hpos w List.mem_cons_self
        rcases hw z hz with hd | hd <;> unfold fin at hd <;> omega
      rcases List.mem_cons.mp hx with hxw | hxl
      · rcases List.mem_cons.mp hy with hyw | hyl
        · exact hxw.trans hyw.symm
        · exact absurd (he.symm.trans (congrArg start hxw)) (hapart y hyl)
      · rcases List.mem_cons.mp hy with hyw | hyl
        · exact absurd (he.trans (congrArg start hyw)) (hapart x hxl)
        · exact ih hl (fun z hz => hpos z (List.mem_cons_of_mem w hz)) hxl hyl

theorem packed_append : Packed (l₁ ++ l₂) ↔
    Packed l₁ ∧ Packed l₂ ∧ ∀ x ∈ l₁, ∀ y ∈ l₂, x.Disjoint y :=
  List.pairwise_append

theorem Packed.disjoint (h : Packed l) (hx : x ∈ l) (hy : y ∈ l) (hne : x ≠ y) :
    x.Disjoint y := by
  have : Std.Symm Disjoint := ⟨fun _ _ => Disjoint.symm⟩
  exact h.forall hx hy hne

theorem packed_perm (h : l₁.Perm l₂) : Packed l₁ ↔ Packed l₂ :=
  h.pairwise_iff Disjoint.symm

/-- The last extent of an `Apart` list that starts at `a` or before. -/
theorem Apart.split {a : Nat} (h : Apart (z :: l)) (hz : z.start ≤ a) :
    ∃ l₁ w l₂, z :: l = l₁ ++ w :: l₂ ∧ w.start ≤ a ∧ (∀ y ∈ l₁, y.start ≤ a) ∧
      ∀ y ∈ l₂, a < y.start := by
  induction l generalizing z with
  | nil => exact ⟨[], z, [], rfl, hz, nofun, nofun⟩
  | cons y l ih =>
      obtain ⟨-, hl⟩ := List.pairwise_cons.mp h
      by_cases hy : y.start ≤ a
      · obtain ⟨l₁, w, l₂, he, hw, h₁, h₂⟩ := ih hl hy
        refine ⟨z :: l₁, w, l₂, congrArg (List.cons z) he, hw, ?_, h₂⟩
        intro v hv
        rcases List.mem_cons.mp hv with rfl | hv
        · exact hz
        · exact h₁ v hv
      · refine ⟨[], z, y :: l, rfl, hz, nofun, ?_⟩
        intro v hv
        have hya : a < y.start := Nat.not_le.mp hy
        rcases List.mem_cons.mp hv with rfl | hv
        · exact hya
        · exact Nat.lt_trans (Nat.lt_of_lt_of_le hya y.start_le_fin)
            ((List.pairwise_cons.mp hl).1 v hv)

/-- Extents of `k` bytes and more take their room. -/
theorem Apart.length_le {a k n : Nat} (h : Apart l) (ha : a ≤ n) (hstart : ∀ x ∈ l, a ≤ x.start)
    (hlen : ∀ x ∈ l, k ≤ x.len) (hfin : ∀ x ∈ l, x.fin ≤ n) : a + k * l.length ≤ n := by
  induction l generalizing a with
  | nil => exact ha
  | cons x l ih =>
      obtain ⟨hx, hl⟩ := List.pairwise_cons.mp h
      have hrest := ih hl (hfin x List.mem_cons_self) (fun y hy => Nat.le_of_lt (hx y hy))
        (fun y hy => hlen y (List.mem_cons_of_mem x hy))
        (fun y hy => hfin y (List.mem_cons_of_mem x hy))
      have hx₀ := hstart x List.mem_cons_self
      have hx₁ := hlen x List.mem_cons_self
      rw [List.length_cons, Nat.mul_succ]
      unfold fin at hrest
      omega

/-! ## In front of a list -/

def front (x : Extent) : List Extent → List Extent
  | [] => [x]
  | y :: l => if x.fin = y.start then ⟨x.start, x.len + y.len⟩ :: l else x :: y :: l

theorem front_cons : front x (y :: l) =
    if x.fin = y.start then ⟨x.start, x.len + y.len⟩ :: l else x :: y :: l := rfl

theorem front_of_before (h : ∀ y ∈ l, x.Before y) : front x l = x :: l := by
  cases l with
  | nil => rfl
  | cons y l => exact if_neg (Nat.ne_of_lt (h y List.mem_cons_self))

theorem start_of_mem_front (hz : z ∈ front x l) : z.start = x.start ∨ z ∈ l := by
  cases l with
  | nil =>
      obtain rfl := List.mem_singleton.mp hz
      exact .inl rfl
  | cons y l =>
      rw [front_cons] at hz
      split at hz
      · rcases List.mem_cons.mp hz with rfl | hz
        · exact .inl rfl
        · exact .inr (List.mem_cons_of_mem y hz)
      · rcases List.mem_cons.mp hz with rfl | hz
        · exact .inl rfl
        · exact .inr hz

theorem start_mem_front : x.start ∈ (front x l).map start := by
  cases l with
  | nil => exact List.mem_cons_self
  | cons y l =>
      rw [front_cons]
      split <;> exact List.mem_cons_self

theorem front_ne_nil : front x l ≠ [] := by
  intro hnil
  have hmem : x.start ∈ (front x l).map start := start_mem_front
  rw [hnil] at hmem
  cases hmem

theorem Apart.front (h : Apart l) (hx : ∀ y ∈ l, x.fin ≤ y.start) : Apart (front x l) := by
  cases l with
  | nil => exact List.pairwise_singleton _ x
  | cons y l =>
      obtain ⟨hy, hl⟩ := List.pairwise_cons.mp h
      show Apart (Extent.front x (y :: l))
      rw [front_cons]
      split
      · rename_i htouch
        refine List.pairwise_cons.mpr ⟨?_, hl⟩
        intro z hz
        have := hy z hz
        show x.start + (x.len + y.len) < z.start
        unfold Before fin at *
        omega
      · rename_i htouch
        refine List.pairwise_cons.mpr ⟨?_, h⟩
        have hxy : x.Before y := Nat.lt_of_le_of_ne (hx y List.mem_cons_self) htouch
        intro z hz
        rcases List.mem_cons.mp hz with rfl | hz
        · exact hxy
        · exact hxy.trans (hy z hz)

theorem disjoint_front (hw : 0 < w.len) (hx : x.Disjoint w) (hl : ∀ y ∈ l, y.Disjoint w)
    (hz : z ∈ front x l) : z.Disjoint w := by
  cases l with
  | nil => exact List.mem_singleton.mp hz ▸ hx
  | cons y l =>
      rw [front_cons] at hz
      split at hz
      · rename_i htouch
        rcases List.mem_cons.mp hz with rfl | hz
        · have hy := hl y List.mem_cons_self
          show x.start + (x.len + y.len) ≤ w.start ∨ w.start + w.len ≤ x.start
          unfold Disjoint fin at *
          omega
        · exact hl z (List.mem_cons_of_mem y hz)
      · rcases List.mem_cons.mp hz with rfl | hz
        · exact hx
        · exact hl z hz

theorem total_front : total (front x l) = x.len + total l := by
  cases l with
  | nil => rfl
  | cons y l =>
      rw [front_cons]
      split
      · exact Nat.add_assoc _ _ _
      · rfl

theorem forall_front {P : Nat → Prop} (hadd : ∀ m n, P m → P n → P (m + n)) (hx : P x.len)
    (hl : ∀ y ∈ l, P y.len) (hz : z ∈ front x l) : P z.len := by
  cases l with
  | nil => exact List.mem_singleton.mp hz ▸ hx
  | cons y l =>
      rw [front_cons] at hz
      split at hz
      · rcases List.mem_cons.mp hz with rfl | hz
        · exact hadd _ _ hx (hl y List.mem_cons_self)
        · exact hl z (List.mem_cons_of_mem y hz)
      · rcases List.mem_cons.mp hz with rfl | hz
        · exact hx
        · exact hl z hz

theorem fin_front {n : Nat} (hx : x.fin ≤ n) (hl : ∀ y ∈ l, y.fin ≤ n) (hz : z ∈ front x l) :
    z.fin ≤ n := by
  cases l with
  | nil => exact List.mem_singleton.mp hz ▸ hx
  | cons y l =>
      rw [front_cons] at hz
      split at hz
      · rename_i htouch
        rcases List.mem_cons.mp hz with rfl | hz
        · have hy := hl y List.mem_cons_self
          show x.start + (x.len + y.len) ≤ n
          unfold fin at *
          omega
        · exact hl z (List.mem_cons_of_mem y hz)
      · rcases List.mem_cons.mp hz with rfl | hz
        · exact hx
        · exact hl z hz

theorem length_front : (front x l).length ≤ l.length + 1 := by
  cases l with
  | nil => exact Nat.le_refl _
  | cons y l =>
      rw [front_cons]
      split
      · exact Nat.le_succ _
      · exact Nat.le_refl _

/-- A piece that was there is there, or part of a longer one. -/
theorem long_front (hz : z ∈ x :: l) : ∃ w ∈ front x l, z.len ≤ w.len := by
  cases l with
  | nil => exact ⟨z, hz, Nat.le_refl _⟩
  | cons y l =>
      rw [front_cons]
      split
      · rcases List.mem_cons.mp hz with rfl | hz
        · exact ⟨_, List.mem_cons_self, Nat.le_add_right _ _⟩
        · rcases List.mem_cons.mp hz with rfl | hz
          · exact ⟨_, List.mem_cons_self, Nat.le_add_left _ _⟩
          · exact ⟨z, List.mem_cons_of_mem _ hz, Nat.le_refl _⟩
      · exact ⟨z, hz, Nat.le_refl _⟩

/-! ## Where it belongs -/

def put (x : Extent) : List Extent → List Extent
  | [] => [x]
  | y :: l => if x.start < y.start then front x (y :: l) else front y (put x l)

theorem start_of_mem_put (hz : z ∈ put x l) : z.start = x.start ∨ ∃ y ∈ l, z.start = y.start := by
  induction l with
  | nil =>
      obtain rfl := List.mem_singleton.mp hz
      exact .inl rfl
  | cons y l ih =>
      unfold put at hz
      split at hz
      · rcases start_of_mem_front hz with h | h
        · exact .inl h
        · exact .inr ⟨z, h, rfl⟩
      · rcases start_of_mem_front hz with h | h
        · exact .inr ⟨y, List.mem_cons_self, h⟩
        · rcases ih h with h | ⟨w, hw, h⟩
          · exact .inl h
          · exact .inr ⟨w, List.mem_cons_of_mem y hw, h⟩

theorem Apart.put (h : Apart l) (hx : 0 < x.len) (hd : ∀ y ∈ l, x.Disjoint y) :
    Apart (put x l) := by
  induction l with
  | nil => exact List.pairwise_singleton _ x
  | cons y l ih =>
      obtain ⟨hy, hl⟩ := List.pairwise_cons.mp h
      have hxy := hd y List.mem_cons_self
      unfold Extent.put
      split
      · rename_i hlt
        refine h.front ?_
        have hfirst : x.fin ≤ y.start := hxy.resolve_right fun hle =>
          absurd (Nat.le_trans y.start_le_fin hle) (Nat.not_le.mpr hlt)
        intro z hz
        rcases List.mem_cons.mp hz with rfl | hz
        · exact hfirst
        · exact Nat.le_trans hfirst (Nat.le_trans y.start_le_fin (Nat.le_of_lt (hy z hz)))
      · rename_i hlt
        refine (ih hl fun z hz => hd z (List.mem_cons_of_mem y hz)).front ?_
        intro z hz
        rcases start_of_mem_put hz with he | ⟨w, hw, he⟩
        · unfold Disjoint fin at *
          omega
        · rw [he]
          exact Nat.le_of_lt (hy w hw)

theorem disjoint_put (hw : 0 < w.len) (hx : x.Disjoint w) (hl : ∀ y ∈ l, y.Disjoint w)
    (hz : z ∈ put x l) : z.Disjoint w := by
  induction l generalizing z with
  | nil => exact List.mem_singleton.mp hz ▸ hx
  | cons y l ih =>
      unfold put at hz
      split at hz
      · exact disjoint_front hw hx hl hz
      · refine disjoint_front hw (hl y List.mem_cons_self) ?_ hz
        exact fun v hv => ih (fun u hu => hl u (List.mem_cons_of_mem y hu)) hv

theorem total_put : total (put x l) = x.len + total l := by
  induction l with
  | nil => rfl
  | cons y l ih =>
      unfold put
      split
      · exact total_front
      · rw [total_front, ih]
        exact Nat.add_left_comm _ _ _

theorem forall_put {P : Nat → Prop} (hadd : ∀ m n, P m → P n → P (m + n)) (hx : P x.len)
    (hl : ∀ y ∈ l, P y.len) (hz : z ∈ put x l) : P z.len := by
  induction l generalizing z with
  | nil => exact List.mem_singleton.mp hz ▸ hx
  | cons y l ih =>
      unfold put at hz
      split at hz
      · exact forall_front hadd hx hl hz
      · refine forall_front hadd (hl y List.mem_cons_self) ?_ hz
        exact fun v hv => ih (fun u hu => hl u (List.mem_cons_of_mem y hu)) hv

theorem fin_put {n : Nat} (hx : x.fin ≤ n) (hl : ∀ y ∈ l, y.fin ≤ n) (hz : z ∈ put x l) :
    z.fin ≤ n := by
  induction l generalizing z with
  | nil => exact List.mem_singleton.mp hz ▸ hx
  | cons y l ih =>
      unfold put at hz
      split at hz
      · exact fin_front hx hl hz
      · refine fin_front (hl y List.mem_cons_self) ?_ hz
        exact fun v hv => ih (fun u hu => hl u (List.mem_cons_of_mem y hu)) hv

theorem length_put : (put x l).length ≤ l.length + 1 := by
  induction l with
  | nil => exact Nat.le_refl _
  | cons y l ih =>
      unfold put
      split
      · exact length_front
      · exact Nat.le_trans length_front (Nat.succ_le_succ ih)

theorem long_put : ∃ w ∈ put x l, x.len ≤ w.len := by
  induction l with
  | nil => exact ⟨x, List.mem_cons_self, Nat.le_refl _⟩
  | cons y l ih =>
      unfold put
      split
      · exact long_front List.mem_cons_self
      · obtain ⟨z, hz, hle⟩ := ih
        obtain ⟨w, hw, hle'⟩ := long_front (List.mem_cons_of_mem y hz)
        exact ⟨w, hw, Nat.le_trans hle hle'⟩

/-- Behind `z`, the last that starts before `x`, only `z` and the next can be touched. -/
theorem put_split (h : Apart (l₁ ++ z :: l₂)) (hz : z.start ≤ x.start)
    (hx : ∀ y ∈ l₂, x.start < y.start) (hd : ∀ y ∈ l₁, y.start ≤ x.start) :
    put x (l₁ ++ z :: l₂) = l₁ ++ front z (front x l₂) := by
  have hput : put x l₂ = front x l₂ := by
    cases l₂ with
    | nil => rfl
    | cons y l₂ => exact if_pos (hx y List.mem_cons_self)
  induction l₁ with
  | nil =>
      show put x (z :: l₂) = _
      rw [put, if_neg (Nat.not_lt.mpr hz), hput]
      rfl
  | cons y l₁ ih =>
      obtain ⟨hy, hl⟩ := List.pairwise_cons.mp h
      show put x (y :: (l₁ ++ z :: l₂)) = _
      rw [put, if_neg (Nat.not_lt.mpr (hd y List.mem_cons_self)),
        ih hl fun w hw => hd w (List.mem_cons_of_mem y hw), front_of_before]
      · rfl
      · intro w hw
        rcases List.mem_append.mp hw with hw | hw
        · exact hy w (List.mem_append_left _ hw)
        · have hstart : w.start = z.start ∨ w ∈ front x l₂ := start_of_mem_front hw
          have hyz : y.Before z := hy z (List.mem_append_right l₁ List.mem_cons_self)
          rcases hstart with he | hw
          · show y.fin < w.start
            exact he ▸ hyz
          · rcases start_of_mem_front hw with he | hw
            · show y.fin < w.start
              rw [he]
              exact Nat.lt_of_lt_of_le hyz hz
            · exact hy w (List.mem_append_right l₁ (List.mem_cons_of_mem z hw))

end Extent

end Cs537.Lib
