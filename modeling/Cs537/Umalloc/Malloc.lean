/-
# `Cs537.Umalloc.Malloc` — `malloc` on the ring of free chunks (`user/umalloc.c`)

`malloc` goes once around the ring.  If a chunk is large enough, it or its tail is taken
out (`Ring.carve`); else `morecore` puts a new one in, and the second time around there
is one (`Ring.malloc`).  So the search always ends.
-/
import Cs537.Umalloc.Ring

namespace Cs537.Umalloc

open Cs537.Lib Cs537.Lib.Extent

variable {m : Mem} {s t : Prog} {a base nu top : Nat} {u x y z : Extent} {l l' : List Extent}

/-! ## Taking a chunk out -/

/-- What `malloc` does to the ring: `y` has been taken out of it, and `l'` is left. -/
structure Carved (s t : Prog) (l l' : List Extent) (y : Extent) (nu : Nat) : Prop where
  ring : Ring t.mem s.base s.sz l'
  freep : t.freep ∈ (baseChunk s.base :: l').map start
  rest : t = { s with mem := t.mem, freep := t.freep }
  size : 8 * size t.mem y.start = y.len
  len : y.len = 8 * nu
  total : total l = y.len + total l'
  disjoint : ∀ z ∈ l', z.Disjoint y
  within : ∀ z ∈ y :: l', ∃ x ∈ l, x.start ≤ z.start ∧ z.fin ≤ x.fin
  frame : ∀ a, (a < s.base ∨ s.base + 8 ≤ a) → (∀ x ∈ l, a < x.start ∨ x.fin ≤ a) →
    t.mem a = s.mem a

/-- The chunk that `u` leads to follows it in the list. -/
theorem Ring.follows (h : Ring m base top l) (hu : u ∈ baseChunk base :: l)
    (hx : x ∈ baseChunk base :: l) (hnext : next m u.start = x.start) (hpos : 0 < x.len) :
    ∃ k k₁ k₂, baseChunk base :: k = k₁ ++ [u] ∧ l = k ++ x :: k₂ := by
  have hxl : x ∈ l := by
    rcases List.mem_cons.mp hx with rfl | hx
    · exact absurd hpos (Nat.lt_irrefl 0)
    · exact hx
  have hxlow := h.low x hxl
  obtain ⟨l₁, l₂, hsplit⟩ := List.append_of_mem hu
  have hpath := h.path
  rw [hsplit] at hpath
  obtain ⟨-, -, hfirst, -⟩ := path_append.mp hpath
  rw [hnext] at hfirst
  cases l₂ with
  | nil =>
      rw [first_nil] at hfirst
      omega
  | cons w l₂ =>
      have hw : w ∈ l := by
        have hmem : w ∈ baseChunk base :: l := by
          rw [hsplit]
          exact List.mem_append_right l₁ (List.mem_cons_of_mem u List.mem_cons_self)
        rcases List.mem_cons.mp hmem with he | hmem
        · have hstart : x.start = base := hfirst.trans (congrArg start he)
          omega
        · exact hmem
      obtain rfl : x = w := h.apart.packed.eq_of_start
        (fun z hz => Nat.lt_of_lt_of_le (by decide) (h.len z hz)) hxl hw hfirst
      cases l₁ with
      | nil =>
          obtain ⟨hbase, hl⟩ := List.cons.inj hsplit
          exact ⟨[], [], l₂, by rw [hbase]; rfl, hl⟩
      | cons b l₁ =>
          obtain ⟨hbase, hl⟩ := List.cons.inj hsplit
          refine ⟨l₁ ++ [u], b :: l₁, l₂, by rw [hbase]; rfl, ?_⟩
          rw [hl, List.append_assoc]
          rfl

variable {k k₁ k₂ : List Extent}

/-- `u` leads to what is behind `x`. -/
theorem Ring.unlink (h : Ring m base top (k ++ x :: k₂)) (hk : baseChunk base :: k = k₁ ++ [u]) :
    Ring (setNext m u.start (next m x.start)) base top (k ++ k₂) := by
  have hsub : k ++ k₂ ⊆ k ++ x :: k₂ := by
    intro z hz
    rcases List.mem_append.mp hz with hz | hz
    · exact List.mem_append_left _ hz
    · exact List.mem_append_right k (List.mem_cons_of_mem x hz)
  have hL : baseChunk base :: (k ++ x :: k₂) = k₁ ++ u :: x :: k₂ := by
    rw [← List.cons_append, hk, List.append_assoc]
    rfl
  have hL' : baseChunk base :: (k ++ k₂) = k₁ ++ u :: k₂ := by
    rw [← List.cons_append, hk, List.append_assoc]
    rfl
  have hpath := h.path
  have hheads := h.heads
  rw [hL] at hpath hheads
  obtain ⟨hp₁, husize, hunext, -, hxnext, hp₂⟩ := path_append.mp hpath
  obtain ⟨-, hheads₂, hheads₁⟩ := List.pairwise_append.mp hheads
  have hheadu := (List.pairwise_cons.mp hheads₂).1
  have hoff : ∀ p, p + 8 ≤ u.start ∨ u.start + 8 ≤ p → ∀ i < 8,
      setNext m u.start (next m x.start) (p + i) = m (p + i) := by
    intro p hp i hi
    exact setNext_apart (by omega)
  refine ⟨?_, ?_, fun z hz => h.low z (hsub hz), fun z hz => h.len z (hsub hz),
    fun z hz => h.fin z (hsub hz)⟩
  · rw [hL']
    refine path_append.mpr ⟨hp₁.congr ?_, ?_, ?_, hp₂.congr ?_⟩
    · intro w hw
      exact hoff _ (.inl (hheads₁ w hw u List.mem_cons_self))
    · rw [size_setNext, husize]
    · rw [next_setNext Mem.get_lt, hxnext]
    · intro w hw
      exact hoff _ (.inr (hheadu w (List.mem_cons_of_mem x hw)))
  · exact h.apart.sublist ((List.Sublist.refl k).append (List.sublist_cons_self x k₂))

/-- `x` without its last `nu` units. -/
def shorter (x : Extent) (nu : Nat) : Extent := ⟨x.start, x.len - 8 * nu⟩

/-- The last `nu` units of `x`. -/
def tailOf (x : Extent) (nu : Nat) : Extent := ⟨x.start + (x.len - 8 * nu), 8 * nu⟩

/-- The last units of `x` get a header of their own. -/
theorem Ring.shorten (h : Ring m base top (k ++ x :: k₂)) (hnu : 0 < nu)
    (hlt : nu < size m x.start) :
    Ring (setSize (setSize m x.start (size m x.start - nu)) (tailOf x nu).start nu) base top
      (k ++ shorter x nu :: k₂) := by
  have hx : x ∈ k ++ x :: k₂ := List.mem_append_right k List.mem_cons_self
  have hxsize : 8 * size m x.start = x.len := h.path.size_eq (List.mem_cons_of_mem _ hx)
  have hxlow := h.low x hx
  have hheads := h.heads
  rw [← List.cons_append] at hheads
  obtain ⟨-, hheads₂, hheads₁⟩ := List.pairwise_append.mp hheads
  obtain ⟨hk, hapart₂, hkx⟩ := List.pairwise_append.mp h.apart
  obtain ⟨hxk, hk₂⟩ := List.pairwise_cons.mp hapart₂
  have hold : ∀ z ∈ k ++ shorter x nu :: k₂, z = shorter x nu ∨ z ∈ k ++ x :: k₂ := by
    intro z hz
    rcases List.mem_append.mp hz with hz | hz
    · exact .inr (List.mem_append_left _ hz)
    · rcases List.mem_cons.mp hz with rfl | hz
      · exact .inl rfl
      · exact .inr (List.mem_append_right k (List.mem_cons_of_mem x hz))
  have hframe : ∀ a, a < x.start ∨ x.fin ≤ a →
      setSize (setSize m x.start (size m x.start - nu)) (tailOf x nu).start nu a = m a := by
    intro a ha
    unfold Extent.fin at ha
    have htail : a < (tailOf x nu).start ∨ (tailOf x nu).start + 8 ≤ a := by
      unfold tailOf
      dsimp only
      omega
    rw [setSize_apart htail, setSize_apart (by omega)]
  refine ⟨?_, ?_, ?_, ?_, ?_⟩
  · have hpath := h.path
    rw [← List.cons_append] at hpath ⊢
    obtain ⟨hp₁, -, hxnext, hp₂⟩ := path_append.mp hpath
    have hheader : ∀ i < 8, setSize (setSize m x.start (size m x.start - nu)) (tailOf x nu).start nu
        (x.start + i) = setSize m x.start (size m x.start - nu) (x.start + i) := by
      intro i hi
      refine setSize_apart (.inl ?_)
      show x.start + i < x.start + (x.len - 8 * nu)
      omega
    obtain ⟨hsize', hnext'⟩ := header_congr hheader
    have hlt' : size m x.start - nu < 2 ^ 32 := Nat.lt_of_le_of_lt (Nat.sub_le _ _) size_lt
    refine path_append.mpr ⟨hp₁.congr ?_, ?_, ?_, hp₂.congr ?_⟩
    · intro w hw i hi
      have := hheads₁ w hw x List.mem_cons_self
      exact hframe _ (.inl (by omega))
    · show 8 * size _ x.start = x.len - 8 * nu
      rw [hsize', size_setSize hlt', Nat.mul_sub, hxsize]
    · show next _ x.start = first k₂ base
      rw [hnext', next_setSize, hxnext]
    · intro w hw i hi
      exact hframe _ (.inr (Nat.le_trans (Nat.le_of_lt (hxk w hw)) (Nat.le_add_right _ i)))
  · refine List.pairwise_append.mpr ⟨hk, List.pairwise_cons.mpr ⟨?_, hk₂⟩, ?_⟩
    · intro w hw
      exact Nat.lt_of_le_of_lt (Nat.add_le_add_left (Nat.sub_le _ _) _) (hxk w hw)
    · intro w hw z hz
      rcases List.mem_cons.mp hz with rfl | hz
      · exact hkx w hw x List.mem_cons_self
      · exact hkx w hw z (List.mem_cons_of_mem x hz)
  · intro z hz
    rcases hold z hz with rfl | hz
    · exact hxlow
    · exact h.low z hz
  · intro z hz
    rcases hold z hz with rfl | hz
    · show 8 ≤ x.len - 8 * nu
      omega
    · exact h.len z hz
  · intro z hz
    rcases hold z hz with rfl | hz
    · exact Nat.le_trans (Nat.add_le_add_left (Nat.sub_le _ _) _) (h.fin x hx)
    · exact h.fin z hz

theorem Ring.carve (h : Ring s.mem s.base s.sz l) (hu : u ∈ baseChunk s.base :: l)
    (hx : x ∈ baseChunk s.base :: l) (hnext : next s.mem u.start = x.start) (hnu : 0 < nu)
    (hfit : size s.mem x.start ≥ nu) (htop : s.sz < 2 ^ 32) :
    ∃ l' y, (s.carve nu u.start x.start).1 = y.start + 8 ∧
      Carved s (s.carve nu u.start x.start).2 l l' y nu := by
  have hxsize : 8 * size s.mem x.start = x.len := h.path.size_eq hx
  obtain ⟨k, k₁, k₂, hk, rfl⟩ := h.follows hu hx hnext (by omega)
  have hxl : x ∈ k ++ x :: k₂ := List.mem_append_right k List.mem_cons_self
  have hxlow := h.low x hxl
  have hxfin := h.fin x hxl
  obtain ⟨-, hapart₂, hkx⟩ := List.pairwise_append.mp h.apart
  obtain ⟨hxk, -⟩ := List.pairwise_cons.mp hapart₂
  have hothers : ∀ z ∈ k ++ k₂, z.Disjoint x := by
    intro z hz
    rcases List.mem_append.mp hz with hz | hz
    · exact (hkx z hz x List.mem_cons_self).disjoint
    · exact (hxk z hz).disjoint.symm
  have hsub : ∀ z ∈ k ++ k₂, z ∈ k ++ x :: k₂ := by
    intro z hz
    rcases List.mem_append.mp hz with hz | hz
    · exact List.mem_append_left _ hz
    · exact List.mem_append_right k (List.mem_cons_of_mem x hz)
  have hufree : ∀ l', u.start ∈ (baseChunk s.base :: (k ++ l')).map start := by
    intro l'
    rw [← List.cons_append, hk, List.append_assoc, List.map_append]
    exact List.mem_append_right _ List.mem_cons_self
  unfold Prog.carve
  split
  · rename_i hexact
    refine ⟨k ++ k₂, x, rfl, ⟨h.unlink hk, hufree k₂, rfl, ?_, ?_, ?_, hothers, ?_, ?_⟩⟩
    · have hux : u.start + 8 ≤ x.start := by
        have hheads := h.heads
        rw [← List.cons_append, hk] at hheads
        exact (List.pairwise_append.mp hheads).2.2 u (List.mem_append_right _ List.mem_cons_self)
          x List.mem_cons_self
      have hsame : ∀ i < 8, setNext s.mem u.start (next s.mem x.start) (x.start + i) =
          s.mem (x.start + i) := by
        intro i hi
        exact setNext_apart (by omega)
      rw [(header_congr hsame).1, hxsize]
    · rw [← hxsize, hexact]
    · rw [total_append, total_append, total_cons]
      exact Nat.add_left_comm _ _ _
    · intro z hz
      rcases List.mem_cons.mp hz with rfl | hz
      · exact ⟨z, hxl, Nat.le_refl _, Nat.le_refl _⟩
      · exact ⟨z, hsub z hz, Nat.le_refl _, Nat.le_refl _⟩
    · intro a hbase ha
      refine setNext_apart ?_
      rcases List.mem_cons.mp hu with rfl | hul
      · exact hbase
      · have hulen := h.len u hul
        have := ha u hul
        unfold Extent.fin at this
        omega
  · rename_i hmore
    have hlt : nu < size s.mem x.start := Nat.lt_of_le_of_ne hfit (Ne.symm hmore)
    have hnu32 : nu < 2 ^ 32 := Nat.lt_trans hlt size_lt
    have hq : plus x.start (size (setSize s.mem x.start (size s.mem x.start - nu)) x.start) =
        (tailOf x nu).start := by
      have hlt' : size s.mem x.start - nu < 2 ^ 32 := Nat.lt_of_le_of_lt (Nat.sub_le _ _) size_lt
      unfold Extent.fin at hxfin
      rw [size_setSize hlt', plus, Nat.mul_sub, hxsize]
      exact Nat.mod_eq_of_lt (by omega)
    dsimp only
    rw [hq]
    have hlen : x.len - 8 * nu + 8 * nu = x.len := Nat.sub_add_cancel (by omega)
    have hfin : (tailOf x nu).fin = x.fin := by
      show x.start + (x.len - 8 * nu) + 8 * nu = x.start + x.len
      omega
    refine ⟨k ++ shorter x nu :: k₂, tailOf x nu, rfl, ⟨h.shorten hnu hlt,
      hufree (shorter x nu :: k₂), rfl, ?_, rfl, ?_, ?_, ?_, ?_⟩⟩
    · rw [size_setSize hnu32]
      rfl
    · show total _ = 8 * nu + total _
      rw [total_append, total_append, total_cons, total_cons]
      show _ = 8 * nu + (_ + (x.len - 8 * nu + _))
      omega
    · intro z hz
      have hcases : z = shorter x nu ∨ z ∈ k ++ k₂ := by
        rcases List.mem_append.mp hz with hz | hz
        · exact .inr (List.mem_append_left _ hz)
        · rcases List.mem_cons.mp hz with rfl | hz
          · exact .inl rfl
          · exact .inr (List.mem_append_right k hz)
      rcases hcases with rfl | hz
      · exact .inl (Nat.le_refl _)
      · refine (hothers z hz).imp (fun hle => Nat.le_trans hle (Nat.le_add_right _ _)) ?_
        intro hle
        exact hfin ▸ hle
    · intro z hz
      rcases List.mem_cons.mp hz with rfl | hz
      · exact ⟨x, hxl, Nat.le_add_right _ _, Nat.le_of_eq hfin⟩
      · rcases List.mem_append.mp hz with hz | hz
        · exact ⟨z, List.mem_append_left _ hz, Nat.le_refl _, Nat.le_refl _⟩
        · rcases List.mem_cons.mp hz with rfl | hz
          · exact ⟨x, hxl, Nat.le_refl _, Nat.add_le_add_left (Nat.sub_le _ _) _⟩
          · exact ⟨z, hsub z (List.mem_append_right k hz), Nat.le_refl _, Nat.le_refl _⟩
    · intro a _ ha
      have hax := ha x hxl
      unfold Extent.fin at hax
      have htail : a < (tailOf x nu).start ∨ (tailOf x nu).start + 8 ≤ a := by
        unfold tailOf
        dsimp only
        omega
      dsimp only
      rw [setSize_apart htail, setSize_apart (by omega)]

/-! ## Once around -/

/-- The ring from behind `f` on, up to `f` again. -/
theorem Ring.around (h : Ring m base top l) (hu : u ∈ baseChunk base :: l) :
    ∃ k, Path m (k ++ [u]) (next m u.start) ∧
      next m u.start = first (k ++ [u]) (next m u.start) ∧
      (∀ y, y ∈ k ++ [u] ↔ y ∈ baseChunk base :: l) ∧ k.length = l.length ∧
      ∀ y ∈ k, y.start ≠ u.start := by
  have hpath := h.path
  have hheads := h.heads
  obtain ⟨l₁, l₂, hsplit⟩ := List.append_of_mem hu
  have hbase : first (l₁ ++ [u]) (next m u.start) = base := by
    cases l₁ with
    | nil => exact congrArg start (List.cons.inj hsplit).1.symm
    | cons b l₁ => exact congrArg start (List.cons.inj hsplit).1.symm
  rw [hsplit] at hpath hheads
  obtain ⟨hp₁, husize, hunext, hp₂⟩ := path_append.mp hpath
  obtain ⟨-, hheads₂, hheads₁⟩ := List.pairwise_append.mp hheads
  refine ⟨l₂ ++ l₁, ?_, ?_, ?_, ?_, ?_⟩
  · rw [List.append_assoc]
    refine path_append.mpr ⟨?_, path_append.mpr ⟨hp₁, husize, rfl, trivial⟩⟩
    rw [hbase]
    exact hp₂
  · rw [List.append_assoc, first_append, hbase]
    exact hunext
  · intro y
    have hperm : (l₂ ++ (l₁ ++ [u])).Perm (l₁ ++ [u] ++ l₂) := List.perm_append_comm
    rw [hsplit, List.append_assoc, hperm.mem_iff, List.append_assoc]
    rfl
  · have hlen := congrArg List.length hsplit
    simp only [List.length_append, List.length_cons] at hlen ⊢
    omega
  · intro y hy he
    rcases List.mem_append.mp hy with hy | hy
    · have := (List.pairwise_cons.mp hheads₂).1 y hy
      omega
    · have := hheads₁ y hy u List.mem_cons_self
      omega

/-- What `malloc` does when it comes to `freep` again. -/
def Prog.again (s : Prog) (nunits : Nat) (grows : Bool) (n : Nat) : Option (Nat × Prog) :=
  (s.morecore nunits grows).bind fun (q, t) =>
    if q = 0 then some (0, t) else t.mallocLoop nunits grows n q (next t.mem q)

variable {k : List Extent} {n q : Nat} {grows : Bool}

theorem mallocLoop_around (nu n : Nat) (grows : Bool) (hpath : Path s.mem (k ++ [y]) q) (hnext : next s.mem u.start =
    first (k ++ [y]) q) (hy : y.start = s.freep) (hk : ∀ z ∈ k, z.start ≠ y.start) :
    (∃ v ∈ u :: k ++ [y], ∃ x ∈ k ++ [y], next s.mem v.start = x.start ∧
      size s.mem x.start ≥ nu ∧ s.mallocLoop nu grows (n + k.length + 1) u.start
        (next s.mem u.start) = some (s.carve nu v.start x.start)) ∨
    (∀ x ∈ k ++ [y], size s.mem x.start < nu) ∧ s.mallocLoop nu grows (n + k.length + 1) u.start
      (next s.mem u.start) = s.again nu grows n := by
  induction k generalizing u with
  | nil =>
      have hp : next s.mem u.start = y.start := hnext
      by_cases hfit : size s.mem y.start ≥ nu
      · refine .inl ⟨u, List.mem_cons_self, y, List.mem_cons_self, hp, hfit, ?_⟩
        rw [Prog.mallocLoop, hp, if_pos hfit]
      · refine .inr ⟨?_, ?_⟩
        · intro x hx
          rw [List.mem_singleton.mp hx]
          exact Nat.not_le.mp hfit
        · rw [Prog.mallocLoop, hp, if_neg hfit, if_pos hy]
          rfl
  | cons z k ih =>
      have hp : next s.mem u.start = z.start := hnext
      obtain ⟨-, hznext, hrest⟩ := hpath
      by_cases hfit : size s.mem z.start ≥ nu
      · refine .inl ⟨u, List.mem_cons_self, z, List.mem_cons_self, hp, hfit, ?_⟩
        rw [Prog.mallocLoop, hp, if_pos hfit]
      · have hz : z.start ≠ s.freep := hy ▸ hk z List.mem_cons_self
        have hgo : s.mallocLoop nu grows (n + (z :: k).length + 1) u.start (next s.mem u.start) =
            s.mallocLoop nu grows (n + k.length + 1) z.start (next s.mem z.start) := by
          rw [Prog.mallocLoop, hp, if_neg hfit, if_neg hz]
          rfl
        rw [hgo]
        rcases ih hrest hznext fun w hw => hk w (List.mem_cons_of_mem z hw) with
          ⟨v, hv, x, hx, hvx, hxfit, he⟩ | ⟨hsmall, he⟩
        · exact .inl ⟨v, List.mem_cons_of_mem u hv, x, List.mem_cons_of_mem z hx, hvx, hxfit, he⟩
        · refine .inr ⟨?_, he⟩
          intro x hx
          rcases List.mem_cons.mp hx with rfl | hx
          · exact Nat.not_le.mp hfit
          · exact hsmall x hx

/-! ## More memory -/

/-- `malloc` has been called before. -/
structure Ready (s : Prog) (l : List Extent) : Prop where
  ring : Ring s.mem s.base s.sz l
  freep : s.freep ∈ (baseChunk s.base :: l).map start
  base : 0 < s.base
  low : s.base + 8 ≤ s.sz
  top : s.sz ≤ USERTOP

theorem Ready.freep_ne (h : Ready s l) : s.freep ≠ 0 := by
  obtain ⟨x, hx, he⟩ := List.mem_map.mp h.freep
  rw [← he]
  have hbase := h.base
  rcases List.mem_cons.mp hx with rfl | hx
  · exact Nat.ne_of_gt hbase
  · have := h.ring.low x hx
    omega

/-- How many units `morecore` asks for. -/
def coreUnits (nu : Nat) : Nat := if nu < 4096 then 4096 else nu

/-- What `morecore` does to the ring. -/
structure Grown (s t : Prog) (l : List Extent) (nu : Nat) : Prop where
  ready : Ready t (put ⟨s.sz, 8 * coreUnits nu⟩ l)
  rest : t = { s with mem := t.mem, freep := t.freep, sz := s.sz + 8 * coreUnits nu }
  frame : ∀ a < s.sz, (a < s.base ∨ s.base + 8 ≤ a) → (∀ x ∈ l, a < x.start ∨ x.fin ≤ a) →
    t.mem a = s.mem a

theorem usertop_lt : USERTOP < 2 ^ 32 := by
  unfold USERTOP
  omega

/-- `free` of a loose chunk. -/
theorem Ready.free (hring : Ring s.mem s.base s.sz l) (hfreep : s.freep ∈
    (baseChunk s.base :: l).map start) (htop : s.sz ≤ USERTOP) (hx : Loose s.mem s.base s.sz l x) :
    ∃ t, s.free (x.start + 8) = some t ∧ Ring t.mem s.base s.sz (put x l) ∧
      t.freep ∈ (baseChunk s.base :: put x l).map start ∧
      t = { s with mem := t.mem, freep := t.freep } ∧
      ∀ a, (a < s.base ∨ s.base + 8 ≤ a) → (∀ z ∈ x :: l, a < z.start ∨ z.fin ≤ a) →
        t.mem a = s.mem a := by
  obtain ⟨y, hy, he⟩ := List.mem_map.mp hfreep
  have htop32 : s.sz < 2 ^ 32 := Nat.lt_of_le_of_lt htop usertop_lt
  obtain ⟨z, hz, hzput, hloop, hring', hframe⟩ := hring.free hx htop32 hy
  rw [he] at hloop
  have hfree : s.free (x.start + 8) = some { s with
      mem := joinLower (joinUpper s.mem x.start z.start) x.start z.start, freep := z.start } := by
    unfold Prog.free
    dsimp only
    rw [Nat.add_sub_cancel, hloop]
    rfl
  generalize joinLower (joinUpper s.mem x.start z.start) x.start z.start = m' at *
  refine ⟨{ s with mem := m', freep := z.start }, hfree, hring', hzput, rfl, ?_⟩
  · intro a hbase ha
    have hheader : ∀ w ∈ x :: l, 8 ≤ w.len → a < w.start ∨ w.start + 8 ≤ a := by
      intro w hw hlen
      have := ha w hw
      unfold Extent.fin at this
      omega
    refine hframe a (hheader x List.mem_cons_self hx.len) ?_
    rcases List.mem_cons.mp hz with rfl | hz
    · exact hbase
    · exact hheader z (List.mem_cons_of_mem x hz) (hring.len z hz)

/-- `sbrk` of less than half the address space. -/
theorem Ready.sbrk (h : Ready s l) (grows : Bool) (hpos : 0 < n) (hn : n < 2 ^ 31) :
    s.sbrk (BitVec.ofNat 32 n) grows = (s.allocuvm (s.sz + n) grows).map fun t => (s.sz, t) := by
  have htop := h.top
  have hnat : (BitVec.ofNat 32 n).toNat = n := by
    rw [BitVec.toNat_ofNat]
    exact Nat.mod_eq_of_lt (by omega)
  have hint : (BitVec.ofNat 32 n).toInt = n := by
    rw [BitVec.toInt_eq_toNat_of_lt (by omega), hnat]
  have hmod : (s.sz + n) % 2 ^ 32 = s.sz + n := by
    unfold USERTOP at htop
    exact Nat.mod_eq_of_lt (by omega)
  unfold Prog.sbrk Prog.growproc
  dsimp only
  rw [hnat, hint, hmod, if_pos (by omega)]

theorem le_pgroundup (a : Nat) : a ≤ pgroundup a := by
  unfold pgroundup PGSIZE
  omega

theorem coreUnits_le (nu : Nat) : nu ≤ coreUnits nu ∧ 4096 ≤ coreUnits nu := by
  unfold coreUnits
  split <;> omega

theorem Ready.morecore (h : Ready s l) (grows : Bool) (hnu : 8 * nu < 2 ^ 31) :
    if grows ∧ s.sz + 8 * coreUnits nu ≤ USERTOP then
      ∃ t, s.morecore nu grows = some (t.freep, t) ∧ Grown s t l nu
    else s.morecore nu grows = some (0, s) := by
  obtain ⟨-, hcore⟩ := coreUnits_le nu
  have hcore31 : coreUnits nu * 8 < 2 ^ 31 := by
    unfold coreUnits
    split <;> omega
  have hsbrk := h.sbrk grows (by omega) hcore31
  have hmul : coreUnits nu * 8 = 8 * coreUnits nu := Nat.mul_comm _ _
  have hunits : (if nu < 4096 then 4096 else nu) = coreUnits nu := rfl
  unfold Prog.morecore
  dsimp only
  rw [hunits, hsbrk, hmul]
  unfold Prog.allocuvm
  have htop := h.top
  split
  · -- the kernel gives the memory
    rename_i hyes
    obtain ⟨hgrows, hroom⟩ := hyes
    rw [if_neg (by omega), if_neg (by omega), if_pos hgrows]
    have hlow := h.low
    obtain ⟨m₁, hm₁⟩ : ∃ m₁, m₁ = setSize (s.mem.copy (pgroundup s.sz)
      (pgroundup (s.sz + 8 * coreUnits nu) - pgroundup s.sz) fun _ => 0) s.sz (coreUnits nu) :=
      ⟨_, rfl⟩
    have hsame : ∀ a < s.sz, m₁ a = s.mem a := by
      intro a ha
      rw [hm₁, setSize_apart (.inl ha)]
      exact Mem.copy_apart (.inl (Nat.lt_of_lt_of_le ha (le_pgroundup s.sz)))
    have hring : Ring m₁ s.base (s.sz + 8 * coreUnits nu) l := by
      refine (h.ring.congr ?_ ?_).mono (Nat.le_add_right _ _)
      · intro i hi
        exact hsame _ (by omega)
      · intro x hx i hi
        have hlen := h.ring.len x hx
        have hfin := h.ring.fin x hx
        unfold Extent.fin at hfin
        exact hsame _ (by omega)
    have hloose : Loose m₁ s.base (s.sz + 8 * coreUnits nu) l ⟨s.sz, 8 * coreUnits nu⟩ := by
      refine ⟨?_, hlow, ?_, Nat.le_refl _, fun y hy => .inr (h.ring.fin y hy)⟩
      · show 8 * size m₁ s.sz = 8 * coreUnits nu
        rw [hm₁, size_setSize (by omega)]
      · show 8 ≤ 8 * coreUnits nu
        omega
    obtain ⟨t, ht, hring', hfreep', hrest, hframe⟩ := Ready.free
      (s := { s with mem := m₁, sz := s.sz + 8 * coreUnits nu }) hring h.freep hroom hloose
    refine ⟨t, ?_, ⟨?_, ?_, ?_⟩⟩
    · show (Prog.free { s with mem := _, sz := _ } (s.sz + 8)).map _ = _
      rw [← hm₁, ht]
      rfl
    · rw [hrest]
      exact ⟨hring', hfreep', h.base, Nat.le_trans hlow (Nat.le_add_right _ _), hroom⟩
    · rw [hrest]
    · intro a ha hbase hal
      refine (hframe a hbase ?_).trans (hsame a ha)
      intro z hz
      rcases List.mem_cons.mp hz with rfl | hz
      · exact .inl ha
      · exact hal z hz
  · rename_i hno
    by_cases hroom : s.sz + 8 * coreUnits nu > USERTOP
    · rw [if_pos hroom]
      rfl
    · have hgrows : ¬grows = true := fun hg => hno ⟨hg, Nat.not_lt.mp hroom⟩
      rw [if_neg hroom, if_neg (by omega), if_neg hgrows]
      rfl

/-! ## `malloc` -/

/-- Once around: a chunk has been found, or there is none. -/
theorem Ready.search (h : Ready s l) (grows : Bool) (hnu : 0 < nu) (hn : l.length < n) :
    (∃ l' y r, s.mallocLoop nu grows n s.freep (next s.mem s.freep) = some r ∧
      r.1 = y.start + 8 ∧ Carved s r.2 l l' y nu) ∨
    (∀ x ∈ l, x.len < 8 * nu) ∧ s.mallocLoop nu grows n s.freep (next s.mem s.freep) =
      s.again nu grows (n - l.length - 1) := by
  obtain ⟨u, hu, he⟩ := List.mem_map.mp h.freep
  obtain ⟨k, hpath, hnext, hmem, hlen, hk⟩ := h.ring.around hu
  have hfuel : n = n - l.length - 1 + k.length + 1 := by omega
  rw [← he]
  rcases mallocLoop_around nu (n - l.length - 1) grows hpath hnext he hk with
    ⟨v, hv, x, hx, hvx, hfit, hloop⟩ | ⟨hsmall, hloop⟩
  · rw [← hfuel] at hloop
    have hv' : v ∈ baseChunk s.base :: l := by
      rcases List.mem_cons.mp hv with rfl | hv
      · exact hu
      · exact (hmem v).mp hv
    have htop : s.sz < 2 ^ 32 := Nat.lt_of_le_of_lt h.top usertop_lt
    obtain ⟨l', y, hret, hcarved⟩ := h.ring.carve hv' ((hmem x).mp hx) hvx hnu hfit htop
    exact .inl ⟨l', y, _, hloop, hret, hcarved⟩
  · rw [← hfuel] at hloop
    refine .inr ⟨?_, hloop⟩
    intro x hx
    have hx' := List.mem_cons_of_mem (baseChunk s.base) hx
    rw [← h.ring.path.size_eq hx']
    exact Nat.mul_lt_mul_of_pos_left (hsmall x ((hmem x).mpr hx')) (by decide)

/-- What a call of `malloc` can do: fail, with no chunk large enough and no more memory; or
take a chunk out of the ring, into which `morecore` has put a new one if there was none. -/
inductive Outcome (s : Prog) (l : List Extent) (nu : Nat) (grows : Bool) : Nat × Prog → Prop
  | null (hsmall : ∀ x ∈ l, x.len < 8 * nu)
      (hfull : ¬(grows = true ∧ s.sz + 8 * coreUnits nu ≤ USERTOP)) : Outcome s l nu grows (0, s)
  | found {t : Prog} {l' : List Extent} {y : Extent} (hcarved : Carved s t l l' y nu) :
      Outcome s l nu grows (y.start + 8, t)
  | grown {s₁ t : Prog} {l' : List Extent} {y : Extent} (hsmall : ∀ x ∈ l, x.len < 8 * nu)
      (hroom : grows = true ∧ s.sz + 8 * coreUnits nu ≤ USERTOP) (hgrown : Grown s s₁ l nu)
      (hcarved : Carved s₁ t (put ⟨s.sz, 8 * coreUnits nu⟩ l) l' y nu) :
      Outcome s l nu grows (y.start + 8, t)

/-- The search ends. -/
theorem Ready.malloc (h : Ready s l) (grows : Bool) (hnu : 0 < nu) (hnu31 : 8 * nu < 2 ^ 31) :
    ∃ r, s.mallocLoop nu grows s.sz s.freep (next s.mem s.freep) = some r ∧
      Outcome s l nu grows r := by
  have hroom := h.ring.apart.length_le h.low h.ring.low h.ring.len h.ring.fin
  have hbase := h.base
  rcases h.search grows hnu (by omega : l.length < s.sz) with
    ⟨l', y, r, hloop, hret, hcarved⟩ | ⟨hsmall, hloop⟩
  · obtain ⟨p, t⟩ := r
    obtain rfl : p = y.start + 8 := hret
    exact ⟨_, hloop, .found hcarved⟩
  · have hmore := h.morecore grows hnu31
    split at hmore
    · rename_i hyes
      obtain ⟨t, ht, hgrown⟩ := hmore
      have hagain : s.again nu grows (s.sz - l.length - 1) =
          t.mallocLoop nu grows (s.sz - l.length - 1) t.freep (next t.mem t.freep) := by
        unfold Prog.again
        rw [ht]
        exact if_neg hgrown.ready.freep_ne
      have hlen := length_put (x := ⟨s.sz, 8 * coreUnits nu⟩) (l := l)
      rcases hgrown.ready.search grows hnu
          (by omega : _ < s.sz - l.length - 1) with
        ⟨l', y, r, hloop', hret, hcarved⟩ | ⟨hsmall', -⟩
      · obtain ⟨p, t'⟩ := r
        obtain rfl : p = y.start + 8 := hret
        exact ⟨_, hloop.trans (hagain.trans hloop'), .grown hsmall hyes hgrown hcarved⟩
      · -- the new chunk is large enough
        obtain ⟨w, hw, hle⟩ := long_put (x := ⟨s.sz, 8 * coreUnits nu⟩) (l := l)
        have hcore := (coreUnits_le nu).1
        have hlt := hsmall' w hw
        dsimp only at hle
        omega
    · rename_i hno
      have hagain : s.again nu grows (s.sz - l.length - 1) = some (0, s) := by
        unfold Prog.again
        rw [hmore]
        rfl
      exact ⟨_, hloop.trans hagain, .null hsmall hno⟩

end Cs537.Umalloc
