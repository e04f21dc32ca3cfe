/-
# `Cs537.Umalloc.Ring` — the ring of free chunks in memory (`user/umalloc.c`)

`Path m l q` says that the headers of the chunks of `l` have their sizes, and lead from
each to the next and from the last to `q`.  The free chunks are `Path m (base :: l) base`.

Each half of `free` is one operation, `join`: it links `p` to the chunk that comes next,
or joins the two if they touch.  In the list that is `Extent.front` (`Path.joined`).  The
loop of `free` finds the last chunk before `bp` (`freeLoop_eq`).
-/
import Cs537.Umalloc.Heap
import Cs537.Lib.Extents

namespace Cs537.Umalloc

open Cs537.Lib Cs537.Lib.Extent

variable {m m' : Mem} {a p q n bp base : Nat} {x y z : Extent} {l l₁ l₂ : List Extent}

/-! ## Headers -/

theorem next_setNext (hq : q < 2 ^ 32) : next (setNext m p q) p = q := Mem.get_put_self hq

theorem size_setSize (hn : n < 2 ^ 32) : size (setSize m p n) p = n := Mem.get_put_self hn

theorem size_setNext : size (setNext m p q) p = size m p := Mem.get_put_apart (.inr (Nat.le_refl _))

theorem next_setSize : next (setSize m p n) p = next m p := Mem.get_put_apart (.inl (Nat.le_refl _))

theorem size_lt : size m p < 2 ^ 32 := Mem.get_lt

theorem setNext_apart (ha : a < p ∨ p + 8 ≤ a) : setNext m p q a = m a :=
  Mem.copy_apart (by omega)

theorem setSize_apart (ha : a < p ∨ p + 8 ≤ a) : setSize m p n a = m a :=
  Mem.copy_apart (by omega)

/-- A header is eight bytes. -/
theorem header_congr (h : ∀ i < 8, m' (p + i) = m (p + i)) :
    size m' p = size m p ∧ next m' p = next m p := by
  refine ⟨Mem.get_congr ?_, Mem.get_congr ?_⟩
  · intro i hi
    rw [Nat.add_assoc]
    exact h (4 + i) (by omega)
  · intro i hi
    exact h i (by omega)

/-! ## Paths -/

/-- Where `l` starts; `q` if it is empty. -/
def first : List Extent → Nat → Nat
  | [], q => q
  | x :: _, _ => x.start

@[simp] theorem first_nil : first [] q = q := rfl

@[simp] theorem first_cons : first (x :: l) q = x.start := rfl

def Path (m : Mem) : List Extent → Nat → Prop
  | [], _ => True
  | x :: l, q => 8 * size m x.start = x.len ∧ next m x.start = first l q ∧ Path m l q

theorem first_append : first (l₁ ++ l₂) q = first l₁ (first l₂ q) := by
  cases l₁ <;> rfl

theorem path_append : Path m (l₁ ++ l₂) q ↔ Path m l₁ (first l₂ q) ∧ Path m l₂ q := by
  induction l₁ with
  | nil => exact ⟨fun h => ⟨trivial, h⟩, And.right⟩
  | cons x l₁ ih =>
      constructor
      · rintro ⟨hsize, hnext, hrest⟩
        obtain ⟨h₁, h₂⟩ := ih.mp hrest
        exact ⟨⟨hsize, hnext.trans first_append, h₁⟩, h₂⟩
      · rintro ⟨⟨hsize, hnext, h₁⟩, h₂⟩
        exact ⟨hsize, hnext.trans first_append.symm, ih.mpr ⟨h₁, h₂⟩⟩

theorem Path.size_eq (h : Path m l q) (hx : x ∈ l) : 8 * size m x.start = x.len := by
  obtain ⟨l₁, l₂, rfl⟩ := List.append_of_mem hx
  exact (path_append.mp h).2.1

/-- A path depends on its headers only. -/
theorem Path.congr (h : Path m l q) (hl : ∀ x ∈ l, ∀ i < 8, m' (x.start + i) = m (x.start + i)) :
    Path m' l q := by
  induction l with
  | nil => trivial
  | cons x l ih =>
      obtain ⟨hsize, hnext, hrest⟩ := h
      obtain ⟨hs, hn⟩ := header_congr (hl x List.mem_cons_self)
      exact ⟨hs ▸ hsize, hn.trans hnext, ih hrest fun y hy => hl y (List.mem_cons_of_mem x hy)⟩

theorem first_front : first (front x l) q = x.start := by
  cases l with
  | nil => rfl
  | cons y l =>
      rw [front_cons]
      split <;> rfl

/-! ## `join` -/

/-- Links `p` to `q`, which comes next; or joins them. -/
def join (m : Mem) (p q : Nat) : Mem :=
  if plus p (size m p) = q then setNext (setSize m p (size m p + size m q)) p (next m q)
  else setNext m p q

theorem join_touch (h : plus p (size m p) = q) :
    join m p q = setNext (setSize m p (size m p + size m q)) p (next m q) := if_pos h

theorem join_gap (h : plus p (size m p) ≠ q) : join m p q = setNext m p q := if_neg h

theorem join_apart (ha : a < p ∨ p + 8 ≤ a) : join m p q a = m a := by
  unfold join
  split
  · rw [setNext_apart ha, setSize_apart ha]
  · exact setNext_apart ha

/-- In memory as in the list. -/
theorem Path.joined (h : Path m l q) (hx : 8 * size m x.start = x.len)
    (hoff : ∀ y ∈ l, y.start + 8 ≤ x.start ∨ x.start + 8 ≤ y.start) (hq : q < 2 ^ 32)
    (hlt : ∀ y ∈ l, y.fin < 2 ^ 32) (hfin : x.fin < 2 ^ 32) (hlast : l = [] → x.fin ≠ q) :
    Path (join m x.start (first l q)) (front x l) q := by
  have hplus : plus x.start (size m x.start) = x.fin := by
    unfold plus
    rw [hx]
    exact Nat.mod_eq_of_lt hfin
  have hkept : ∀ k, Path m k q → (∀ y ∈ k, y ∈ l) →
      Path (join m x.start (first l q)) k q := by
    intro k hk hkl
    refine hk.congr ?_
    intro y hy i hi
    have := hoff y (hkl y hy)
    exact join_apart (by omega)
  cases l with
  | nil =>
      have hgap : plus x.start (size m x.start) ≠ q := hplus ▸ hlast rfl
      show Path (join m x.start q) [x] q
      rw [join_gap hgap]
      exact ⟨size_setNext.symm ▸ hx, next_setNext hq, trivial⟩
  | cons y l =>
      obtain ⟨hsize, hnext, hrest⟩ := h
      have hylt := hlt y List.mem_cons_self
      rw [first_cons] at hkept ⊢
      rw [front_cons]
      split
      · rename_i htouch
        have hsum : size m x.start + size m y.start < 2 ^ 32 := by
          unfold fin at *
          omega
        have hjoin := join_touch (hplus.trans htouch)
        refine ⟨?_, ?_, hkept l hrest fun w hw => List.mem_cons_of_mem y hw⟩
        · rw [hjoin, size_setNext, size_setSize hsum, Nat.mul_add, hx, hsize]
        · rw [hjoin, next_setNext Mem.get_lt, hnext]
      · rename_i htouch
        have hjoin := join_gap (hplus ▸ htouch : plus x.start (size m x.start) ≠ y.start)
        have hylt' : y.start < 2 ^ 32 := Nat.lt_of_le_of_lt y.start_le_fin hylt
        refine ⟨?_, ?_, hkept (y :: l) ⟨hsize, hnext, hrest⟩ fun w hw => hw⟩
        · rw [hjoin, size_setNext, hx]
        · rw [hjoin, next_setNext hylt', first_cons]

/-- `free` reads the links again after it has changed a size; they are in other headers. -/
theorem next_setSize_apart (h : p + 8 ≤ q ∨ q + 8 ≤ p) : next (setSize m q n) p = next m p :=
  (header_congr fun i hi => setSize_apart (by omega)).2

theorem joinLower_eq (h : p + 8 ≤ bp ∨ bp + 8 ≤ p) : joinLower m bp p = join m p bp := by
  unfold joinLower join
  split
  · dsimp only
    rw [next_setSize_apart h.symm]
  · rfl

theorem joinUpper_eq (h : p + 8 ≤ bp ∨ bp + 8 ≤ p)
    (h' : next m p + 8 ≤ bp ∨ bp + 8 ≤ next m p) : joinUpper m bp p = join m bp (next m p) := by
  unfold joinUpper join
  split
  · dsimp only
    rw [next_setSize_apart h, next_setSize_apart h']
  · rfl

/-! ## The loop of `free` -/

/-- The chunks behind `bp` are passed, up to `base`. -/
theorem freeLoop_behind (h : Path m l base) (hl : Apart l) (hbase : base < bp)
    (hbp : ∀ y ∈ l, bp < y.start) :
    freeLoop m bp (n + l.length) (first l base) = freeLoop m bp n base := by
  induction l with
  | nil => rfl
  | cons y l ih =>
      obtain ⟨-, hnext, hrest⟩ := h
      obtain ⟨hy, hl⟩ := List.pairwise_cons.mp hl
      have hyp : ¬bp > y.start := Nat.not_lt.mpr (Nat.le_of_lt (hbp y List.mem_cons_self))
      have hwrap : ¬(y.start ≥ next m y.start ∧ (bp > y.start ∨ bp < next m y.start)) := by
        rintro ⟨hge, hlt⟩
        have hlt := hlt.resolve_left hyp
        rw [hnext] at hge hlt
        cases l with
        | nil => exact Nat.lt_asymm hlt hbase
        | cons w l =>
            have hyw : y.start < w.start :=
              Nat.lt_of_le_of_lt y.start_le_fin (hy w List.mem_cons_self)
            exact absurd hge (Nat.not_le.mpr hyw)
      show freeLoop m bp (n + l.length + 1) y.start = _
      rw [freeLoop, if_neg fun hc => hyp hc.1, if_neg hwrap, hnext]
      exact ih hrest hl fun w hw => hbp w (List.mem_cons_of_mem y hw)

/-- The last chunk in front of `bp` is found. -/
theorem freeLoop_before (h : Path m (l₁ ++ z :: l₂) base) (hl : Apart (l₁ ++ z :: l₂))
    (hbase : base ≤ z.start) (h₁ : ∀ y ∈ l₁, y.start < bp) (hz : z.start < bp)
    (h₂ : ∀ y ∈ l₂, bp < y.start) (hn : l₁.length < n) :
    freeLoop m bp n (first (l₁ ++ z :: l₂) base) = some z.start := by
  induction l₁ generalizing n with
  | nil =>
      obtain ⟨-, hnext, -⟩ := h
      cases n with
      | zero => exact absurd hn (Nat.not_lt_zero _)
      | succ n =>
          show freeLoop m bp (n + 1) z.start = _
          rw [freeLoop, hnext]
          cases l₂ with
          | nil =>
              have hnot : ¬(bp > z.start ∧ bp < base) := by omega
              rw [first_nil, if_neg hnot, if_pos ⟨hbase, .inl hz⟩]
          | cons w l₂ => exact if_pos ⟨hz, h₂ w List.mem_cons_self⟩
  | cons y l₁ ih =>
      obtain ⟨-, hnext, hrest⟩ := h
      obtain ⟨hy, hl⟩ := List.pairwise_cons.mp hl
      cases n with
      | zero => exact absurd hn (Nat.not_lt_zero _)
      | succ n =>
          obtain ⟨w, l, he⟩ : ∃ w l, l₁ ++ z :: l₂ = w :: l := by
            cases l₁ with
            | nil => exact ⟨z, l₂, rfl⟩
            | cons w l₁ => exact ⟨w, l₁ ++ z :: l₂, rfl⟩
          have hw : w.start < bp := by
            cases l₁ with
            | nil => exact (List.cons.inj he).1 ▸ hz
            | cons w' l₁ =>
                rw [← (List.cons.inj he).1]
                exact h₁ w' (List.mem_cons_of_mem y List.mem_cons_self)
          have hmem : w ∈ l₁ ++ z :: l₂ := by
            rw [he]
            exact List.mem_cons_self
          have hyw : y.start < w.start := Nat.lt_of_le_of_lt y.start_le_fin (hy w hmem)
          have hf : first (l₁ ++ z :: l₂) base = w.start := by rw [he, first_cons]
          have hnext' : next m y.start = w.start := hnext.trans hf
          show freeLoop m bp (n + 1) y.start = _
          rw [freeLoop, hnext', if_neg (by omega), if_neg (by omega)]
          rw [← hf]
          exact ih hrest hl (fun v hv => h₁ v (List.mem_cons_of_mem y hv))
            (Nat.lt_of_succ_lt_succ hn)

/-- Wherever in the ring it starts, the loop finds the last chunk in front of `bp`. -/
theorem freeLoop_eq (h : Path m (l₁ ++ z :: l₂) base) (hl : Apart (l₁ ++ z :: l₂))
    (hbase : ∀ y ∈ l₁ ++ z :: l₂, base ≤ y.start) (hfirst : first (l₁ ++ z :: l₂) 0 = base)
    (h₁ : ∀ y ∈ l₁, y.start < bp) (hz : z.start < bp) (h₂ : ∀ y ∈ l₂, bp < y.start)
    (hx : x ∈ l₁ ++ z :: l₂) (hn : (l₁ ++ z :: l₂).length ≤ n) :
    freeLoop m bp n x.start = some z.start := by
  have hzm : z ∈ l₁ ++ z :: l₂ := List.mem_append_right l₁ List.mem_cons_self
  have hbz : base ≤ z.start := hbase z hzm
  rw [List.length_append, List.length_cons] at hn
  have hcases : (∃ k₁ k₂, l₁ = k₁ ++ k₂ ∧ x.start = first (k₂ ++ z :: l₂) base) ∨
      ∃ k₁ k₂, l₂ = k₁ ++ k₂ ∧ x.start = first k₂ base := by
    rcases List.mem_append.mp hx with hx | hx
    · obtain ⟨k₁, k₂, rfl⟩ := List.append_of_mem hx
      exact .inl ⟨k₁, x :: k₂, rfl, rfl⟩
    · rcases List.mem_cons.mp hx with rfl | hx
      · exact .inl ⟨l₁, [], (List.append_nil l₁).symm, rfl⟩
      · obtain ⟨k₁, k₂, rfl⟩ := List.append_of_mem hx
        exact .inr ⟨k₁, x :: k₂, rfl, rfl⟩
  rcases hcases with ⟨k₁, k₂, rfl, he⟩ | ⟨k₁, k₂, rfl, he⟩
  · rw [List.append_assoc] at h hl
    rw [List.length_append] at hn
    rw [he]
    exact freeLoop_before (path_append.mp h).2 (List.pairwise_append.mp hl).2.1 hbz
      (fun y hy => h₁ y (List.mem_append_right k₁ hy)) hz h₂ (by omega)
  · have hpath : Path m k₂ base := by
      have h' := (path_append.mp h).2.2.2
      exact (path_append.mp h').2
    have hapart : Apart k₂ := by
      have h' := (List.pairwise_cons.mp (List.pairwise_append.mp hl).2.1).2
      exact (List.pairwise_append.mp h').2.1
    rw [List.length_append] at hn
    obtain ⟨d, rfl⟩ : ∃ d, n = l₁.length + 1 + d + k₂.length :=
      ⟨n - (l₁.length + 1 + k₂.length), by omega⟩
    rw [he, freeLoop_behind hpath hapart (Nat.lt_of_le_of_lt hbz hz)
      fun y hy => h₂ y (List.mem_append_right k₁ hy)]
    have hbefore := freeLoop_before h hl hbz h₁ hz h₂ (n := l₁.length + 1 + d) (by omega)
    have hf : first (l₁ ++ z :: (k₁ ++ k₂)) base = base := by
      rw [← hfirst]
      cases l₁ <;> rfl
    rwa [hf] at hbefore

/-! ## The ring -/

/-- `base`, which is never given away: a chunk without a unit. -/
def baseChunk (base : Nat) : Extent := ⟨base, 0⟩

/-- The free chunks are those of `l`, in order, behind `base` and below `top`. -/
structure Ring (m : Mem) (base top : Nat) (l : List Extent) : Prop where
  path : Path m (baseChunk base :: l) base
  apart : Apart l
  low : ∀ x ∈ l, base + 8 ≤ x.start
  len : ∀ x ∈ l, 8 ≤ x.len
  fin : ∀ x ∈ l, x.fin ≤ top

variable {top : Nat}

theorem Ring.before (h : Ring m base top l) : ∀ x ∈ l, (baseChunk base).Before x := by
  intro x hx
  exact Nat.lt_of_lt_of_le (Nat.lt_add_of_pos_right (by decide : 0 < 8)) (h.low x hx)

theorem Ring.apart_base (h : Ring m base top l) : Apart (baseChunk base :: l) :=
  List.pairwise_cons.mpr ⟨h.before, h.apart⟩

theorem Ring.heads (h : Ring m base top l) :
    (baseChunk base :: l).Pairwise fun x y => x.start + 8 ≤ y.start := by
  refine List.pairwise_cons.mpr ⟨h.low, ?_⟩
  refine h.apart.imp_of_mem ?_
  intro x y hx _ hxy
  have hlen := h.len x hx
  unfold Before Extent.fin at hxy
  omega

/-- A ring depends on the headers only. -/
theorem Ring.congr (h : Ring m base top l) (hbase : ∀ i < 8, m' (base + i) = m (base + i))
    (hl : ∀ x ∈ l, ∀ i < 8, m' (x.start + i) = m (x.start + i)) : Ring m' base top l := by
  refine ⟨h.path.congr ?_, h.apart, h.low, h.len, h.fin⟩
  intro x hx
  rcases List.mem_cons.mp hx with rfl | hx
  · exact hbase
  · exact hl x hx

theorem Ring.mono {top' : Nat} (h : Ring m base top l) (hle : top ≤ top') :
    Ring m base top' l :=
  ⟨h.path, h.apart, h.low, h.len, fun x hx => Nat.le_trans (h.fin x hx) hle⟩

theorem Ring.length_lt (h : Ring m base top l) (hbase : base + 8 ≤ top) : l.length < top := by
  have hroom := h.apart.length_le hbase h.low h.len h.fin
  omega

/-- `free` links `x` in behind `z`. -/
theorem Path.insert (h : Path m (l₁ ++ z :: l₂) base)
    (hheads : (l₁ ++ z :: l₂).Pairwise fun x y => x.start + 8 ≤ y.start)
    (hx : 8 * size m x.start = x.len) (hxbase : base + 8 ≤ x.start) (hxfin : x.fin < 2 ^ 32)
    (hoff : ∀ w ∈ l₁ ++ z :: l₂, w.start + 8 ≤ x.start ∨ x.start + 8 ≤ w.start)
    (hlt : ∀ w ∈ l₁ ++ z :: l₂, w.fin < 2 ^ 32) :
    Path (joinLower (joinUpper m x.start z.start) x.start z.start)
        (l₁ ++ front z (front x l₂)) base ∧
      ∀ a, (a < x.start ∨ x.start + 8 ≤ a) → (a < z.start ∨ z.start + 8 ≤ a) →
        joinLower (joinUpper m x.start z.start) x.start z.start a = m a := by
  obtain ⟨hp₁, hpz, hnext, hp₂⟩ := path_append.mp h
  obtain ⟨-, hheads₂, hheads₁⟩ := List.pairwise_append.mp hheads
  obtain ⟨hheads₂, -⟩ := List.pairwise_cons.mp hheads₂
  have hzm : z ∈ l₁ ++ z :: l₂ := List.mem_append_right l₁ List.mem_cons_self
  have hl₂ : ∀ w ∈ l₂, w ∈ l₁ ++ z :: l₂ := fun w hw =>
    List.mem_append_right l₁ (List.mem_cons_of_mem z hw)
  have hxstart := x.start_le_fin
  have hbase : base < 2 ^ 32 := by omega
  -- `x` and what follows
  have hnextoff : next m z.start + 8 ≤ x.start ∨ x.start + 8 ≤ next m z.start := by
    rw [hnext]
    cases l₂ with
    | nil => exact .inl hxbase
    | cons w l₂ => exact hoff w (hl₂ w List.mem_cons_self)
  have hupper : joinUpper m x.start z.start = join m x.start (first l₂ base) := by
    rw [joinUpper_eq (hoff z hzm) hnextoff, hnext]
  have hp₂' : Path (join m x.start (first l₂ base)) (front x l₂) base :=
    hp₂.joined hx (fun w hw => hoff w (hl₂ w hw)) hbase (fun w hw => hlt w (hl₂ w hw)) hxfin
      fun _ => by omega
  -- what is in front of it
  have hzoff : ∀ w ∈ front x l₂, w.start + 8 ≤ z.start ∨ z.start + 8 ≤ w.start := by
    intro w hw
    rcases start_of_mem_front hw with he | hw
    · rw [he]
      exact (hoff z hzm).symm
    · exact .inr (hheads₂ w hw)
  have hzlt : ∀ w ∈ front x l₂, w.fin < 2 ^ 32 := by
    intro w hw
    have hle : ∀ v ∈ l₂, v.fin ≤ 2 ^ 32 - 1 := fun v hv => Nat.le_sub_one_of_lt (hlt v (hl₂ v hv))
    have hwle := fin_front (Nat.le_sub_one_of_lt hxfin) hle hw
    omega
  have hzsize : 8 * size (join m x.start (first l₂ base)) z.start = z.len := by
    have hsame : ∀ i < 8, join m x.start (first l₂ base) (z.start + i) = m (z.start + i) := by
      intro i hi
      have := hoff z hzm
      exact join_apart (by omega)
    rw [(header_congr hsame).1, hpz]
  have hlower : joinLower (joinUpper m x.start z.start) x.start z.start =
      join (join m x.start (first l₂ base)) z.start (first (front x l₂) base) := by
    rw [joinLower_eq (hoff z hzm), hupper, first_front]
  have hframe : ∀ a, (a < x.start ∨ x.start + 8 ≤ a) → (a < z.start ∨ z.start + 8 ≤ a) →
      joinLower (joinUpper m x.start z.start) x.start z.start a = m a := by
    intro a hax haz
    rw [hlower, join_apart haz, join_apart hax]
  refine ⟨path_append.mpr ⟨?_, ?_⟩, hframe⟩
  · rw [first_front]
    refine hp₁.congr ?_
    intro w hw i hi
    have := hoff w (List.mem_append_left _ hw)
    have := hheads₁ w hw z List.mem_cons_self
    exact hframe _ (by omega) (by omega)
  · rw [hlower]
    exact hp₂'.joined hzsize hzoff hbase hzlt (hlt z hzm) fun hnil => absurd hnil front_ne_nil

/-- A chunk that `free` can be given. -/
structure Loose (m : Mem) (base top : Nat) (l : List Extent) (x : Extent) : Prop where
  size : 8 * size m x.start = x.len
  low : base + 8 ≤ x.start
  len : 8 ≤ x.len
  fin : x.fin ≤ top
  disjoint : ∀ y ∈ l, x.Disjoint y

/-- `free` puts the chunk where it belongs, whatever `freep` is. -/
theorem Ring.free (h : Ring m base top l) (hx : Loose m base top l x) (htop : top < 2 ^ 32)
    (hy : y ∈ baseChunk base :: l) :
    ∃ z ∈ baseChunk base :: l, z.start ∈ (baseChunk base :: put x l).map start ∧
      freeLoop m x.start top y.start = some z.start ∧
      Ring (joinLower (joinUpper m x.start z.start) x.start z.start) base top (put x l) ∧
      ∀ a, (a < x.start ∨ x.start + 8 ≤ a) → (a < z.start ∨ z.start + 8 ≤ a) →
        joinLower (joinUpper m x.start z.start) x.start z.start a = m a := by
  have hapart := h.apart_base
  have hxbase : base + 8 ≤ x.start := hx.low
  have hxlen := hx.len
  have hxtop : x.start + x.len ≤ top := hx.fin
  -- the last chunk in front of `x`
  have hbx : (baseChunk base).start ≤ x.start := Nat.le_trans (Nat.le_add_right base 8) hxbase
  obtain ⟨l₁, z, l₂, hsplit, hz, h₁, h₂⟩ := hapart.split hbx
  have hmem : ∀ w ∈ l₁ ++ z :: l₂, w = baseChunk base ∨ w ∈ l := by
    intro w hw
    rw [← hsplit] at hw
    exact List.mem_cons.mp hw
  have hlow : ∀ w ∈ l₁ ++ z :: l₂, base ≤ w.start := by
    intro w hw
    rcases hmem w hw with rfl | hw
    · exact Nat.le_refl base
    · exact Nat.le_trans (Nat.le_add_right base 8) (h.low w hw)
  have hoff : ∀ w ∈ l₁ ++ z :: l₂, w.start + 8 ≤ x.start ∨ x.start + 8 ≤ w.start := by
    intro w hw
    rcases hmem w hw with rfl | hw
    · exact .inl hxbase
    · have hd := hx.disjoint w hw
      have hw₀ := h.len w hw
      unfold Extent.Disjoint Extent.fin at hd
      omega
  have hlt : ∀ w ∈ l₁ ++ z :: l₂, w.fin < 2 ^ 32 := by
    intro w hw
    rcases hmem w hw with rfl | hw
    · show base + 0 < 2 ^ 32
      omega
    · exact Nat.lt_of_le_of_lt (h.fin w hw) htop
  have hzm : z ∈ l₁ ++ z :: l₂ := List.mem_append_right l₁ List.mem_cons_self
  have hlt₁ : ∀ w ∈ l₁, w.start < x.start := by
    intro w hw
    have := hoff w (List.mem_append_left _ hw)
    have := h₁ w hw
    omega
  have hz' : z.start < x.start := by
    have := hoff z hzm
    omega
  have hpath : Path m (l₁ ++ z :: l₂) base := hsplit ▸ h.path
  have hapart' : Apart (l₁ ++ z :: l₂) := hsplit ▸ hapart
  obtain ⟨hpath', hframe⟩ := hpath.insert (hsplit ▸ h.heads) hx.size hxbase
    (Nat.lt_of_le_of_lt hxtop htop) hoff hlt
  have hput : put x (l₁ ++ z :: l₂) = baseChunk base :: put x l := by
    rw [← hsplit, put, if_neg (Nat.not_lt.mpr hbx), front_of_before]
    intro w hw
    rcases start_of_mem_put hw with he | ⟨v, hv, he⟩
    · show base + 0 < w.start
      omega
    · show base + 0 < w.start
      exact he ▸ h.before v hv
  rw [put_split hapart' hz h₂ h₁] at hput
  refine ⟨z, hsplit ▸ hzm, ?_, ?_, ⟨?_, ?_, ?_, ?_, ?_⟩, hframe⟩
  · rw [← hput, List.map_append, List.mem_append]
    exact .inr start_mem_front
  · refine freeLoop_eq hpath hapart' hlow (hsplit ▸ rfl) hlt₁ hz' h₂ (hsplit ▸ hy) ?_
    rw [← hsplit]
    exact h.length_lt (by omega)
  · rw [← hput]
    exact hpath'
  · exact h.apart.put (Nat.lt_of_lt_of_le (by decide) hxlen) hx.disjoint
  · intro w hw
    rcases start_of_mem_put hw with he | ⟨v, hv, he⟩
    · exact he ▸ hxbase
    · exact he ▸ h.low v hv
  · exact fun w hw =>
      forall_put (fun i j hi _ => Nat.le_trans hi (Nat.le_add_right i j)) hxlen h.len hw
  · exact fun w hw => fin_put hxtop h.fin hw

end Cs537.Umalloc
