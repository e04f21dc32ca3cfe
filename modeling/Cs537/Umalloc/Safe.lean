/-
# `Cs537.Umalloc.Safe` — what the allocator keeps over a run (`user/umalloc.c`)

`Heap lo c s l`: the free chunks are those of `l`, the blocks of the program are apart from
them and from each other, all are behind `lo`, where the heap began, and together they are
the `c` bytes that `morecore` has got.  Each call keeps this (`Heap.step`), and the bytes of
every block that the program has.
-/
import Cs537.Umalloc.Malloc
import Cs537.Lib.Run

namespace Cs537.Umalloc

open Cs537.Lib Cs537.Lib.Extent

variable {s t : Prog} {m m' : Mem} {b : Nat × Nat} {lo c a p n nu : Nat} {x y z : Extent}
  {l l' : List Extent} {grows : Bool} {e : Event}

/-- A block with its header. -/
def blockOf (m : Mem) (b : Nat × Nat) : Extent := ⟨b.1 - 8, 8 * size m (b.1 - 8)⟩

def Prog.blocks (s : Prog) : List Extent := s.live.map (blockOf s.mem)

structure Heap (lo c : Nat) (s : Prog) (l : List Extent) : Prop where
  ready : s.freep = 0 ∧ l = [] ∧ s.live = [] ∨ Ready s l
  base : 0 < s.base
  low : s.base + 8 ≤ lo
  lo_le : lo ≤ s.sz
  top : s.sz ≤ USERTOP
  packed : Packed (l ++ s.blocks)
  inside : ∀ x ∈ l ++ s.blocks, lo ≤ x.start ∧ x.fin ≤ s.sz
  room : ∀ b ∈ s.live, 8 ≤ b.1 ∧ b.2 + 8 ≤ 8 * size s.mem (b.1 - 8)
  nodup : (s.live.map Prod.fst).Nodup
  total : total l + total s.blocks = c

/-- The bytes of the blocks, their headers included, are the same. -/
def Kept (s t : Prog) : Prop :=
  ∀ x ∈ s.blocks, ∀ a, x.start ≤ a → a < x.fin → t.mem a = s.mem a

theorem Heap.len_block (h : Heap lo c s l) (hx : x ∈ s.blocks) : 8 ≤ x.len := by
  obtain ⟨b, hb, rfl⟩ := List.mem_map.mp hx
  have := (h.room b hb).2
  show 8 ≤ 8 * size s.mem (b.1 - 8)
  omega

theorem Heap.kept (h : Heap lo c s l) (hframe : ∀ a < s.sz, (a < s.base ∨ s.base + 8 ≤ a) →
    (∀ z ∈ l, a < z.start ∨ z.fin ≤ a) → t.mem a = s.mem a) : Kept s t := by
  intro x hx a hxa hax
  obtain ⟨hlo, hsz⟩ := h.inside x (List.mem_append_right l hx)
  have hlow := h.low
  refine hframe a (by omega) (.inr (by omega)) ?_
  intro z hz
  have hd := (packed_append.mp h.packed).2.2 z hz x hx
  unfold Extent.Disjoint at hd
  omega

theorem Kept.blockOf (h : Kept s t) (hb : b ∈ s.live) (hlen : 8 ≤ (blockOf s.mem b).len) :
    blockOf t.mem b = blockOf s.mem b := by
  have hsame : ∀ i < 8, t.mem (b.1 - 8 + i) = s.mem (b.1 - 8 + i) := by
    intro i hi
    refine h (Umalloc.blockOf s.mem b) (List.mem_map_of_mem hb) _ (Nat.le_add_right _ _) ?_
    exact Nat.add_lt_add_left (Nat.lt_of_lt_of_le hi hlen) _
  unfold Umalloc.blockOf
  rw [(header_congr hsame).1]

theorem Kept.map_blockOf (h : Kept s t) (hlen : ∀ x ∈ s.blocks, 8 ≤ x.len) {k : List (Nat × Nat)}
    (hk : k ⊆ s.live) : k.map (Umalloc.blockOf t.mem) = k.map (Umalloc.blockOf s.mem) :=
  List.map_congr_left fun _ hb => h.blockOf (hk hb) (hlen _ (List.mem_map_of_mem (hk hb)))

theorem Heap.blocks_eq (h : Heap lo c s l) (hk : Kept s t) (hlive : t.live = s.live) :
    t.blocks = s.blocks := by
  unfold Prog.blocks
  rw [hlive]
  exact hk.map_blockOf (fun x hx => h.len_block hx) (List.Subset.refl _)

theorem Heap.room_of_kept (h : Heap lo c s l) (hk : Kept s t) (hb : b ∈ s.live) :
    8 ≤ b.1 ∧ b.2 + 8 ≤ 8 * size t.mem (b.1 - 8) := by
  have hlen := h.len_block (x := blockOf s.mem b) (List.mem_map_of_mem hb)
  have hsame := congrArg Extent.len (hk.blockOf hb hlen)
  obtain ⟨h8, hroom⟩ := h.room b hb
  exact ⟨h8, hroom.trans_eq hsame.symm⟩

/-- The allocator has changed headers, and `freep`. -/
theorem Heap.changed {c' : Nat} (h : Heap lo c s l) (hbase : t.base = s.base) (hsz : t.sz = s.sz)
    (hring : Ring t.mem s.base s.sz l') (hfreep : t.freep ∈ (baseChunk s.base :: l').map start)
    (hlive : ∀ z ∈ l', ∀ x ∈ t.blocks, z.Disjoint x) (hpacked : Packed t.blocks)
    (hinside : ∀ x ∈ l' ++ t.blocks, lo ≤ x.start ∧ x.fin ≤ s.sz)
    (hroom : ∀ b ∈ t.live, 8 ≤ b.1 ∧ b.2 + 8 ≤ 8 * size t.mem (b.1 - 8))
    (hnodup : (t.live.map Prod.fst).Nodup)
    (htotal : Extent.total l' + Extent.total t.blocks = c') : Heap lo c' t l' := by
  have hlow : t.base + 8 ≤ t.sz := by
    rw [hbase, hsz]
    exact Nat.le_trans h.low h.lo_le
  refine ⟨.inr ⟨?_, ?_, hbase ▸ h.base, hlow, hsz ▸ h.top⟩, hbase ▸ h.base, hbase ▸ h.low,
    hsz ▸ h.lo_le, hsz ▸ h.top, packed_append.mpr ⟨hring.apart.packed, hpacked, hlive⟩, ?_, hroom,
    hnodup, htotal⟩
  · rw [hbase, hsz]
    exact hring
  · rw [hbase]
    exact hfreep
  · rw [hsz]
    exact hinside

/-- Part of a piece that is apart from `y` is apart from `y`. -/
theorem disjoint_of_within (h : x.Disjoint y) (hstart : x.start ≤ z.start) (hfin : z.fin ≤ x.fin) :
    z.Disjoint y := by
  unfold Extent.Disjoint at *
  omega

/-! ## `malloc` -/

theorem Heap.grown (h : Heap lo c s l) (hg : Grown s t l nu) :
    Heap lo (c + 8 * coreUnits nu) t (put ⟨s.sz, 8 * coreUnits nu⟩ l) ∧ Kept s t := by
  have hkept := h.kept hg.frame
  have hlive : t.live = s.live := by rw [hg.rest]
  have hbase : t.base = s.base := by rw [hg.rest]
  have hsz : t.sz = s.sz + 8 * coreUnits nu := by rw [hg.rest]
  have hblocks := h.blocks_eq hkept hlive
  have hlo := h.lo_le
  obtain ⟨hl, hb, hlb⟩ := packed_append.mp h.packed
  refine ⟨⟨.inr hg.ready, hbase ▸ h.base, hbase ▸ h.low, by omega, hg.ready.top, ?_, ?_, ?_,
    hlive ▸ h.nodup, ?_⟩, hkept⟩
  · rw [hblocks]
    refine packed_append.mpr ⟨hg.ready.ring.apart.packed, hb, ?_⟩
    intro z hz x hx
    have hx₀ := h.len_block hx
    refine disjoint_put (by omega) ?_ (fun y hy => hlb y hy x hx) hz
    exact .inr (h.inside x (List.mem_append_right l hx)).2
  · rw [hblocks]
    intro x hx
    rcases List.mem_append.mp hx with hx | hx
    · refine ⟨?_, hg.ready.ring.fin x hx⟩
      rcases start_of_mem_put hx with he | ⟨y, hy, he⟩
      · exact he ▸ hlo
      · exact he ▸ (h.inside y (List.mem_append_left _ hy)).1
    · obtain ⟨h₁, h₂⟩ := h.inside x (List.mem_append_right l hx)
      exact ⟨h₁, by omega⟩
  · intro b hb
    rw [hlive] at hb
    exact h.room_of_kept hkept hb
  · rw [hblocks, total_put, ← h.total]
    dsimp only
    omega

theorem Heap.carved (h : Heap lo c s l) (hc : Carved s t l l' y nu) (hnu : n + 8 ≤ 8 * nu) :
    Heap lo c (t.got (y.start + 8) n) l' ∧ Kept s (t.got (y.start + 8) n) := by
  have hgot : t.got (y.start + 8) n = { t with live := (y.start + 8, n) :: t.live } :=
    if_neg (Nat.succ_ne_zero _)
  have hkept : Kept s t := h.kept fun a _ => hc.frame a
  have hlive : t.live = s.live := by rw [hc.rest]
  have hbase : t.base = s.base := by rw [hc.rest]
  have hsz : t.sz = s.sz := by rw [hc.rest]
  have hblocks := h.blocks_eq hkept hlive
  obtain ⟨hl, hb, hlb⟩ := packed_append.mp h.packed
  have hy : blockOf t.mem (y.start + 8, n) = y := by
    show Extent.mk (y.start + 8 - 8) (8 * size t.mem (y.start + 8 - 8)) = y
    rw [Nat.add_sub_cancel, hc.size]
  have hblocks' : Prog.blocks { t with live := (y.start + 8, n) :: t.live } = y :: s.blocks := by
    rw [← hblocks]
    exact congrArg (· :: t.blocks) hy
  have hwithin : ∀ z ∈ y :: l', ∀ x ∈ s.blocks, z.Disjoint x := by
    intro z hz x hx
    obtain ⟨w, hw, hstart, hfin⟩ := hc.within z hz
    exact disjoint_of_within (hlb w hw x hx) hstart hfin
  have hylen : 8 ≤ y.len := by
    rw [hc.len]
    omega
  rw [hgot]
  refine ⟨h.changed hbase hsz hc.ring hc.freep ?_ ?_ ?_ ?_ ?_ ?_, hkept⟩
  · intro z hz x hx
    rw [hblocks'] at hx
    rcases List.mem_cons.mp hx with rfl | hx
    · exact hc.disjoint z hz
    · exact hwithin z (List.mem_cons_of_mem y hz) x hx
  · rw [hblocks']
    exact List.pairwise_cons.mpr ⟨hwithin y List.mem_cons_self, hb⟩
  · rw [hblocks']
    intro x hx
    have hcases : x ∈ y :: l' ∨ x ∈ s.blocks := by
      rcases List.mem_append.mp hx with hx | hx
      · exact .inl (List.mem_cons_of_mem y hx)
      · rcases List.mem_cons.mp hx with rfl | hx
        · exact .inl List.mem_cons_self
        · exact .inr hx
    rcases hcases with hx | hx
    · obtain ⟨w, hw, hstart, hfin⟩ := hc.within x hx
      obtain ⟨h₁, h₂⟩ := h.inside w (List.mem_append_left _ hw)
      exact ⟨Nat.le_trans h₁ hstart, Nat.le_trans hfin h₂⟩
    · exact h.inside x (List.mem_append_right l hx)
  · intro b hb
    rcases List.mem_cons.mp hb with rfl | hb
    · refine ⟨Nat.le_add_left 8 _, ?_⟩
      have hlen := congrArg Extent.len hy
      have hnu' : n + 8 ≤ y.len := hc.len ▸ hnu
      exact hnu'.trans_eq hlen.symm
    · exact h.room_of_kept hkept (hlive ▸ hb)
  · show (((y.start + 8, n) :: t.live).map Prod.fst).Nodup
    rw [hlive]
    refine List.nodup_cons.mpr ⟨?_, h.nodup⟩
    intro hmem
    obtain ⟨b, hb, he⟩ := List.mem_map.mp hmem
    have hd := hwithin y List.mem_cons_self (blockOf s.mem b) (List.mem_map_of_mem hb)
    have hblen := h.len_block (x := blockOf s.mem b) (List.mem_map_of_mem hb)
    have hstart : (blockOf s.mem b).start = y.start := by
      show b.1 - 8 = y.start
      rw [he]
      exact Nat.add_sub_cancel y.start 8
    unfold Extent.Disjoint Extent.fin at hd
    omega
  · rw [hblocks', ← h.total, hc.total, total_cons]
    omega

/-- The first call makes `base` the only chunk. -/
theorem Heap.initBase (h : Heap lo c s l) :
    Heap lo c (if s.freep = 0 then s.initBase else s) l ∧
      Ready (if s.freep = 0 then s.initBase else s) l ∧
      Kept s (if s.freep = 0 then s.initBase else s) := by
  split
  · rename_i hfreep
    have hnone : l = [] ∧ s.live = [] := by
      rcases h.ready with ⟨-, hl, hlive⟩ | hready
      · exact ⟨hl, hlive⟩
      · exact absurd hfreep hready.freep_ne
    obtain ⟨rfl, hlive⟩ := hnone
    have hblocks : s.initBase.blocks = [] := congrArg (List.map _) hlive
    have hblocks' : s.blocks = [] := congrArg (List.map _) hlive
    have hlow := h.low
    have hlo := h.lo_le
    have htop := h.top
    have hbase32 : s.base < 2 ^ 32 := by
      have := usertop_lt
      omega
    have hready : Ready s.initBase [] := by
      refine ⟨⟨⟨?_, ?_, trivial⟩, .nil, by simp, by simp, by simp⟩, List.mem_cons_self, h.base,
        Nat.le_trans hlow hlo, htop⟩
      · show 8 * size (setSize (setNext s.mem s.base s.base) s.base 0) s.base = 0
        rw [size_setSize (by decide)]
      · show next (setSize (setNext s.mem s.base s.base) s.base 0) s.base = s.base
        rw [next_setSize, next_setNext hbase32]
    refine ⟨⟨.inr hready, h.base, hlow, hlo, htop, ?_, ?_, ?_, h.nodup, ?_⟩, hready, ?_⟩
    · rw [hblocks]
      exact .nil
    · rw [hblocks]
      simp
    · intro b hb
      exact absurd (hlive ▸ hb) List.not_mem_nil
    · rw [hblocks, ← h.total, hblocks']
    · intro x hx
      rw [hblocks'] at hx
      cases hx
  · rename_i hfreep
    refine ⟨h, h.ready.resolve_left fun hc => hfreep hc.1, ?_⟩
    intro x _ a _ _
    rfl

theorem nunits_spec (hn : n + 15 < 2 ^ 31) :
    n + 8 ≤ 8 * nunits n ∧ 0 < nunits n ∧ 8 * nunits n < 2 ^ 31 := by
  unfold nunits
  rw [Nat.mod_eq_of_lt (by omega)]
  omega

/-- What `malloc` leaves. -/
structure Malloced (lo c : Nat) (s : Prog) (l : List Extent) (n : Nat) (grows : Bool)
    (r : Nat × Prog) (l' : List Extent) : Prop where
  heap : Heap lo (c + (r.2.sz - s.sz)) (r.2.got r.1 n) l'
  kept : Kept s (r.2.got r.1 n)
  null : r.1 = 0 ↔ (∀ x ∈ l, x.len < 8 * nunits n) ∧
    ¬(grows = true ∧ s.sz + 8 * coreUnits (nunits n) ≤ USERTOP)

theorem Kept.trans {u : Prog} (hst : Kept s t) (hblocks : t.blocks = s.blocks) (htu : Kept t u) :
    Kept s u := by
  intro x hx a ha ha'
  rw [htu x (hblocks ▸ hx) a ha ha', hst x hx a ha ha']

theorem Heap.malloc (h : Heap lo c s l) (grows : Bool) (hn : n + 15 < 2 ^ 31) :
    ∃ r l', s.malloc n grows = some r ∧ Malloced lo c s l n grows r l' := by
  obtain ⟨hroom, hnu, hnu31⟩ := nunits_spec hn
  obtain ⟨h₀, hready, hkept⟩ := h.initBase
  have hsz : (if s.freep = 0 then s.initBase else s).sz = s.sz := by split <;> rfl
  have hlive : (if s.freep = 0 then s.initBase else s).live = s.live := by split <;> rfl
  have hblocks := h.blocks_eq hkept hlive
  obtain ⟨r, hloop, hout⟩ := hready.malloc grows hnu hnu31
  have hmalloc : s.malloc n grows = some r := hloop
  clear hloop
  generalize (if s.freep = 0 then s.initBase else s) = s₀ at *
  refine ⟨r, ?_⟩
  cases hout with
  | null hsmall hfull =>
      rw [hsz] at hfull
      refine ⟨l, hmalloc, ⟨?_, hkept, fun _ => ⟨hsmall, hfull⟩, fun _ => rfl⟩⟩
      show Heap lo (c + (s₀.sz - s.sz)) s₀ l
      rw [hsz, Nat.sub_self]
      exact h₀
  | @found t l' y hcarved =>
      have htsz : t.sz = s.sz := by rw [hcarved.rest, hsz]
      obtain ⟨h₁, hkept₁⟩ := h₀.carved hcarved hroom
      refine ⟨l', hmalloc, ⟨?_, hkept.trans hblocks hkept₁, ?_, ?_⟩⟩
      · rw [htsz, Nat.sub_self]
        exact h₁
      · exact fun he => absurd he (Nat.succ_ne_zero _)
      · rintro ⟨hsmall, -⟩
        obtain ⟨x, hx, hstart, hfin⟩ := hcarved.within y List.mem_cons_self
        have hlt := hsmall x hx
        have hlen := hcarved.len
        unfold Extent.fin at hfin
        omega
  | @grown s₁ t l' y hsmall hyes hgrown hcarved =>
      have htsz : t.sz - s.sz = 8 * coreUnits (nunits n) := by
        rw [hcarved.rest, hgrown.rest]
        dsimp only
        omega
      obtain ⟨h₁, hkept₁⟩ := h₀.grown hgrown
      obtain ⟨h₂, hkept₂⟩ := h₁.carved hcarved hroom
      have hblocks₁ := h₀.blocks_eq hkept₁ (by rw [hgrown.rest])
      refine ⟨l', hmalloc, ⟨?_, ?_, ?_, ?_⟩⟩
      · rw [htsz]
        exact h₂
      · exact hkept.trans hblocks (hkept₁.trans hblocks₁ hkept₂)
      · exact fun he => absurd he (Nat.succ_ne_zero _)
      · rintro ⟨-, hfull⟩
        exact absurd (hsz ▸ hyes) hfull

/-! ## `free` -/

/-- The program without the block at `p`. -/
def Prog.without (s : Prog) (p : Nat) : Prog :=
  { s with live := s.live.filter (·.1 ≠ p) }

/-- No two blocks are at the same place. -/
theorem live_perm {k : List (Nat × Nat)} (hnodup : (k.map Prod.fst).Nodup) (hb : b ∈ k) :
    k.Perm (b :: k.filter (·.1 ≠ b.1)) := by
  induction k with
  | nil => cases hb
  | cons d k ih =>
      obtain ⟨hd, hnodup⟩ := List.nodup_cons.mp hnodup
      rcases List.mem_cons.mp hb with rfl | hb
      · rw [List.filter_cons_of_neg (by simp), List.filter_eq_self.mpr]
        intro d' hd'
        refine decide_eq_true ?_
        intro he
        exact hd (he ▸ List.mem_map_of_mem hd')
      · have hne : d.1 ≠ b.1 := by
          intro he
          exact hd (he ▸ List.mem_map_of_mem hb)
        rw [List.filter_cons_of_pos (by simpa using hne)]
        exact ((ih hnodup hb).cons d).trans (List.Perm.swap b d _)

theorem Heap.free (h : Heap lo c s l) (hp : p ∈ s.live.map Prod.fst) :
    ∃ t l', s.free p = some t ∧ Heap lo c (t.without p) l' ∧ t.live = s.live ∧
      ∀ d ∈ s.live, d.1 ≠ p → ∀ a, (blockOf s.mem d).start ≤ a → a < (blockOf s.mem d).fin →
        t.mem a = s.mem a := by
  obtain ⟨b, hb, rfl⟩ := List.mem_map.mp hp
  have hready : Ready s l := by
    refine h.ready.resolve_left ?_
    rintro ⟨-, -, hnil⟩
    rw [hnil] at hb
    cases hb
  have hperm := live_perm h.nodup hb
  have hlive' : (s.without b.1).live = s.live.filter (·.1 ≠ b.1) := rfl
  rw [← hlive'] at hperm
  generalize (s.without b.1).live = k at *
  have hsub : k ⊆ s.live := fun d hd => hperm.mem_iff.mpr (List.mem_cons_of_mem b hd)
  -- the block is a loose chunk
  obtain ⟨x, hx⟩ : ∃ x, x = blockOf s.mem b := ⟨_, rfl⟩
  have hblocks : s.blocks.Perm (x :: k.map (blockOf s.mem)) := by
    rw [hx]
    exact hperm.map (blockOf s.mem)
  have hxb : x ∈ s.blocks := hblocks.mem_iff.mpr List.mem_cons_self
  obtain ⟨hlo, hfin⟩ := h.inside x (List.mem_append_right l hxb)
  have hxlen := h.len_block hxb
  have hlow := h.low
  obtain ⟨hb8, -⟩ := h.room b hb
  have hstart : x.start + 8 = b.1 := by
    rw [hx]
    exact Nat.sub_add_cancel hb8
  obtain ⟨hlapart, hpacked, hlb⟩ := packed_append.mp h.packed
  have hpacked' := (packed_perm hblocks).mp hpacked
  obtain ⟨hxk, hpk⟩ := List.pairwise_cons.mp hpacked'
  have hloose : Loose s.mem s.base s.sz l x := by
    refine ⟨?_, Nat.le_trans hlow hlo, hxlen, hfin, fun y hy => (hlb y hy x hxb).symm⟩
    rw [hx]
    rfl
  obtain ⟨t, ht, hring, hfreep, hrest, hframe⟩ :=
    Ready.free hready.ring hready.freep h.top hloose
  rw [hstart] at ht
  have hothers : ∀ y ∈ s.blocks, y ∈ k.map (blockOf s.mem) → ∀ a, y.start ≤ a →
      a < y.fin → t.mem a = s.mem a := by
    intro y hy hyk a hya hay
    have hylo := (h.inside y (List.mem_append_right l hy)).1
    refine hframe a (.inr (by omega)) ?_
    intro z hz
    have hd : z.Disjoint y := by
      rcases List.mem_cons.mp hz with rfl | hz
      · exact hxk y hyk
      · exact hlb z hz y hy
    unfold Extent.Disjoint at hd
    omega
  have hsame : ∀ d ∈ k, blockOf t.mem d = blockOf s.mem d := by
    intro d hd
    have hdb : blockOf s.mem d ∈ s.blocks := List.mem_map_of_mem (hsub hd)
    have hdlen := h.len_block hdb
    have hheader : ∀ i < 8, t.mem (d.1 - 8 + i) = s.mem (d.1 - 8 + i) := by
      intro i hi
      refine hothers _ hdb (List.mem_map_of_mem hd) _ (Nat.le_add_right _ _) ?_
      exact Nat.add_lt_add_left (Nat.lt_of_lt_of_le hi hdlen) _
    unfold blockOf
    rw [(header_congr hheader).1]
  have hlive : t.live = s.live := by rw [hrest]
  have hbase : t.base = s.base := by rw [hrest]
  have hsz : t.sz = s.sz := by rw [hrest]
  have hblocks' : (t.without b.1).blocks = k.map (blockOf s.mem) := by
    show (t.live.filter (·.1 ≠ b.1)).map (blockOf t.mem) = _
    rw [hlive, ← hlive']
    exact List.map_congr_left hsame
  refine ⟨t, put x l, ht, ?_, hlive, ?_⟩
  · refine h.changed hbase hsz hring hfreep ?_ ?_ ?_ ?_ ?_ ?_
    · rw [hblocks']
      intro z hz y hy
      have hyb : y ∈ s.blocks := hblocks.mem_iff.mpr (List.mem_cons_of_mem x hy)
      have hy₀ := h.len_block hyb
      exact disjoint_put (by omega) (hxk y hy) (fun w hw => hlb w hw y hyb) hz
    · rw [hblocks']
      exact hpk
    · rw [hblocks']
      intro y hy
      rcases List.mem_append.mp hy with hy | hy
      · refine ⟨?_, hring.fin y hy⟩
        rcases start_of_mem_put hy with he | ⟨w, hw, he⟩
        · exact he ▸ hlo
        · exact he ▸ (h.inside w (List.mem_append_left _ hw)).1
      · exact h.inside y
          (List.mem_append_right l (hblocks.mem_iff.mpr (List.mem_cons_of_mem x hy)))
    · intro d hd
      have hd' : d ∈ k := by
        rw [hlive', ← hlive]
        exact hd
      obtain ⟨h8, hroom⟩ := h.room d (hsub hd')
      exact ⟨h8, hroom.trans_eq (congrArg Extent.len (hsame d hd')).symm⟩
    · show ((t.live.filter (·.1 ≠ b.1)).map Prod.fst).Nodup
      rw [hlive]
      exact h.nodup.sublist (List.filter_sublist.map _)
    · rw [hblocks', total_put, ← h.total, total_perm hblocks, total_cons]
      omega
  · intro d hd hdb a
    refine hothers _ (List.mem_map_of_mem hd) (List.mem_map_of_mem ?_) a
    refine (List.mem_cons.mp (hperm.mem_iff.mp hd)).resolve_left ?_
    intro he
    exact hdb (congrArg Prod.fst he)

/-! ## What the program does itself -/

/-- What the program asked for is in the block, behind its header. -/
theorem Heap.payload (h : Heap lo c s l) (hb : b ∈ s.live) (hba : b.1 ≤ a) (hab : a < b.1 + b.2) :
    (blockOf s.mem b).start + 8 ≤ a ∧ a < (blockOf s.mem b).fin := by
  obtain ⟨h8, hroom⟩ := h.room b hb
  refine ⟨?_, ?_⟩
  · show b.1 - 8 + 8 ≤ a
    omega
  · show a < b.1 - 8 + 8 * size s.mem (b.1 - 8)
    omega

theorem Heap.store (h : Heap lo c s l) (ha : s.Owns a) (v : UInt8) :
    Heap lo c { s with mem := Function.update s.mem a v } l := by
  obtain ⟨b, hb, hba, hab⟩ := ha
  obtain ⟨hba, hab⟩ := h.payload hb hba hab
  have hbm : blockOf s.mem b ∈ s.blocks := List.mem_map_of_mem hb
  have hready : Ready s l := by
    refine h.ready.resolve_left ?_
    rintro ⟨-, -, hnil⟩
    rw [hnil] at hb
    cases hb
  obtain ⟨hlo, -⟩ := h.inside _ (List.mem_append_right l hbm)
  have hlow := h.low
  obtain ⟨-, hpacked, hlb⟩ := packed_append.mp h.packed
  have hne : ∀ q, q + 8 ≤ a ∨ a < q → ∀ i < 8, Function.update s.mem a v (q + i) = s.mem (q + i) :=
    fun q hq i hi => Function.update_of_ne (by omega) v s.mem
  have hring : Ring (Function.update s.mem a v) s.base s.sz l := by
    refine hready.ring.congr (hne s.base (.inl (by omega))) ?_
    intro x hx
    refine hne x.start ?_
    have hd := hlb x hx _ hbm
    have hlen := hready.ring.len x hx
    unfold Extent.Disjoint Extent.fin at hd
    unfold Extent.fin at hab
    omega
  have hsame : ∀ d ∈ s.live, blockOf (Function.update s.mem a v) d = blockOf s.mem d := by
    intro d hd
    have hoff : (blockOf s.mem d).start + 8 ≤ a ∨ a < (blockOf s.mem d).start := by
      by_cases he : blockOf s.mem d = blockOf s.mem b
      · rw [he]
        exact .inl hba
      · have hdm : blockOf s.mem d ∈ s.blocks := List.mem_map_of_mem hd
        have hdisj := Packed.disjoint hpacked hdm hbm he
        have hlen := h.len_block hdm
        unfold Extent.Disjoint Extent.fin at hdisj
        unfold Extent.fin at hab
        omega
    unfold blockOf
    rw [(header_congr (hne (d.1 - 8) hoff)).1]
  have hblocks : Prog.blocks { s with mem := Function.update s.mem a v } = s.blocks :=
    List.map_congr_left hsame
  refine h.changed rfl rfl hring hready.freep ?_ ?_ ?_ ?_ h.nodup ?_
  · rw [hblocks]
    exact hlb
  · rw [hblocks]
    exact hpacked
  · rw [hblocks]
    exact h.inside
  · intro d hd
    obtain ⟨h8, hroom⟩ := h.room d hd
    exact ⟨h8, hroom.trans_eq (congrArg Extent.len (hsame d hd)).symm⟩
  · rw [hblocks]
    exact h.total

theorem Heap.sbrk (h : Heap lo c s l) (grows : Bool) {k : BitVec 32} (hk : 0 < k.toInt) :
    Heap lo c ((s.sbrk k grows).elim s Prod.snd) l ∧
      Kept s ((s.sbrk k grows).elim s Prod.snd) ∧
      ((s.sbrk k grows).elim s Prod.snd).live = s.live := by
  have hself : Heap lo c s l ∧ Kept s s ∧ s.live = s.live := ⟨h, fun _ _ _ _ _ => rfl, rfl⟩
  unfold Prog.sbrk Prog.growproc Prog.allocuvm
  rw [if_pos hk]
  split
  · exact hself
  · rename_i htop
    split
    · exact hself
    · rename_i hge
      split
      · obtain ⟨sz, hsz⟩ : ∃ sz, sz = (s.sz + k.toNat) % 2 ^ 32 := ⟨_, rfl⟩
        rw [← hsz] at htop hge ⊢
        have hle : s.sz ≤ sz := Nat.not_lt.mp hge
        have hmem : ∀ b < s.sz, s.mem.copy (pgroundup s.sz) (pgroundup sz - pgroundup s.sz)
            (fun _ => 0) b = s.mem b := fun b hb =>
          Mem.copy_apart (.inl (Nat.lt_of_lt_of_le hb (le_pgroundup s.sz)))
        show Heap lo c { s with mem := _, sz := sz } l ∧ Kept s { s with mem := _, sz := sz } ∧ _
        have hkept : Kept s { s with
            mem := s.mem.copy (pgroundup s.sz) (pgroundup sz - pgroundup s.sz) fun _ => 0
            sz := sz } := h.kept fun b hb _ _ => hmem b hb
        refine ⟨?_, hkept, rfl⟩
        have hblocks := h.blocks_eq hkept rfl
        have hlow := h.low
        have hlo := h.lo_le
        refine ⟨?_, h.base, hlow, Nat.le_trans hlo hle, Nat.not_lt.mp htop, ?_, ?_, ?_, h.nodup, ?_⟩
        · refine h.ready.imp id ?_
          intro hready
          refine ⟨(hready.ring.congr ?_ ?_).mono hle, hready.freep, h.base,
            Nat.le_trans hready.low hle, Nat.not_lt.mp htop⟩
          · intro i hi
            exact hmem _ (by omega)
          · intro x hx i hi
            have hlen := hready.ring.len x hx
            have hfin := hready.ring.fin x hx
            unfold Extent.fin at hfin
            exact hmem _ (by omega)
        · rw [hblocks]
          exact h.packed
        · rw [hblocks]
          intro x hx
          exact ⟨(h.inside x hx).1, Nat.le_trans (h.inside x hx).2 hle⟩
        · exact fun b hb => h.room_of_kept hkept hb
        · rw [hblocks]
          exact h.total
      · exact hself

/-! ## Runs -/

/-- A request of less than half the address space. -/
def Event.Fine : Event → Prop
  | .malloc nbytes _ => nbytes + 15 < 2 ^ 31
  | _ => True

/-- What the program has put into its blocks, and how much `morecore` has got. -/
def note (x : Mem × Nat) (s : Prog) (e : Event) (t : Prog) : Mem × Nat :=
  match e with
  | .malloc _ _ => (fun a => if s.Owns a then x.1 a else t.mem a, x.2 + (t.sz - s.sz))
  | .store a v => (Function.update x.1 a v, x.2)
  | _ => x

/-- The allocator keeps its invariant, and the program finds what it has put. -/
structure Good (lo : Nat) (s : Prog) (x : Mem × Nat) : Prop where
  heap : ∃ l, Heap lo x.2 s l
  content : ∀ a, s.Owns a → s.mem a = x.1 a

theorem Heap.content_of_kept (h : Heap lo c s l) (hk : Kept s t) (ha : s.Owns a) :
    t.mem a = s.mem a := by
  obtain ⟨b, hb, hba, hab⟩ := ha
  obtain ⟨hba, hab⟩ := h.payload hb hba hab
  exact hk _ (List.mem_map_of_mem hb) a (by omega) hab

theorem got_sz (s : Prog) (p n : Nat) : (s.got p n).sz = s.sz := by
  unfold Prog.got
  split <;> rfl

theorem Good.step {v : Mem × Nat} (h : Good lo s v) (he : e.Fine) (ht : s.step e = some t) :
    Good lo t (note v s e t) := by
  obtain ⟨⟨l, hheap⟩, hcontent⟩ := h
  cases e with
  | malloc n grows =>
      obtain ⟨r, l', hr, hm⟩ := hheap.malloc grows he
      simp only [Prog.step, hr, Option.map_some, Option.some.injEq] at ht
      subst ht
      refine ⟨⟨l', ?_⟩, ?_⟩
      · show Heap lo (v.2 + ((r.2.got r.1 n).sz - s.sz)) _ l'
        rw [got_sz]
        exact hm.heap
      · intro a _
        show _ = if s.Owns a then v.1 a else (r.2.got r.1 n).mem a
        split
        · rename_i ha
          rw [hheap.content_of_kept hm.kept ha, hcontent a ha]
        · rfl
  | free p =>
      simp only [Prog.step] at ht
      split at ht
      · rename_i hp
        obtain ⟨u, l', hu, hheap', hlive, hkept⟩ := hheap.free hp
        rw [hu] at ht
        obtain rfl := Option.some.inj ht
        refine ⟨⟨l', hheap'⟩, ?_⟩
        rintro a ⟨b, hb, hba, hab⟩
        obtain ⟨hb, hbp⟩ := List.mem_filter.mp hb
        rw [hlive] at hb
        obtain ⟨hba', hab'⟩ := hheap.payload hb hba hab
        have hsame := hkept b hb (of_decide_eq_true hbp) a (by omega) hab'
        exact hsame.trans (hcontent a ⟨b, hb, hba, hab⟩)
      · cases ht
  | store a w =>
      simp only [Prog.step] at ht
      split at ht
      · rename_i ha
        obtain rfl := Option.some.inj ht
        refine ⟨⟨l, hheap.store ha w⟩, ?_⟩
        intro a' ha'
        show Function.update s.mem a w a' = Function.update v.1 a w a'
        by_cases hne : a' = a
        · rw [hne, Function.update_self, Function.update_self]
        · rw [Function.update_of_ne hne, Function.update_of_ne hne]
          exact hcontent a' ha'
      · cases ht
  | sbrk k grows =>
      simp only [Prog.step] at ht
      split at ht
      · rename_i hk
        obtain rfl := Option.some.inj ht
        obtain ⟨hheap', hkept, hlive⟩ := hheap.sbrk grows hk
        refine ⟨⟨l, hheap'⟩, ?_⟩
        intro a ha
        have ha' : s.Owns a := by
          unfold Prog.Owns at ha
          rwa [hlive] at ha
        exact (hheap.content_of_kept hkept ha').trans (hcontent a ha')
      · cases ht

theorem good_boot {base sz : Nat} (mem : Mem) (hbase : 0 < base) (hlow : base + 8 ≤ sz)
    (htop : sz ≤ USERTOP) : Good sz (boot mem base sz) (mem, 0) :=
  ⟨⟨[], .inl ⟨rfl, rfl, rfl⟩, hbase, hlow, Nat.le_refl sz, htop, .nil,
    by simp [boot, Prog.blocks], by simp [boot], .nil, rfl⟩, fun _ _ => rfl⟩

theorem good_run {base sz : Nat} (mem : Mem) (es : List Event) (hbase : 0 < base)
    (hlow : base + 8 ≤ sz) (htop : sz ≤ USERTOP) (hes : ∀ e ∈ es, e.Fine) :
    AllStates (watch Prog.step note) (fun x => Good sz x.1 x.2) (boot mem base sz, mem, 0) es := by
  refine allStates_of_allSteps (C := fun _ e => e.Fine) ?_ (good_boot mem hbase hlow htop)
    (allSteps_of_forall hes)
  rintro x e y h he ht
  obtain ⟨hstep, hnote⟩ := watch_eq_some.mp ht
  rw [← hnote]
  exact h.step he hstep

/-- The free chunks are those of `l`; before the first call there is no ring. -/
def Chunks (s : Prog) (l : List Extent) : Prop :=
  s.freep = 0 ∧ l = [] ∨
    Path s.mem (baseChunk s.base :: l) s.base ∧ s.freep ∈ (baseChunk s.base :: l).map start

theorem Heap.chunks (h : Heap lo c s l) : Chunks s l :=
  h.ready.imp (fun hnone => ⟨hnone.1, hnone.2.1⟩) fun hready => ⟨hready.ring.path, hready.freep⟩

/-- Every search ends.  `malloc` fails just when no chunk is large enough and there is no more
memory for `morecore`; `free` takes every block. -/
theorem search_run {base sz : Nat} (mem : Mem) (es : List Event) (hbase : 0 < base)
    (hlow : base + 8 ≤ sz) (htop : sz ≤ USERTOP) (hes : ∀ e ∈ es, e.Fine) :
    AllStates Prog.step (fun s => ∃ l, Chunks s l ∧
      (∀ n grows, n + 15 < 2 ^ 31 → ∃ p t, s.malloc n grows = some (p, t) ∧
        (p = 0 ↔ (∀ x ∈ l, x.len < 8 * nunits n) ∧
          ¬(grows = true ∧ s.sz + 8 * coreUnits (nunits n) ≤ USERTOP))) ∧
      ∀ p ∈ s.live.map Prod.fst, ∃ t, s.free p = some t) (boot mem base sz) es := by
  have hrun : AllStates Prog.step (fun s => ∃ v, Good sz s v) (boot mem base sz) es := by
    refine allStates_of_allSteps (C := fun _ e => e.Fine) ?_
      ⟨_, good_boot mem hbase hlow htop⟩ (allSteps_of_forall hes)
    rintro s e t ⟨v, h⟩ he ht
    exact ⟨_, h.step he ht⟩
  refine hrun.mono ?_
  rintro s ⟨v, ⟨l, hheap⟩, -⟩
  refine ⟨l, hheap.chunks, ?_, ?_⟩
  · intro n grows hn
    obtain ⟨⟨p, t⟩, l', hr, hm⟩ := hheap.malloc grows hn
    exact ⟨p, t, hr, hm.null⟩
  · intro p hp
    obtain ⟨t, l', ht, -⟩ := hheap.free hp
    exact ⟨t, ht⟩

theorem search_run_reused : AllStates Prog.step (fun s => ∃ l, Chunks s l ∧
      (∀ n grows, n + 15 < 2 ^ 31 → ∃ p t, s.malloc n grows = some (p, t) ∧
        (p = 0 ↔ (∀ x ∈ l, x.len < 8 * nunits n) ∧
          ¬(grows = true ∧ s.sz + 8 * coreUnits (nunits n) ≤ USERTOP))) ∧
      ∀ p ∈ s.live.map Prod.fst, ∃ t, s.free p = some t) (boot (fun _ => 0) 8 4096)
    [.malloc 10 true, .store 36848 1, .malloc 100 true, .free 36848, .malloc 20000 true] :=
  search_run (fun _ => 0) _ (by decide) (by decide) (by decide) (by simp [Event.Fine])

end Cs537.Umalloc
