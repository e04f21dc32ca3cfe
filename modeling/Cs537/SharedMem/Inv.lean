/-
# `Cs537.SharedMem.Inv` — who owns which page

The invariant behind every statement about shared memory.

* Each page has at most one owner: the free list, one process (its stack, its
  page tables, its private memory), or one key with `ref_count != 0`.  As a
  count this is `owners ≤ 1`, and page 0 has no owner.
* The address space of a process (`Space`): private pages below `sz`, and
  above some page `lo` one block for each key it is attached to, which maps
  the first pages of that key downwards from the top of the block.
* `ref_count` counts the attached processes; a key in use lists its own pages
  (`KeyOk`), and a key out of use lists no page of a key in use (`stale`).

What follows from it is the one fact that `checkifshared` needs: on a page
that a process maps for a key, the search finds that key and that index,
provided the index is below `num_pages` (`Inv.findShared_owned`).
-/
import Cs537.SharedMem.System
import Cs537.Lib.Holdings

namespace Cs537.SharedMem

open Cs537.Lib

/-! ## Owners -/

/-- The pages that belong to one process. -/
def procPages (q : Proc) : List Nat :=
  if q.state = .unused then []
  else q.kstack.toList ++
    match q.pgdir with
    | none => []
    | some pd => pd.dir :: (pd.tables ++ if q.state = .embryo then [] else privPages pd q.sz)

/-- The pages that belong to a key: none while nobody is attached. -/
def keyPages (k : Kernel) (gen : Key → List Nat) (i : Key) : List Nat :=
  if (k.shmPa i).refCount = 0 then [] else gen i

/-- How many owners a page has. -/
def owners (k : Kernel) (gen : Key → List Nat) (a : Nat) : Nat :=
  k.freelist.count a + uses (fun p => procPages (k.proc p)) a + uses (keyPages k gen) a

/-! ## Address spaces -/

/-- A process with an address space: neither a free slot nor half made. -/
def Real (q : Proc) : Prop := q.state ≠ .unused ∧ q.state ≠ .embryo

/-- The user page where a process maps the page `j` of the key `i`; `shm_va`
is the address of the last page mapped, which is the lowest. -/
def blockPage (q : Proc) (asked : Key → Nat) (i : Key) (j : Nat) : Nat :=
  q.shmVa i / pgsize + (asked i - 1 - j)

/-- The address space of a process that attached with the counts `asked`. -/
structure Space (q : Proc) (asked : Key → Nat) (gen : Key → List Nat) (pd : Pgdir)
    (lo : Nat) : Prop where
  pgdir : q.pgdir = some pd
  size : q.sz ≤ usertop
  low : npages q.sz ≤ lo
  high : lo ≤ userPages
  shaped : Shaped pd (npages q.sz) lo
  aligned : ∀ i, q.shmVa i ≠ usertop → q.shmVa i % pgsize = 0
  count : ∀ i, q.shmVa i ≠ usertop → 1 ≤ asked i ∧ asked i ≤ (gen i).length
  inside : ∀ i, q.shmVa i ≠ usertop →
    lo ≤ q.shmVa i / pgsize ∧ q.shmVa i / pgsize + asked i ≤ userPages
  maps : ∀ i j, q.shmVa i ≠ usertop → j < asked i →
    pd.upte (blockPage q asked i j) = (gen i)[j]?
  cover : ∀ v, lo ≤ v → v < userPages →
    ∃ i j, q.shmVa i ≠ usertop ∧ j < asked i ∧ v = blockPage q asked i j

/-- A key in use: `page_ptr` lists its pages, `num_pages` some of them. -/
structure KeyOk (m : ShPhyMem) (g : List Nat) : Prop where
  pos : 1 ≤ m.numPages
  num : m.numPages ≤ g.length
  four : g.length ≤ 4
  ptr : ∀ j : Fin 4, j.val < g.length → g[j.val]? = some (m.pagePtr j)

/-- The invariant of the kernel, for the history `asked` and `gen`. -/
structure Inv (k : Kernel) (asked : Slot → Key → Nat) (gen : Key → List Nat) : Prop where
  once : ∀ a, owners k gen a ≤ 1
  zero : owners k gen 0 = 0
  space : ∀ p, Real (k.proc p) → ∃ pd lo, Space (k.proc p) (asked p) gen pd lo
  embryo : ∀ p, (k.proc p).state = .embryo → ∀ i, (k.proc p).shmVa i = usertop
  counted : ∀ i, (k.shmPa i).refCount = (Finset.univ.filter fun p => Attached k p i).card
  key : ∀ i, (k.shmPa i).refCount ≠ 0 → KeyOk (k.shmPa i) (gen i)
  stale : ∀ i i', (k.shmPa i).refCount ≠ 0 → (k.shmPa i').refCount = 0 →
    ∀ j : Fin 4, j.val < (k.shmPa i').numPages → (k.shmPa i').pagePtr j ∉ gen i

section Owners

variable {k : Kernel} {asked : Slot → Key → Nat} {gen : Key → List Nat}

theorem Live.real {p : Slot} (h : Live k p) : Real (k.proc p) := by
  rcases h with h | h | h <;> simp [Real, h]

theorem Inv.attached_real (h : Inv k asked gen) {p : Slot} {i : Key} (ha : Attached k p i) :
    Real (k.proc p) :=
  ⟨ha.1, fun he => ha.2 (h.embryo p he i)⟩

theorem Inv.refCount_ne_zero (h : Inv k asked gen) {p : Slot} {i : Key} (ha : Attached k p i) :
    (k.shmPa i).refCount ≠ 0 := by
  have hcard : 0 < (Finset.univ.filter fun p => Attached k p i).card :=
    Finset.card_pos.mpr ⟨p, Finset.mem_filter.mpr ⟨Finset.mem_univ p, ha⟩⟩
  rw [h.counted i]
  omega

theorem keyPages_of_ne {i : Key} (h : (k.shmPa i).refCount ≠ 0) : keyPages k gen i = gen i :=
  if_neg h

theorem Inv.uses_keys_le (h : Inv k asked gen) (a : Nat) : uses (keyPages k gen) a ≤ 1 := by
  have := h.once a
  simp only [owners] at this
  omega

/-- A page of a key in use has no other owner. -/
theorem Inv.not_elsewhere (h : Inv k asked gen) {i : Key} {a : Nat}
    (hi : (k.shmPa i).refCount ≠ 0) (ha : a ∈ gen i) :
    k.freelist.count a = 0 ∧ uses (fun p => procPages (k.proc p)) a = 0 := by
  have h1 := h.once a
  have h2 := count_le_uses (keyPages k gen) i a
  rw [keyPages_of_ne hi] at h2
  have h3 := one_le_count ha
  simp only [owners] at h1
  omega

theorem Inv.not_free (h : Inv k asked gen) {i : Key} {a : Nat} (hi : (k.shmPa i).refCount ≠ 0)
    (ha : a ∈ gen i) : a ∉ k.freelist :=
  List.count_eq_zero.mp (h.not_elsewhere hi ha).1

theorem Inv.not_private (h : Inv k asked gen) {i : Key} {a : Nat}
    (hi : (k.shmPa i).refCount ≠ 0) (ha : a ∈ gen i) (p : Slot) : a ∉ procPages (k.proc p) := by
  have h1 := (h.not_elsewhere hi ha).2
  have h2 := count_le_uses (fun p => procPages (k.proc p)) p a
  exact List.count_eq_zero.mp (by omega)

theorem Inv.key_unique (h : Inv k asked gen) {i i' : Key} {a : Nat}
    (hi : (k.shmPa i).refCount ≠ 0) (hi' : (k.shmPa i').refCount ≠ 0) (ha : a ∈ gen i)
    (ha' : a ∈ gen i') : i = i' :=
  holder_unique (h.uses_keys_le a) (by rwa [keyPages_of_ne hi]) (by rwa [keyPages_of_ne hi'])

theorem Inv.gen_nodup (h : Inv k asked gen) {i : Key} (hi : (k.shmPa i).refCount ≠ 0) :
    (gen i).Nodup := by
  have := nodup_of_uses_le_one h.uses_keys_le i
  rwa [keyPages_of_ne hi] at this

/-- A page of a key in use determines the key and the index. -/
theorem Inv.gen_inj (h : Inv k asked gen) {i i' : Key} {j j' a : Nat}
    (hi : (k.shmPa i).refCount ≠ 0) (hi' : (k.shmPa i').refCount ≠ 0)
    (hj : (gen i)[j]? = some a) (hj' : (gen i')[j']? = some a) : i = i' ∧ j = j' := by
  have hii : i = i' :=
    h.key_unique hi hi' (List.mem_of_getElem? hj) (List.mem_of_getElem? hj')
  subst hii
  obtain ⟨hlt, hval⟩ := List.getElem?_eq_some_iff.mp hj
  obtain ⟨hlt', hval'⟩ := List.getElem?_eq_some_iff.mp hj'
  exact ⟨rfl, ((h.gen_nodup hi).getElem_inj_iff).mp (hval.trans hval'.symm)⟩

end Owners

/-! ## The search of `checkifshared` -/

theorem findShared_sound {shm : Key → ShPhyMem} {pa : Nat} {i : Key} {j : Fin 4}
    (h : findShared shm pa = some (i, j)) : j.val < (shm i).numPages ∧ (shm i).pagePtr j = pa := by
  obtain ⟨i', -, hi'⟩ := List.exists_of_findSome?_eq_some h
  obtain ⟨j', hj', heq⟩ := Option.map_eq_some_iff.mp hi'
  obtain ⟨rfl, rfl⟩ := Prod.mk.inj heq
  have hfound := List.find?_some hj'
  obtain ⟨h1, h2⟩ := of_decide_eq_true hfound
  exact ⟨h1, h2.symm⟩

theorem findShared_complete {shm : Key → ShPhyMem} {pa : Nat} {i : Key} {j : Fin 4}
    (hj : j.val < (shm i).numPages) (hp : (shm i).pagePtr j = pa) :
    ∃ i' j', findShared shm pa = some (i', j') := by
  cases hf : findShared shm pa with
  | some ij => exact ⟨ij.1, ij.2, rfl⟩
  | none =>
      have h1 := List.findSome?_eq_none_iff.mp hf i (List.mem_finRange i)
      have h2 := List.find?_eq_none.mp (Option.map_eq_none_iff.mp h1) j (List.mem_finRange j)
      exact absurd (decide_eq_true ⟨hj, hp.symm⟩) h2

section Search

variable {k : Kernel} {asked : Slot → Key → Nat} {gen : Key → List Nat}

/-- On the page `j` of a key in use the search finds that key and that index,
if it looks so far. -/
theorem Inv.findShared_owned (h : Inv k asked gen) {i : Key} {j pa : Nat}
    (hi : (k.shmPa i).refCount ≠ 0) (hj : (gen i)[j]? = some pa) (i' : Key) (j' : Fin 4) :
    findShared k.shmPa pa = some (i', j') ↔ i' = i ∧ j'.val = j ∧ j < (k.shmPa i).numPages := by
  have hK := h.key i hi
  -- whatever is found is the page `j` of the key `i`
  have found : ∀ {i' j'}, findShared k.shmPa pa = some (i', j') →
      i' = i ∧ j'.val = j ∧ j < (k.shmPa i).numPages := by
    intro i' j' hf
    obtain ⟨hlt, hptr⟩ := findShared_sound hf
    by_cases hi' : (k.shmPa i').refCount = 0
    · exact absurd (hptr ▸ List.mem_of_getElem? hj) (h.stale i i' hi hi' j' hlt)
    · have hK' := h.key i' hi'
      have hj' : (gen i')[j'.val]? = some pa := hptr ▸ hK'.ptr j' (hlt.trans_le hK'.num)
      obtain ⟨rfl, rfl⟩ := h.gen_inj hi' hi hj' hj
      exact ⟨rfl, rfl, hlt⟩
  refine ⟨found, ?_⟩
  rintro ⟨rfl, rfl, hlt⟩
  have hptr : (k.shmPa i').pagePtr j' = pa := by
    have := hK.ptr j' (hlt.trans_le hK.num)
    rw [hj] at this
    exact (Option.some.inj this).symm
  obtain ⟨i₁, j₁, hf⟩ := findShared_complete hlt hptr
  obtain ⟨rfl, he, -⟩ := found hf
  rwa [Fin.ext he] at hf

/-- On a page that no key in use owns the search finds at most a key out of
use. -/
theorem Inv.findShared_foreign (h : Inv k asked gen) {pa : Nat}
    (hpa : ∀ i, (k.shmPa i).refCount ≠ 0 → pa ∉ gen i) {i : Key} {j : Fin 4}
    (hf : findShared k.shmPa pa = some (i, j)) : (k.shmPa i).refCount = 0 := by
  by_contra hi
  obtain ⟨hlt, hptr⟩ := findShared_sound hf
  have hK := h.key i hi
  exact hpa i hi (hptr ▸ List.mem_of_getElem? (hK.ptr j (hlt.trans_le hK.num)))

end Search

/-! ## The shared pages of one process -/

section Shared

variable {k : Kernel} {asked : Slot → Key → Nat} {gen : Key → List Nat} {p : Slot}
  {pd : Pgdir} {lo : Nat}

theorem Space.maps_some {q : Proc} {ask : Key → Nat} (hs : Space q ask gen pd lo) {i : Key}
    {j : Nat} (hi : q.shmVa i ≠ usertop) (hj : j < ask i) :
    ∃ pa, (gen i)[j]? = some pa ∧ pd.upte (blockPage q ask i j) = some pa := by
  have hlen : j < (gen i).length := hj.trans_le (hs.count i hi).2
  exact ⟨(gen i)[j], List.getElem?_eq_getElem hlen,
    (hs.maps i j hi hj).trans (List.getElem?_eq_getElem hlen)⟩

theorem Space.blockPage_mem {q : Proc} {ask : Key → Nat} (hs : Space q ask gen pd lo) {i : Key}
    {j : Nat} (hi : q.shmVa i ≠ usertop) (hj : j < ask i) :
    blockPage q ask i j ∈ pageRange q.sz usertop := by
  have h1 := hs.inside i hi
  have h2 := hs.low
  have h3 : npages usertop = userPages := rfl
  rw [mem_pageRange, h3, blockPage]
  omega

/-- A page mapped at or above `sz` is a page of a key that the process is
attached to. -/
theorem Space.page_at {q : Proc} {ask : Key → Nat} (hs : Space q ask gen pd lo) {v pa : Nat}
    (hv : v ∈ pageRange q.sz usertop) (hpa : pd.upte v = some pa) :
    ∃ i j, q.shmVa i ≠ usertop ∧ j < ask i ∧ v = blockPage q ask i j ∧
      (gen i)[j]? = some pa := by
  obtain ⟨h1, h2⟩ := mem_pageRange.mp hv
  have h3 : npages usertop = userPages := rfl
  have hlo : lo ≤ v := by
    have := (hs.shaped v).mp (by simp [hpa])
    omega
  obtain ⟨i, j, hi, hj, rfl⟩ := hs.cover v hlo (by omega)
  exact ⟨i, j, hi, hj, rfl, (hs.maps i j hi hj).symm.trans hpa⟩

theorem Space.mem_sharedPages {q : Proc} {ask : Key → Nat} (hs : Space q ask gen pd lo)
    {pa : Nat} : pa ∈ sharedPages pd q.sz ↔
      ∃ i j, q.shmVa i ≠ usertop ∧ j < ask i ∧ (gen i)[j]? = some pa := by
  rw [sharedPages, mem_mappedAt]
  constructor
  · rintro ⟨v, hv, hpa⟩
    obtain ⟨i, j, hi, hj, -, hg⟩ := hs.page_at hv hpa
    exact ⟨i, j, hi, hj, hg⟩
  · rintro ⟨i, j, hi, hj, hg⟩
    exact ⟨_, hs.blockPage_mem hi hj, (hs.maps i j hi hj).trans hg⟩

variable (h : Inv k asked gen) (hp : Real (k.proc p)) (hs : Space (k.proc p) (asked p) gen pd lo)
include h hp hs

theorem Inv.sharedPages_nodup : (sharedPages pd (k.proc p).sz).Nodup := by
  rw [sharedPages, mappedAt, List.Nodup, List.pairwise_filterMap]
  refine (pageRange_nodup (k.proc p).sz usertop).imp_of_mem ?_
  rintro v w hv hw hne x hx y hy rfl
  obtain ⟨i, j, hi, -, rfl, hg⟩ := hs.page_at hv hx
  obtain ⟨i', j', hi', -, rfl, hg'⟩ := hs.page_at hw hy
  obtain ⟨rfl, rfl⟩ := h.gen_inj (h.refCount_ne_zero ⟨hp.1, hi⟩) (h.refCount_ne_zero ⟨hp.1, hi'⟩)
    hg hg'
  exact hne rfl

/-- Index 0 is mapped highest, so it is the last page of its key that
`deallocshm` meets. -/
theorem Inv.sharedPages_firstLast : FirstLast k.shmPa (sharedPages pd (k.proc p).sz) := by
  rw [FirstLast, sharedPages, mappedAt, List.pairwise_filterMap]
  have hlt : (pageRange (k.proc p).sz usertop).Pairwise (· < ·) := List.pairwise_lt_range' ..
  refine hlt.imp_of_mem ?_
  intro v w hv hw hvw x hx y hy i hfx j hfy
  obtain ⟨i₁, j₁, hi₁, -, rfl, hg₁⟩ := hs.page_at hv hx
  obtain ⟨i₂, j₂, hi₂, -, rfl, hg₂⟩ := hs.page_at hw hy
  obtain ⟨rfl, h0, -⟩ := (h.findShared_owned (h.refCount_ne_zero ⟨hp.1, hi₁⟩) hg₁ i 0).mp hfx
  obtain ⟨rfl, -, -⟩ := (h.findShared_owned (h.refCount_ne_zero ⟨hp.1, hi₂⟩) hg₂ i j).mp hfy
  simp only [blockPage, ← h0, Fin.val_zero] at hvw
  omega

theorem Inv.any_isFirst (i : Key) : (sharedPages pd (k.proc p).sz).any (isFirst k.shmPa i)
    = decide ((k.proc p).shmVa i ≠ usertop) := by
  rw [Bool.eq_iff_iff, List.any_eq_true, decide_eq_true_eq]
  constructor
  · rintro ⟨pa, hpa, hf⟩
    obtain ⟨i', j, hi', -, hg⟩ := hs.mem_sharedPages.mp hpa
    obtain ⟨rfl, -, -⟩ := (h.findShared_owned (h.refCount_ne_zero ⟨hp.1, hi'⟩) hg i 0).mp
      (of_decide_eq_true hf)
    exact hi'
  · intro hi
    have hr := h.refCount_ne_zero ⟨hp.1, hi⟩
    obtain ⟨pa, hg, -⟩ := hs.maps_some hi (hs.count i hi).1
    refine ⟨pa, hs.mem_sharedPages.mpr ⟨i, 0, hi, (hs.count i hi).1, hg⟩, decide_eq_true ?_⟩
    exact (h.findShared_owned hr hg i 0).mpr ⟨rfl, rfl, (h.key i hr).pos⟩

/-- The pages freed: those that `p` maps of the keys that nobody else is
attached to, as far as `num_pages` goes. -/
theorem Inv.mem_filter_isLast {pa : Nat} :
    pa ∈ (sharedPages pd (k.proc p).sz).filter (isLast k.shmPa) ↔
      ∃ i j, (k.proc p).shmVa i ≠ usertop ∧ j < asked p i ∧ (gen i)[j]? = some pa ∧
        j < (k.shmPa i).numPages ∧ (k.shmPa i).refCount = 1 := by
  rw [List.mem_filter, hs.mem_sharedPages]
  constructor
  · rintro ⟨⟨i, j, hi, hj, hg⟩, hl⟩
    have hown := h.findShared_owned (h.refCount_ne_zero ⟨hp.1, hi⟩) hg
    simp only [isLast] at hl
    split at hl
    · cases hl
    · rename_i i' j' hf
      obtain ⟨rfl, -, hlt⟩ := (hown i' j').mp hf
      exact ⟨i', j, hi, hj, hg, hlt, of_decide_eq_true hl⟩
  · rintro ⟨i, j, hi, hj, hg, hlt, hr⟩
    have hne := h.refCount_ne_zero ⟨hp.1, hi⟩
    have hK := h.key i hne
    have hj4 : j < 4 := by
      have := hK.num
      have := hK.four
      omega
    have hf := (h.findShared_owned hne hg i ⟨j, hj4⟩).mpr ⟨rfl, rfl, hlt⟩
    exact ⟨⟨i, j, hi, hj, hg⟩, by simp [isLast, hf, hr]⟩

end Shared

end Cs537.SharedMem
