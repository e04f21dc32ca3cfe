/-
# `Cs537.SharedMem.Paging` — what the page-table functions do

One lemma for each function of `Cs537.SharedMem.Machine`, so that the system
calls above never unfold them again.

* A function that only allocates takes a prefix of the free list: `Took`.
* A directory under construction maps exactly the pages below some bound:
  `Built`.  Growing or copying moves pages between the free list and the
  directory; the balance is stated as a count of each page.
* `freevm` frees the pages below `sz`, then those that `checkifshared`
  decides to free, then the tables.  The middle part is a function of the
  list of shared pages in address order alone, `detach`, and
  `detach_eq` is its closed form: when no page of a key comes after the page
  of index 0, each key loses one reference if its index 0 is in the list, and
  its pages go if that was the last reference.
-/
import Cs537.SharedMem.Calls
import Mathlib.Data.List.Range
import Mathlib.Data.List.Nodup
import Mathlib.Data.List.Count

namespace Cs537.SharedMem

theorem walkpgdir_page {v : Nat} (pd : Pgdir) (hv : v < userPages) :
    walkpgdir pd (v * pgsize) = some (pd.upte v) := by
  have h1 : v * pgsize < usertop := by
    simp only [userPages, pgsize, usertop] at *
    omega
  have h2 : v * pgsize / pgsize = v := Nat.mul_div_cancel v (by decide)
  simp [walkpgdir, h1, h2]

theorem npages_le_userPages {sz : Nat} (h : sz ≤ usertop) : npages sz ≤ userPages := by
  simp only [npages, pgsize, usertop, userPages] at *
  omega

@[simp] theorem npages_zero : npages 0 = 0 := rfl

theorem npages_mul (n : Nat) : npages (n * pgsize) = n := by
  simp only [npages, pgsize]
  omega

/-! ## Allocation -/

/-- `k'` is `k` after `pre` was taken off the free list. -/
def Took (k : Kernel) (pre : List Nat) (k' : Kernel) : Prop :=
  k = { k' with freelist := pre ++ k'.freelist }

theorem Took.trans {k k₁ k₂ : Kernel} {p q : List Nat} (h : Took k p k₁) (h' : Took k₁ q k₂) :
    Took k (p ++ q) k₂ := by
  simp only [Took] at *
  subst h'
  rw [h, List.append_assoc]

theorem Took.refl (k : Kernel) : Took k [] k := rfl

theorem kalloc_some {k k' : Kernel} {pg : Nat} (h : kalloc k = (some pg, k')) :
    Took k [pg] k' := by
  cases hl : k.freelist with
  | nil => simp [kalloc, hl] at h
  | cons r next =>
      simp only [kalloc, hl, Prod.mk.injEq, Option.some.injEq] at h
      obtain ⟨rfl, rfl⟩ := h
      simp [Took, ← hl]

theorem kalloc_none {k k' : Kernel} (h : kalloc k = (none, k')) :
    k' = k ∧ k.freelist = [] := by
  cases hl : k.freelist with
  | nil => simpa [kalloc, hl, eq_comm] using h
  | cons r next => simp [kalloc, hl] at h

theorem kmapPages_spec {n : Nat} : ∀ {k k' : Kernel} {r : Option (List Nat)},
    kmapPages n k = (r, k') → ∃ pre, Took k pre k' ∧ ∀ pgs, r = some pgs → pre = pgs := by
  induction n with
  | zero =>
      rintro k k' r h
      simp only [kmapPages, Prod.mk.injEq] at h
      obtain ⟨rfl, rfl⟩ := h
      exact ⟨[], Took.refl k, by simp⟩
  | succ n ih =>
      intro k k' r h
      simp only [kmapPages] at h
      split at h
      · rename_i k₁ h₁
        simp only [Prod.mk.injEq] at h
        obtain ⟨rfl, rfl⟩ := h
        obtain ⟨rfl, -⟩ := kalloc_none h₁
        exact ⟨[], Took.refl _, by simp⟩
      · rename_i pg k₁ h₁
        have ht := kalloc_some h₁
        split at h
        · rename_i k₂ h₂
          simp only [Prod.mk.injEq] at h
          obtain ⟨rfl, rfl⟩ := h
          obtain ⟨pre, hpre, -⟩ := ih h₂
          exact ⟨_, ht.trans hpre, by simp⟩
        · rename_i pgs k₂ h₂
          simp only [Prod.mk.injEq] at h
          obtain ⟨rfl, rfl⟩ := h
          obtain ⟨pre, hpre, heq⟩ := ih h₂
          obtain rfl := heq pgs rfl
          exact ⟨_, ht.trans hpre, by simp⟩

theorem setupkvm_some {k k' : Kernel} {pd : Pgdir} (h : setupkvm k = (some pd, k')) :
    Took k (pd.dir :: pd.tables) k' ∧ pd.upte = fun _ => none := by
  simp only [setupkvm] at h
  split at h
  · cases h
  · rename_i dir k₁ h₁
    split at h
    · cases h
    · rename_i tables k₂ h₂
      simp only [Prod.mk.injEq, Option.some.injEq] at h
      obtain ⟨rfl, rfl⟩ := h
      obtain ⟨pre, hpre, heq⟩ := kmapPages_spec h₂
      obtain rfl := heq tables rfl
      exact ⟨(kalloc_some h₁).trans hpre, rfl⟩

theorem setupkvm_none {k k' : Kernel} (h : setupkvm k = (none, k')) :
    ∃ pre, Took k pre k' := by
  simp only [setupkvm] at h
  split at h
  · rename_i k₁ h₁
    simp only [Prod.mk.injEq, true_and] at h
    obtain ⟨rfl, -⟩ := kalloc_none h₁
    exact ⟨[], h ▸ Took.refl _⟩
  · rename_i dir k₁ h₁
    split at h
    · rename_i k₂ h₂
      simp only [Prod.mk.injEq, true_and] at h
      obtain ⟨pre, hpre, -⟩ := kmapPages_spec h₂
      exact ⟨_, h ▸ (kalloc_some h₁).trans hpre⟩
    · cases h

/-! ## Freeing -/

theorem kfree_spec {k k' : Kernel} {v : Nat} (h : kfree k v = some k') :
    k' = { k with freelist := v :: k.freelist } := by
  simp only [kfree] at h
  split at h
  · cases h
  · exact (Option.some.inj h).symm

theorem kfreeAll_spec : ∀ {vs : List Nat} {k k' : Kernel}, kfreeAll vs k = some k' →
    k' = { k with freelist := vs.reverse ++ k.freelist }
  | [], k, k', h => by
      simp only [kfreeAll, Option.some.injEq] at h
      simp [← h]
  | v :: vs, k, k', h => by
      simp only [kfreeAll, Option.bind_eq_some_iff] at h
      obtain ⟨k₁, h₁, h₂⟩ := h
      rw [kfreeAll_spec h₂, kfree_spec h₁]
      simp

/-- The physical pages mapped at the user pages `vs`, in order. -/
def mappedAt (pd : Pgdir) (vs : List Nat) : List Nat := vs.filterMap pd.upte

theorem mappedAt_cons_some {pd : Pgdir} {v pa : Nat} (vs : List Nat) (h : pd.upte v = some pa) :
    mappedAt pd (v :: vs) = pa :: mappedAt pd vs := by simp [mappedAt, h]

theorem mappedAt_cons_none {pd : Pgdir} {v : Nat} (vs : List Nat) (h : pd.upte v = none) :
    mappedAt pd (v :: vs) = mappedAt pd vs := by simp [mappedAt, h]

theorem mappedAt_congr {pd pd' : Pgdir} {vs : List Nat} (h : ∀ v ∈ vs, pd'.upte v = pd.upte v) :
    mappedAt pd' vs = mappedAt pd vs := by
  simp only [mappedAt]
  exact List.filterMap_congr h

theorem mem_mappedAt {pd : Pgdir} {vs : List Nat} {pa : Nat} :
    pa ∈ mappedAt pd vs ↔ ∃ v ∈ vs, pd.upte v = some pa := by
  simp [mappedAt, List.mem_filterMap]

/-- `pd` with the entries of `vs` cleared. -/
def unmap (pd : Pgdir) (vs : List Nat) : Pgdir :=
  { pd with upte := fun v => if v ∈ vs then none else pd.upte v }

theorem mappedAt_unmap {pd : Pgdir} {vs ws : List Nat} (h : ∀ v ∈ vs, v ∉ ws) :
    mappedAt (unmap pd ws) vs = mappedAt pd vs :=
  mappedAt_congr fun v hv => by simp [unmap, h v hv]

theorem unmap_cons_none {pd : Pgdir} {v : Nat} (vs : List Nat) (h : pd.upte v = none) :
    unmap pd (v :: vs) = unmap pd vs := by
  simp only [unmap, List.mem_cons, Pgdir.mk.injEq, true_and]
  funext w
  by_cases hw : w = v
  · subst hw; simp [h]
  · simp [hw]

theorem unmap_update {pd : Pgdir} {v : Nat} (vs : List Nat) :
    unmap { pd with upte := Function.update pd.upte v none } vs = unmap pd (v :: vs) := by
  simp only [unmap, List.mem_cons, Pgdir.mk.injEq, true_and]
  funext w
  by_cases hw : w = v
  · subst hw; simp
  · simp [hw]

theorem deallocuvmLoop_spec : ∀ {vs : List Nat} {k k' : Kernel} {pd pd' : Pgdir},
    vs.Nodup → (∀ v ∈ vs, v < userPages) → deallocuvmLoop vs k pd = some (k', pd') →
    k' = { k with freelist := (mappedAt pd vs).reverse ++ k.freelist } ∧ pd' = unmap pd vs
  | [], k, k', pd, pd', _, _, h => by
      simp only [deallocuvmLoop, Option.some.injEq, Prod.mk.injEq] at h
      simp [mappedAt, unmap, ← h.1, ← h.2]
  | v :: vs, k, k', pd, pd', hnd, hlt, h => by
      have hnd' := List.nodup_cons.mp hnd
      have hlt' : ∀ w ∈ vs, w < userPages := fun w hw => hlt w (List.mem_cons_of_mem _ hw)
      simp only [deallocuvmLoop, walkpgdir_page pd (hlt v List.mem_cons_self)] at h
      split at h
      · rename_i pa hpa
        simp only [Option.some.injEq] at hpa
        split at h
        · cases h
        · obtain ⟨k₁, h₁, h₂⟩ := Option.bind_eq_some_iff.mp h
          obtain ⟨rfl, rfl⟩ := deallocuvmLoop_spec hnd'.2 hlt' h₂
          rw [kfree_spec h₁, unmap_update, mappedAt_cons_some vs hpa]
          have heq : mappedAt { pd with upte := Function.update pd.upte v none } vs
              = mappedAt pd vs := mappedAt_congr fun w hw => by
            have : w ≠ v := fun he => hnd'.1 (he ▸ hw)
            simp [this]
          simp [heq]
      · rename_i hpa
        have hn : pd.upte v = none := by
          cases hu : pd.upte v with
          | none => rfl
          | some pa => exact absurd (by rw [hu]) (hpa pa)
        obtain ⟨rfl, rfl⟩ := deallocuvmLoop_spec hnd'.2 hlt' h
        rw [mappedAt_cons_none vs hn, unmap_cons_none vs hn]
        exact ⟨rfl, rfl⟩

theorem mem_pageRange {lo hi v : Nat} : v ∈ pageRange lo hi ↔ npages lo ≤ v ∧ v < npages hi := by
  simp only [pageRange, List.mem_range'_1]
  omega

theorem pageRange_lt {lo hi : Nat} (h : hi ≤ usertop) : ∀ v ∈ pageRange lo hi, v < userPages :=
  fun _ hv => (mem_pageRange.mp hv).2.trans_le (npages_le_userPages h)

theorem pageRange_nodup (lo hi : Nat) : (pageRange lo hi).Nodup := List.nodup_range' ..

theorem pageRange_of_le {lo hi : Nat} (h : hi ≤ lo) : pageRange lo hi = [] := by
  have : npages hi ≤ npages lo := by
    simp only [npages, pgsize]
    omega
  simp [pageRange, Nat.sub_eq_zero_of_le this]

theorem deallocuvm_spec {k k' : Kernel} {pd pd' : Pgdir} {oldsz newsz r : Nat}
    (hsz : oldsz ≤ usertop) (h : deallocuvm k pd oldsz newsz = some (r, k', pd')) :
    k' = { k with freelist := (mappedAt pd (pageRange newsz oldsz)).reverse ++ k.freelist } ∧
      pd' = unmap pd (pageRange newsz oldsz) := by
  simp only [deallocuvm] at h
  split at h
  · rename_i hle
    simp only [Option.some.injEq, Prod.mk.injEq] at h
    obtain ⟨-, rfl, rfl⟩ := h
    simp [pageRange_of_le hle, mappedAt, unmap]
  · simp only [Option.map_eq_some_iff, Prod.mk.injEq] at h
    obtain ⟨⟨k₁, pd₁⟩, h₁, -, rfl, rfl⟩ := h
    exact deallocuvmLoop_spec (pageRange_nodup _ _) (pageRange_lt hsz) h₁

/-! ## Shared pages

`detach shm pas` is what `checkifshared` does to the counts and the free list
along the pages `pas`. -/

/-- `ref_count -= 1` for the key `i`. -/
def decRef (shm : Key → ShPhyMem) (i : Key) : Key → ShPhyMem :=
  Function.update shm i { shm i with refCount := (shm i).refCount - 1 }

/-- The counts after the pages `pas`, and the pages freed, in order. -/
def detach (shm : Key → ShPhyMem) : List Nat → (Key → ShPhyMem) × List Nat
  | [] => (shm, [])
  | pa :: pas =>
      match findShared shm pa with
      | none => detach shm pas
      | some (i, j) =>
          let r := detach (if j.val = 0 then decRef shm i else shm) pas
          (r.1, if (shm i).refCount = 1 then pa :: r.2 else r.2)

theorem checkifshared_spec {k k' : Kernel} {pd pd' : Pgdir} {v pa : Nat}
    (h : checkifshared k pd v pa = some (k', pd')) :
    k' = { k with
        shmPa := (detach k.shmPa [pa]).1
        freelist := (detach k.shmPa [pa]).2.reverse ++ k.freelist } ∧
      pd'.dir = pd.dir ∧ pd'.tables = pd.tables ∧
      ∀ w, w ≠ v → pd'.upte w = pd.upte w := by
  simp only [checkifshared] at h
  split at h
  · rename_i hf
    simp only [Option.some.injEq, Prod.mk.injEq] at h
    obtain ⟨rfl, rfl⟩ := h
    simp [detach, hf]
  · rename_i i j hf
    simp only [Option.map_eq_some_iff] at h
    obtain ⟨⟨k₁, pd₁⟩, h₁, h₂⟩ := h
    by_cases hr : (k.shmPa i).refCount = 1
    · simp only [hr, if_true] at h₁
      split at h₁
      · cases h₁
      · simp only [Option.map_eq_some_iff, Prod.mk.injEq] at h₁
        obtain ⟨k₂, hk, rfl, rfl⟩ := h₁
        obtain rfl := kfree_spec hk
        split at h₂
        · rename_i hj
          simp only [Prod.mk.injEq] at h₂
          obtain ⟨rfl, rfl⟩ := h₂
          simp only [detach, hf, hj, hr, if_true, decRef, List.reverse_singleton,
            List.singleton_append, true_and]
          exact fun w hw => Function.update_of_ne hw _ _
        · rename_i hj
          simp only [Prod.mk.injEq] at h₂
          obtain ⟨rfl, rfl⟩ := h₂
          simp only [detach, hf, hj, hr, if_true, if_false, List.reverse_singleton,
            List.singleton_append, true_and]
          exact fun w hw => Function.update_of_ne hw _ _
    · simp only [hr, if_false, Option.some.injEq, Prod.mk.injEq] at h₁
      obtain ⟨rfl, rfl⟩ := h₁
      split at h₂
      · rename_i hj
        simp only [Prod.mk.injEq] at h₂
        obtain ⟨rfl, rfl⟩ := h₂
        simp [detach, hf, hj, hr, decRef]
      · rename_i hj
        simp only [Prod.mk.injEq] at h₂
        obtain ⟨rfl, rfl⟩ := h₂
        simp [detach, hf, hj, hr]

theorem detach_cons (shm : Key → ShPhyMem) (pa : Nat) (pas : List Nat) :
    detach shm (pa :: pas) =
      ((detach (detach shm [pa]).1 pas).1,
        (detach shm [pa]).2 ++ (detach (detach shm [pa]).1 pas).2) := by
  cases hf : findShared shm pa with
  | none => simp [detach, hf]
  | some ij => by_cases hr : (shm ij.1).refCount = 1 <;> simp [detach, hf, hr]

theorem deallocshmLoop_spec : ∀ {vs : List Nat} {k k' : Kernel} {pd pd' : Pgdir},
    vs.Nodup → (∀ v ∈ vs, v < userPages) → deallocshmLoop vs k pd = some (k', pd') →
    k' = { k with
        shmPa := (detach k.shmPa (mappedAt pd vs)).1
        freelist := (detach k.shmPa (mappedAt pd vs)).2.reverse ++ k.freelist } ∧
      pd'.dir = pd.dir ∧ pd'.tables = pd.tables
  | [], k, k', pd, pd', _, _, h => by
      simp only [deallocshmLoop, Option.some.injEq, Prod.mk.injEq] at h
      simp [mappedAt, detach, ← h.1, ← h.2]
  | v :: vs, k, k', pd, pd', hnd, hlt, h => by
      have hnd' := List.nodup_cons.mp hnd
      have hlt' : ∀ w ∈ vs, w < userPages := fun w hw => hlt w (List.mem_cons_of_mem _ hw)
      simp only [deallocshmLoop, walkpgdir_page pd (hlt v List.mem_cons_self)] at h
      split at h
      · rename_i pa hpa
        simp only [Option.some.injEq] at hpa
        obtain ⟨⟨k₁, pd₁⟩, h₁, h₂⟩ := Option.bind_eq_some_iff.mp h
        obtain ⟨rfl, hdir, htab, hup⟩ := checkifshared_spec h₁
        obtain ⟨rfl, hdir', htab'⟩ := deallocshmLoop_spec hnd'.2 hlt' h₂
        have heq : mappedAt pd₁ vs = mappedAt pd vs := mappedAt_congr fun w hw =>
          hup w fun he => hnd'.1 (he ▸ hw)
        rw [mappedAt_cons_some vs hpa, detach_cons _ pa (mappedAt pd vs), heq]
        simp [hdir, htab, hdir', htab']
      · rename_i hpa
        have hn : pd.upte v = none := by
          cases hu : pd.upte v with
          | none => rfl
          | some pa => exact absurd (by rw [hu]) (hpa pa)
        rw [mappedAt_cons_none vs hn]
        exact deallocshmLoop_spec hnd'.2 hlt' h

/-- The pages that a process of size `sz` maps below, and at or above, `sz`. -/
def privPages (pd : Pgdir) (sz : Nat) : List Nat := mappedAt pd (pageRange 0 sz)
def sharedPages (pd : Pgdir) (sz : Nat) : List Nat := mappedAt pd (pageRange sz usertop)

theorem freevm_spec {k k' : Kernel} {pd : Pgdir} {sz : Nat} (hsz : sz ≤ usertop)
    (h : freevm k pd sz = some k') :
    k' = { k with
      shmPa := (detach k.shmPa (sharedPages pd sz)).1
      freelist := pd.dir :: (pd.tables.reverse ++
        ((detach k.shmPa (sharedPages pd sz)).2.reverse ++
          ((privPages pd sz).reverse ++ k.freelist))) } := by
  simp only [freevm, Option.bind_eq_bind, Option.bind_eq_some_iff] at h
  obtain ⟨⟨r, k₁, pd₁⟩, h₁, ⟨k₂, pd₂⟩, h₂, k₃, h₃, h₄⟩ := h
  obtain ⟨rfl, rfl⟩ := deallocuvm_spec hsz h₁
  have hs : k₂ = { k with
        shmPa := (detach k.shmPa (sharedPages pd sz)).1
        freelist := (detach k.shmPa (sharedPages pd sz)).2.reverse ++
          ((privPages pd sz).reverse ++ k.freelist) } ∧
      pd₂.dir = pd.dir ∧ pd₂.tables = pd.tables := by
    simp only [deallocshm] at h₂
    split at h₂
    · rename_i hle
      simp only [Option.some.injEq, Prod.mk.injEq] at h₂
      obtain ⟨rfl, rfl⟩ := h₂
      simp [sharedPages, pageRange_of_le hle, mappedAt, detach, privPages, unmap]
    · have hun : mappedAt (unmap pd (pageRange 0 sz)) (pageRange sz usertop)
          = sharedPages pd sz := mappedAt_unmap fun v hv hv' => by
        rw [mem_pageRange] at hv hv'
        omega
      obtain ⟨rfl, hd, ht⟩ :=
        deallocshmLoop_spec (pageRange_nodup _ _) (pageRange_lt le_rfl) h₂
      rw [hun]
      exact ⟨rfl, hd, ht⟩
  obtain ⟨rfl, hd, ht⟩ := hs
  obtain rfl := kfreeAll_spec h₃
  obtain rfl := kfree_spec h₄
  simp [hd, ht]

/-! ## The closed form of `detach` -/

/-- Whether the search finds `pa` as index 0 of the key `i`. -/
def isFirst (shm : Key → ShPhyMem) (i : Key) (pa : Nat) : Bool :=
  decide (findShared shm pa = some (i, 0))

/-- Whether the search finds `pa` under a key with one reference left. -/
def isLast (shm : Key → ShPhyMem) (pa : Nat) : Bool :=
  match findShared shm pa with
  | none => false
  | some (i, _) => decide ((shm i).refCount = 1)

/-- No page of a key comes after the key's page of index 0. -/
def FirstLast (shm : Key → ShPhyMem) (pas : List Nat) : Prop :=
  pas.Pairwise fun x y => ∀ i, findShared shm x = some (i, 0) →
    ∀ j, findShared shm y ≠ some (i, j)

/-- `ref_count` lowered by one for the keys in `dec`. -/
def decRefs (shm : Key → ShPhyMem) (dec : Key → Bool) : Key → ShPhyMem := fun i =>
  if dec i then { shm i with refCount := (shm i).refCount - 1 } else shm i

theorem findShared_congr {shm shm' : Key → ShPhyMem}
    (h : ∀ i, (shm' i).numPages = (shm i).numPages ∧ (shm' i).pagePtr = (shm i).pagePtr)
    (pa : Nat) : findShared shm' pa = findShared shm pa := by
  simp only [findShared, (h _).1, (h _).2]

theorem decRef_pages (shm : Key → ShPhyMem) (i j : Key) :
    (decRef shm i j).numPages = (shm j).numPages ∧
      (decRef shm i j).pagePtr = (shm j).pagePtr := by
  by_cases h : j = i
  · subst h; simp [decRef]
  · simp [decRef, h]

/-- Once the page of index 0 of the key `i` is passed, the rest of the list
looks at the other keys only. -/
theorem detach_after_first {shm : Key → ShPhyMem} {i : Key} {pas : List Nat}
    (hno : ∀ y ∈ pas, ∀ j, findShared shm y ≠ some (i, j)) :
    pas.filter (isLast (decRef shm i)) = pas.filter (isLast shm) ∧
      decRefs (decRef shm i) (fun i' => pas.any (isFirst (decRef shm i) i'))
        = decRefs shm (fun i' => decide (i' = i) || pas.any (isFirst shm i')) := by
  have hcongr := findShared_congr (decRef_pages shm i)
  constructor
  · refine List.filter_congr fun y hy => ?_
    simp only [isLast, hcongr]
    cases hy' : findShared shm y with
    | none => rfl
    | some ij =>
        obtain ⟨i', j⟩ := ij
        have hne : i' ≠ i := fun he => hno y hy j (he ▸ hy')
        simp [decRef, hne]
  · funext i'
    have hfirst : isFirst (decRef shm i) i' = isFirst shm i' := by
      funext y
      simp only [isFirst, hcongr]
    by_cases hi : i' = i
    · subst hi
      have hany : pas.any (isFirst shm i') = false := by
        rw [List.any_eq_false]
        intro y hy
        simpa [isFirst] using hno y hy 0
      simp only [decRefs, hfirst, hany]
      simp [decRef]
    · simp only [decRefs, hfirst, hi]
      simp [decRef, hi]

theorem detach_eq : ∀ {pas : List Nat} {shm : Key → ShPhyMem}, FirstLast shm pas →
    detach shm pas =
      (decRefs shm fun i => pas.any (isFirst shm i), pas.filter (isLast shm))
  | [], shm, _ => by
      simp only [detach, List.filter_nil, List.any_nil, Prod.mk.injEq, and_true]
      funext i
      simp [decRefs]
  | pa :: pas, shm, h => by
      obtain ⟨hhead, htail⟩ := List.pairwise_cons.mp h
      cases hf : findShared shm pa with
      | none =>
          have hfirst : ∀ i, isFirst shm i pa = false := fun i => by simp [isFirst, hf]
          have hlast : isLast shm pa = false := by simp [isLast, hf]
          simp [detach, hf, detach_eq htail, hlast, hfirst]
      | some ij =>
          obtain ⟨i, j⟩ := ij
          have hlast : isLast shm pa = decide ((shm i).refCount = 1) := by simp [isLast, hf]
          by_cases hj : j.val = 0
          · obtain rfl : j = 0 := Fin.ext hj
            have hno : ∀ y ∈ pas, ∀ j, findShared shm y ≠ some (i, j) :=
              fun y hy => hhead y hy i hf
            have hcongr := findShared_congr (decRef_pages shm i)
            have htail' : FirstLast (decRef shm i) pas := by
              simpa only [FirstLast, hcongr] using htail
            have hfirst : ∀ i', isFirst shm i' pa = decide (i' = i) := fun i' => by
              simp [isFirst, hf, eq_comm]
            obtain ⟨hl, hd⟩ := detach_after_first hno
            simp [detach, hf, detach_eq htail', hl, hd, hlast, hfirst, List.filter_cons]
          · have hne : j ≠ 0 := fun he => hj (by simp [he])
            have hfirst : ∀ i', isFirst shm i' pa = false := fun i' => by
              simp [isFirst, hf, hne]
            simp [detach, hf, hne, detach_eq htail, hlast, hfirst, List.filter_cons]

/-! ## Directories under construction -/

/-- The user pages that `pd` maps are exactly those below `n`. -/
def Built (pd : Pgdir) (n : Nat) : Prop := ∀ v, (pd.upte v).isSome ↔ v < n

/-- The physical pages of the user pages below `n`. -/
def lowPages (pd : Pgdir) (n : Nat) : List Nat := mappedAt pd (List.range' 0 n)

theorem privPages_eq (pd : Pgdir) (sz : Nat) : privPages pd sz = lowPages pd (npages sz) := rfl

theorem Built.unmapped {pd : Pgdir} {n v : Nat} (h : Built pd n) (hv : n ≤ v) : pd.upte v = none := by
  have := (h v).not.mpr (by omega)
  simpa using this

theorem mappedAt_append (pd : Pgdir) (vs ws : List Nat) :
    mappedAt pd (vs ++ ws) = mappedAt pd vs ++ mappedAt pd ws := List.filterMap_append

theorem mappedAt_none {pd : Pgdir} {vs : List Nat} (h : ∀ v ∈ vs, pd.upte v = none) :
    mappedAt pd vs = [] := by
  rw [mappedAt, List.filterMap_eq_nil_iff]
  exact h

theorem lowPages_add (pd : Pgdir) (a m : Nat) :
    lowPages pd (a + m) = lowPages pd a ++ mappedAt pd (List.range' a m) := by
  have h : List.range' 0 (a + m) = List.range' 0 a ++ List.range' a m := by
    simpa using (List.range'_append_1 (s := 0) (m := a) (n := m)).symm
  rw [lowPages, h, mappedAt_append, lowPages]

theorem Built.lowPages_of_le {pd : Pgdir} {n m : Nat} (h : Built pd n) (hnm : n ≤ m) :
    lowPages pd m = lowPages pd n := by
  obtain ⟨d, rfl⟩ := Nat.exists_eq_add_of_le hnm
  rw [lowPages_add, mappedAt_none, List.append_nil]
  intro v hv
  exact h.unmapped (by simp only [List.mem_range'_1] at hv; omega)

theorem Built.sharedPages {pd : Pgdir} {n sz : Nat} (h : Built pd n) (hn : n ≤ npages sz) :
    sharedPages pd sz = [] :=
  mappedAt_none fun _ hv => h.unmapped (hn.trans (mem_pageRange.mp hv).1)

/-- Pages moved between the free list and the list `l`, which became `l'`;
nothing else of the kernel changed. -/
structure Moved (k k' : Kernel) (l l' : List Nat) : Prop where
  frame : k' = { k with freelist := k'.freelist }
  count : ∀ a, k.freelist.count a + l.count a = k'.freelist.count a + l'.count a

theorem Moved.refl (k : Kernel) (l : List Nat) : Moved k k l l := ⟨rfl, fun _ => rfl⟩

theorem Moved.trans {k k₁ k₂ : Kernel} {l l₁ l₂ : List Nat} (h : Moved k k₁ l l₁)
    (h' : Moved k₁ k₂ l₁ l₂) : Moved k k₂ l l₂ :=
  ⟨by rw [h'.frame, h.frame], fun a => (h.count a).trans (h'.count a)⟩

theorem Took.moved {k k' : Kernel} {pre : List Nat} (h : Took k pre k') (l : List Nat) :
    Moved k k' l (l ++ pre) := by
  simp only [Took] at h
  refine ⟨by rw [h], fun a => ?_⟩
  have : k.freelist = pre ++ k'.freelist := by rw [h]
  simp only [this, List.count_append]
  omega

/-- Mapping a fresh page at `a` extends the directory by one page. -/
theorem mappages_page {pd : Pgdir} {a : Nat} (pa : Nat) (ha : a < userPages) (hn : pd.upte a = none) :
    mappages pd (a * pgsize) pa = some { pd with upte := Function.update pd.upte a (some pa) } := by
  have hdiv : a * pgsize / pgsize = a := Nat.mul_div_cancel a (by decide)
  simp [mappages, walkpgdir_page pd ha, hn, hdiv]

theorem Built.update {pd : Pgdir} {a : Nat} (h : Built pd a) (pa : Nat) :
    Built { pd with upte := Function.update pd.upte a (some pa) } (a + 1) := by
  intro v
  by_cases hv : v = a
  · subst hv; simp
  · simp only [Function.update_of_ne hv]
    rw [h v]
    omega

theorem lowPages_update (pd : Pgdir) (a pa : Nat) :
    lowPages { pd with upte := Function.update pd.upte a (some pa) } (a + 1)
      = lowPages pd a ++ [pa] := by
  rw [lowPages_add]
  congr 1
  · refine mappedAt_congr fun v hv => ?_
    have : v ≠ a := by simp only [List.mem_range'_1] at hv; omega
    simp [this]
  · simp [mappedAt]

theorem allocuvmLoop_spec : ∀ {m a : Nat} {k k' : Kernel} {pd pd' : Pgdir} {e : AllocEnd},
    Built pd a → a + m ≤ userPages → allocuvmLoop (List.range' a m) k pd = (e, k', pd') →
    ∃ n, a ≤ n ∧ n ≤ a + m ∧ Built pd' n ∧ Moved k k' (lowPages pd a) (lowPages pd' n) ∧
      pd'.dir = pd.dir ∧ pd'.tables = pd.tables ∧ (∀ v < a, pd'.upte v = pd.upte v) ∧
      e ≠ .remap ∧ (e = .done → n = a + m)
  | 0, a, k, k', pd, pd', e, hb, _, h => by
      simp only [List.range'_zero, allocuvmLoop, Prod.mk.injEq] at h
      obtain ⟨rfl, rfl, rfl⟩ := h
      exact ⟨a, le_rfl, le_rfl, hb, Moved.refl _ _, rfl, rfl, fun _ _ => rfl, by simp, by simp⟩
  | m + 1, a, k, k', pd, pd', e, hb, hle, h => by
      rw [List.range'_succ] at h
      simp only [allocuvmLoop] at h
      split at h
      · rename_i k₁ h₁
        obtain ⟨rfl, -⟩ := kalloc_none h₁
        simp only [Prod.mk.injEq] at h
        obtain ⟨rfl, rfl, rfl⟩ := h
        exact ⟨a, le_rfl, by omega, hb, Moved.refl _ _, rfl, rfl, fun _ _ => rfl,
          by simp, by simp⟩
      · rename_i mem k₁ h₁
        rw [mappages_page _ (by omega) (hb.unmapped le_rfl)] at h
        obtain ⟨n, h1, h2, h3, h4, h5, h6, h7, h8, h9⟩ :=
          allocuvmLoop_spec (hb.update _) (by omega) h
        rw [lowPages_update] at h4
        refine ⟨n, by omega, by omega, h3, ((kalloc_some h₁).moved _).trans h4, h5, h6,
          fun v hv => ?_, h8, fun he => by have := h9 he; omega⟩
        rw [h7 v (by omega)]
        simp [show v ≠ a by omega]

/-- `allocuvm` on a directory of exactly `oldsz` bytes: it maps the pages
below some `n`, which is the new size unless it failed. -/
theorem allocuvm_spec {k k' : Kernel} {pd pd' : Pgdir} {oldsz newsz r : Nat}
    (hb : Built pd (npages oldsz)) (hsz : oldsz ≤ usertop)
    (h : allocuvm k pd oldsz newsz = some (r, k', pd')) :
    ∃ n, n ≤ userPages ∧ Built pd' n ∧
      Moved k k' (lowPages pd (npages oldsz)) (lowPages pd' n) ∧
      pd'.dir = pd.dir ∧ pd'.tables = pd.tables ∧ (r ≠ 0 → n = npages r ∧ r ≤ usertop) := by
  have hold := npages_le_userPages hsz
  simp only [allocuvm] at h
  split at h
  · simp only [Option.some.injEq, Prod.mk.injEq] at h
    obtain ⟨rfl, rfl, rfl⟩ := h
    exact ⟨_, hold, hb, Moved.refl _ _, rfl, rfl, fun h0 => absurd rfl h0⟩
  · rename_i hnew
    split at h
    · simp only [Option.some.injEq, Prod.mk.injEq] at h
      obtain ⟨rfl, rfl, rfl⟩ := h
      exact ⟨_, hold, hb, Moved.refl _ _, rfl, rfl, fun _ => ⟨rfl, hsz⟩⟩
    · rename_i hge
      have hnp : npages oldsz ≤ npages newsz := by
        simp only [npages, pgsize]
        omega
      have hnew' := npages_le_userPages (show newsz ≤ usertop by omega)
      split at h <;> rename_i k₁ pd₁ hloop <;>
        obtain ⟨n, h1, h2, h3, h4, h5, h6, h7, h8, h9⟩ :=
          allocuvmLoop_spec hb (by omega) hloop
      · simp only [Option.some.injEq, Prod.mk.injEq] at h
        obtain ⟨rfl, rfl, rfl⟩ := h
        have hn := h9 rfl
        exact ⟨n, by omega, h3, h4, h5, h6, fun _ => ⟨by omega, by omega⟩⟩
      · simp only [Option.map_eq_some_iff, Prod.mk.injEq] at h
        obtain ⟨⟨r', k₂, pd₂⟩, hd, rfl, rfl, rfl⟩ := h
        obtain ⟨rfl, rfl⟩ := deallocuvm_spec (show newsz ≤ usertop by omega) hd
        -- everything the loop mapped above `oldsz` is given back
        have hmap : lowPages pd₁ n = lowPages pd (npages oldsz)
            ++ mappedAt pd₁ (pageRange oldsz newsz) := by
          have he : lowPages pd₁ (npages newsz) = lowPages pd₁ n :=
            h3.lowPages_of_le (by omega)
          rw [← he]
          obtain ⟨d, hd⟩ := Nat.exists_eq_add_of_le hnp
          rw [hd, lowPages_add, pageRange, hd, Nat.add_sub_cancel_left]
          congr 1
          exact mappedAt_congr fun v hv => h7 v (by simp only [List.mem_range'_1] at hv; omega)
        refine ⟨npages oldsz, hold, fun v => ?_, ⟨?_, fun a => ?_⟩, h5, h6,
          fun h0 => absurd rfl h0⟩
        · by_cases hv : v ∈ pageRange oldsz newsz
          · have := mem_pageRange.mp hv
            simp [unmap, hv, this.1]
          · simp only [unmap, hv, if_false]
            rw [h3 v]
            have := mem_pageRange.not.mp hv
            omega
        · rw [h4.frame]
        · have hc := h4.count a
          have hlow : lowPages (unmap pd₁ (pageRange oldsz newsz)) (npages oldsz)
              = lowPages pd (npages oldsz) := by
            rw [lowPages, mappedAt_unmap]
            · exact mappedAt_congr fun v hv =>
                h7 v (by simp only [List.mem_range'_1] at hv; omega)
            · intro v hv hv'
              simp only [List.mem_range'_1] at hv
              have := mem_pageRange.mp hv'
              omega
          rw [hmap, List.count_append] at hc
          rw [hlow]
          simp only [List.count_append, List.count_reverse]
          omega
      · exact absurd rfl h8

theorem copyuvmLoop_spec : ∀ {m a : Nat} {k k' : Kernel} {src d d' : Pgdir} {e : CopyEnd},
    Built d a → a + m ≤ userPages → copyuvmLoop src (List.range' a m) k d = some (e, k', d') →
    ∃ n, a ≤ n ∧ n ≤ a + m ∧ Built d' n ∧ Moved k k' (lowPages d a) (lowPages d' n) ∧
      d'.dir = d.dir ∧ d'.tables = d.tables ∧ (e = .copied → n = a + m)
  | 0, a, k, k', src, d, d', e, hb, _, h => by
      simp only [List.range'_zero, copyuvmLoop, Option.some.injEq, Prod.mk.injEq] at h
      obtain ⟨rfl, rfl, rfl⟩ := h
      exact ⟨a, le_rfl, le_rfl, hb, Moved.refl _ _, rfl, rfl, by simp⟩
  | m + 1, a, k, k', src, d, d', e, hb, hle, h => by
      rw [List.range'_succ] at h
      simp only [copyuvmLoop] at h
      split at h
      · split at h
        · rename_i k₁ h₁
          obtain ⟨rfl, -⟩ := kalloc_none h₁
          simp only [Option.some.injEq, Prod.mk.injEq] at h
          obtain ⟨rfl, rfl, rfl⟩ := h
          exact ⟨a, le_rfl, by omega, hb, Moved.refl _ _, rfl, rfl, by simp⟩
        · rename_i mem k₁ h₁
          rw [mappages_page _ (by omega) (hb.unmapped le_rfl)] at h
          obtain ⟨n, h1, h2, h3, h4, h5, h6, h7⟩ := copyuvmLoop_spec (hb.update _) (by omega) h
          rw [lowPages_update] at h4
          exact ⟨n, by omega, by omega, h3, ((kalloc_some h₁).moved _).trans h4, h5, h6,
            fun he => by have := h7 he; omega⟩
      · cases h

theorem copyuvm_some {k k' : Kernel} {src d : Pgdir} {sz : Nat} (hsz : sz ≤ usertop)
    (h : copyuvm k src sz = some (some d, k')) :
    Built d (npages sz) ∧ Moved k k' [] (d.dir :: d.tables ++ lowPages d (npages sz)) := by
  have hle := npages_le_userPages hsz
  simp only [copyuvm] at h
  split at h
  · simp at h
  · rename_i d₀ k₁ hs
    obtain ⟨ht, hup⟩ := setupkvm_some hs
    have hb : Built d₀ 0 := fun v => by simp [hup]
    split at h
    · cases h
    · rename_i k₂ d₁ hloop
      simp only [Option.some.injEq, Prod.mk.injEq] at h
      obtain ⟨rfl, rfl⟩ := h
      obtain ⟨n, -, -, h3, h4, h5, h6, h7⟩ := copyuvmLoop_spec hb (by simpa using hle) hloop
      obtain rfl : n = npages sz := by simpa using h7 rfl
      refine ⟨h3, ⟨(h4.frame.trans ?_), fun a => ?_⟩⟩
      · rw [(ht.moved []).frame]
      · have h1 := (ht.moved []).count a
        have h2 := h4.count a
        simp only [lowPages, List.range'_zero, mappedAt, List.filterMap_nil,
          List.count_nil] at h2
        simp only [h5, h6, List.nil_append, List.count_append, List.count_nil] at *
        simp only [lowPages, mappedAt] at *
        omega
    · simp at h

/-- A failed `copyuvm` gives back all it took, or leaks it. -/
theorem copyuvm_none {k k' : Kernel} {src : Pgdir} {sz : Nat} (hsz : sz ≤ usertop)
    (h : copyuvm k src sz = some (none, k')) :
    k' = { k with freelist := k'.freelist } ∧
      ∀ a, k'.freelist.count a ≤ k.freelist.count a := by
  have hle := npages_le_userPages hsz
  simp only [copyuvm] at h
  split at h
  · rename_i k₁ hs
    simp only [Option.some.injEq, Prod.mk.injEq, true_and] at h
    obtain rfl := h
    obtain ⟨pre, ht⟩ := setupkvm_none hs
    have hm := ht.moved []
    exact ⟨hm.frame, fun a => by
      have := hm.count a
      simp only [List.count_nil, List.nil_append] at this
      omega⟩
  · rename_i d₀ k₁ hs
    obtain ⟨ht, hup⟩ := setupkvm_some hs
    have hb : Built d₀ 0 := fun v => by simp [hup]
    split at h
    · cases h
    · simp at h
    · rename_i k₂ d₁ hloop
      simp only [Option.map_eq_some_iff, Prod.mk.injEq, true_and] at h
      obtain ⟨k₃, hfree, rfl⟩ := h
      obtain ⟨n, -, h2, h3, h4, h5, h6, -⟩ := copyuvmLoop_spec hb (by simpa using hle) hloop
      obtain rfl := freevm_spec hsz hfree
      have hn : n ≤ npages sz := by simpa using h2
      have hm := ht.moved []
      refine ⟨?_, fun a => ?_⟩
      · rw [h3.sharedPages hn, h4.frame, hm.frame]
        simp [detach]
      · have hc1 := hm.count a
        have hc2 := h4.count a
        rw [privPages_eq, h3.lowPages_of_le hn, h3.sharedPages hn, h5, h6]
        simp only [lowPages, List.range'_zero, mappedAt, List.filterMap_nil,
          List.count_nil] at hc2
        simp only [detach, List.reverse_nil, List.nil_append, List.count_cons, List.count_append,
          List.count_reverse, List.count_nil] at *
        simp only [lowPages, mappedAt] at *
        omega

end Cs537.SharedMem
