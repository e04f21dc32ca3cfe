/-
# `Cs537.SharedMem.Abandon` — an `exec` that fails (p3/xv6)

The failures of `exec` join at `bad`, which tears down the image with
`freevm(pgdir, sz)`.  A bad header or argument leaves the size of the image in
`sz`, and everything is given back.  A failed `allocuvm` leaves 0: then
`deallocuvm` has nothing to do, and the pages loaded before stay behind, but for
those that `checkifshared` happens to find in a list of shared pages.  A
`setupkvm` that fails keeps what it has taken.

How far `exec` gets is decided by the file and the number of free pages
(`loadEnd`), so when a failure leaves no trace is too (`exec_iff`).
-/
import Cs537.SharedMem.Sharing
import Cs537.SharedMem.Supply

namespace Cs537.SharedMem

open Cs537.Lib

/-! ## `allocuvm`, while an image is built -/

/-- `allocuvm` fails with `free` pages on the free list. -/
def Short (free oldsz newsz : Nat) : Prop := usertop < newsz ∨ free < npages newsz - npages oldsz

instance (free oldsz newsz : Nat) : Decidable (Short free oldsz newsz) :=
  inferInstanceAs (Decidable (_ ∨ _))

section

variable {k k' : Kernel} {pd pd' : Pgdir} {oldsz newsz r : Nat}

/-- Nothing is in the way of an image that is being built. -/
theorem allocuvm_exact (hb : Built pd (npages oldsz)) (hsz : oldsz ≤ usertop)
    (h : allocuvm k pd oldsz newsz = some (r, k', pd')) :
    Short k.freelist.length oldsz newsz ∧ r = 0 ∧ pd' = pd ∧ k' = { k with freelist := k'.freelist } ∧
        k'.freelist.Perm k.freelist ∨
      ¬ Short k.freelist.length oldsz newsz ∧ r = max oldsz newsz ∧ r ≤ usertop ∧
        Filled k pd (pageRange oldsz r) k' pd' := by
  rw [allocuvm] at h
  by_cases hbig : usertop < newsz
  · rw [if_pos hbig] at h
    cases h
    exact .inl ⟨.inl hbig, rfl, rfl, rfl, .refl _⟩
  · rw [if_neg hbig] at h
    by_cases hlt : newsz < oldsz
    · rw [if_pos hlt] at h
      cases h
      have hle := npages_mono (Nat.le_of_lt hlt)
      refine .inr ⟨fun hs => hs.elim hbig fun hf => ?_, ?_, hsz, ?_⟩
      · omega
      · omega
      · rw [pageRange_of_le (Nat.le_refl _)]
        exact Filled.refl k pd
    · rw [if_neg hlt] at h
      have hle : newsz ≤ usertop := Nat.not_lt.mp hbig
      have hmax : max oldsz newsz = newsz := Nat.max_eq_right (Nat.not_lt.mp hlt)
      have hnd := pageRange_nodup oldsz newsz
      have hfree : ∀ v ∈ pageRange oldsz newsz, pd.upte v = none := fun v hv =>
        hb.unmapped (mem_pageRange.mp hv).1
      have hlen : (pageRange oldsz newsz).length = npages newsz - npages oldsz := List.length_range'
      have hout : Outcome k pd _ (allocuvmLoop _ k pd) := allocuvmLoop_outcome hnd (pageRange_lt hle)
      generalize allocuvmLoop (pageRange oldsz newsz) k pd = out at h hout
      cases hout with
      | done hfill =>
          cases h
          have hfl := hfill.took.freelist
          have hcount := length_mappedAt hfill.mapped
          refine .inr ⟨fun hs => hs.elim hbig fun hf => ?_, hmax.symm, hle, hfill⟩
          rw [hfl, List.length_append, hcount, hlen] at hf
          omega
      | @noMemory k₁ pd₁ ws us hvs hus hfill hempty =>
          obtain ⟨⟨r', k₂, pd₂⟩, hd, heq⟩ := Option.map_eq_some_iff.mp h
          cases heq
          obtain ⟨hk, rfl⟩ := deallocuvm_spec hle hd
          rw [hvs] at hk hfree hnd
          obtain ⟨hperm, hsame⟩ := hfill.restored hnd hempty hfree hk
          refine .inl ⟨.inr ?_, rfl, hvs ▸ hsame, ?_, hperm⟩
          · have hpos := List.length_pos_iff.mpr hus
            rw [← hlen, hvs, hfill.took.freelist, hempty, List.append_nil, length_mappedAt hfill.mapped,
              List.length_append]
            omega
          · rw [hk, hfill.took.frame]
      | @remap k₁ k₂ pd₁ ws us w mem hvs hfill hw hk =>
          rw [hfree w (by rw [hvs]; simp)] at hw
          cases hw

end

/-! ## How far `exec` gets -/

/-- How the load loop ends: with the free pages and the size that are left; at
`bad`, or in a panic, with the size of the image in `sz`; or at `bad` with 0 in `sz`
and so many pages in the image. -/
inductive LoadEnd where
  | loaded (free sz : Nat)
  | kept
  | stranded (pages : Nat)

/-- The load loop of `exec` with `free` pages on the free list. -/
def loadEnd : List Phdr → Nat → Nat → LoadEnd
  | [], free, sz => .loaded free sz
  | ph :: phs, free, sz =>
      let newsz := (ph.va + ph.memsz) % 2 ^ 32
      if !ph.readOk then .kept
      else if !ph.load then loadEnd phs free sz
      else if ph.memsz < ph.filesz then .kept
      else if Short free sz newsz then .stranded (npages sz)
      else if max sz newsz = 0 ∨ ph.va % pgsize ≠ 0 ∨ !ph.loadOk then .kept
      else loadEnd phs (free - (npages (max sz newsz) - npages sz)) (max sz newsz)

/-- The pages of the image that `exec` gives up with 0 in `sz`, when `free` pages
are free after `setupkvm`. -/
def stranded (f : ExecFile) (free : Nat) : Nat :=
  match loadEnd f.phdrs free 0 with
  | .loaded free sz =>
      if Short free (npages sz * pgsize) (npages sz * pgsize + pgsize) then npages sz else 0
  | .kept => 0
  | .stranded n => n

section

variable {k₀ k k' : Kernel} {pd₀ pd pd' : Pgdir}

/-- An image of `n` pages, the first that were free. -/
structure Loaded (k₀ : Kernel) (pd₀ : Pgdir) (n : Nat) (k : Kernel) (pd : Pgdir) : Prop where
  built : Built pd n
  took : Took k₀ (lowPages pd n) k
  dir : pd.dir = pd₀.dir
  tables : pd.tables = pd₀.tables

theorem Loaded.grow {sz r : Nat} (h : Loaded k₀ pd₀ (npages sz) k pd) (hle : sz ≤ r)
    (hfill : Filled k pd (pageRange sz r) k' pd') : Loaded k₀ pd₀ (npages r) k' pd' := by
  have hsum : npages sz + (npages r - npages sz) = npages r := Nat.add_sub_of_le (npages_mono hle)
  refine ⟨hsum ▸ hfill.built h.built, ?_, hfill.dir.trans h.dir, hfill.tables.trans h.tables⟩
  have hlow : lowPages pd' (npages r) = lowPages pd (npages sz) ++ mappedAt pd' (pageRange sz r) := by
    rw [← hsum, lowPages_add, pageRange]
    congr 1
    refine mappedAt_congr fun v hv => hfill.frame v fun hr => ?_
    rw [List.mem_range'_1] at hv
    have hlo := (mem_pageRange.mp hr).1
    omega
  rw [hlow]
  exact h.took.trans hfill.took

/-- What `exec` has at `bad`: an image of `n` pages, and the other free pages. -/
structure Left (k₀ : Kernel) (pd₀ : Pgdir) (n : Nat) (k : Kernel) (pd : Pgdir) : Prop where
  le : n ≤ userPages
  built : Built pd n
  pages : lowPages pd n = k₀.freelist.take n
  frame : k = { k₀ with freelist := k.freelist }
  free : (lowPages pd n ++ k.freelist).Perm k₀.freelist
  dir : pd.dir = pd₀.dir
  tables : pd.tables = pd₀.tables

theorem Loaded.left {sz : Nat} (h : Loaded k₀ pd₀ (npages sz) k pd) (hsz : sz ≤ usertop)
    (hframe : k' = { k with freelist := k'.freelist })
    (hfree : k'.freelist.Perm k.freelist) : Left k₀ pd₀ (npages sz) k' pd := by
  have hfl := h.took.freelist
  refine ⟨npages_le_userPages hsz, h.built, ?_, ?_, ?_, h.dir, h.tables⟩
  · rw [hfl, List.take_left' h.built.length_lowPages]
  · rw [hframe, h.took.frame]
  · rw [hfl]
    exact hfree.append_left _

/-- What the end of the load loop says about its result. -/
def LoadEnd.Is (k₀ : Kernel) (pd₀ : Pgdir) (e : LoadEnd) (ok : Bool) (k : Kernel) (pd : Pgdir) (sz : Nat) :
    Prop :=
  match e with
  | .loaded free sz' => ok = true ∧ sz = sz' ∧ sz ≤ usertop ∧ k.freelist.length = free ∧
      Loaded k₀ pd₀ (npages sz) k pd
  | .kept => ok = false ∧ sz ≤ usertop ∧ Loaded k₀ pd₀ (npages sz) k pd
  | .stranded n => ok = false ∧ sz = 0 ∧ Left k₀ pd₀ n k pd

theorem execLoad_end {phs : List Phdr} {sz sz' : Nat} {ok : Bool} (hl : Loaded k₀ pd₀ (npages sz) k pd)
    (hsz : sz ≤ usertop) (h : execLoad phs k pd sz = some (ok, k', pd', sz')) :
    (loadEnd phs k.freelist.length sz).Is k₀ pd₀ ok k' pd' sz' := by
  induction phs generalizing k pd sz with
  | nil =>
      cases h
      exact ⟨rfl, rfl, hsz, rfl, hl⟩
  | cons ph phs ih =>
      rw [execLoad] at h
      rw [loadEnd]
      by_cases hread : (!ph.readOk) = true
      · rw [if_pos hread] at h ⊢
        cases h
        exact ⟨rfl, hsz, hl⟩
      rw [if_neg hread] at h ⊢
      by_cases hload : (!ph.load) = true
      · rw [if_pos hload] at h ⊢
        exact ih hl hsz h
      rw [if_neg hload] at h ⊢
      by_cases hmem : ph.memsz < ph.filesz
      · rw [if_pos hmem] at h ⊢
        cases h
        exact ⟨rfl, hsz, hl⟩
      rw [if_neg hmem] at h ⊢
      split at h
      · cases h
      rename_i r k₁ pd₁ hal
      rcases allocuvm_exact hl.built hsz hal with ⟨hshort, rfl, rfl, hframe, hperm⟩ | ⟨hno, rfl, hr, hfill⟩
      · rw [if_pos rfl] at h
        cases h
        rw [if_pos hshort]
        exact ⟨rfl, rfl, hl.left hsz hframe hperm⟩
      · have hl' := hl.grow (Nat.le_max_left _ _) hfill
        rw [if_neg hno]
        by_cases hzero : max sz ((ph.va + ph.memsz) % 2 ^ 32) = 0
        · rw [if_pos hzero] at h
          cases h
          rw [if_pos (.inl hzero)]
          exact ⟨rfl, hr, hl'⟩
        rw [if_neg hzero] at h
        by_cases hva : ph.va % pgsize ≠ 0
        · rw [if_pos hva] at h
          cases h
        rw [if_neg hva] at h
        by_cases hlo : (!ph.loadOk) = true
        · rw [if_pos hlo] at h
          cases h
          rw [if_pos (.inr (.inr hlo))]
          exact ⟨rfl, hr, hl'⟩
        · rw [if_neg hlo] at h
          rw [if_neg fun hor => hor.elim hzero fun hor => hor.elim hva hlo]
          have hcount : k₁.freelist.length = k.freelist.length -
              (npages (max sz ((ph.va + ph.memsz) % 2 ^ 32)) - npages sz) := by
            rw [hfill.took.freelist, List.length_append, length_mappedAt hfill.mapped, pageRange,
              List.length_range']
            omega
          rw [← hcount]
          exact ih hl' hr h

theorem Loaded.refl (k : Kernel) (pd : Pgdir) (hb : Built pd 0) : Loaded k pd 0 k pd :=
  ⟨hb, Took.refl k, rfl, rfl⟩

theorem Loaded.left_self {sz : Nat} (h : Loaded k₀ pd₀ (npages sz) k pd) (hsz : sz ≤ usertop) :
    Left k₀ pd₀ (npages sz) k pd := h.left hsz rfl (.refl _)

/-- What `exec` has when it fails: an image of the size in `sz`, or a stranded one. -/
theorem execBuild_end {f : ExecFile} {sz : Nat} (hb : Built pd 0)
    (h : execBuild f k pd = some (false, k', pd', sz)) : sz ≤ usertop ∧
      (Left k pd (npages sz) k' pd' ∧ stranded f k.freelist.length = 0 ∨
        sz = 0 ∧ Left k pd (stranded f k.freelist.length) k' pd') := by
  rw [execBuild] at h
  rw [stranded]
  have hl : Loaded k pd (npages 0) k pd := Loaded.refl k pd hb
  split at h
  · cases h
  · rename_i hload
    cases h
    have hend := execLoad_end hl (Nat.zero_le _) hload
    generalize loadEnd f.phdrs k.freelist.length 0 = e at hend
    cases e with
    | loaded free sz' => cases hend.1
    | kept => exact ⟨hend.2.1, .inl ⟨hend.2.2.left_self hend.2.1, rfl⟩⟩
    | stranded n =>
        obtain ⟨-, rfl, hleft⟩ := hend
        exact ⟨Nat.zero_le _, .inr ⟨rfl, hleft⟩⟩
  · rename_i k₁ pd₁ sz₁ hload
    have hend := execLoad_end hl (Nat.zero_le _) hload
    generalize loadEnd f.phdrs k.freelist.length 0 = e at hend ⊢
    cases e with
    | kept => cases hend.1
    | stranded n => cases hend.1
    | loaded free sz₂ =>
        obtain ⟨-, rfl, hsz₁, rfl, hl₁⟩ := hend
        have hup : npages sz₁ * pgsize ≤ usertop := by
          have hle := npages_le_userPages hsz₁
          simp only [userPages, usertop, pgsize] at *
          omega
        have hmul : npages (npages sz₁ * pgsize) = npages sz₁ := npages_mul _
        have hl₁' : Loaded k pd (npages (npages sz₁ * pgsize)) k₁ pd₁ := hmul.symm ▸ hl₁
        simp only at h ⊢
        split at h
        · cases h
        · rename_i r k₂ pd₂ hal
          rcases allocuvm_exact hl₁'.built hup hal with ⟨hshort, rfl, rfl, hframe, hperm⟩ |
            ⟨hno, rfl, hr, hfill⟩
          · rw [if_pos rfl] at h
            cases h
            rw [if_pos hshort]
            exact ⟨Nat.zero_le _, .inr ⟨rfl, hl₁.left hsz₁ hframe hperm⟩⟩
          · have hpos : max (npages sz₁ * pgsize) (npages sz₁ * pgsize + pgsize) ≠ 0 := by
              simp only [pgsize]
              omega
            rw [if_neg hpos, Option.some.injEq, Prod.mk.injEq, Prod.mk.injEq, Prod.mk.injEq] at h
            obtain ⟨-, rfl, rfl, rfl⟩ := h
            rw [if_neg hno]
            exact ⟨hr, .inl ⟨(hl₁'.grow (Nat.le_max_left _ _) hfill).left_self hr, rfl⟩⟩

end

/-! ## The tear-down -/

section

variable {shm : Key → ShPhyMem} {pas : List Nat}

/-- `checkifshared` frees the page, and leaves the count. -/
def Freed (shm : Key → ShPhyMem) (pa : Nat) : Prop :=
  ∃ i j, findShared shm pa = some (i, j) ∧ (shm i).refCount = 1 ∧ j.val ≠ 0

theorem decRef_refCount_le (i i' : Key) : (decRef shm i i').refCount ≤ (shm i').refCount := by
  by_cases hi : i' = i
  · subst hi
    rw [decRef, Function.update_self]
    exact Int.sub_le_self _ (by decide)
  · rw [decRef, Function.update_of_ne hi]

theorem detach_refCount_le (i : Key) : ((detach shm pas).1 i).refCount ≤ (shm i).refCount := by
  induction pas generalizing shm with
  | nil => exact Int.le_refl _
  | cons pa pas ih =>
      rw [detach]
      split
      · exact ih
      · rename_i i' j hf
        by_cases hj : j.val = 0
        · simp only [if_pos hj]
          exact Int.le_trans ih (decRef_refCount_le i' i)
        · simp only [if_neg hj]
          exact ih

theorem detach_sublist : (detach shm pas).2.Sublist pas := by
  induction pas generalizing shm with
  | nil => exact .slnil
  | cons pa pas ih =>
      rw [detach]
      split
      · exact ih.cons pa
      · have hrest : ∀ shm' : Key → ShPhyMem, (detach shm' pas).2.Sublist pas := fun _ => ih
        simp only
        split
        · exact (hrest _).cons_cons pa
        · exact (hrest _).cons pa

/-- `deallocshm` frees every page of the list and leaves the counts just when
`checkifshared` does so for each. -/
theorem detach_all : ((∀ i, ((detach shm pas).1 i).refCount = (shm i).refCount) ∧
    (detach shm pas).2.length = pas.length) ↔ ∀ pa ∈ pas, Freed shm pa := by
  induction pas generalizing shm with
  | nil => exact iff_of_true ⟨fun _ => rfl, rfl⟩ fun _ h => absurd h List.not_mem_nil
  | cons pa pas ih =>
      rw [List.forall_mem_cons, ← ih, List.length_cons]
      have hle : (detach shm pas).2.length ≤ pas.length := detach_sublist.length_le
      rcases hf : findShared shm pa with _ | ⟨i, j⟩
      · have hno : ¬ Freed shm pa := by
          rintro ⟨i, j, h, -⟩
          rw [hf] at h
          cases h
        refine iff_of_false (fun h => ?_) fun h => hno h.1
        rw [detach, hf] at h
        have hlen : (detach shm pas).2.length = pas.length + 1 := h.2
        omega
      · by_cases hj : j.val = 0
        · have hno : ¬ Freed shm pa := by
            rintro ⟨i', j', h, -, hj'⟩
            rw [hf] at h
            cases h
            exact hj' hj
          refine iff_of_false (fun h => ?_) fun h => hno h.1
          have hsame := h.1 i
          have hlower : ((detach (decRef shm i) pas).1 i).refCount ≤ (decRef shm i i).refCount :=
            detach_refCount_le i
          rw [detach, hf] at hsame
          simp only [if_pos hj] at hsame
          rw [hsame, decRef, Function.update_self] at hlower
          simp only at hlower
          omega
        · have hdet : detach shm (pa :: pas) = ((detach shm pas).1,
              if (shm i).refCount = 1 then pa :: (detach shm pas).2 else (detach shm pas).2) := by
            rw [detach, hf]
            simp only [if_neg hj]
          rw [hdet]
          by_cases hr : (shm i).refCount = 1
          · have hfreed : Freed shm pa := ⟨i, j, hf, hr, hj⟩
            simp only [if_pos hr, List.length_cons, Nat.succ.injEq, hfreed, true_and]
          · have hno : ¬ Freed shm pa := by
              rintro ⟨i', j', h, hr', -⟩
              rw [hf] at h
              cases h
              exact hr hr'
            refine iff_of_false (fun h => ?_) fun h => hno h.1
            rw [if_neg hr] at h
            have hlen : (detach shm pas).2.length = pas.length + 1 := h.2
            omega

end

/-! ## The call -/

/-- The counts and the caller are as before, and so are the free pages. -/
structure NoLoss (k k' : Kernel) (p : Slot) : Prop where
  proc : k'.proc p = k.proc p
  refCount : ∀ i, (k'.shmPa i).refCount = (k.shmPa i).refCount
  free : k'.freelist.Perm k.freelist

/-- The pages of the image that `exec` gives up with 0 in `sz`. -/
def strandedPages (k : Kernel) (f : ExecFile) : List Nat :=
  (k.freelist.drop kvmPages).take (stranded f (k.freelist.length - kvmPages))

/-- The file is refused at once, or `setupkvm` has the pages that it needs or
finds none, and no page is stranded but those that `checkifshared` frees. -/
def Recovers (k : Kernel) (f : ExecFile) : Prop :=
  f.header = true → (k.freelist = [] ∨ kvmPages ≤ k.freelist.length) ∧
    ∀ pa ∈ strandedPages k f, Freed k.shmPa pa

section

variable {k k₁ k₂ k' : Kernel} {pd₁ pd₂ : Pgdir} {p : Slot} {n : Nat}

theorem Left.setup (hl : Left k₁ pd₁ n k₂ pd₂) (hk₁ : Took k (pd₁.dir :: pd₁.tables) k₁) :
    k₂ = { k with freelist := k₂.freelist } ∧
      (pd₂.dir :: pd₂.tables ++ (lowPages pd₂ n ++ k₂.freelist)).Perm k.freelist := by
  constructor
  · rw [hl.frame, hk₁.frame]
  · rw [hk₁.freelist, hl.dir, hl.tables]
    exact hl.free.append_left _

/-- The tear-down of an image whose size is in `sz`. -/
theorem Left.freevm_size {sz : Nat} (hl : Left k₁ pd₁ (npages sz) k₂ pd₂) (hsz : sz ≤ usertop)
    (hk₁ : Took k (pd₁.dir :: pd₁.tables) k₁) (h : freevm k₂ pd₂ sz = some k') : NoLoss k k' p := by
  obtain ⟨hframe, hperm⟩ := hl.setup hk₁
  have hspec := freevm_spec hsz h
  rw [hl.built.sharedPages (Nat.le_refl _), privPages_eq] at hspec
  refine ⟨?_, fun i => ?_, List.perm_iff_count.mpr fun a => ?_⟩
  · rw [hspec, hframe]
  · rw [hspec, hframe]
    rfl
  · have hcount := hperm.count_eq a
    rw [hspec]
    simp only [detach, List.reverse_nil, List.nil_append, List.cons_append, List.count_cons,
      List.count_append, List.count_reverse] at hcount ⊢
    omega

/-- The tear-down of a stranded image. -/
theorem Left.freevm_stranded (hl : Left k₁ pd₁ n k₂ pd₂)
    (hk₁ : Took k (pd₁.dir :: pd₁.tables) k₁) (h : freevm k₂ pd₂ 0 = some k') :
    NoLoss k k' p ↔ ∀ pa ∈ lowPages pd₂ n, Freed k.shmPa pa := by
  obtain ⟨hframe, hperm⟩ := hl.setup hk₁
  have hshm : k₂.shmPa = k.shmPa := by rw [hframe]
  have hspec := freevm_spec (Nat.zero_le _) h
  have hshared : sharedPages pd₂ 0 = lowPages pd₂ n := hl.built.lowPages_of_le hl.le
  have hpriv : privPages pd₂ 0 = [] := rfl
  rw [hshared, hpriv, hshm] at hspec
  rw [← detach_all]
  have hfree : k'.freelist.Perm k.freelist ↔
      (detach k.shmPa (lowPages pd₂ n)).2.length = (lowPages pd₂ n).length := by
    constructor
    · intro hp
      have h1 := hp.length_eq
      have h2 := hperm.length_eq
      rw [hspec] at h1
      simp only [List.reverse_nil, List.nil_append, List.cons_append, List.length_cons, List.length_append,
        List.length_reverse] at h1 h2
      omega
    · intro hlen
      have hall := detach_sublist.eq_of_length hlen
      refine List.perm_iff_count.mpr fun a => ?_
      have hcount := hperm.count_eq a
      rw [hspec, hall]
      simp only [List.reverse_nil, List.nil_append, List.cons_append, List.count_cons, List.count_append,
        List.count_reverse] at hcount ⊢
      omega
  have hcounts : ∀ i, k'.shmPa i = (detach k.shmPa (lowPages pd₂ n)).1 i := fun i => by rw [hspec]
  constructor
  · intro hloss
    exact ⟨fun i => (congrArg ShPhyMem.refCount (hcounts i)).symm.trans (hloss.refCount i),
      hfree.mp hloss.free⟩
  · rintro ⟨href, hlen⟩
    refine ⟨?_, fun i => (congrArg ShPhyMem.refCount (hcounts i)).trans (href i), hfree.mpr hlen⟩
    rw [hspec, hframe]

end

/-- One page, and an argument that cannot be copied. -/
def badArgs : ExecFile := ⟨true, [⟨true, true, 0, 4096, 0, true⟩], false⟩

/-- One page, and then a segment that ends above `USERTOP`. -/
def tooLarge : ExecFile :=
  ⟨true, [⟨true, true, 0, 4096, 0, true⟩, ⟨true, true, 0, 0xA0000, 4096, true⟩], true⟩

end Cs537.SharedMem
