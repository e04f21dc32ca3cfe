/-
# `Cs537.SharedMem.Grow` — heap growth (p3/xv6, `growproc` of `proc.c`)

`allocuvm` fails in three ways.  It gives everything back when the new size is
too large, and when the free list runs out with nothing of the way mapped.  When
a shared page is in the way it loses the page that it has just allocated; or, if
the free list runs out before it gets there, its clean-up frees the shared page.
So a failure leaves no trace just when nothing is in the way (`growproc_iff`).
-/
import Cs537.SharedMem.Sharing
import Cs537.SharedMem.Supply

namespace Cs537.SharedMem

open Cs537.Lib

/-- `sz + n` in 32-bit arithmetic. -/
def addInt (sz : Nat) (n : Int32) : Nat := (((sz : Int) + n.toInt) % 2 ^ 32).toNat

/-- `growproc`, with its return value. -/
def growproc (k : Kernel) (p : Slot) (n : Int32) : Option (Int × Kernel) :=
  (k.proc p).pgdir.bind fun pd =>
    let q := k.proc p
    -- an error leaves `sz`, but not what `allocuvm` and `deallocuvm` did to the directory
    let finish := fun (r : Nat × Kernel × Pgdir) =>
      if r.1 = 0 then ((-1 : Int), setProc r.2.1 p { q with pgdir := some r.2.2 })
      else (0, setProc r.2.1 p { q with pgdir := some r.2.2, sz := r.1 })
    if 0 < n.toInt then (allocuvm k pd q.sz (addInt q.sz n)).map finish
    else if n.toInt < 0 then (deallocuvm k pd q.sz (addInt q.sz n)).map finish
    else some (0, k)

section

variable {k k' : Kernel} {p : Slot} {n : Int32} {r : Int}

/-- What process `p` maps at the user page `v`. -/
def userPte (k : Kernel) (p : Slot) (v : Nat) : Option Nat := (k.proc p).pgdir.bind fun pd => pd.upte v

/-- The size, the mappings of the process and the free pages are as before. -/
structure NoTrace (k k' : Kernel) (p : Slot) : Prop where
  sz : (k'.proc p).sz = (k.proc p).sz
  pte : ∀ v < userPages, userPte k' p v = userPte k p v
  free : k'.freelist.Perm k.freelist

/-- The pages from `PGROUNDUP(sz)` up to the new size were added, below
everything that was mapped above `sz`. -/
structure Grown (k k' : Kernel) (p : Slot) (newsz : Nat) : Prop where
  sz : (k'.proc p).sz = newsz
  added : ∀ v ∈ pageRange (k.proc p).sz newsz, userPte k p v = none ∧ (userPte k' p v).isSome
  rest : ∀ v < userPages, v ∉ pageRange (k.proc p).sz newsz → userPte k' p v = userPte k p v
  below : ∀ w < userPages, npages (k.proc p).sz ≤ w → (userPte k p w).isSome →
    ∀ v ∈ pageRange (k.proc p).sz newsz, v < w

theorem addInt_pos (hsz : (k.proc p).sz ≤ usertop) (hn : 0 < n.toInt) :
    addInt (k.proc p).sz n = (k.proc p).sz + n.toInt.toNat := by
  have hlt := n.toInt_lt
  rw [addInt]
  simp only [usertop] at hsz
  omega

/-! ## The three ends of `allocuvm` -/

section

variable {k₁ k₂ : Kernel} {pd pd₁ : Pgdir} {newsz : Nat} {q : Proc}

theorem userPte_of (hpd : (k.proc p).pgdir = some pd) (v : Nat) : userPte k p v = pd.upte v := by
  rw [userPte, hpd]
  rfl

theorem userPte_setProc (hq : q.pgdir = some pd₁) (v : Nat) :
    userPte (setProc k₁ p q) p v = pd₁.upte v :=
  userPte_of (by rw [setProc_self, hq]) v

variable (hpd : (k.proc p).pgdir = some pd)

include hpd

/-- The loop ran through. -/
theorem Filled.grown (h : Filled k pd (pageRange (k.proc p).sz newsz) k₁ pd₁)
    (hq : q.pgdir = some pd₁) (hsz : q.sz = newsz) : Grown k (setProc k₁ p q) p newsz := by
  refine ⟨by rw [setProc_self, hsz], fun v hv => ?_, fun v _ hv => ?_, fun w hw hlow hmapped v hv => ?_⟩
  · rw [userPte_of hpd, userPte_setProc hq]
    exact ⟨h.free v hv, h.mapped v hv⟩
  · rw [userPte_of hpd, userPte_setProc hq]
    exact h.frame v hv
  · by_contra hvw
    have hrange : w ∈ pageRange (k.proc p).sz newsz := by
      rw [mem_pageRange] at hv ⊢
      omega
    rw [userPte_of hpd, h.free w hrange] at hmapped
    cases hmapped

/-- The free list ran out: all is given back, just if nothing was mapped on the way. -/
theorem Filled.noTrace {ws us : List Nat} (h : Filled k pd ws k₁ pd₁) (hnd : (ws ++ us).Nodup)
    (hlt : ∀ v ∈ ws ++ us, v < userPages) (hempty : k₁.freelist = [])
    (hk : k₂ = { k₁ with freelist := (mappedAt pd₁ (ws ++ us)).reverse ++ k₁.freelist })
    (hq : q.pgdir = some (unmap pd₁ (ws ++ us))) (hsz : q.sz = (k.proc p).sz) :
    NoTrace k (setProc k₂ p q) p ↔ ∀ v ∈ ws ++ us, pd.upte v = none := by
  constructor
  · intro htrace v hv
    rw [← userPte_of hpd, ← htrace.pte v (hlt v hv), userPte_setProc hq]
    exact if_pos hv
  · intro hfree
    obtain ⟨hperm, hsame⟩ := h.restored hnd hempty hfree hk
    refine ⟨by rw [setProc_self, hsz], fun v _ => ?_, hperm⟩
    rw [userPte_setProc hq, userPte_of hpd, hsame]

omit hpd in
/-- A page was in the way: the one just allocated is lost. -/
theorem Filled.loses {ws : List Nat} {mem : Nat} (h : Filled k pd ws k₁ pd₁) (hk : Took k₁ [mem] k₂) :
    ¬ NoTrace k (setProc k₂ p q) p := by
  intro htrace
  have hlen := htrace.free.length_eq
  rw [h.took.freelist, hk.freelist, setProc_freelist] at hlen
  simp only [List.length_append, List.length_singleton] at hlen
  omega

end

/-- A failure of `growproc` leaves no trace, and a success adds the pages, just
when the new size is too large or nothing is mapped on the way to it. -/
theorem growproc_iff (hsz : (k.proc p).sz ≤ usertop) (hn : 0 < n.toInt)
    (h : growproc k p n = some (r, k')) :
    ((r = -1 → NoTrace k k' p) ∧ (r = 0 → Grown k k' p ((k.proc p).sz + n.toInt.toNat))) ↔
      usertop < (k.proc p).sz + n.toInt.toNat ∨
        ∀ v ∈ pageRange (k.proc p).sz ((k.proc p).sz + n.toInt.toNat), userPte k p v = none := by
  obtain ⟨pd, hpd, h⟩ := Option.bind_eq_some_iff.mp h
  simp only [if_pos hn, addInt_pos hsz hn] at h
  generalize hnew : (k.proc p).sz + n.toInt.toNat = newsz at h ⊢
  have hge : (k.proc p).sz < newsz := by omega
  have hfailed : (0 : Int) ≠ -1 := by decide
  have hdone : (-1 : Int) ≠ 0 := by decide
  rw [allocuvm] at h
  by_cases hbig : usertop < newsz
  · rw [if_pos hbig] at h
    simp only [Option.map_some, if_true, Option.some.injEq, Prod.mk.injEq] at h
    obtain ⟨rfl, rfl⟩ := h
    refine iff_of_true ⟨fun _ => ⟨?_, fun v _ => ?_, .refl _⟩, fun hr => absurd hr hdone⟩ (.inl hbig)
    · rw [setProc_self]
    · rw [userPte_setProc rfl, userPte_of hpd]
  · rw [if_neg hbig, if_neg (Nat.not_lt.mpr (Nat.le_of_lt hge))] at h
    have hle : newsz ≤ usertop := Nat.not_lt.mp hbig
    have hlt : ∀ v ∈ pageRange (k.proc p).sz newsz, v < userPages := pageRange_lt hle
    have hnd := pageRange_nodup (k.proc p).sz newsz
    have hout : Outcome k pd _ (allocuvmLoop _ k pd) := allocuvmLoop_outcome hnd hlt
    generalize allocuvmLoop (pageRange (k.proc p).sz newsz) k pd = out at h hout
    simp only [userPte_of hpd, hbig, false_or]
    cases hout with
    | @done k₁ pd₁ hfill =>
        simp only [Option.map_some, if_neg (Nat.ne_of_gt (Nat.zero_lt_of_lt hge)), Option.some.injEq,
          Prod.mk.injEq] at h
        obtain ⟨rfl, rfl⟩ := h
        exact iff_of_true ⟨fun hr => absurd hr hfailed, fun _ => hfill.grown hpd rfl rfl⟩ hfill.free
    | @noMemory k₁ pd₁ ws us hvs hus hfill hempty =>
        simp only [Option.map_map] at h
        obtain ⟨⟨r', k₂, pd₂⟩, hd, heq⟩ := Option.map_eq_some_iff.mp h
        simp only [Function.comp_apply, if_true, Prod.mk.injEq] at heq
        obtain ⟨rfl, rfl⟩ := heq
        obtain ⟨hk, rfl⟩ := deallocuvm_spec hle hd
        rw [hvs] at hnd hlt hk ⊢
        rw [← hfill.noTrace (q := { k.proc p with pgdir := some (unmap pd₁ (ws ++ us)) }) hpd hnd hlt
          hempty hk rfl rfl]
        exact ⟨fun hboth => hboth.1 rfl, fun htrace => ⟨fun _ => htrace, fun hr => absurd hr hdone⟩⟩
    | @remap k₁ k₂ pd₁ ws us w mem hvs hfill hw hk =>
        simp only [Option.map_some, if_true, Option.some.injEq, Prod.mk.injEq] at h
        obtain ⟨rfl, rfl⟩ := h
        refine iff_of_false (fun hboth => hfill.loses hk (hboth.1 rfl)) fun hfree => ?_
        rw [hfree w (by rw [hvs]; simp)] at hw
        cases hw

end

theorem growproc_iff_booted : ∃ k', growproc booted.k 0 4096 = some (0, k') ∧
    Grown booted.k k' 0 ((booted.k.proc 0).sz + (4096 : Int32).toInt.toNat) := by
  have hgrow : (growproc booted.k 0 4096).map Prod.fst = some 0 := by
    rw [booted_eq]
    decide +kernel
  obtain ⟨⟨r, k'⟩, hk, rfl⟩ := Option.map_eq_some_iff.mp hgrow
  refine ⟨k', hk, ((growproc_iff ?_ ?_ hk).mpr (.inr ?_)).2 rfl⟩
  · rw [booted_eq]
    decide +kernel
  · decide +kernel
  · rw [booted_eq]
    decide +kernel

/-- The first process maps one shared page, at the top, and grows up to `USERTOP`. -/
def oneShared : List (Slot × Call) := [(0, .shmgetat 0 1)]

theorem growth_leaks : ¬ ∀ es s, run step booted es = some s → ∀ p (n : Int32) r k',
    (s.k.proc p).sz ≤ usertop → 0 < n.toInt → growproc s.k p n = some (r, k') →
      (r = -1 → NoTrace s.k k' p) ∧ (r = 0 → Grown s.k k' p ((s.k.proc p).sz + n.toInt.toNat)) := by
  intro h
  have hrun : (run step booted oneShared).bind (fun s => (growproc s.k 0 651264).map fun x =>
      decide ((s.k.proc 0).sz ≤ usertop ∧ x.1 = -1 ∧ x.2.freelist.length ≠ s.k.freelist.length)) =
        some true := by
    rw [booted_eq]
    decide +kernel
  obtain ⟨s, hs, hmap⟩ := Option.bind_eq_some_iff.mp hrun
  obtain ⟨⟨r, k'⟩, hgrow, heq⟩ := Option.map_eq_some_iff.mp hmap
  obtain ⟨hsz, hr, hlen⟩ := of_decide_eq_true heq
  have htrace := (h oneShared s hs 0 651264 r k' hsz (by decide +kernel) hgrow).1 hr
  exact hlen htrace.free.length_eq

end Cs537.SharedMem
