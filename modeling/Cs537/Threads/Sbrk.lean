/-
# `Cs537.Threads.Sbrk` — threads that grow their address space (p4/xv6)

`N` threads with one page directory call `sbrk`.  A call reads `proc->sz` in
`sys_sbrk`, reads it again in `growproc`, lets `allocuvm` map the new pages,
stores the new size and, with `ptable.lock` held, copies it to the other
threads.  Each of these is a step, and `kalloc` never fails.  No lock is held
from the first step to the last, and the law of `sbrk` holds just when calls
that map pages, and calls that publish a size, do so one after the other
(`InOrder`).

A user page is its number: page `a` starts at address `a * PGSIZE`.
-/
import Mathlib.Algebra.Order.Ring.Nat
import Mathlib.Logic.Function.Basic
import Mathlib.Algebra.BigOperators.Group.List.Basic
import Cs537.Lib.Run

namespace Cs537.Sbrk

open Cs537.Lib

def pgsize : Nat := 4096

def usertop : Nat := 0xA0000

/-- `PGROUNDUP(sz)`, as the number of a page. -/
def pgroundup (sz : Nat) : Nat := (sz + pgsize - 1) / pgsize

/-- A call of `sbrk(n)`; `addr` is what it will return.  `seen`, `done` and
`maps` are not in the kernel: how many calls had published a size when `addr`
was read, how many calls that mapped pages had done so when `sz` was read, and
whether this call has mapped pages. -/
inductive Phase where
  | idle
  /-- `addr = proc->sz` in `sys_sbrk` -/
  | entered (addr n seen : Nat)
  /-- `sz = proc->sz` in `growproc` -/
  | read (addr n seen sz done : Nat)
  /-- `allocuvm` has returned `sz` -/
  | grown (addr n seen sz : Nat) (maps : Bool)
  /-- `proc->sz = sz` -/
  | stored (addr n seen : Nat) (maps : Bool)
  deriving DecidableEq

/-- The threads that share a page directory.  `page` says which user pages are
mapped.  `regions` (what `sbrk` has returned, the last first), `maps` and
`done` are not in the kernel: `maps` calls have mapped pages, and `done` of
them have published their size. -/
structure Sys (N : Nat) where
  sz : Fin N → Nat
  page : Nat → Bool
  call : Fin N → Phase
  regions : List (Nat × Nat)
  maps : Nat
  done : Nat

/-- The loop of `allocuvm` over `n` pages from `a` on; `none` is the panic
"remap" of `mappages`. -/
def mapPages : (n a : Nat) → (page : Nat → Bool) → Option (Nat → Bool)
  | 0, _, page => some page
  | n + 1, a, page => if page a then none else mapPages n (a + 1) (Function.update page a true)

/-- `allocuvm`: its result, and the pages mapped. -/
def allocuvm (page : Nat → Bool) (oldsz newsz : Nat) : Option (Nat × (Nat → Bool)) :=
  if newsz > usertop then some (0, page)
  else if newsz < oldsz then some (oldsz, page)
  else (mapPages (pgroundup newsz - pgroundup oldsz) (pgroundup oldsz) page).map fun page =>
    (newsz, page)

/-- `allocuvm` has a page to map. -/
def Maps (oldsz newsz : Nat) : Prop := newsz ≤ usertop ∧ pgroundup oldsz < pgroundup newsz

instance (oldsz newsz : Nat) : Decidable (Maps oldsz newsz) := inferInstanceAs (Decidable (_ ∧ _))

section

variable {N : Nat}

def Sys.setCall (s : Sys N) (i : Fin N) (c : Phase) : Sys N :=
  { s with call := Function.update s.call i c }

inductive Event (N : Nat) where
  /-- thread `i` calls `sbrk(n)` -/
  | sbrk (i : Fin N) (n : Nat)
  /-- the next step of the call of thread `i` -/
  | next (i : Fin N)

def Sys.step (s : Sys N) : Event N → Option (Sys N)
  | .sbrk i n => match s.call i with
      | .idle =>
          if 0 < n ∧ n < 2 ^ 31 then some (s.setCall i (.entered (s.sz i) n s.regions.length))
          else none
      | _ => none
  | .next i => match s.call i with
      | .idle => none
      | .entered addr n seen => some (s.setCall i (.read addr n seen (s.sz i) s.done))
      | .read addr n seen sz _ =>
          let newsz := (sz + n) % 2 ^ 32
          (allocuvm s.page sz newsz).map fun (r, page) =>
            if r = 0 then s.setCall i .idle
            else
              let m := decide (Maps sz newsz)
              { s.setCall i (.grown addr n seen r m) with
                page := page, maps := s.maps + m.toNat }
      | .grown addr n seen sz m =>
          some { s.setCall i (.stored addr n seen m) with sz := Function.update s.sz i sz }
      | .stored addr n _ m =>
          some { s.setCall i .idle with
            sz := fun _ => s.sz i, regions := (addr, n) :: s.regions, done := s.done + m.toNat }

/-- `N` threads in an address space of size `sz`. -/
def start (N sz : Nat) : Sys N where
  sz _ := sz
  page a := a < pgroundup sz
  call _ := .idle
  regions := []
  maps := 0
  done := 0

/-! ## The law of `sbrk` -/

/-- What the calls have added to the size. -/
def Sys.total (s : Sys N) : Nat := (s.regions.map Prod.snd).sum

def Apart (r r' : Nat × Nat) : Prop := r.1 + r.2 ≤ r'.1 ∨ r'.1 + r'.2 ≤ r.1

/-- The regions returned are disjoint, and when no call is in progress every
thread has the size that they add up to. -/
def Right (sz : Nat) (s : Sys N) : Prop :=
  s.regions.Pairwise Apart ∧ ((∀ i, s.call i = .idle) → ∀ i, s.sz i = sz + s.total)

/-- The step ends in the panic "remap". -/
def Sys.panics (s : Sys N) : Event N → Bool
  | .next i => match s.call i with
      | .read _ n _ sz _ => (allocuvm s.page sz ((sz + n) % 2 ^ 32)).isNone
      | _ => false
  | .sbrk _ _ => false

def NoRemap (s : Sys N) (e : Event N) : Prop := s.panics e = false

/-- When `allocuvm` maps pages, every call that has mapped pages before had
published its size by the time the size was read in `growproc`; and when a call
publishes its size, no other has since it read the size in `sys_sbrk`. -/
def InOrder (s : Sys N) : Event N → Prop
  | .next i => match s.call i with
      | .read _ n _ sz done => Maps sz (sz + n) → done = s.maps
      | .stored _ _ seen _ => seen = s.regions.length
      | _ => True
  | .sbrk _ _ => True

/-! ## Pages -/

/-- The first `m` user pages are mapped. -/
def Extent (page : Nat → Bool) (m : Nat) : Prop := ∀ a, page a = true ↔ a < m

theorem pgroundup_mono {a b : Nat} (h : a ≤ b) : pgroundup a ≤ pgroundup b :=
  Nat.div_le_div_right (by omega)

theorem mapPages_extent {n a : Nat} {page : Nat → Bool} (h : Extent page a) :
    ∃ page', mapPages n a page = some page' ∧ Extent page' (a + n) := by
  induction n generalizing a page with
  | zero => exact ⟨page, rfl, h⟩
  | succ n ih =>
      have hfree : page a = false := by
        rw [← Bool.not_eq_true, h]
        omega
      have hnext : Extent (Function.update page a true) (a + 1) := fun b => by
        by_cases hb : b = a
        · rw [hb, Function.update_self]
          simp
        · rw [Function.update_of_ne hb, h]
          omega
      obtain ⟨page', hmap, hext⟩ := ih hnext
      refine ⟨page', ?_, by rwa [Nat.add_assoc, Nat.add_comm 1] at hext⟩
      rw [mapPages, hfree]
      exact hmap

theorem mapPages_first {n a : Nat} {page : Nat → Bool} (hn : 0 < n) (h : mapPages n a page ≠ none) :
    page a = false := by
  cases n with
  | zero => omega
  | succ n =>
      rw [mapPages] at h
      by_contra ha
      exact h (if_pos (by simpa using ha))

theorem allocuvm_maps {page : Nat → Bool} {sz newsz : Nat} (h : Maps sz newsz) :
    allocuvm page sz newsz = (mapPages (pgroundup newsz - pgroundup sz) (pgroundup sz) page).map
      fun page => (newsz, page) := by
  have hle : ¬ newsz < sz := fun hlt => by
    have := pgroundup_mono (Nat.le_of_lt hlt)
    have := h.2
    omega
  rw [allocuvm, if_neg (by have := h.1; omega), if_neg hle]

theorem allocuvm_same {page : Nat → Bool} {sz newsz : Nat} (h : ¬ Maps sz newsz) (hle : sz ≤ newsz) :
    allocuvm page sz newsz = some (if newsz ≤ usertop then newsz else 0, page) := by
  rw [allocuvm]
  by_cases htop : newsz ≤ usertop
  · have hup : ¬ pgroundup sz < pgroundup newsz := fun hlt => h ⟨htop, hlt⟩
    rw [if_neg (by omega), if_neg (by omega), if_pos htop]
    rw [show pgroundup newsz - pgroundup sz = 0 by omega]
    rfl
  · rw [if_pos (by omega), if_neg htop]

/-! ## The invariant -/

section

variable {s t : Sys N} {S addr n seen sz done sz₀ : Nat} {m : Bool} {i j : Fin N}

/-- What a call knows from reading `addr` after `seen` sizes were published. -/
structure ReadOk (s : Sys N) (S addr seen : Nat) : Prop where
  le : seen ≤ s.regions.length
  fresh : seen = s.regions.length → addr = S
  stale : seen < s.regions.length → ∃ k, 0 < k ∧ (addr, k) ∈ s.regions

/-- A call has mapped pages and has not published its size yet. -/
def Phase.Open : Phase → Prop
  | .grown _ _ _ _ m | .stored _ _ _ m => m = true
  | _ => False

/-- The new size `sz` of a call that nobody has overtaken, when `S` is the last
size published. -/
structure Grows (s : Sys N) (S n sz : Nat) (m : Bool) : Prop where
  eq : sz = S + n
  le : sz ≤ usertop
  same : m = false → pgroundup sz = pgroundup S
  maps : m = true → Extent s.page (pgroundup sz)

/-- A size read in `growproc` when `done` of the calls that map pages had
published theirs. -/
def SizeOk (s : Sys N) (S sz done : Nat) : Prop :=
  sz ≤ S ∧ ((done = s.done ∧ pgroundup sz = pgroundup S) ∨
    (done < s.done ∧ pgroundup sz < pgroundup S))

/-- The thread `i`, when `S` is the last size published. -/
def CallOk (s : Sys N) (S : Nat) (i : Fin N) : Prop :=
  match s.call i with
  | .idle => s.sz i = S
  | .entered addr n seen => s.sz i = S ∧ (0 < n ∧ n < 2 ^ 31) ∧ ReadOk s S addr seen
  | .read addr n seen sz done => s.sz i = S ∧ (0 < n ∧ n < 2 ^ 31) ∧ ReadOk s S addr seen ∧
      (seen = s.regions.length → sz = S) ∧ SizeOk s S sz done
  | .grown addr n seen sz m => s.sz i = S ∧ 0 < n ∧ ReadOk s S addr seen ∧
      (seen = s.regions.length → Grows s S n sz m)
  | .stored addr n seen m => 0 < n ∧ ReadOk s S addr seen ∧
      (seen = s.regions.length → Grows s S n (s.sz i) m)

/-- All mapped pages are below the last size published, or one call has mapped
more. -/
def PagesOk (s : Sys N) (S : Nat) : Prop :=
  ∃ m, Extent s.page m ∧
    ((s.maps = s.done ∧ m = pgroundup S ∧ ∀ i, ¬ (s.call i).Open) ∨
      (s.maps = s.done + 1 ∧ pgroundup S < m ∧
        ∃ i, (s.call i).Open ∧ ∀ j, (s.call j).Open → j = i))

structure Inv (sz₀ : Nat) (s : Sys N) : Prop where
  le : sz₀ + s.total ≤ usertop
  apart : s.regions.Pairwise Apart
  below : ∀ r ∈ s.regions, r.1 + r.2 ≤ sz₀ + s.total
  calls : ∀ i, CallOk s (sz₀ + s.total) i
  pages : PagesOk s (sz₀ + s.total)

theorem Inv.right (h : Inv sz₀ s) : Right sz₀ s := by
  refine ⟨h.apart, fun hidle i => ?_⟩
  have hi := h.calls i
  rw [CallOk, hidle i] at hi
  exact hi

/-- The other threads, in a step that publishes nothing. -/
theorem CallOk.other (h : CallOk s S j) (hcall : t.call j = s.call j) (hsz : t.sz j = s.sz j)
    (hreg : t.regions = s.regions) (hdone : t.done = s.done)
    (hpage : t.page = s.page ∨ ¬ (s.call j).Open) : CallOk t S j := by
  have hread : ∀ {addr seen}, ReadOk s S addr seen → ReadOk t S addr seen := fun hr =>
    ⟨hreg ▸ hr.le, hreg ▸ hr.fresh, hreg ▸ hr.stale⟩
  have hgrows : ∀ {n sz m}, (m = true → (s.call j).Open) → Grows s S n sz m → Grows t S n sz m :=
    fun hopen hg => by
      refine ⟨hg.eq, hg.le, hg.same, fun hm => ?_⟩
      rcases hpage with hp | hno
      · rw [hp]
        exact hg.maps hm
      · exact absurd (hopen hm) hno
  rw [CallOk] at h ⊢
  rw [hcall]
  cases hc : s.call j with
  | idle =>
      rw [hc] at h
      exact hsz.trans h
  | entered addr n seen =>
      rw [hc] at h
      exact ⟨hsz.trans h.1, h.2.1, hread h.2.2⟩
  | read addr n seen sz done =>
      rw [hc] at h
      obtain ⟨hs, hn, hr, hfresh, hsize⟩ := h
      exact ⟨hsz.trans hs, hn, hread hr, hreg ▸ hfresh, by rwa [SizeOk, hdone]⟩
  | grown addr n seen sz m =>
      rw [hc] at h
      obtain ⟨hs, hn, hr, hg⟩ := h
      exact ⟨hsz.trans hs, hn, hread hr, fun hf => hgrows (fun hm => by rw [hc]; exact hm)
        (hg (hreg ▸ hf))⟩
  | stored addr n seen m =>
      rw [hc] at h
      obtain ⟨hn, hr, hg⟩ := h
      refine ⟨hn, hread hr, fun hf => ?_⟩
      rw [hsz]
      exact hgrows (fun hm => by rw [hc]; exact hm) (hg (hreg ▸ hf))

/-- A step of thread `i` that publishes nothing and maps no page. -/
theorem Inv.quiet (h : Inv sz₀ s) {c : Phase} {f : Fin N → Nat}
    (ht : t = { s.setCall i c with sz := f }) (hf : ∀ j, j ≠ i → f j = s.sz j)
    (hopen : c.Open ↔ (s.call i).Open) (hi : CallOk t (sz₀ + s.total) i) : Inv sz₀ t := by
  subst ht
  have hother : ∀ j, j ≠ i → (s.setCall i c).call j = s.call j := fun j hj =>
    Function.update_of_ne hj ..
  have hopens : ∀ j, ((s.setCall i c).call j).Open ↔ (s.call j).Open := fun j => by
    by_cases hj : j = i
    · subst hj
      show (Function.update s.call j c j).Open ↔ _
      rwa [Function.update_self]
    · rw [hother j hj]
  refine ⟨h.le, h.apart, h.below, fun j => ?_, ?_⟩
  · by_cases hj : j = i
    · rw [hj]
      exact hi
    · exact (h.calls j).other (hother j hj) (hf j hj) rfl rfl (.inl rfl)
  · obtain ⟨m, hext, hcase⟩ := h.pages
    refine ⟨m, hext, hcase.imp (fun hc => ⟨hc.1, hc.2.1, fun j hj => hc.2.2 j ((hopens j).mp hj)⟩) ?_⟩
    rintro ⟨hmaps, hm, k, hk, hone⟩
    exact ⟨hmaps, hm, k, (hopens k).mpr hk, fun j hj => hone j ((hopens j).mp hj)⟩

theorem maps_iff (h : SizeOk s S sz done) (hpages : PagesOk s S) (hmaps : pgroundup sz < pgroundup n)
    (hex : ∃ page, mapPages (pgroundup n - pgroundup sz) (pgroundup sz) s.page = some page) :
    done = s.maps := by
  obtain ⟨page, hpage⟩ := hex
  have hfirst := mapPages_first (by omega) (Option.ne_none_iff_exists'.mpr ⟨page, hpage⟩)
  obtain ⟨m, hext, hcase⟩ := hpages
  have hm : ¬ pgroundup sz < m := fun hlt => by
    rw [(hext _).mpr hlt] at hfirst
    cases hfirst
  have hsz := pgroundup_mono h.1
  rcases hcase with ⟨hmd, hmS, -⟩ | ⟨-, hmS, -⟩
  · rcases h.2 with ⟨rfl, -⟩ | ⟨-, hlt⟩
    · exact hmd.symm
    · omega
  · omega

/-- A call that is in order maps its pages. -/
theorem Inv.maps_ok (h : Inv sz₀ s) (hsize : SizeOk s (sz₀ + s.total) sz done) (hdone : done = s.maps) :
    s.maps = s.done ∧ (∀ j, ¬ (s.call j).Open) ∧ pgroundup sz = pgroundup (sz₀ + s.total) ∧
      Extent s.page (pgroundup sz) := by
  obtain ⟨m, hext, ⟨hmd, rfl, hno⟩ | ⟨hmd, -, -⟩⟩ := h.pages
  · rcases hsize.2 with ⟨-, heq⟩ | ⟨hlt, -⟩
    · exact ⟨hmd, hno, heq, heq ▸ hext⟩
    · omega
  · rcases hsize.2 with ⟨heq, -⟩ | ⟨hlt, -⟩ <;> omega

theorem Inv.sz_le (h : Inv sz₀ s) (hsize : SizeOk s (sz₀ + s.total) sz done) (hn : n < 2 ^ 31) :
    (sz + n) % 2 ^ 32 = sz + n := by
  have hle := h.le
  have hsz := hsize.1
  simp only [usertop] at hle
  omega

/-- The step of `allocuvm`. -/
theorem Inv.alloc (h : Inv sz₀ s) (hc : s.call i = .read addr n seen sz done)
    (hok : Maps sz (sz + n) → done = s.maps) :
    ∃ t, s.step (.next i) = some t ∧ Inv sz₀ t := by
  have hcall := h.calls i
  rw [CallOk, hc] at hcall
  obtain ⟨hszi, hn, hr, hfresh, hsize⟩ := hcall
  have hmod := h.sz_le hsize hn.2
  have hclosed : ¬ (s.call i).Open := by
    rw [hc]
    exact id
  have hother : ∀ (c : Phase) j, j ≠ i → Function.update s.call i c j = s.call j := fun c j hj =>
    Function.update_of_ne hj ..
  rw [Sys.step, hc]
  simp only [hmod]
  by_cases hmaps : Maps sz (sz + n)
  · obtain ⟨hmd, hno, hup, hext⟩ := h.maps_ok hsize (hok hmaps)
    obtain ⟨page, hpage, hext'⟩ := mapPages_extent (n := pgroundup (sz + n) - pgroundup sz) hext
    rw [Nat.add_sub_cancel' (Nat.le_of_lt hmaps.2)] at hext'
    refine ⟨_, by rw [allocuvm_maps hmaps, hpage]; rfl, ?_⟩
    dsimp only
    rw [if_neg (by omega)]
    refine ⟨h.le, h.apart, h.below, fun j => ?_, pgroundup (sz + n), hext', .inr ⟨?_, ?_, i, ?_, ?_⟩⟩
    · by_cases hj : j = i
      · subst hj
        rw [CallOk]
        simp only [Sys.setCall, Function.update_self, hmaps, decide_true]
        refine ⟨hszi, hn.1, ⟨hr.le, hr.fresh, hr.stale⟩, fun hf => ⟨?_, hmaps.1, nofun, fun _ => hext'⟩⟩
        rw [hfresh hf]
        rfl
      · exact (h.calls j).other (hother _ j hj) rfl rfl rfl (.inr (hno j))
    · simp only [hmaps, decide_true, Bool.toNat_true, hmd]
      rfl
    · exact hup ▸ hmaps.2
    · simp only [Sys.setCall, Function.update_self, hmaps, decide_true]
      rfl
    · intro j hj
      by_contra hne
      simp only [Sys.setCall, hother _ j hne] at hj
      exact hno j hj
  · rw [allocuvm_same hmaps (Nat.le_add_right ..)]
    refine ⟨_, rfl, ?_⟩
    by_cases htop : sz + n ≤ usertop
    · rw [if_pos htop]
      dsimp only
      rw [if_neg (by omega)]
      simp only [hmaps, decide_false, Bool.toNat_false, Nat.add_zero]
      refine h.quiet rfl (fun _ _ => rfl) (iff_of_false nofun hclosed) ?_
      rw [CallOk]
      simp only [Sys.setCall, Function.update_self]
      refine ⟨hszi, hn.1, ⟨hr.le, hr.fresh, hr.stale⟩, fun hf => ⟨by rw [hfresh hf], htop, fun _ => ?_, nofun⟩⟩
      have hle := pgroundup_mono (Nat.le_add_right sz n)
      have hnot : ¬ pgroundup sz < pgroundup (sz + n) := fun hlt => hmaps ⟨htop, hlt⟩
      rw [← hfresh hf]
      omega
    · rw [if_neg htop]
      dsimp only
      rw [if_pos rfl]
      refine h.quiet rfl (fun _ _ => rfl) (iff_of_false id hclosed) ?_
      rw [CallOk]
      simp only [Sys.setCall, Function.update_self]
      exact hszi

/-- The step that publishes the size. -/
theorem Inv.publish (h : Inv sz₀ s) (hc : s.call i = .stored addr n seen m)
    (hok : seen = s.regions.length) :
    Inv sz₀ { s.setCall i .idle with
      sz := fun _ => s.sz i, regions := (addr, n) :: s.regions, done := s.done + m.toNat } := by
  have hcall := h.calls i
  rw [CallOk, hc] at hcall
  obtain ⟨hn, hr, hgrows⟩ := hcall
  obtain ⟨hsz, hle, hsame, hext⟩ := hgrows hok
  have haddr := hr.fresh hok
  have htotal : sz₀ + (((addr, n) :: s.regions).map Prod.snd).sum = s.sz i := by
    simp only [List.map_cons, List.sum_cons, hsz, Sys.total]
    omega
  have hother : ∀ j, j ≠ i → Function.update s.call i .idle j = s.call j := fun j hj =>
    Function.update_of_ne hj ..
  -- a call in progress now has an `addr` that `sbrk` has returned
  have hread : ∀ {addr' seen'}, ReadOk s (sz₀ + s.total) addr' seen' →
      seen' < s.regions.length + 1 ∧ ∃ k, 0 < k ∧ (addr', k) ∈ (addr, n) :: s.regions := by
    intro addr' seen' hr'
    refine ⟨Nat.lt_succ_of_le hr'.le, ?_⟩
    rcases Nat.lt_or_eq_of_le hr'.le with hlt | heq
    · obtain ⟨k, hk, hmem⟩ := hr'.stale hlt
      exact ⟨k, hk, List.mem_cons_of_mem _ hmem⟩
    · exact ⟨n, hn, by rw [hr'.fresh heq, ← haddr]; exact List.mem_cons_self ..⟩
  have hup : pgroundup (sz₀ + s.total) ≤ pgroundup (s.sz i) := pgroundup_mono (by omega)
  obtain ⟨top, htop, hpages⟩ := h.pages
  have hopen : m = true → s.maps = s.done + 1 ∧ pgroundup (sz₀ + s.total) < top ∧
      top = pgroundup (s.sz i) ∧ ∀ j, (s.call j).Open → j = i := by
    intro hm
    have hio : (s.call i).Open := by
      rw [hc]
      exact hm
    rcases hpages with ⟨-, -, hno⟩ | ⟨hmd, hlt, k, -, hone⟩
    · exact absurd hio (hno i)
    · have hiff := fun a => (htop a).symm.trans (hext hm a)
      refine ⟨hmd, hlt, ?_, fun j hj => (hone j hj).trans (hone i hio).symm⟩
      have h₁ := hiff top
      have h₂ := hiff (pgroundup (s.sz i))
      omega
  -- and a size read in `growproc` is behind if this call has mapped pages
  have hsize : ∀ {sz' done'}, SizeOk s (sz₀ + s.total) sz' done' → sz' ≤ s.sz i ∧
      ((done' = s.done + m.toNat ∧ pgroundup sz' = pgroundup (s.sz i)) ∨
        (done' < s.done + m.toNat ∧ pgroundup sz' < pgroundup (s.sz i))) := by
    rintro sz' done' ⟨hle', hcase⟩
    refine ⟨by omega, ?_⟩
    cases m with
    | false =>
        rw [hsame rfl]
        exact hcase
    | true =>
        obtain ⟨-, hlt, rfl, -⟩ := hopen rfl
        simp only [Bool.toNat_true]
        omega
  have hcalls : ∀ j, CallOk { s.setCall i .idle with
      sz := fun _ => s.sz i, regions := (addr, n) :: s.regions, done := s.done + m.toNat }
        (s.sz i) j := by
    intro j
    rw [CallOk]
    by_cases hj : j = i
    · subst hj
      simp only [Sys.setCall, Function.update_self]
    · have hcj := h.calls j
      rw [CallOk] at hcj
      simp only [Sys.setCall, hother j hj]
      cases hcall : s.call j with
      | idle => trivial
      | entered addr' n' seen' =>
          rw [hcall] at hcj
          have hr' := hread hcj.2.2
          exact ⟨trivial, hcj.2.1, Nat.le_of_lt hr'.1, fun he => absurd he (Nat.ne_of_lt hr'.1),
            fun _ => hr'.2⟩
      | read addr' n' seen' sz' done' =>
          rw [hcall] at hcj
          obtain ⟨-, hn', hr', -, hsize'⟩ := hcj
          have hr' := hread hr'
          exact ⟨trivial, hn', ⟨Nat.le_of_lt hr'.1, fun he => absurd he (Nat.ne_of_lt hr'.1),
            fun _ => hr'.2⟩, fun he => absurd he (Nat.ne_of_lt hr'.1), hsize hsize'⟩
      | grown addr' n' seen' sz' m' =>
          rw [hcall] at hcj
          have hr' := hread hcj.2.2.1
          exact ⟨trivial, hcj.2.1, ⟨Nat.le_of_lt hr'.1, fun he => absurd he (Nat.ne_of_lt hr'.1),
            fun _ => hr'.2⟩, fun he => absurd he (Nat.ne_of_lt hr'.1)⟩
      | stored addr' n' seen' m' =>
          rw [hcall] at hcj
          have hr' := hread hcj.2.1
          exact ⟨hcj.1, ⟨Nat.le_of_lt hr'.1, fun he => absurd he (Nat.ne_of_lt hr'.1),
            fun _ => hr'.2⟩, fun he => absurd he (Nat.ne_of_lt hr'.1)⟩
  refine ⟨?_, ?_, ?_, ?_, ?_⟩
  · exact htotal ▸ hle
  · refine List.pairwise_cons.mpr ⟨fun r hr => .inr ?_, h.apart⟩
    rw [haddr]
    exact h.below r hr
  · intro r hr
    show r.1 + r.2 ≤ sz₀ + (((addr, n) :: s.regions).map Prod.snd).sum
    rw [htotal]
    rcases List.mem_cons.mp hr with rfl | hr
    · rw [haddr, hsz]
    · have := h.below r hr
      omega
  · show ∀ j, CallOk _ (sz₀ + (((addr, n) :: s.regions).map Prod.snd).sum) j
    rw [htotal]
    exact hcalls
  · show PagesOk _ (sz₀ + (((addr, n) :: s.regions).map Prod.snd).sum)
    rw [htotal]
    have hidle : ∀ j, ((Function.update s.call i .idle) j).Open → j ≠ i ∧ (s.call j).Open := by
      intro j hj
      by_cases hji : j = i
      · rw [hji, Function.update_self] at hj
        exact hj.elim
      · exact ⟨hji, hother j hji ▸ hj⟩
    refine ⟨top, htop, ?_⟩
    cases m with
    | true =>
        obtain ⟨hmd, -, rfl, hone⟩ := hopen rfl
        exact .inl ⟨hmd, rfl, fun j hj => (hidle j hj).1 (hone j (hidle j hj).2)⟩
    | false =>
        have hclosed : ¬ (s.call i).Open := by
          rw [hc]
          exact nofun
        rw [hsame rfl]
        refine hpages.imp (fun hp => ⟨hp.1, hp.2.1, fun j hj => hp.2.2 j (hidle j hj).2⟩) ?_
        rintro ⟨hmd, hlt, k, hk, hone⟩
        have hki : k ≠ i := fun he => hclosed (he ▸ hk)
        refine ⟨hmd, hlt, k, ?_, fun j hj => hone j (hidle j hj).2⟩
        simp only [Sys.setCall, hother k hki]
        exact hk

/-! ## Runs -/

theorem step_inv {e : Event N} (h : Inv sz₀ s) (hok : InOrder s e) (ht : s.step e = some t) :
    Inv sz₀ t := by
  cases e with
  | sbrk i n =>
      rw [Sys.step] at ht
      split at ht
      · rename_i hc
        split at ht
        · rename_i hn
          obtain rfl := Option.some.inj ht
          have hi := h.calls i
          rw [CallOk, hc] at hi
          refine h.quiet rfl (fun _ _ => rfl) (by rw [hc]; exact Iff.rfl) ?_
          rw [CallOk]
          simp only [Sys.setCall, Function.update_self]
          exact ⟨hi, hn, Nat.le_refl _, fun _ => hi, fun hlt => absurd hlt (Nat.lt_irrefl _)⟩
        · cases ht
      · cases ht
  | next i =>
      have hi := h.calls i
      cases hc : s.call i with
      | idle =>
          rw [Sys.step, hc] at ht
          cases ht
      | entered addr n seen =>
          rw [Sys.step, hc] at ht
          obtain rfl := Option.some.inj ht
          rw [CallOk, hc] at hi
          obtain ⟨hsz, hn, hr⟩ := hi
          refine h.quiet rfl (fun _ _ => rfl) (by rw [hc]; exact Iff.rfl) ?_
          rw [CallOk]
          simp only [Sys.setCall, Function.update_self]
          exact ⟨hsz, hn, ⟨hr.le, hr.fresh, hr.stale⟩, fun _ => hsz, Nat.le_of_eq hsz,
            .inl ⟨rfl, congrArg pgroundup hsz⟩⟩
      | read addr n seen sz done =>
          rw [InOrder, hc] at hok
          obtain ⟨u, hu, hinv⟩ := h.alloc hc hok
          exact Option.some.inj (hu.symm.trans ht) ▸ hinv
      | grown addr n seen sz m =>
          rw [Sys.step, hc] at ht
          obtain rfl := Option.some.inj ht
          rw [CallOk, hc] at hi
          obtain ⟨-, hn, hr, hg⟩ := hi
          refine h.quiet rfl (fun j hj => Function.update_of_ne hj ..) (by rw [hc]; exact Iff.rfl) ?_
          rw [CallOk]
          simp only [Sys.setCall, Function.update_self]
          exact ⟨hn, ⟨hr.le, hr.fresh, hr.stale⟩, fun hf => ⟨(hg hf).eq, (hg hf).le, (hg hf).same,
            (hg hf).maps⟩⟩
      | stored addr n seen m =>
          rw [Sys.step, hc] at ht
          rw [InOrder, hc] at hok
          obtain rfl := Option.some.inj ht
          exact h.publish hc hok

theorem noRemap_of_inOrder {e : Event N} (h : Inv sz₀ s) (hok : InOrder s e) : NoRemap s e := by
  cases e with
  | sbrk i n => rfl
  | next i =>
      rw [NoRemap, Sys.panics]
      split
      · rename_i addr n seen sz done hc
        rw [InOrder, hc] at hok
        obtain ⟨u, hu, -⟩ := h.alloc hc hok
        rw [Sys.step, hc] at hu
        obtain ⟨r, hr, -⟩ := Option.map_eq_some_iff.mp hu
        rw [hr]
        rfl
      · rfl

/-- A step out of order is a panic, or it returns a region a second time. -/
theorem inOrder_of_right {e : Event N} (h : Inv sz₀ s) (hmap : NoRemap s e)
    (hright : ∀ t, s.step e = some t → Right sz₀ t) : InOrder s e := by
  cases e with
  | sbrk i n => trivial
  | next i =>
      have hi := h.calls i
      rw [InOrder]
      split
      · rename_i addr n seen sz done hc
        intro hmaps
        rw [CallOk, hc] at hi
        obtain ⟨-, hn, -, -, hsize⟩ := hi
        rw [NoRemap, Sys.panics, hc] at hmap
        simp only [h.sz_le hsize hn.2, allocuvm_maps hmaps, Option.isNone_map,
          Option.isNone_eq_false_iff] at hmap
        exact maps_iff hsize h.pages hmaps.2 (Option.isSome_iff_exists.mp hmap)
      · rename_i addr n seen m hc
        rw [CallOk, hc] at hi
        obtain ⟨hn, hr, -⟩ := hi
        by_contra hne
        obtain ⟨k, hk, hmem⟩ := hr.stale (Nat.lt_of_le_of_ne hr.le hne)
        have hstep : s.step (.next i) = some { s.setCall i .idle with
            sz := fun _ => s.sz i, regions := (addr, n) :: s.regions, done := s.done + m.toNat } := by
          rw [Sys.step, hc]
        have hapart := List.rel_of_pairwise_cons (hright _ hstep).1 hmem
        rcases hapart with hlt | hlt <;> simp only at hlt <;> omega
      · trivial

theorem start_inv (N : Nat) (h : sz₀ ≤ usertop) : Inv sz₀ (start N sz₀) where
  le := h
  apart := List.Pairwise.nil
  below := fun _ hr => absurd hr List.not_mem_nil
  calls := fun _ => rfl
  pages := ⟨pgroundup sz₀, fun _ => decide_eq_true_iff, .inl ⟨rfl, rfl, fun _ => id⟩⟩

/-- No call of `sbrk` panics, the regions that the calls return are disjoint,
and the sizes add up, just when every step is in order. -/
theorem sbrk_run (N : Nat) (h : sz₀ ≤ usertop) (es : List (Event N)) :
    AllStates Sys.step (Right sz₀) (start N sz₀) es ∧ AllTried Sys.step NoRemap (start N sz₀) es ↔
      AllTried Sys.step InOrder (start N sz₀) es :=
  allStates_and_allTried_iff (I := Inv sz₀) (B := fun _ _ => True) (fun _ hs => hs.right)
    (fun _ _ hs hmap hright => inOrder_of_right hs hmap hright)
    (fun _ _ hs hok => noRemap_of_inOrder hs hok)
    (fun _ _ _ hs _ hok ht => step_inv hs hok ht) (start_inv N h) allSteps_true

/-- Two threads that grow an address space of two pages, one after the other. -/
theorem sbrk_run_plain : 8192 ≤ usertop ∧
    (AllStates Sys.step (Right 8192) (start 2 8192) [.sbrk 0 16, .next 0, .next 0, .next 0, .next 0,
        .sbrk 1 16, .next 1, .next 1, .next 1, .next 1] ∧
      AllTried Sys.step NoRemap (start 2 8192) [.sbrk 0 16, .next 0, .next 0, .next 0, .next 0,
        .sbrk 1 16, .next 1, .next 1, .next 1, .next 1] ↔
      AllTried Sys.step InOrder (start 2 8192) [.sbrk 0 16, .next 0, .next 0, .next 0, .next 0,
        .sbrk 1 16, .next 1, .next 1, .next 1, .next 1]) :=
  ⟨by decide, sbrk_run 2 (by decide) _⟩

/-! ## Two threads at once -/

instance (sz : Nat) (s : Sys N) : Decidable (Right sz s) :=
  have : DecidableRel Apart := fun _ _ => inferInstanceAs (Decidable (_ ∨ _))
  inferInstanceAs (Decidable (_ ∧ _))

instance (s : Sys N) (e : Event N) : Decidable (NoRemap s e) := inferInstanceAs (Decidable (_ = _))

local instance neZero_two : NeZero 2 := ⟨by decide⟩

/-- Both threads read the size before one of them maps its page. -/
def remapRun : List (Event 2) :=
  [.sbrk 0 4096, .sbrk 1 4096, .next 0, .next 1, .next 0, .next 1]

/-- Both threads read the size before one of them publishes the new one; there
is room for both in the last page. -/
def sameRegionRun : List (Event 2) :=
  [.sbrk 0 16, .sbrk 1 16, .next 0, .next 1, .next 0, .next 1, .next 0, .next 1, .next 0, .next 1]

theorem same_region : ¬ AllTried Sys.step NoRemap (start 2 8192) remapRun ∧
    ¬ AllStates Sys.step (Right 100) (start 2 100) sameRegionRun := by
  decide +kernel

end

end

end Cs537.Sbrk
