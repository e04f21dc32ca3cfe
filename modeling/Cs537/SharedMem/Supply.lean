/-
# `Cs537.SharedMem.Supply` — allocation, as far as the free list goes

What the functions that allocate do exactly, on any directory and with any
number of free pages: `setupkvm` keeps what it has taken when it fails, the loop
of `allocuvm` ends in one of three ways (`Outcome`), and what it has mapped can
be given back (`Filled.restored`).
-/
import Cs537.SharedMem.Layout

namespace Cs537.SharedMem

section

variable {k k' : Kernel} {pd pd' : Pgdir} {vs : List Nat}

theorem Took.freelist {pre : List Nat} (h : Took k pre k') : k.freelist = pre ++ k'.freelist := by
  rw [Took] at h
  rw [h]

theorem Took.frame {pre : List Nat} (h : Took k pre k') : k' = { k with freelist := k'.freelist } := by
  rw [Took] at h
  rw [h]

/-! ## `setupkvm` -/

theorem kalloc_cons {pg : Nat} {rest : List Nat} (h : k.freelist = pg :: rest) :
    kalloc k = (some pg, { k with freelist := rest }) := by
  rw [kalloc, h]

theorem kalloc_nil (h : k.freelist = []) : kalloc k = (none, k) := by
  rw [kalloc, h]

theorem kmapPages_enough {n : Nat} (h : n ≤ k.freelist.length) :
    kmapPages n k = (some (k.freelist.take n), { k with freelist := k.freelist.drop n }) := by
  induction n generalizing k with
  | zero => rfl
  | succ n ih =>
      rcases hf : k.freelist with _ | ⟨pg, rest⟩
      · simp [hf] at h
      · have hn : n ≤ rest.length := by simpa [hf] using h
        rw [kmapPages, kalloc_cons hf]
        simp only [ih (k := { k with freelist := rest }) hn, List.take_succ_cons, List.drop_succ_cons]

theorem kmapPages_short {n : Nat} (h : k.freelist.length < n) :
    kmapPages n k = (none, { k with freelist := [] }) := by
  induction n generalizing k with
  | zero => omega
  | succ n ih =>
      rcases hf : k.freelist with _ | ⟨pg, rest⟩
      · rw [kmapPages, kalloc_nil hf, ← hf]
      · have hn : rest.length < n := by simpa [hf] using h
        rw [kmapPages, kalloc_cons hf]
        simp only [ih (k := { k with freelist := rest }) hn]

/-- The pages of a directory: its own, and its page tables. -/
def kvmPages : Nat := kmapTables + 1

theorem setupkvm_enough (h : kvmPages ≤ k.freelist.length) : ∃ pd,
    setupkvm k = (some pd, { k with freelist := k.freelist.drop kvmPages }) ∧
      pd.dir :: pd.tables = k.freelist.take kvmPages ∧ Built pd 0 := by
  rcases hf : k.freelist with _ | ⟨dir, rest⟩
  · rw [hf] at h
    cases h
  · have hn : kmapTables ≤ rest.length := by
      rw [hf] at h
      exact Nat.le_of_succ_le_succ h
    refine ⟨⟨dir, rest.take kmapTables, fun _ => none⟩, ?_, rfl, fun v => ?_⟩
    · rw [setupkvm, kalloc_cons hf]
      simp only [kmapPages_enough (k := { k with freelist := rest }) hn]
      rfl
    · simp

/-- A `setupkvm` that fails keeps every page that was free. -/
theorem setupkvm_short (h : k.freelist.length < kvmPages) :
    setupkvm k = (none, { k with freelist := [] }) := by
  rcases hf : k.freelist with _ | ⟨dir, rest⟩
  · rw [setupkvm, kalloc_nil hf, ← hf]
  · have hn : rest.length < kmapTables := by
      rw [hf] at h
      exact Nat.lt_of_succ_lt_succ h
    rw [setupkvm, kalloc_cons hf]
    simp only [kmapPages_short (k := { k with freelist := rest }) hn]

/-! ## The loop of `allocuvm`, on any directory -/

/-- The loop has mapped the pages `ws`, which were not mapped, to what it took
off the free list. -/
structure Filled (k : Kernel) (pd : Pgdir) (ws : List Nat) (k' : Kernel) (pd' : Pgdir) : Prop where
  free : ∀ v ∈ ws, pd.upte v = none
  mapped : ∀ v ∈ ws, (pd'.upte v).isSome
  frame : ∀ v, v ∉ ws → pd'.upte v = pd.upte v
  dir : pd'.dir = pd.dir
  tables : pd'.tables = pd.tables
  took : Took k (mappedAt pd' ws) k'

theorem Filled.refl (k : Kernel) (pd : Pgdir) : Filled k pd [] k pd :=
  ⟨fun _ h => absurd h List.not_mem_nil, fun _ h => absurd h List.not_mem_nil, fun _ _ => rfl, rfl, rfl,
    Took.refl k⟩

/-- One page, and then the rest. -/
theorem Filled.cons {k₁ : Kernel} {v mem : Nat} {ws : List Nat} (hv : pd.upte v = none) (hws : v ∉ ws)
    (hk : Took k [mem] k₁)
    (h : Filled k₁ { pd with upte := Function.update pd.upte v (some mem) } ws k' pd') :
    Filled k pd (v :: ws) k' pd' := by
  have hself : pd'.upte v = some mem := by
    rw [h.frame v hws]
    exact Function.update_self ..
  refine ⟨fun w hw => ?_, fun w hw => ?_, fun w hw => ?_, h.dir, h.tables, ?_⟩
  · by_cases hwv : w = v
    · exact hwv ▸ hv
    · have hold := h.free w (List.mem_of_ne_of_mem hwv hw)
      simpa [hwv] using hold
  · rcases List.mem_cons.mp hw with rfl | hw
    · rw [hself]
      rfl
    · exact h.mapped w hw
  · obtain ⟨hwv, hww⟩ := List.ne_and_not_mem_of_not_mem_cons hw
    rw [h.frame w hww]
    exact Function.update_of_ne hwv ..
  · rw [mappedAt_cons_some ws hself]
    exact hk.trans h.took

theorem npages_mono {a b : Nat} (h : a ≤ b) : npages a ≤ npages b := by
  simp only [npages, pgsize]
  omega

theorem length_mappedAt {us : List Nat} (h : ∀ v ∈ us, (pd.upte v).isSome) :
    (mappedAt pd us).length = us.length := by
  induction us with
  | nil => rfl
  | cons v us ih =>
      obtain ⟨pa, hpa⟩ := Option.isSome_iff_exists.mp (h v List.mem_cons_self)
      rw [mappedAt_cons_some us hpa, List.length_cons, List.length_cons,
        ih fun w hw => h w (List.mem_cons_of_mem v hw)]

theorem Built.length_lowPages {n : Nat} (hb : Built pd n) : (lowPages pd n).length = n := by
  rw [lowPages, length_mappedAt fun v hv => (hb v).mpr (by rw [List.mem_range'_1] at hv; omega),
    List.length_range']

theorem Filled.built {m : Nat} (hb : Built pd m) {n : Nat} (h : Filled k pd (List.range' m n) k' pd') :
    Built pd' (m + n) := fun v => by
  by_cases hv : v ∈ List.range' m n
  · rw [List.mem_range'_1] at hv
    exact iff_of_true (h.mapped v (List.mem_range'_1.mpr hv)) hv.2
  · rw [h.frame v hv, hb v]
    rw [List.mem_range'_1] at hv
    omega

/-- How the loop ends. -/
inductive Outcome (k : Kernel) (pd : Pgdir) (vs : List Nat) : AllocEnd × Kernel × Pgdir → Prop
  | done {k' : Kernel} {pd' : Pgdir} (h : Filled k pd vs k' pd') : Outcome k pd vs (.done, k', pd')
  | noMemory {k' : Kernel} {pd' : Pgdir} {ws us : List Nat} (hvs : vs = ws ++ us) (hus : us ≠ [])
      (h : Filled k pd ws k' pd') (hempty : k'.freelist = []) : Outcome k pd vs (.noMemory, k', pd')
  | remap {k₁ k' : Kernel} {pd' : Pgdir} {ws us : List Nat} {v mem : Nat}
      (hvs : vs = ws ++ v :: us) (h : Filled k pd ws k₁ pd') (hv : (pd.upte v).isSome)
      (hk : Took k₁ [mem] k') :
      Outcome k pd vs (.remap, k', pd')

theorem allocuvmLoop_outcome (hnd : vs.Nodup) (hlt : ∀ v ∈ vs, v < userPages) :
    Outcome k pd vs (allocuvmLoop vs k pd) := by
  induction vs generalizing k pd with
  | nil => exact .done (Filled.refl k pd)
  | cons v vs ih =>
      obtain ⟨hv, hnd⟩ := List.nodup_cons.mp hnd
      have hlt' : ∀ w ∈ vs, w < userPages := fun w hw => hlt w (List.mem_cons_of_mem v hw)
      rw [allocuvmLoop]
      rcases hk : kalloc k with ⟨_ | mem, k₁⟩
      · obtain ⟨rfl, hempty⟩ := kalloc_none hk
        exact .noMemory (List.nil_append (v :: vs)).symm (List.cons_ne_nil v vs) (Filled.refl _ pd) hempty
      · have ht := kalloc_some hk
        cases hpte : pd.upte v with
        | none =>
            simp only [mappages_page mem (hlt v List.mem_cons_self) hpte]
            have hout : Outcome k₁ { pd with upte := Function.update pd.upte v (some mem) } vs
                (allocuvmLoop vs k₁ { pd with upte := Function.update pd.upte v (some mem) }) := ih hnd hlt'
            generalize allocuvmLoop vs k₁ _ = r at hout ⊢
            cases hout with
            | done h => exact .done (h.cons hpte hv ht)
            | @noMemory k' pd' ws us hvs hus h hempty =>
                have hvw : v ∉ ws := fun hm => hv (hvs ▸ List.mem_append_left us hm)
                exact .noMemory (by rw [hvs, List.cons_append]) hus (h.cons hpte hvw ht) hempty
            | @remap k₂ k' pd' ws us w mem' hvs h hw hk' =>
                have hvw : v ∉ ws := fun hm => hv (hvs ▸ List.mem_append_left _ hm)
                have hne : w ≠ v := fun he => hv (by rw [hvs, he]; simp)
                refine .remap (by rw [hvs, List.cons_append]) (h.cons hpte hvw ht) ?_ hk'
                simpa [hne] using hw
        | some pa =>
            have hmap : mappages pd (v * pgsize) mem = none := by
              simp [mappages, walkpgdir_page pd (hlt v List.mem_cons_self), hpte]
            simp only [hmap]
            exact .remap (List.nil_append (v :: vs)).symm (Filled.refl k pd) (by rw [hpte]; rfl) ht

/-- When `allocuvm` runs out of memory, its clean-up unmaps the whole range. -/
theorem Filled.restored {k₂ : Kernel} {ws us : List Nat} (h : Filled k pd ws k' pd')
    (hnd : (ws ++ us).Nodup) (hempty : k'.freelist = []) (hfree : ∀ v ∈ ws ++ us, pd.upte v = none)
    (hk : k₂ = { k' with freelist := (mappedAt pd' (ws ++ us)).reverse ++ k'.freelist }) :
    k₂.freelist.Perm k.freelist ∧ unmap pd' (ws ++ us) = pd := by
  have hus : mappedAt pd' us = [] := mappedAt_none fun v hv => by
    have hvw : v ∉ ws := fun hw => (List.nodup_append.mp hnd).2.2 v hw v hv rfl
    rw [h.frame v hvw]
    exact hfree v (List.mem_append_right ws hv)
  have hall : mappedAt pd' (ws ++ us) = mappedAt pd' ws := by
    rw [mappedAt_append, hus, List.append_nil]
  constructor
  · rw [hk, h.took.freelist, hempty, hall]
    simp
  · have hpte : (unmap pd' (ws ++ us)).upte = pd.upte := by
      funext v
      by_cases hv : v ∈ ws ++ us
      · rw [hfree v hv]
        exact if_pos hv
      · have hvw : v ∉ ws := fun hw => hv (List.mem_append_left us hw)
        rw [← h.frame v hvw]
        exact if_neg hv
    calc unmap pd' (ws ++ us) = ⟨pd'.dir, pd'.tables, (unmap pd' (ws ++ us)).upte⟩ := rfl
      _ = pd := by rw [hpte, h.dir, h.tables]

end

end Cs537.SharedMem
