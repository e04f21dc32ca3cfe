/-
# `Cs537.Bcache.Owners` — every buffer has one owner, every sector one buffer

The sections of `bio.c` and `ide.c` keep the invariant.  For every run:

    owners_run    one buffer for a sector, one process for a buffer, which panics there are
    sleep_run     nobody sleeps for nothing, and the disk does not rest
-/
import Cs537.Bcache.Inv

namespace Cs537.Bcache

open Cs537.Lib

variable {s t : Sys} {i j : Slot} {b c : BufIx} {pc : Pc} {x : Buf} {dev sector : BitVec 32}

/-! ## `bget` -/

theorem held_setProc (s : Sys) (i : Slot) (x : Proc) :
    (s.setProc i x).held = Function.update s.held i x.held := by
  funext j
  by_cases hj : j = i
  · subst hj
    simp [Sys.held, Sys.setProc]
  · simp [Sys.held, Sys.setProc, hj]

/-- Process `i` gets the buffer `b`, which nobody has. -/
theorem Inv.take (h : Inv s) (hpc : (s.procs i).pc.target = none) (hb : (s.buf b).busy = false)
    (hx : x.busy = true) (hd : x.dirty = false)
    (hkeys : ∀ c, c ≠ b → x.dev ≠ -1 → x.dev = (s.buf c).dev → x.sector ≠ (s.buf c).sector) :
    Inv ((s.setBuf b x).take i b) := by
  have hnone : ∀ j, b ∉ (s.procs j).held := by
    intro j hj
    exact absurd (h.busy_iff.mpr ⟨j, hj⟩) (by simp [hb])
  have hqueue : b ∉ s.idequeue := by
    intro hq
    exact absurd (h.queued_busy hq) (by simp [hb])
  have hself : ((s.setBuf b x).take i b).procs i
      = ⟨if x.valid then .user else .iderw b, b :: (s.procs i).held⟩ := by
    simp [Sys.take, Sys.setBuf, Sys.setProc]
  have hother : ∀ j, j ≠ i → ((s.setBuf b x).take i b).procs j = s.procs j := fun j hj =>
    Function.update_of_ne hj ..
  have hbuf : ((s.setBuf b x).take i b).buf b = x := Function.update_self ..
  have hbuf' : ∀ c, c ≠ b → ((s.setBuf b x).take i b).buf c = s.buf c := fun c hc =>
    Function.update_of_ne hc ..
  refine ⟨h.ring, ?_, ?_, h.nodup, ?_, ?_, ?_, ?_, h.fault⟩
  · intro c
    have hheld : ((s.setBuf b x).take i b).held
        = Function.update s.held i (b :: (s.procs i).held) := held_setProc ..
    have huses := uses_update s.held i (b :: (s.procs i).held) c
    have hold := h.owned c
    have hcount : (b :: (s.procs i).held).count c
        = (s.held i).count c + if b = c then 1 else 0 := by
      rw [List.count_cons]
      simp [Sys.held]
    rw [← hheld] at huses
    by_cases hc : c = b
    · subst hc
      rw [if_neg (by simp [hb])] at hold
      rw [hbuf, if_pos hx]
      rw [if_pos rfl] at hcount
      omega
    · rw [hbuf' c hc, ← hold]
      rw [if_neg (Ne.symm hc)] at hcount
      omega
  · intro j
    by_cases hj : j = i
    · subst hj
      refine ⟨?_, ?_, ?_, ?_, ?_, ?_⟩
      · intro c hc
        rw [hself] at hc ⊢
        dsimp only at hc
        split at hc
        · cases hc
        · obtain rfl := Option.some.inj hc
          exact List.mem_cons_self
      · intro c hc
        rw [hself] at hc
        dsimp only at hc
        split at hc
        · cases hc
        · rename_i hv
          obtain rfl := Pc.iderw.inj hc
          rw [hbuf]
          exact ⟨fun hclean => hv hclean.1, hqueue⟩
      · intro c hc
        rw [hself] at hc
        dsimp only at hc
        split at hc <;> cases hc
      · intro c hc
        rw [hself] at hc
        dsimp only at hc
        split at hc <;> cases hc
      · intro c hc hne
        rw [hself] at hc hne
        rcases List.mem_cons.mp hc with rfl | hold
        · rw [hbuf]
          dsimp only at hne
          split at hne
          · rename_i hv
            exact ⟨hv, hd⟩
          · exact absurd rfl hne
        · have hcb : c ≠ b := by
            rintro rfl
            exact hnone j hold
          rw [hbuf' c hcb]
          exact (h.good j).clean c hold (by simp [hpc])
      · intro c dev sector hc
        rw [hself] at hc
        dsimp only at hc
        split at hc <;> cases hc
    · refine (h.good j).frame (hother j hj) ?_ ?_
      · intro c hc
        have hcb : c ≠ b := by
          rintro rfl
          exact hnone j hc
        exact ⟨hbuf' c hcb, Iff.rfl⟩
      · intro c hc
        by_cases hcb : c = b
        · rw [hcb, hbuf, hx]
        · rw [hbuf' c hcb, hc]
  · intro c hc
    obtain ⟨hclean, j, hj⟩ := h.queued c hc
    have hcb : c ≠ b := by
      rintro rfl
      exact hqueue hc
    have hji : j ≠ i := by
      rintro rfl
      cases hpc.symm.trans hj.target
    rw [hbuf' c hcb]
    refine ⟨hclean, j, ?_⟩
    rw [Sys.Waits, hother j hji]
    exact hj
  · intro c hc
    by_cases hcb : c = b
    · rw [hcb, hbuf]
      exact hd
    · rw [hbuf' c hcb] at hc ⊢
      exact h.free c hc
  · intro c d hdev hsame hsector
    by_cases hc : c = b
    · subst hc
      by_contra hne
      rw [hbuf] at hdev hsame hsector
      rw [hbuf' d (Ne.symm hne)] at hsame hsector
      exact hkeys d (Ne.symm hne) hdev hsame hsector
    · rw [hbuf' c hc] at hdev hsame hsector
      by_cases hd' : d = b
      · subst hd'
        rw [hbuf] at hsame hsector
        exact absurd hsector.symm (hkeys c hc (hsame ▸ hdev) hsame.symm)
      · rw [hbuf' d hd'] at hsame hsector
        exact h.keys c d hdev hsame hsector
  · refine h.ide_frame rfl rfl fun c hc => hbuf' c ?_
    rintro rfl
    exact hqueue hc

/-- `cached` finds the buffer of a sector, if there is one. -/
theorem Inv.cached_none (h : Inv s) (hc : s.cached dev sector = none) (b : BufIx)
    (hdev : dev = (s.buf b).dev) : sector ≠ (s.buf b).sector := by
  intro hsector
  have hfind := List.find?_eq_none.mp hc b (h.order.2.1 b)
  simp [hdev, hsector] at hfind

theorem Inv.bget (h : Inv s) (hpc : (s.procs i).pc = .bget dev sector) :
    Inv (s.bget i dev sector) := by
  have htarget : (s.procs i).pc.target = none := by rw [hpc]; rfl
  rw [Sys.bget]
  split
  · rename_i b hb
    dsimp only
    split
    · rename_i hfree
      refine h.take htarget hfree rfl (h.free b hfree) ?_
      intro c hc hdev hsame hsector
      exact hc (h.keys b c hdev hsame hsector).symm
    · rename_i hbusy
      refine h.leaves rfl (fun c hc => by cases htarget.symm.trans hc) ?_
      intro c dev' sector' hc
      obtain ⟨rfl, -, -⟩ := Pc.bgetSleep.inj hc
      simpa using hbusy
  · rename_i hnone
    split
    · rename_i b hb
      have hfree : (s.buf b).busy = false := by
        have hfind := List.find?_some hb
        simpa using hfind
      exact h.take htarget hfree rfl rfl fun c _ _ => h.cached_none hnone c
    · exact h.crash (.inl rfl)

/-! ## `iderw` -/

theorem Inv.iderwLoop (h : Inv s) (hpc : (s.procs i).pc = .iderwWoken b) :
    Inv (s.iderwLoop i b) := by
  have htarget : ∀ c, (s.procs i).pc.target = some c → c = b := by
    intro c hc
    rw [hpc] at hc
    exact (Option.some.inj hc).symm
  rw [Sys.iderwLoop]
  split
  · rename_i hclean
    refine h.leaves rfl (fun c hc => ?_) (by simp)
    rw [htarget c hc]
    exact hclean
  · rename_i hclean
    exact h.waits (.inr hpc) (.inr ⟨rfl, ((h.good i).woken b hpc).resolve_left hclean⟩)

theorem Inv.enqueue (h : Inv s) (hb : b ∉ s.idequeue) : s.enqueue b = { s with
    idequeue := s.idequeue ++ [b]
    ide := (s.idequeue ++ [b]).head?.map fun c => (s.buf c).request } := by
  rw [Sys.enqueue]
  cases hq : s.idequeue with
  | nil => exact if_pos rfl
  | cons c q =>
      have hcb : c ≠ b := by
        rintro rfl
        exact hb (hq ▸ List.mem_cons_self)
      have hide : s.ide = some (s.buf c).request := by
        rw [h.ide, hq]
        rfl
      dsimp only
      rw [List.cons_append, List.head?_cons, if_neg fun he => hcb (Option.some.inj he), hide]
      rfl

theorem Inv.iderw (h : Inv s) (hpc : (s.procs i).pc = .iderw b) : Inv (s.iderw i b) := by
  have hheld : b ∈ (s.procs i).held := (h.good i).target b (by rw [hpc]; rfl)
  have hbusy : (s.buf b).busy = true := h.busy_iff.mpr ⟨i, hheld⟩
  obtain ⟨hclean, hqueue⟩ := (h.good i).before b hpc
  have hneeds : ¬ ((s.buf b).valid = true ∧ (s.buf b).dirty = false) := hclean
  rw [Sys.iderw, if_neg (by simp [hbusy]), if_neg hneeds]
  split
  · rename_i hdisk
    exact h.crash (.inr ⟨rfl, hdisk.2⟩)
  rw [Sys.iderwLoop, h.enqueue hqueue, if_neg hneeds]
  have hmem : ∀ c, c ∈ s.idequeue ++ [b] ↔ c ∈ s.idequeue ∨ c = b := by
    intro c
    rw [List.mem_append, List.mem_singleton]
  refine ⟨h.ring, ?_, ?_, ?_, ?_, h.free, h.keys, rfl, h.fault⟩
  · rw [setPc_held]
    exact h.owned
  · intro j
    by_cases hj : j = i
    · subst hj
      refine ⟨?_, ?_, ?_, ?_, ?_, ?_⟩
      · intro c hc
        rw [setPc_self] at hc ⊢
        obtain rfl := Option.some.inj hc
        exact hheld
      · intro c hc
        rw [setPc_self] at hc
        cases hc
      · intro c hc
        rw [setPc_self] at hc
        obtain rfl := Pc.iderwSleep.inj hc
        exact (hmem b).mpr (.inr rfl)
      · intro c hc
        rw [setPc_self] at hc
        cases hc
      · intro c hc hne
        rw [setPc_self] at hc hne
        exact (h.good j).clean c hc (by rw [hpc]; exact hne)
      · intro c dev sector hc
        rw [setPc_self] at hc
        cases hc
    · refine (h.good j).frame (setPc_of_ne hj _) ?_ fun _ hc => hc
      intro c hc
      have hcb : c ≠ b := by
        rintro rfl
        exact hj (h.owner hc hheld)
      exact ⟨rfl, (hmem c).trans (or_iff_left hcb)⟩
  · exact List.nodup_append.mpr ⟨h.nodup, List.nodup_singleton b, fun c hc d hd he =>
      hqueue (List.mem_singleton.mp hd ▸ he ▸ hc)⟩
  · intro c hc
    rcases (hmem c).mp hc with hold | rfl
    · obtain ⟨hnot, j, hj⟩ := h.queued c hold
      have hji : j ≠ i := by
        rintro rfl
        rcases hj with hj | hj <;> cases hpc.symm.trans hj
      refine ⟨hnot, j, ?_⟩
      rw [Sys.Waits, setPc_of_ne hji]
      exact hj
    · exact ⟨hclean, i, .inl (by rw [setPc_self])⟩

/-! ## `bwrite` and `brelse` -/

/-- Process `i` is to write a buffer that it has. -/
theorem Inv.rewrite (h : Inv s) (hpc : (s.procs i).pc = .user) (hheld : b ∈ (s.procs i).held)
    (hbusy : x.busy = true) (hdirty : x.dirty = true) (hdev : x.dev = (s.buf b).dev)
    (hsector : x.sector = (s.buf b).sector) : Inv ((s.setBuf b x).setPc i (.iderw b)) := by
  have hclean := (h.good i).clean b hheld (by simp [hpc, Pc.target])
  have hqueue : b ∉ s.idequeue := fun hq => (h.queued b hq).1 hclean
  have hbuf : (s.setBuf b x).buf b = x := Function.update_self ..
  have hbuf' : ∀ c, c ≠ b → (s.setBuf b x).buf c = s.buf c := fun c hc =>
    Function.update_of_ne hc ..
  have hold : ∀ c, ((s.setBuf b x).buf c).busy = (s.buf c).busy ∧
      ((s.setBuf b x).buf c).dev = (s.buf c).dev ∧
        ((s.setBuf b x).buf c).sector = (s.buf c).sector := by
    intro c
    by_cases hc : c = b
    · subst hc
      rw [hbuf, hbusy, h.busy_iff.mpr ⟨i, hheld⟩]
      exact ⟨rfl, hdev, hsector⟩
    · rw [hbuf' c hc]
      exact ⟨rfl, rfl, rfl⟩
  refine ⟨h.ring, ?_, ?_, h.nodup, ?_, ?_, ?_, ?_, h.fault⟩
  · intro c
    rw [setPc_held]
    show uses s.held c = if ((s.setBuf b x).buf c).busy then 1 else 0
    rw [(hold c).1]
    exact h.owned c
  · intro j
    by_cases hj : j = i
    · subst hj
      refine ⟨?_, ?_, ?_, ?_, ?_, ?_⟩
      · intro c hc
        rw [setPc_self] at hc ⊢
        obtain rfl := Option.some.inj hc
        exact hheld
      · intro c hc
        rw [setPc_self] at hc
        obtain rfl := Pc.iderw.inj hc
        refine ⟨fun hcl => ?_, hqueue⟩
        have hd : ((s.setBuf b x).buf b).dirty = false := hcl.2
        rw [hbuf, hdirty] at hd
        cases hd
      · intro c hc
        rw [setPc_self] at hc
        cases hc
      · intro c hc
        rw [setPc_self] at hc
        cases hc
      · intro c hc hne
        rw [setPc_self] at hc hne
        have hcb : c ≠ b := by
          rintro rfl
          exact hne rfl
        show ((s.setBuf b x).buf c).Clean
        rw [hbuf' c hcb]
        exact (h.good j).clean c hc (by simp [hpc, Pc.target])
      · intro c dev sector hc
        rw [setPc_self] at hc
        cases hc
    · refine (h.good j).frame (setPc_of_ne hj _) ?_ fun c hc => (hold c).1.trans hc
      intro c hc
      have hcb : c ≠ b := by
        rintro rfl
        exact hj (h.owner hc hheld)
      exact ⟨hbuf' c hcb, Iff.rfl⟩
  · intro c hc
    obtain ⟨hnot, j, hj⟩ := h.queued c hc
    have hji : j ≠ i := by
      rintro rfl
      rcases hj with hj | hj <;> cases hpc.symm.trans hj
    have hcb : c ≠ b := by
      rintro rfl
      exact hqueue hc
    refine ⟨?_, j, ?_⟩
    · show ¬ ((s.setBuf b x).buf c).Clean
      rw [hbuf' c hcb]
      exact hnot
    · rw [Sys.Waits, setPc_of_ne hji]
      exact hj
  · intro c hc
    have hcb : c ≠ b := by
      rintro rfl
      have hb : (s.buf c).busy = false := (hold c).1.symm.trans hc
      exact absurd (h.busy_iff.mpr ⟨i, hheld⟩) (by simp [hb])
    have hfree : (s.buf c).busy = false := (hold c).1.symm.trans hc
    show ((s.setBuf b x).buf c).dirty = false
    rw [hbuf' c hcb]
    exact h.free c hfree
  · intro c d hd hsame hsec
    have hdev' : (s.buf c).dev ≠ -1 := fun he => hd ((hold c).2.1.trans he)
    refine h.keys c d hdev' ?_ ?_
    · exact (hold c).2.1.symm.trans (hsame.trans (hold d).2.1)
    · exact (hold c).2.2.symm.trans (hsec.trans (hold d).2.2)
  · refine h.ide_frame rfl rfl fun c hc => hbuf' c ?_
    rintro rfl
    exact hqueue hc

theorem Inv.bwrite {data : Block} (h : Inv s) (hpc : (s.procs i).pc = .user)
    (hheld : b ∈ (s.procs i).held) : Inv (s.bwrite i b data) := by
  have hbusy : (s.buf b).busy = true := h.busy_iff.mpr ⟨i, hheld⟩
  rw [Sys.bwrite, if_neg (by simp [hbusy])]
  exact h.rewrite hpc hheld hbusy rfl rfl rfl

/-- Process `i` gives up a buffer on which nobody sleeps. -/
theorem Inv.release {links : Links BufIx} (h : Inv s) (hpc : (s.procs i).pc = .user)
    (hheld : b ∈ (s.procs i).held)
    (hnobody : ∀ j dev sector, (s.procs j).pc ≠ .bgetSleep b dev sector)
    (hring : ∃ l, links.Ring l ∧ ∀ c, c ∈ l) :
    Inv ((Sys.setBuf { s with links := links } b { s.buf b with busy := false }).setProc i
      ⟨.user, (s.procs i).held.erase b⟩) := by
  have hclean := (h.good i).clean b hheld (by simp [hpc, Pc.target])
  have hqueue : b ∉ s.idequeue := fun hq => (h.queued b hq).1 hclean
  have hnodup := h.nodup_held i
  generalize ht : (Sys.setBuf { s with links := links } b { s.buf b with busy := false }).setProc i
    ⟨.user, (s.procs i).held.erase b⟩ = t
  have hself : t.procs i = ⟨.user, (s.procs i).held.erase b⟩ := by
    rw [← ht]
    exact Function.update_self ..
  have hother : ∀ j, j ≠ i → t.procs j = s.procs j := fun j hj => by
    rw [← ht]
    exact Function.update_of_ne hj ..
  have hbuf : t.buf b = { s.buf b with busy := false } := by
    rw [← ht]
    exact Function.update_self ..
  have hbuf' : ∀ c, c ≠ b → t.buf c = s.buf c := fun c hc => by
    rw [← ht]
    exact Function.update_of_ne hc ..
  have hq : t.idequeue = s.idequeue := by rw [← ht]; rfl
  have hkeys : ∀ c, (t.buf c).dev = (s.buf c).dev ∧ (t.buf c).sector = (s.buf c).sector := by
    intro c
    by_cases hc : c = b
    · subst hc
      rw [hbuf]
      exact ⟨rfl, rfl⟩
    · rw [hbuf' c hc]
      exact ⟨rfl, rfl⟩
  refine ⟨?_, ?_, ?_, ?_, ?_, ?_, ?_, ?_, ?_⟩
  · rw [← ht]
    exact hring
  · intro c
    have hupdate : t.held = Function.update s.held i ((s.procs i).held.erase b) := by
      rw [← ht]
      exact held_setProc ..
    have huses := uses_update s.held i ((s.procs i).held.erase b) c
    have hold := h.owned c
    rw [← hupdate] at huses
    by_cases hc : c = b
    · subst hc
      have hone : (s.held i).count c = 1 := List.count_eq_one_of_mem hnodup hheld
      have hzero : ((s.procs i).held.erase c).count c = 0 := by
        rw [List.count_erase_self]
        exact Nat.sub_eq_zero_of_le hone.le
      have hbusy := h.busy_iff.mpr ⟨i, hheld⟩
      rw [if_pos hbusy] at hold
      rw [hbuf, if_neg (by simp)]
      omega
    · have hsame : ((s.procs i).held.erase b).count c = (s.held i).count c :=
        List.count_erase_of_ne hc
      rw [hbuf' c hc]
      omega
  · intro j
    by_cases hj : j = i
    · subst hj
      refine ⟨?_, ?_, ?_, ?_, ?_, ?_⟩
      · intro c hc
        rw [hself] at hc
        cases hc
      · intro c hc
        rw [hself] at hc
        cases hc
      · intro c hc
        rw [hself] at hc
        cases hc
      · intro c hc
        rw [hself] at hc
        cases hc
      · intro c hc _
        rw [hself] at hc
        have hmem := (hnodup.mem_erase_iff).mp hc
        rw [hbuf' c hmem.1]
        exact (h.good j).clean c hmem.2 (by simp [hpc, Pc.target])
      · intro c dev sector hc
        rw [hself] at hc
        cases hc
    · obtain ⟨htarget, hbefore, hsleep, hwoken, hcl, hwaits⟩ := h.good j
      have hne : ∀ c ∈ (s.procs j).held, c ≠ b := by
        rintro c hc rfl
        exact hj (h.owner hc hheld)
      have htar : ∀ c, (s.procs j).pc.target = some c → t.buf c = s.buf c := fun c hc =>
        hbuf' c (hne c (htarget c hc))
      refine ⟨?_, ?_, ?_, ?_, ?_, ?_⟩
      · rw [hother j hj]
        exact htarget
      · intro c hc
        rw [hother j hj] at hc
        rw [htar c (by rw [hc]; rfl), hq]
        exact hbefore c hc
      · intro c hc
        rw [hother j hj] at hc
        rw [hq]
        exact hsleep c hc
      · intro c hc
        rw [hother j hj] at hc
        rw [htar c (by rw [hc]; rfl), hq]
        exact hwoken c hc
      · intro c hc hnt
        rw [hother j hj] at hc hnt
        rw [hbuf' c (hne c hc)]
        exact hcl c hc hnt
      · intro c dev sector hc
        rw [hother j hj] at hc
        have hcb : c ≠ b := by
          rintro rfl
          exact hnobody j dev sector hc
        rw [hbuf' c hcb]
        exact hwaits c dev sector hc
  · rw [hq]
    exact h.nodup
  · intro c hc
    rw [hq] at hc
    obtain ⟨hnot, j, hj⟩ := h.queued c hc
    have hji : j ≠ i := by
      rintro rfl
      rcases hj with hj | hj <;> cases hpc.symm.trans hj
    have hcb : c ≠ b := by
      rintro rfl
      exact hqueue hc
    rw [hbuf' c hcb]
    refine ⟨hnot, j, ?_⟩
    rw [Sys.Waits, hother j hji]
    exact hj
  · intro c hc
    by_cases hcb : c = b
    · rw [hcb, hbuf]
      exact hclean.2
    · rw [hbuf' c hcb] at hc ⊢
      exact h.free c hc
  · intro c d hd hsame hsec
    have hdev : (s.buf c).dev ≠ -1 := fun he => hd ((hkeys c).1.trans he)
    exact h.keys c d hdev ((hkeys c).1.symm.trans (hsame.trans (hkeys d).1))
      ((hkeys c).2.symm.trans (hsec.trans (hkeys d).2))
  · refine h.ide_frame (by rw [← ht]; rfl) hq fun c hc => hbuf' c ?_
    rintro rfl
    exact hqueue hc
  · rw [← ht]
    exact h.fault

theorem Inv.brelse (h : Inv s) (hpc : (s.procs i).pc = .user) (hheld : b ∈ (s.procs i).held) :
    Inv (s.brelse i b) := by
  have hbusy : (s.buf b).busy = true := h.busy_iff.mpr ⟨i, hheld⟩
  obtain ⟨hring, hall, -⟩ := h.order
  rw [Sys.brelse, if_neg (by simp [hbusy])]
  -- the wake-up may come first
  refine (h.wakeup b).release ?_ hheld ?_ ⟨_, hring.toFront (hall b), ?_⟩
  · rw [wakeup_pc, hpc]
    rfl
  · intro j dev sector
    exact (wake_not_asleep b (s.procs j).pc).1 dev sector
  · intro c
    by_cases hc : c = b
    · rw [hc]
      exact List.mem_cons_self
    · exact List.mem_cons_of_mem b ((List.mem_erase_of_ne hc).mpr (hall c))

/-! ## `ideintr` -/

/-- What `ideintr` makes of the buffer `b`. -/
def Sys.arrived (s : Sys) (error : Bool) (b : BufIx) : Buf :=
  let x := s.buf b
  { x with
    valid := true
    dirty := false
    data := if x.dirty = false ∧ error = false then s.insl x.data else x.data }

theorem Inv.ideintr_eq {error : Bool} {q : List BufIx} (h : Inv s) (hq : s.idequeue = b :: q) :
    s.ideintr error = { s.wakeup b with
      buf := Function.update s.buf b (s.arrived error b)
      idequeue := q
      ide := q.head?.map fun c => (s.buf c).request
      disk := (s.transfer error).disk } := by
  have htransfer : s.transfer error = { s with ide := none, disk := (s.transfer error).disk } := by
    unfold Sys.transfer
    split <;> rfl
  have hnodup := h.nodup
  rw [hq] at hnodup
  rw [Sys.ideintr, htransfer, hq]
  cases q with
  | nil => rfl
  | cons c q =>
      have hcb : c ≠ b := by
        rintro rfl
        exact (List.nodup_cons.mp hnodup).1 List.mem_cons_self
      have hc : Function.update s.buf b (s.arrived error b) c = s.buf c :=
        Function.update_of_ne hcb ..
      rw [List.head?_cons, Option.map_some, ← hc]
      rfl

/-- The first request of the queue is done, and nobody sleeps for it. -/
theorem Inv.complete {disk : Addr → Block} {q : List BufIx} (h : Inv s) (hq : s.idequeue = b :: q)
    (hnobody : ∀ j, (s.procs j).pc ≠ .iderwSleep b) (hclean : x.Clean)
    (hbusy : x.busy = (s.buf b).busy) (hdev : x.dev = (s.buf b).dev)
    (hsector : x.sector = (s.buf b).sector) :
    Inv { s with
      buf := Function.update s.buf b x
      idequeue := q
      ide := q.head?.map fun c => (s.buf c).request
      disk := disk } := by
  have hnodup := h.nodup
  rw [hq] at hnodup
  obtain ⟨hbq, hnodup'⟩ := List.nodup_cons.mp hnodup
  have hmem : b ∈ s.idequeue := hq ▸ List.mem_cons_self
  have hbuf : Function.update s.buf b x b = x := Function.update_self ..
  have hbuf' : ∀ c, c ≠ b → Function.update s.buf b x c = s.buf c := fun c hc =>
    Function.update_of_ne hc ..
  have hold : ∀ c, (Function.update s.buf b x c).busy = (s.buf c).busy ∧
      (Function.update s.buf b x c).dev = (s.buf c).dev ∧
        (Function.update s.buf b x c).sector = (s.buf c).sector := by
    intro c
    by_cases hc : c = b
    · subst hc
      rw [hbuf]
      exact ⟨hbusy, hdev, hsector⟩
    · rw [hbuf' c hc]
      exact ⟨rfl, rfl, rfl⟩
  have hrest : ∀ c, c ≠ b → (c ∈ q ↔ c ∈ s.idequeue) := by
    intro c hc
    rw [hq, List.mem_cons]
    exact (or_iff_right hc).symm
  refine ⟨h.ring, ?_, ?_, hnodup', ?_, ?_, ?_, ?_, h.fault⟩
  · intro c
    show uses s.held c = if (Function.update s.buf b x c).busy then 1 else 0
    rw [(hold c).1]
    exact h.owned c
  · intro j
    obtain ⟨htarget, hbefore, hsleep, hwoken, hcl, hwaits⟩ := h.good j
    refine ⟨htarget, ?_, ?_, ?_, ?_, ?_⟩
    · intro c hc
      have hcb : c ≠ b := by
        rintro rfl
        exact (hbefore c hc).2 hmem
      show ¬ (Function.update s.buf b x c).Clean ∧ c ∉ q
      rw [hbuf' c hcb, hrest c hcb]
      exact hbefore c hc
    · intro c hc
      have hcb : c ≠ b := by
        rintro rfl
        exact hnobody j hc
      exact (hrest c hcb).mpr (hsleep c hc)
    · intro c hc
      show (Function.update s.buf b x c).Clean ∨ c ∈ q
      by_cases hcb : c = b
      · subst hcb
        rw [hbuf]
        exact .inl hclean
      · rw [hbuf' c hcb, hrest c hcb]
        exact hwoken c hc
    · intro c hc hne
      show (Function.update s.buf b x c).Clean
      by_cases hcb : c = b
      · subst hcb
        rw [hbuf]
        exact hclean
      · rw [hbuf' c hcb]
        exact hcl c hc hne
    · intro c dev sector hc
      exact (hold c).1.trans (hwaits c dev sector hc)
  · intro c hc
    have hcb : c ≠ b := by
      rintro rfl
      exact hbq hc
    obtain ⟨hnot, j, hj⟩ := h.queued c ((hrest c hcb).mp hc)
    refine ⟨?_, j, hj⟩
    show ¬ (Function.update s.buf b x c).Clean
    rw [hbuf' c hcb]
    exact hnot
  · intro c hc
    show (Function.update s.buf b x c).dirty = false
    by_cases hcb : c = b
    · subst hcb
      rw [hbuf]
      exact hclean.2
    · rw [hbuf' c hcb]
      exact h.free c ((hold c).1.symm.trans hc)
  · intro c d hd hsame hsec
    have hd' : (s.buf c).dev ≠ -1 := fun he => hd ((hold c).2.1.trans he)
    exact h.keys c d hd' ((hold c).2.1.symm.trans (hsame.trans (hold d).2.1))
      ((hold c).2.2.symm.trans (hsec.trans (hold d).2.2))
  · show q.head?.map (fun c => (s.buf c).request)
      = q.head?.map fun c => (Function.update s.buf b x c).request
    cases q with
    | nil => rfl
    | cons c q =>
        have hcb : c ≠ b := by
          rintro rfl
          exact hbq List.mem_cons_self
        simp [hcb]

theorem Inv.ideintr {error : Bool} (h : Inv s) : Inv (s.ideintr error) := by
  cases hq : s.idequeue with
  | nil =>
      have hide : s.ide = none := by
        rw [h.ide, hq]
        rfl
      have hsame : s.ideintr error = s := by
        simp only [Sys.ideintr, hq, Sys.transfer, hide]
        rw [← hide, ← hq]
      rw [hsame]
      exact h
  | cons b q =>
      rw [h.ideintr_eq hq]
      refine (h.wakeup b).complete hq ?_ ⟨rfl, rfl⟩ rfl rfl rfl
      intro j
      exact (wake_not_asleep b (s.procs j).pc).2

/-! ## The step -/

theorem Inv.step {e : Event} (h : Inv s) (ht : s.step e = some t) : Inv t := by
  unfold Sys.step at ht
  split at ht
  · cases e with
    | bread i dev sector =>
        dsimp only at ht
        split at ht
        · rename_i hpc
          obtain rfl := Option.some.inj ht
          exact h.leaves rfl (fun c hc => by rw [hpc] at hc; cases hc) (by simp)
        · cases ht
    | bwrite i b data =>
        dsimp only at ht
        split at ht
        · rename_i hpc
          exact Option.some.inj ht ▸ h.bwrite hpc.1 hpc.2
        · cases ht
    | brelse i b =>
        dsimp only at ht
        split at ht
        · rename_i hpc
          exact Option.some.inj ht ▸ h.brelse hpc.1 hpc.2
        · cases ht
    | go i =>
        cases hpc : (s.procs i).pc <;> simp only [hpc] at ht
        case bget dev sector => exact Option.some.inj ht ▸ h.bget hpc
        case iderw b => exact Option.some.inj ht ▸ h.iderw hpc
        case iderwWoken b => exact Option.some.inj ht ▸ h.iderwLoop hpc
        all_goals cases ht
    | wake i =>
        cases hpc : (s.procs i).pc <;> simp only [hpc] at ht
        case bgetSleep b dev sector =>
          obtain rfl := Option.some.inj ht
          exact h.leaves rfl (fun c hc => by rw [hpc] at hc; cases hc) (by simp)
        case iderwSleep b =>
          obtain rfl := Option.some.inj ht
          exact h.waits (.inl hpc) (.inl rfl)
        all_goals cases ht
    | ideintr error => exact Option.some.inj ht ▸ h.ideintr
  · cases ht

theorem ring_binit : binit.Ring (List.finRange NBUF).reverse := by
  have hring : binit.Ring ((List.finRange NBUF).reverse ++ []) :=
    ring_empty.foldl_pushFront (List.nodup_finRange NBUF) fun _ _ => List.not_mem_nil
  rwa [List.append_nil] at hring

theorem inv_boot (havedisk1 : Bool) (disk : Addr → Block) : Inv (boot havedisk1 disk) := by
  refine ⟨⟨_, ring_binit, fun b => ?_⟩, ?_, ?_, List.nodup_nil, by simp [boot],
    fun _ _ => rfl, ?_, rfl, by simp [boot]⟩
  · exact List.mem_reverse.mpr (List.mem_finRange b)
  · intro b
    exact Finset.sum_eq_zero fun i _ => rfl
  · intro i
    exact ⟨by simp [boot, Pc.target], by simp [boot], by simp [boot], by simp [boot],
      by simp [boot], by simp [boot]⟩
  · intro b c hdev
    exact absurd rfl hdev

theorem inv_run (havedisk1 : Bool) (disk : Addr → Block) (es : List Event) :
    AllStates Sys.step Inv (boot havedisk1 disk) es :=
  allStates_of_step (fun _ _ _ h ht => h.step ht) (inv_boot havedisk1 disk)

/-- A sector is in one buffer at most, a buffer with one process at most, and busy just as long
as it is with one.  The only panics are that of `bget`, and that of `iderw` for a disk that is
not there. -/
theorem owners_run (havedisk1 : Bool) (disk : Addr → Block) (es : List Event) :
    AllStates Sys.step (fun s =>
      (∀ b c, (s.buf b).dev ≠ -1 → (s.buf b).dev = (s.buf c).dev →
        (s.buf b).sector = (s.buf c).sector → b = c) ∧
      (∀ b, uses (fun i => (s.procs i).held) b = if (s.buf b).busy then 1 else 0) ∧
      ∀ f, s.fault = some f → f = .noBuffers ∨ f = .noDisk ∧ s.havedisk1 = false)
      (boot havedisk1 disk) es :=
  (inv_run havedisk1 disk es).mono fun _ h => ⟨h.keys, h.owned, h.fault⟩

/-- Nobody sleeps for nothing: in `bget` on a buffer that is busy, in `iderw` on one that is
queued.  The disk works on the first of the queue, and rests only when there is none. -/
theorem sleep_run (havedisk1 : Bool) (disk : Addr → Block) (es : List Event) :
    AllStates Sys.step (fun s =>
      (∀ i b dev sector, (s.procs i).pc = .bgetSleep b dev sector → (s.buf b).busy = true) ∧
      (∀ i b, (s.procs i).pc = .iderwSleep b → b ∈ s.idequeue) ∧
      s.ide = s.idequeue.head?.map fun b => (s.buf b).request) (boot havedisk1 disk) es :=
  (inv_run havedisk1 disk es).mono fun _ h =>
    ⟨fun i => (h.good i).waits, fun i => (h.good i).sleep, h.ide⟩

end Cs537.Bcache
