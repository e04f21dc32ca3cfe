/-
# `Cs537.Bcache.Coherent` — a process finds what was written last

`last` keeps, for each place on the disks, the block of the last `bwrite` there, from
the moment of the call.  As long as the disk reports no errors, the data of a buffer
that `bread` has given out are the last block of its sector, and when nothing is left
to be written the disks hold just the last blocks.

A place on a disk is named by one bit of the device and 28 bits of the sector.  So the
devices are those that there are, 0 and 1, and the sectors have 28 bits: two buffers
for two names of one place would not see each other's data.
-/
import Cs537.Bcache.Owners

namespace Cs537.Bcache

open Cs537.Lib

variable {s t : Sys} {i : Slot} {b c : BufIx} {x : Buf} {dev sector : BitVec 32} {e : Event}
  {last : Addr → Block}

/-- A device that there is, and a sector that the controller can be told. -/
def Named (dev sector : BitVec 32) : Prop := dev.toNat < 2 ∧ sector.toNat < 2 ^ 28

instance : Decidable (Named dev sector) := inferInstanceAs (Decidable (_ ∧ _))

/-- An event that asks for a place on a disk, or comes without an error. -/
def Event.Fine : Event → Prop
  | .bread _ dev sector => Named dev sector
  | .ideintr error => error = false
  | _ => True

/-- The last blocks, after a step. -/
def note (last : Addr → Block) (s : Sys) (e : Event) (_ : Sys) : Addr → Block :=
  match e with
  | .bwrite _ b data => Function.update last (s.buf b).addr data
  | _ => last

structure Coherent (s : Sys) (last : Addr → Block) : Prop where
  asks : ∀ i dev sector, ((s.procs i).pc = .bget dev sector ∨
    ∃ b, (s.procs i).pc = .bgetSleep b dev sector) → Named dev sector
  named : ∀ b, (s.buf b).valid = true ∨ (s.buf b).dirty = true ∨ (s.buf b).busy = true →
    Named (s.buf b).dev (s.buf b).sector
  data : ∀ b, (s.buf b).valid = true ∨ (s.buf b).dirty = true →
    (s.buf b).data = last (s.buf b).addr
  disk : ∀ a, (∃ b, (s.buf b).dirty = true ∧ (s.buf b).addr = a) ∨ s.disk a = last a

/-! ## Names -/

theorem setWidth_inj {n k : Nat} {x y : BitVec n} (hx : x.toNat < 2 ^ k) (hy : y.toNat < 2 ^ k)
    (h : x.setWidth k = y.setWidth k) : x = y := by
  have hnat := congrArg BitVec.toNat h
  rw [BitVec.toNat_setWidth, BitVec.toNat_setWidth, Nat.mod_eq_of_lt hx, Nat.mod_eq_of_lt hy] at hnat
  exact BitVec.eq_of_toNat_eq hnat

/-- Two buffers for one place are one. -/
theorem Inv.addr_inj (h : Inv s) (hb : Named (s.buf b).dev (s.buf b).sector)
    (hc : Named (s.buf c).dev (s.buf c).sector) (haddr : (s.buf b).addr = (s.buf c).addr) :
    b = c := by
  obtain ⟨hdev, hsector⟩ := Prod.mk.inj haddr
  refine h.keys b c ?_ (setWidth_inj hb.1 hc.1 hdev) (setWidth_inj hb.2 hc.2 hsector)
  intro he
  have hlt := hb.1
  rw [he] at hlt
  exact absurd hlt (by decide)

/-! ## The steps -/

/-- One buffer changes, and the disks do not. -/
theorem Coherent.step_of (h : Coherent s last) (hdisk : t.disk = s.disk)
    (hbuf : ∀ c, c ≠ b → t.buf c = s.buf c)
    (hasks : ∀ i dev sector, ((t.procs i).pc = .bget dev sector ∨
      ∃ b, (t.procs i).pc = .bgetSleep b dev sector) → Named dev sector)
    (hnamed : (t.buf b).valid = true ∨ (t.buf b).dirty = true ∨ (t.buf b).busy = true →
      Named (t.buf b).dev (t.buf b).sector)
    (hdata : (t.buf b).valid = true ∨ (t.buf b).dirty = true →
      (t.buf b).data = last (t.buf b).addr)
    (hdirty : (s.buf b).dirty = true →
      (t.buf b).dirty = true ∧ (t.buf b).addr = (s.buf b).addr) : Coherent t last := by
  refine ⟨hasks, ?_, ?_, ?_⟩
  · intro c hc
    by_cases hcb : c = b
    · subst hcb
      exact hnamed hc
    · rw [hbuf c hcb] at hc ⊢
      exact h.named c hc
  · intro c hc
    by_cases hcb : c = b
    · subst hcb
      exact hdata hc
    · rw [hbuf c hcb] at hc ⊢
      exact h.data c hc
  · intro a
    rw [hdisk]
    refine (h.disk a).imp_left ?_
    rintro ⟨c, hc, haddr⟩
    by_cases hcb : c = b
    · subst hcb
      exact ⟨c, (hdirty hc).1, (hdirty hc).2.trans haddr⟩
    · exact ⟨c, by rwa [hbuf c hcb], by rwa [hbuf c hcb]⟩

/-- No buffer changes. -/
theorem Coherent.same (h : Coherent s last) (hdisk : t.disk = s.disk) (hbuf : t.buf = s.buf)
    (hasks : ∀ i dev sector, ((t.procs i).pc = .bget dev sector ∨
      ∃ b, (t.procs i).pc = .bgetSleep b dev sector) → Named dev sector) : Coherent t last := by
  refine ⟨hasks, ?_, ?_, ?_⟩
  · rw [hbuf]
    exact h.named
  · rw [hbuf]
    exact h.data
  · rw [hbuf, hdisk]
    exact h.disk

/-- Process `i` goes on, and asks for nothing new. -/
theorem Coherent.asks_setProc {x : Proc} (h : Coherent s last)
    (hprocs : t.procs = Function.update s.procs i x)
    (hx : ∀ dev sector, (x.pc = .bget dev sector ∨ ∃ b, x.pc = .bgetSleep b dev sector) →
      Named dev sector) (j : Slot) (dev sector : BitVec 32)
    (hj : (t.procs j).pc = .bget dev sector ∨ ∃ b, (t.procs j).pc = .bgetSleep b dev sector) :
    Named dev sector := by
  rw [hprocs] at hj
  by_cases hji : j = i
  · subst hji
    rw [Function.update_self] at hj
    exact hx dev sector hj
  · rw [Function.update_of_ne hji] at hj
    exact h.asks j dev sector hj

theorem Coherent.bget (hinv : Inv s) (h : Coherent s last) (hpc : (s.procs i).pc = .bget dev sector) :
    Coherent (s.bget i dev sector) last := by
  have hnamed := h.asks i dev sector (.inl hpc)
  have htake : ∀ (x : Buf) (b : BufIx), ∀ j dev sector,
      ((((s.setBuf b x).take i b).procs j).pc = .bget dev sector ∨
        ∃ c, (((s.setBuf b x).take i b).procs j).pc = .bgetSleep c dev sector) →
      Named dev sector := by
    intro x b
    refine h.asks_setProc (i := i) rfl ?_
    intro dev sector hx
    dsimp only at hx
    split at hx <;> rcases hx with hx | ⟨c, hx⟩ <;> cases hx
  rw [Sys.bget]
  split
  · rename_i b hb
    have hkey : (s.buf b).dev = dev ∧ (s.buf b).sector = sector := by
      have hfind := List.find?_some hb
      simpa using hfind
    dsimp only
    split
    · have hself : ∀ x, ((s.setBuf b x).take i b).buf b = x := fun x => Function.update_self ..
      refine h.step_of (b := b) rfl (fun c hc => Function.update_of_ne hc ..) (htake _ b) ?_ ?_ ?_
      · intro _
        rw [hself]
        rw [hkey.1, hkey.2]
        exact hnamed
      · rw [hself]
        exact h.data b
      · rw [hself]
        exact fun hd => ⟨hd, rfl⟩
    · refine h.same rfl rfl (h.asks_setProc (i := i) rfl ?_)
      rintro dev' sector' (hx | ⟨c, hx⟩)
      · cases hx
      · obtain ⟨-, rfl, rfl⟩ := Pc.bgetSleep.inj hx
        exact hnamed
  · split
    · rename_i b hb
      have hfree : (s.buf b).busy = false := by
        have hfind := List.find?_some hb
        simpa using hfind
      have hself : ∀ x, ((s.setBuf b x).take i b).buf b = x := fun x => Function.update_self ..
      refine h.step_of (b := b) rfl (fun c hc => Function.update_of_ne hc ..) (htake _ b) ?_ ?_ ?_
      · rw [hself]
        exact fun _ => hnamed
      · rw [hself]
        rintro (hv | hd)
        · cases hv
        · cases hd
      · intro hd
        cases (hinv.free b hfree).symm.trans hd
    · exact h.same rfl rfl h.asks

theorem asks_wake (b : BufIx) (pc : Pc) (h : pc.wake b = .bget dev sector ∨
    ∃ c, pc.wake b = .bgetSleep c dev sector) :
    pc = .bget dev sector ∨ ∃ c, pc = .bgetSleep c dev sector := by
  rcases wake_cases b pc with hpc | ⟨dev', sector', hpc, hpc'⟩ | ⟨hpc, hpc'⟩
  · rwa [hpc] at h
  · rw [hpc'] at h
    rcases h with h | ⟨c, h⟩
    · obtain ⟨rfl, rfl⟩ := Pc.bget.inj h
      exact .inr ⟨b, hpc⟩
    · cases h
  · rw [hpc'] at h
    rcases h with h | ⟨c, h⟩ <;> cases h

theorem Coherent.bwrite {data : Block} (hinv : Inv s) (h : Coherent s last) (hheld : b ∈ (s.procs i).held) :
    Coherent (s.bwrite i b data) (Function.update last (s.buf b).addr data) := by
  have hbusy : (s.buf b).busy = true := hinv.busy_iff.mpr ⟨i, hheld⟩
  have hnamed := h.named b (.inr (.inr hbusy))
  rw [Sys.bwrite, if_neg (by simp [hbusy])]
  generalize hx : ({ s.buf b with dirty := true, data := data } : Buf) = x
  have haddr : x.addr = (s.buf b).addr := by rw [← hx]; rfl
  have hself : ((s.setBuf b x).setPc i (.iderw b)).buf b = x := Function.update_self ..
  have hother : ∀ c, c ≠ b → ((s.setBuf b x).setPc i (.iderw b)).buf c = s.buf c := fun c hc =>
    Function.update_of_ne hc ..
  refine ⟨?_, ?_, ?_, ?_⟩
  · refine h.asks_setProc (i := i) rfl ?_
    rintro dev sector (hd | ⟨c, hd⟩) <;> cases hd
  · intro c hc
    by_cases hcb : c = b
    · subst hcb
      rw [hself, ← hx]
      exact hnamed
    · rw [hother c hcb] at hc ⊢
      exact h.named c hc
  · intro c hc
    by_cases hcb : c = b
    · subst hcb
      rw [hself, haddr, Function.update_self, ← hx]
    · rw [hother c hcb] at hc ⊢
      have hcn := h.named c (hc.imp_right .inl)
      have hne : (s.buf c).addr ≠ (s.buf b).addr := fun he => hcb (hinv.addr_inj hcn hnamed he)
      rw [Function.update_of_ne hne]
      exact h.data c hc
  · intro a
    by_cases ha : a = (s.buf b).addr
    · refine .inl ⟨b, ?_, ?_⟩
      · rw [hself, ← hx]
      · rw [hself, haddr, ha]
    · rw [Function.update_of_ne ha]
      refine (h.disk a).imp_left ?_
      rintro ⟨c, hc, hca⟩
      have hcb : c ≠ b := by
        rintro rfl
        exact ha hca.symm
      exact ⟨c, by rwa [hother c hcb], by rwa [hother c hcb]⟩

theorem Coherent.brelse (hinv : Inv s) (h : Coherent s last) (hheld : b ∈ (s.procs i).held) :
    Coherent (s.brelse i b) last := by
  have hbusy : (s.buf b).busy = true := hinv.busy_iff.mpr ⟨i, hheld⟩
  have hnamed := h.named b (.inr (.inr hbusy))
  rw [Sys.brelse, if_neg (by simp [hbusy])]
  refine h.step_of (b := b) rfl (fun c hc => Function.update_of_ne hc ..) ?_ ?_ ?_ ?_
  · intro j dev sector hj
    have hj' : (Function.update (s.wakeup b).procs i ⟨.user, (s.procs i).held.erase b⟩ j).pc
        = .bget dev sector ∨ ∃ c, (Function.update (s.wakeup b).procs i
          ⟨.user, (s.procs i).held.erase b⟩ j).pc = .bgetSleep c dev sector := hj
    by_cases hji : j = i
    · subst hji
      rw [Function.update_self] at hj'
      rcases hj' with hj' | ⟨c, hj'⟩ <;> cases hj'
    · rw [Function.update_of_ne hji] at hj'
      exact h.asks j dev sector (asks_wake b _ hj')
  · intro _
    simpa [Sys.setBuf, Sys.wakeup, Sys.setProc] using hnamed
  · have hdata := h.data b
    simpa [Sys.setBuf, Sys.wakeup, Sys.setProc, Buf.addr] using hdata
  · intro hd
    simpa [Sys.setBuf, Sys.wakeup, Sys.setProc, Buf.addr] using hd

theorem Coherent.iderwLoop (h : Coherent s last) : Coherent (s.iderwLoop i b) last := by
  rw [Sys.iderwLoop]
  refine h.same rfl rfl (h.asks_setProc (i := i) rfl ?_)
  intro dev sector hx
  dsimp only at hx
  split at hx <;> rcases hx with hx | ⟨c, hx⟩ <;> cases hx

theorem Coherent.iderw (h : Coherent s last) : Coherent (s.iderw i b) last := by
  rw [Sys.iderw]
  split
  · exact h.same rfl rfl h.asks
  split
  · exact h.same rfl rfl h.asks
  split
  · exact h.same rfl rfl h.asks
  · have hqueue : Coherent (s.enqueue b) last := by
      rw [Sys.enqueue]
      dsimp only
      split <;> exact h.same rfl rfl h.asks
    exact hqueue.iderwLoop

/-- The first of the queue has been written, or read. -/
theorem Inv.transferred {q : List BufIx} (hinv : Inv s) (hq : s.idequeue = b :: q) :
    ((s.buf b).dirty = true ∧ (s.transfer false).disk
        = Function.update s.disk (s.buf b).addr (s.buf b).data ∧
      (s.arrived false b).data = (s.buf b).data) ∨
    ((s.buf b).dirty = false ∧ (s.transfer false).disk = s.disk ∧
      (s.arrived false b).data = s.disk (s.buf b).addr) := by
  have hide : s.ide = some (s.buf b).request := by
    rw [hinv.ide, hq]
    rfl
  cases hd : (s.buf b).dirty with
  | true =>
      refine .inl ⟨rfl, ?_, ?_⟩
      · simp [Sys.transfer, hide, Buf.request, hd]
      · simp [Sys.arrived, hd]
  | false =>
      refine .inr ⟨rfl, ?_, ?_⟩
      · simp [Sys.transfer, hide, Buf.request, hd]
      · simp [Sys.arrived, Sys.insl, hide, Buf.request, hd]

theorem Coherent.ideintr (hinv : Inv s) (h : Coherent s last) :
    Coherent (s.ideintr false) last := by
  cases hq : s.idequeue with
  | nil =>
      have hide : s.ide = none := by
        rw [hinv.ide, hq]
        rfl
      rw [Sys.ideintr, hq]
      refine h.same ?_ ?_ ?_
      all_goals simp only [Sys.transfer, hide]
      exact h.asks
  | cons b q =>
      have hbusy := hinv.queued_busy (hq ▸ List.mem_cons_self)
      have hnamed := h.named b (.inr (.inr hbusy))
      rw [hinv.ideintr_eq hq]
      have hasks : ∀ j dev sector, (((s.wakeup b).procs j).pc = .bget dev sector ∨
          ∃ c, ((s.wakeup b).procs j).pc = .bgetSleep c dev sector) → Named dev sector :=
        fun j dev sector hj => h.asks j dev sector (asks_wake b _ hj)
      have haddr : (s.arrived false b).addr = (s.buf b).addr := rfl
      have hself : Function.update s.buf b (s.arrived false b) b = s.arrived false b :=
        Function.update_self ..
      have hother : ∀ c, c ≠ b → Function.update s.buf b (s.arrived false b) c = s.buf c :=
        fun c hc => Function.update_of_ne hc ..
      -- what the buffer holds now is the last block of its place
      have hdata : (s.arrived false b).data = last (s.buf b).addr := by
        rcases hinv.transferred hq with ⟨hd, -, hdata⟩ | ⟨hd, -, hdata⟩
        · exact hdata.trans (h.data b (.inr hd))
        · refine hdata.trans ((h.disk (s.buf b).addr).resolve_left ?_)
          rintro ⟨c, hc, hca⟩
          obtain rfl := hinv.addr_inj (h.named c (.inr (.inl hc))) hnamed hca
          cases hd.symm.trans hc
      refine ⟨hasks, ?_, ?_, ?_⟩
      · intro c hc
        dsimp only at hc ⊢
        by_cases hcb : c = b
        · subst hcb
          rw [hself]
          exact hnamed
        · rw [hother c hcb] at hc ⊢
          exact h.named c hc
      · intro c hc
        dsimp only at hc ⊢
        by_cases hcb : c = b
        · subst hcb
          rw [hself, haddr]
          exact hdata
        · rw [hother c hcb] at hc ⊢
          exact h.data c hc
      · intro a
        dsimp only
        by_cases ha : a = (s.buf b).addr
        · right
          rcases hinv.transferred hq with ⟨hd, hdisk, -⟩ | ⟨hd, hdisk, hdata'⟩
          · rw [hdisk, ha, Function.update_self]
            exact h.data b (.inr hd)
          · rw [hdisk, ha, ← hdata']
            exact hdata
        · have hdisk : (s.transfer false).disk a = s.disk a := by
            rcases hinv.transferred hq with ⟨-, hdisk, -⟩ | ⟨-, hdisk, -⟩
            · rw [hdisk, Function.update_of_ne ha]
            · rw [hdisk]
          rw [hdisk]
          refine (h.disk a).imp_left ?_
          rintro ⟨c, hc, hca⟩
          have hcb : c ≠ b := by
            rintro rfl
            exact ha hca.symm
          exact ⟨c, by rwa [hother c hcb], by rwa [hother c hcb]⟩

theorem Coherent.step (hinv : Inv s) (h : Coherent s last) (he : e.Fine)
    (ht : s.step e = some t) : Coherent t (note last s e t) := by
  unfold Sys.step at ht
  split at ht
  · cases e with
    | bread i dev sector =>
        dsimp only at ht
        split at ht
        · obtain rfl := Option.some.inj ht
          refine h.same rfl rfl (h.asks_setProc (i := i) rfl ?_)
          rintro dev' sector' (hx | ⟨c, hx⟩)
          · obtain ⟨rfl, rfl⟩ := Pc.bget.inj hx
            exact he
          · cases hx
        · cases ht
    | bwrite i b data =>
        dsimp only at ht
        split at ht
        · rename_i hpc
          exact Option.some.inj ht ▸ h.bwrite hinv hpc.2
        · cases ht
    | brelse i b =>
        dsimp only at ht
        split at ht
        · rename_i hpc
          exact Option.some.inj ht ▸ h.brelse hinv hpc.2
        · cases ht
    | go i =>
        cases hpc : (s.procs i).pc <;> simp only [hpc] at ht
        case bget dev sector => exact Option.some.inj ht ▸ h.bget hinv hpc
        case iderw b => exact Option.some.inj ht ▸ h.iderw
        case iderwWoken b => exact Option.some.inj ht ▸ h.iderwLoop
        all_goals cases ht
    | wake i =>
        cases hpc : (s.procs i).pc <;> simp only [hpc] at ht
        case bgetSleep b dev sector =>
          obtain rfl := Option.some.inj ht
          refine h.same rfl rfl (h.asks_setProc (i := i) rfl ?_)
          rintro dev' sector' (hx | ⟨c, hx⟩)
          · obtain ⟨rfl, rfl⟩ := Pc.bget.inj hx
            exact h.asks i dev sector (.inr ⟨b, hpc⟩)
          · cases hx
        case iderwSleep b =>
          obtain rfl := Option.some.inj ht
          refine h.same rfl rfl (h.asks_setProc (i := i) rfl ?_)
          rintro dev' sector' (hx | ⟨c, hx⟩) <;> cases hx
        all_goals cases ht
    | ideintr error =>
        obtain rfl : error = false := he
        exact Option.some.inj ht ▸ h.ideintr hinv
  · cases ht

theorem coherent_boot (havedisk1 : Bool) (disk : Addr → Block) :
    Coherent (boot havedisk1 disk) disk := by
  refine ⟨?_, ?_, ?_, fun _ => .inr rfl⟩
  · rintro i dev sector (h | ⟨b, h⟩) <;> cases h
  · rintro b (h | h | h) <;> cases h
  · rintro b (h | h) <;> cases h

/-- A process that has a buffer, and is not in `iderw` for it, has the block that was written
last to the sector; and when no buffer is dirty the disks hold the last blocks. -/
theorem coherent_run (havedisk1 : Bool) (disk : Addr → Block) (es : List Event)
    (hes : ∀ e ∈ es, e.Fine) : AllStates (watch Sys.step note) (fun x =>
      (∀ i, ∀ b ∈ (x.1.procs i).held, (x.1.procs i).pc.target ≠ some b →
        (x.1.buf b).data = x.2 (x.1.buf b).addr) ∧
      ((∀ b, (x.1.buf b).dirty = false) → x.1.disk = x.2)) (boot havedisk1 disk, disk) es := by
  have hrun : AllStates (watch Sys.step note) (fun x => Inv x.1 ∧ Coherent x.1 x.2)
      (boot havedisk1 disk, disk) es := by
    refine allStates_of_allSteps (C := fun _ e => e.Fine) ?_
      ⟨inv_boot havedisk1 disk, coherent_boot havedisk1 disk⟩ (allSteps_of_forall hes)
    rintro x e y ⟨hinv, h⟩ he ht
    obtain ⟨hstep, hnote⟩ := watch_eq_some.mp ht
    rw [← hnote]
    exact ⟨hinv.step hstep, h.step hinv he hstep⟩
  refine hrun.mono ?_
  rintro x ⟨hinv, h⟩
  refine ⟨?_, ?_⟩
  · intro i b hb hpc
    exact h.data b (.inl ((hinv.good i).clean b hb hpc).1)
  · intro hclean
    funext a
    refine (h.disk a).resolve_left ?_
    rintro ⟨b, hb, -⟩
    cases (hclean b).symm.trans hb

/-- A block that is read, written and given back. -/
theorem coherent_run_write : AllStates (watch Sys.step note) (fun x =>
      (∀ i, ∀ b ∈ (x.1.procs i).held, (x.1.procs i).pc.target ≠ some b →
        (x.1.buf b).data = x.2 (x.1.buf b).addr) ∧
      ((∀ b, (x.1.buf b).dirty = false) → x.1.disk = x.2))
    (boot true fun _ => .replicate 512 0, fun _ => .replicate 512 0)
    [.bread slot0 1 5, .go slot0, .go slot0, .ideintr false, .go slot0,
      .bwrite slot0 buf0 (.replicate 512 1), .go slot0, .ideintr false, .go slot0,
      .brelse slot0 buf0] :=
  coherent_run true _ _ (by simp [Event.Fine, Named])

end Cs537.Bcache
