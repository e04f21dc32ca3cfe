/-
# `Cs537.Bcache.Inv` — what every step keeps

The invariant of the cache and the driver, whatever the disk does.  A busy buffer is with exactly one
process.  A buffer is in `idequeue` as long as it is not clean and its process is in
`iderw`; the controller works on the first of the queue.  A process that is not in
`iderw` has clean buffers only, so the panics of `bwrite`, `brelse` and `iderw` do not
come, but for a missing disk.

The links of the cache lead through all buffers, so `bget` sees them all, and a sector
does not get a second buffer.
-/
import Cs537.Bcache.System
import Cs537.Lib.Holdings
import Mathlib.Data.Fintype.Card

namespace Cs537.Bcache

open Cs537.Lib

variable {s t : Sys} {i j : Slot} {b c : BufIx} {pc : Pc} {x : Buf} {dev sector : BitVec 32}

/-! ## The invariant -/

/-- `(b->flags & (B_VALID|B_DIRTY)) == B_VALID` -/
def Buf.Clean (b : Buf) : Prop := b.valid = true ∧ b.dirty = false

/-- The buffer that a process is in `iderw` for. -/
def Pc.target : Pc → Option BufIx
  | .iderw b | .iderwSleep b | .iderwWoken b => some b
  | _ => none

def Sys.held (s : Sys) (i : Slot) : List BufIx := (s.procs i).held

/-- Process `i` waits in `iderw` for the disk. -/
def Sys.Waits (s : Sys) (i : Slot) (b : BufIx) : Prop :=
  (s.procs i).pc = .iderwSleep b ∨ (s.procs i).pc = .iderwWoken b

/-- What holds of process `i`. -/
structure Sys.Good (s : Sys) (i : Slot) : Prop where
  target : ∀ b, (s.procs i).pc.target = some b → b ∈ (s.procs i).held
  before : ∀ b, (s.procs i).pc = .iderw b → ¬ (s.buf b).Clean ∧ b ∉ s.idequeue
  sleep : ∀ b, (s.procs i).pc = .iderwSleep b → b ∈ s.idequeue
  woken : ∀ b, (s.procs i).pc = .iderwWoken b → (s.buf b).Clean ∨ b ∈ s.idequeue
  clean : ∀ b ∈ (s.procs i).held, (s.procs i).pc.target ≠ some b → (s.buf b).Clean
  waits : ∀ b dev sector, (s.procs i).pc = .bgetSleep b dev sector → (s.buf b).busy = true

structure Inv (s : Sys) : Prop where
  ring : ∃ l, s.links.Ring l ∧ ∀ b, b ∈ l
  owned : ∀ b, uses s.held b = if (s.buf b).busy then 1 else 0
  good : ∀ i, s.Good i
  nodup : s.idequeue.Nodup
  queued : ∀ b ∈ s.idequeue, ¬ (s.buf b).Clean ∧ ∃ i, s.Waits i b
  free : ∀ b, (s.buf b).busy = false → (s.buf b).dirty = false
  keys : ∀ b c, (s.buf b).dev ≠ -1 → (s.buf b).dev = (s.buf c).dev →
    (s.buf b).sector = (s.buf c).sector → b = c
  ide : s.ide = s.idequeue.head?.map fun b => (s.buf b).request
  fault : ∀ f, s.fault = some f → f = .noBuffers ∨ f = .noDisk ∧ s.havedisk1 = false

/-! ## What it says -/

theorem Inv.busy_iff (h : Inv s) : (s.buf b).busy = true ↔ ∃ i, b ∈ (s.procs i).held := by
  have howned := h.owned b
  constructor
  · intro hb
    rw [if_pos hb] at howned
    exact exists_of_uses_pos (howned ▸ Nat.one_pos)
  · rintro ⟨i, hi⟩
    have hle := (one_le_count hi).trans (count_le_uses s.held i b)
    by_contra hb
    rw [if_neg hb] at howned
    omega

/-- A buffer has at most one owner. -/
theorem Inv.owner (h : Inv s) (hi : b ∈ (s.procs i).held) (hj : b ∈ (s.procs j).held) : i = j := by
  have hbusy := h.busy_iff.mpr ⟨i, hi⟩
  have hone : uses s.held b ≤ 1 := by rw [h.owned b, if_pos hbusy]
  exact holder_unique hone hi hj

theorem Inv.nodup_held (h : Inv s) (i : Slot) : (s.held i).Nodup := by
  refine nodup_of_uses_le_one ?_ i
  intro b
  rw [h.owned b]
  split <;> decide

theorem Sys.Waits.target (h : s.Waits i b) : (s.procs i).pc.target = some b := by
  rcases h with h | h <;> rw [h] <;> rfl

theorem Inv.queued_busy (h : Inv s) (hb : b ∈ s.idequeue) : (s.buf b).busy = true := by
  obtain ⟨-, i, hi⟩ := h.queued b hb
  exact h.busy_iff.mpr ⟨i, (h.good i).target b hi.target⟩

/-- The list of all buffers, as the links lead. -/
def Sys.order (s : Sys) : List BufIx := s.links.ahead NBUF

theorem Inv.order (h : Inv s) : s.links.Ring s.order ∧ (∀ b, b ∈ s.order) ∧
    s.links.back NBUF = s.order.reverse := by
  obtain ⟨l, hring, hall⟩ := h.ring
  have hlen : l.length ≤ NBUF := by
    have hcard := hring.nodup.length_le_card
    rwa [Fintype.card_fin] at hcard
  have hl : s.order = l := hring.ahead hlen
  rw [hl]
  exact ⟨hring, hall, hring.back hlen⟩

/-! ## What a step leaves alone -/

/-- Process `j` sees nothing of a step. -/
theorem Sys.Good.frame (h : s.Good j) (hproc : t.procs j = s.procs j)
    (hheld : ∀ b ∈ (s.procs j).held, t.buf b = s.buf b ∧ (b ∈ t.idequeue ↔ b ∈ s.idequeue))
    (hbusy : ∀ b, (s.buf b).busy = true → (t.buf b).busy = true) : t.Good j := by
  refine ⟨?_, ?_, ?_, ?_, ?_, ?_⟩
  · rw [hproc]
    exact h.target
  · intro b hb
    rw [hproc] at hb
    obtain ⟨hbuf, hq⟩ := hheld b (h.target b (by rw [hb]; rfl))
    rw [hbuf, hq]
    exact h.before b hb
  · intro b hb
    rw [hproc] at hb
    exact (hheld b (h.target b (by rw [hb]; rfl))).2.mpr (h.sleep b hb)
  · intro b hb
    rw [hproc] at hb
    obtain ⟨hbuf, hq⟩ := hheld b (h.target b (by rw [hb]; rfl))
    rw [hbuf, hq]
    exact h.woken b hb
  · intro b hb hne
    rw [hproc] at hb hne
    rw [(hheld b hb).1]
    exact h.clean b hb hne
  · intro b dev sector hb
    rw [hproc] at hb
    exact hbusy b (h.waits b dev sector hb)

@[simp] theorem setPc_self (s : Sys) (i : Slot) (pc : Pc) :
    (s.setPc i pc).procs i = { s.procs i with pc := pc } := Function.update_self ..

theorem setPc_of_ne (h : j ≠ i) (pc : Pc) : (s.setPc i pc).procs j = s.procs j :=
  Function.update_of_ne h ..

theorem setPc_held (s : Sys) (i : Slot) (pc : Pc) : (s.setPc i pc).held = s.held := by
  funext j
  by_cases hj : j = i
  · subst hj
    rw [Sys.held, setPc_self, Sys.held]
  · exact congrArg Proc.held (setPc_of_ne hj pc)

/-- Process `i` goes on. -/
theorem Inv.setPc (h : Inv s) (hgood : (s.setPc i pc).Good i)
    (hqueue : ∀ b ∈ s.idequeue, s.Waits i b → pc = .iderwSleep b ∨ pc = .iderwWoken b) :
    Inv (s.setPc i pc) := by
  refine ⟨h.ring, ?_, ?_, h.nodup, ?_, h.free, h.keys, h.ide, h.fault⟩
  · rw [setPc_held]
    exact h.owned
  · intro j
    by_cases hj : j = i
    · subst hj
      exact hgood
    · exact (h.good j).frame (setPc_of_ne hj pc) (fun _ _ => ⟨rfl, Iff.rfl⟩) fun _ hb => hb
  · intro b hb
    obtain ⟨hclean, j, hj⟩ := h.queued b hb
    refine ⟨hclean, j, ?_⟩
    by_cases hji : j = i
    · subst hji
      rw [Sys.Waits, setPc_self]
      exact hqueue b hb hj
    · rw [Sys.Waits, setPc_of_ne hji]
      exact hj

/-- Process `i` goes on outside of `iderw`. -/
theorem Inv.leaves (h : Inv s) (hpc : pc.target = none)
    (hclean : ∀ b, (s.procs i).pc.target = some b → (s.buf b).Clean)
    (hwaits : ∀ b dev sector, pc = .bgetSleep b dev sector → (s.buf b).busy = true) :
    Inv (s.setPc i pc) := by
  refine h.setPc ⟨?_, ?_, ?_, ?_, ?_, ?_⟩ ?_
  · intro b hb
    rw [setPc_self] at hb
    cases hpc.symm.trans hb
  · intro b hb
    rw [setPc_self] at hb
    obtain rfl : pc = .iderw b := hb
    cases hpc
  · intro b hb
    rw [setPc_self] at hb
    obtain rfl : pc = .iderwSleep b := hb
    cases hpc
  · intro b hb
    rw [setPc_self] at hb
    obtain rfl : pc = .iderwWoken b := hb
    cases hpc
  · intro b hb _
    rw [setPc_self] at hb
    by_cases ht : (s.procs i).pc.target = some b
    · exact hclean b ht
    · exact (h.good i).clean b hb ht
  · intro b dev sector hb
    rw [setPc_self] at hb
    exact hwaits b dev sector hb
  · intro b hb hw
    exact absurd (hclean b hw.target) (h.queued b hb).1

/-- Process `i` goes on in `iderw`, waiting for the disk. -/
theorem Inv.waits (h : Inv s) (hw : s.Waits i b)
    (hpc : pc = .iderwWoken b ∨ pc = .iderwSleep b ∧ b ∈ s.idequeue) : Inv (s.setPc i pc) := by
  have htarget : pc.target = some b := by
    rcases hpc with rfl | ⟨rfl, -⟩ <;> rfl
  have hmem : (s.buf b).Clean ∨ b ∈ s.idequeue := by
    rcases hw with hi | hi
    · exact .inr ((h.good i).sleep b hi)
    · exact (h.good i).woken b hi
  refine h.setPc ⟨?_, ?_, ?_, ?_, ?_, ?_⟩ ?_
  · intro c hc
    rw [setPc_self] at hc ⊢
    obtain rfl := Option.some.inj (htarget.symm.trans hc)
    exact (h.good i).target b hw.target
  · intro c hc
    rw [setPc_self] at hc
    rcases hpc with rfl | ⟨rfl, -⟩ <;> cases hc
  · intro c hc
    rw [setPc_self] at hc
    rcases hpc with rfl | ⟨rfl, hq⟩
    · cases hc
    · obtain rfl := Pc.iderwSleep.inj hc
      exact hq
  · intro c hc
    rw [setPc_self] at hc
    rcases hpc with rfl | ⟨rfl, -⟩
    · obtain rfl := Pc.iderwWoken.inj hc
      exact hmem
    · cases hc
  · intro c hc hne
    rw [setPc_self] at hc hne
    refine (h.good i).clean c hc fun he => hne ?_
    exact htarget.trans (hw.target.symm.trans he)
  · intro c dev sector hc
    rw [setPc_self] at hc
    rcases hpc with rfl | ⟨rfl, -⟩ <;> cases hc
  · intro c _ hc
    obtain rfl := Option.some.inj (hw.target.symm.trans hc.target)
    rcases hpc with rfl | ⟨rfl, -⟩
    · exact .inr rfl
    · exact .inl rfl

theorem Inv.crash {f : Fault} (h : Inv s)
    (hf : f = .noBuffers ∨ f = .noDisk ∧ s.havedisk1 = false) : Inv (s.crash f) := by
  refine ⟨h.ring, h.owned, fun i => ?_, h.nodup, h.queued, h.free, h.keys, h.ide, ?_⟩
  · exact (h.good i).frame rfl (fun _ _ => ⟨rfl, Iff.rfl⟩) fun _ hb => hb
  · intro g hg
    obtain rfl := Option.some.inj hg
    exact hf

/-! ## Wake-ups -/

theorem wake_target (b : BufIx) (pc : Pc) : (pc.wake b).target = pc.target := by
  cases pc with
  | bgetSleep c dev sector =>
      rw [Pc.wake]
      split <;> rfl
  | iderwSleep c =>
      rw [Pc.wake]
      split <;> rfl
  | _ => rfl

/-- After `wakeup(b)` nobody sleeps on `b`. -/
theorem wake_cases (b : BufIx) (pc : Pc) : pc.wake b = pc ∨
    (∃ dev sector, pc = .bgetSleep b dev sector ∧ pc.wake b = .bget dev sector) ∨
      pc = .iderwSleep b ∧ pc.wake b = .iderwWoken b := by
  cases pc with
  | bgetSleep c dev sector =>
      rw [Pc.wake]
      split
      · rename_i hc
        exact .inr (.inl ⟨dev, sector, by rw [hc], rfl⟩)
      · exact .inl rfl
  | iderwSleep c =>
      rw [Pc.wake]
      split
      · rename_i hc
        exact .inr (.inr ⟨by rw [hc], by rw [hc]⟩)
      · exact .inl rfl
  | _ => exact .inl rfl

theorem wake_not_asleep (b : BufIx) (pc : Pc) :
    (∀ dev sector, pc.wake b ≠ .bgetSleep b dev sector) ∧ pc.wake b ≠ .iderwSleep b := by
  cases pc with
  | bgetSleep c dev sector =>
      rw [Pc.wake]
      split
      · exact ⟨by simp, by simp⟩
      · rename_i hc
        exact ⟨fun _ _ he => hc (Pc.bgetSleep.inj he).1, by simp⟩
  | iderwSleep c =>
      rw [Pc.wake]
      split
      · exact ⟨by simp, by simp⟩
      · rename_i hc
        exact ⟨by simp, fun he => hc (Pc.iderwSleep.inj he)⟩
  | _ => exact ⟨by simp [Pc.wake], by simp [Pc.wake]⟩

theorem wakeup_pc (s : Sys) (b : BufIx) (i : Slot) :
    ((s.wakeup b).procs i).pc = (s.procs i).pc.wake b := rfl

theorem waits_wakeup : (s.wakeup c).Waits i b ↔ s.Waits i b := by
  rw [Sys.Waits, Sys.Waits, wakeup_pc]
  rcases wake_cases c (s.procs i).pc with h | ⟨dev, sector, h, h'⟩ | ⟨h, h'⟩
  · rw [h]
  · rw [h', h]
    exact ⟨fun hw => (by rcases hw with hw | hw <;> cases hw),
      fun hw => (by rcases hw with hw | hw <;> cases hw)⟩
  · rw [h', h]
    constructor
    · rintro (hw | hw)
      · cases hw
      · exact .inl (congrArg Pc.iderwSleep (Pc.iderwWoken.inj hw))
    · rintro (hw | hw)
      · exact .inr (congrArg Pc.iderwWoken (Pc.iderwSleep.inj hw))
      · cases hw

theorem Inv.wakeup (h : Inv s) (b : BufIx) : Inv (s.wakeup b) := by
  refine ⟨h.ring, h.owned, ?_, h.nodup, ?_, h.free, h.keys, h.ide, h.fault⟩
  · intro i
    obtain ⟨htarget, hbefore, hsleep, hwoken, hclean, hwaits⟩ := h.good i
    rcases wake_cases b (s.procs i).pc with hpc | ⟨dev, sector, hpc, hpc'⟩ | ⟨hpc, hpc'⟩
    · have hsame : (s.wakeup b).procs i = s.procs i := congrArg (fun pc => Proc.mk pc _) hpc
      exact (h.good i).frame hsame (fun _ _ => ⟨rfl, Iff.rfl⟩) fun _ hb => hb
    · refine ⟨?_, ?_, ?_, ?_, ?_, ?_⟩
      · intro c hc
        rw [wakeup_pc, wake_target, hpc] at hc
        cases hc
      · intro c hc
        rw [wakeup_pc, hpc'] at hc
        cases hc
      · intro c hc
        rw [wakeup_pc, hpc'] at hc
        cases hc
      · intro c hc
        rw [wakeup_pc, hpc'] at hc
        cases hc
      · intro c hc _
        exact hclean c hc (by simp [hpc, Pc.target])
      · intro c dev' sector' hc
        rw [wakeup_pc, hpc'] at hc
        cases hc
    · refine ⟨?_, ?_, ?_, ?_, ?_, ?_⟩
      · intro c hc
        rw [wakeup_pc, wake_target] at hc
        exact htarget c hc
      · intro c hc
        rw [wakeup_pc, hpc'] at hc
        cases hc
      · intro c hc
        rw [wakeup_pc, hpc'] at hc
        cases hc
      · intro c hc
        rw [wakeup_pc, hpc'] at hc
        obtain rfl := Pc.iderwWoken.inj hc
        exact .inr (hsleep b hpc)
      · intro c hc hne
        rw [wakeup_pc, wake_target] at hne
        exact hclean c hc hne
      · intro c dev' sector' hc
        rw [wakeup_pc, hpc'] at hc
        cases hc
  · intro c hc
    obtain ⟨hclean, i, hi⟩ := h.queued c hc
    exact ⟨hclean, i, waits_wakeup.mpr hi⟩

/-- The controller goes on with what it does. -/
theorem Inv.ide_frame (h : Inv s) (hide : t.ide = s.ide) (hq : t.idequeue = s.idequeue)
    (hbuf : ∀ c ∈ s.idequeue, t.buf c = s.buf c) :
    t.ide = t.idequeue.head?.map fun b => (t.buf b).request := by
  rw [hide, h.ide, hq]
  cases hs : s.idequeue with
  | nil => rfl
  | cons c q =>
      have hc := hbuf c (hs ▸ List.mem_cons_self)
      simp [hc]

end Cs537.Bcache
