/-
# `Cs537.Bcache.Turns` — who is next

Two orders that the code keeps.

The links of the cache are in the order of the last `brelse`, so the buffer that `bget`
recycles is the one, of those that are not busy, that has been left alone for the
longest time (`recycled_run`).

The disk serves `idequeue` from the front.  A request waits for those in front of it and
for no other: after so many interrupts and one more it is done and its process has been
woken, whatever other processes do meanwhile (`served_run`).
-/
import Cs537.Bcache.Owners

namespace Cs537.Bcache

open Cs537.Lib

variable {s t : Sys} {i j : Slot} {b c : BufIx} {e : Event} {q₁ q₂ : List BufIx}

/-! ## The buffer that is recycled -/

/-- The buffers as they are passed to `brelse`, the last one first. -/
def released (h : List BufIx) (_ : Sys) (e : Event) (_ : Sys) : List BufIx :=
  match e with
  | .brelse _ b => b :: h
  | _ => h

/-- The links are in the order of the list. -/
def Sys.Recent (s : Sys) (h : List BufIx) : Prop :=
  s.order.Pairwise fun b c => h.idxOf b < h.idxOf c

/-- Only `brelse` changes the links. -/
theorem step_links (ht : s.step e = some t) (he : ∀ i b, e ≠ .brelse i b) : t.links = s.links := by
  unfold Sys.step at ht
  split at ht
  · cases e with
    | bread i dev sector =>
        dsimp only at ht
        split at ht
        · exact Option.some.inj ht ▸ rfl
        · cases ht
    | bwrite i b data =>
        dsimp only at ht
        split at ht
        · obtain rfl := Option.some.inj ht
          rw [Sys.bwrite]
          split <;> rfl
        · cases ht
    | brelse i b => exact absurd rfl (he i b)
    | go i =>
        cases hpc : (s.procs i).pc <;> simp only [hpc] at ht
        case bget dev sector =>
          obtain rfl := Option.some.inj ht
          rw [Sys.bget]
          split
          · dsimp only
            split <;> rfl
          · split <;> rfl
        case iderw b =>
          obtain rfl := Option.some.inj ht
          rw [Sys.iderw]
          split
          · rfl
          split
          · rfl
          split
          · rfl
          · rw [Sys.enqueue]
            dsimp only
            split <;> rfl
        case iderwWoken b => exact Option.some.inj ht ▸ rfl
        all_goals cases ht
    | wake i =>
        cases hpc : (s.procs i).pc <;> simp only [hpc] at ht
        case bgetSleep b dev sector => exact Option.some.inj ht ▸ rfl
        case iderwSleep b => exact Option.some.inj ht ▸ rfl
        all_goals cases ht
    | ideintr error =>
        obtain rfl := Option.some.inj ht
        have htransfer : (s.transfer error).links = s.links := by
          unfold Sys.transfer
          split <;> rfl
        rw [Sys.ideintr]
        split
        · exact htransfer
        · dsimp only
          split <;> exact htransfer
  · cases ht

theorem brelse_order (hinv : Inv s) (hb : b ∈ (s.procs i).held) :
    (s.brelse i b).order = b :: s.order.erase b := by
  have hbusy : (s.buf b).busy = true := hinv.busy_iff.mpr ⟨i, hb⟩
  obtain ⟨hring, hall, -⟩ := hinv.order
  have hfront := hring.toFront (hall b)
  have hlen : (b :: s.order.erase b).length ≤ NBUF := by
    have hcard := hfront.nodup.length_le_card
    rwa [Fintype.card_fin] at hcard
  rw [Sys.brelse, if_neg (by simp [hbusy])]
  exact hfront.ahead hlen

theorem idxOf_lt_cons {h : List BufIx} {d : BufIx} (hb : b ≠ d) (hc : c ≠ d)
    (hlt : h.idxOf b < h.idxOf c) : (d :: h).idxOf b < (d :: h).idxOf c := by
  rw [List.idxOf_cons_ne _ (Ne.symm hb), List.idxOf_cons_ne _ (Ne.symm hc)]
  exact Nat.succ_lt_succ hlt

theorem Sys.Recent.brelse {h : List BufIx} (hinv : Inv s) (hr : s.Recent h)
    (hb : b ∈ (s.procs i).held) : (s.brelse i b).Recent (b :: h) := by
  rw [Sys.Recent, brelse_order hinv hb]
  have hnodup := hinv.order.1.nodup
  have hne : ∀ c ∈ s.order.erase b, c ≠ b := fun c hc => (hnodup.mem_erase_iff.mp hc).1
  refine List.pairwise_cons.mpr ⟨?_, ?_⟩
  · intro c hc
    rw [List.idxOf_cons_self, List.idxOf_cons_ne _ (Ne.symm (hne c hc))]
    exact Nat.succ_pos _
  · have hsub : (s.order.erase b).Pairwise fun c d => h.idxOf c < h.idxOf d :=
      hr.sublist List.erase_sublist
    refine hsub.imp_of_mem ?_
    intro c d hc hd hlt
    exact idxOf_lt_cons (hne c hc) (hne d hd) hlt

theorem pairwise_idxOf {l : List BufIx} (h : l.Nodup) :
    l.Pairwise fun b c => l.idxOf b < l.idxOf c := by
  rw [List.pairwise_iff_getElem]
  intro k m hk hm hlt
  rwa [h.idxOf_getElem k hk, h.idxOf_getElem m hm]

def Event.isIntr : Event → Bool
  | .ideintr _ => true
  | _ => false

/-- What other processes and `kill` do to a process that waits for the buffer `b`. -/
structure Aside (s t : Sys) (i : Slot) (b : BufIx) : Prop where
  buf : t.buf b = s.buf b
  queue : ∃ q, t.idequeue = s.idequeue ++ q
  pc : (t.procs i).pc = (s.procs i).pc ∨ (t.procs i).pc = .iderwWoken b

theorem Aside.of (hbuf : t.buf b = s.buf b) (hqueue : t.idequeue = s.idequeue)
    (hpc : (t.procs i).pc = (s.procs i).pc ∨ (t.procs i).pc = .iderwWoken b) : Aside s t i b :=
  ⟨hbuf, ⟨[], by rw [hqueue, List.append_nil]⟩, hpc⟩

theorem wakeup_waits (hw : s.Waits i b) (c : BufIx) :
    ((s.wakeup c).procs i).pc = (s.procs i).pc ∨ ((s.wakeup c).procs i).pc = .iderwWoken b := by
  rw [wakeup_pc]
  rcases wake_cases c (s.procs i).pc with h | ⟨dev, sector, h, -⟩ | ⟨h, h'⟩
  · exact .inl h
  · rcases hw with hw | hw <;> cases h.symm.trans hw
  · rcases hw with hw | hw
    · obtain rfl := Pc.iderwSleep.inj (h.symm.trans hw)
      exact .inr h'
    · cases h.symm.trans hw

theorem aside_step (hinv : Inv s) (hw : s.Waits i b) (ht : s.step e = some t) (he : e ≠ .go i)
    (hintr : e.isIntr = false) : Aside s t i b := by
  have hheld := (hinv.good i).target b hw.target
  have hbusy := hinv.busy_iff.mpr ⟨i, hheld⟩
  have huser : (s.procs i).pc ≠ .user := by
    rcases hw with hw | hw <;> rw [hw] <;> simp
  have hother : ∀ {j c}, j ≠ i → c ∈ (s.procs j).held → b ≠ c := by
    rintro j c hj hc rfl
    exact hj (hinv.owner hc hheld)
  have hsame : ∀ {j : Slot} {x : Proc} {u : Sys}, j ≠ i → u.procs = s.procs →
      ((u.setProc j x).procs i).pc = (s.procs i).pc := by
    intro j x u hj hu
    have hupdate : (u.setProc j x).procs i = u.procs i := Function.update_of_ne (Ne.symm hj) ..
    rw [hupdate, hu]
  unfold Sys.step at ht
  split at ht
  · cases e with
    | bread j dev sector =>
        dsimp only at ht
        split at ht
        · rename_i hpc
          obtain rfl := Option.some.inj ht
          have hj : j ≠ i := by
            rintro rfl
            exact huser hpc
          exact .of rfl rfl (.inl (hsame hj rfl))
        · cases ht
    | bwrite j c data =>
        dsimp only at ht
        split at ht
        · rename_i hpc
          obtain rfl := Option.some.inj ht
          have hj : j ≠ i := by
            rintro rfl
            exact huser hpc.1
          have hc := hinv.busy_iff.mpr ⟨j, hpc.2⟩
          rw [Sys.bwrite, if_neg (by simp [hc])]
          exact .of (Function.update_of_ne (hother hj hpc.2) ..) rfl (.inl (hsame hj rfl))
        · cases ht
    | brelse j c =>
        dsimp only at ht
        split at ht
        · rename_i hpc
          obtain rfl := Option.some.inj ht
          have hj : j ≠ i := by
            rintro rfl
            exact huser hpc.1
          have hc := hinv.busy_iff.mpr ⟨j, hpc.2⟩
          rw [Sys.brelse, if_neg (by simp [hc])]
          refine .of (Function.update_of_ne (hother hj hpc.2) ..) rfl ?_
          have hupdate : ∀ (u : Sys) (x : Proc), (u.setProc j x).procs i = u.procs i := fun u x =>
            Function.update_of_ne (Ne.symm hj) ..
          rw [hupdate]
          exact wakeup_waits hw c
        · cases ht
    | go j =>
        have hj : j ≠ i := by
          rintro rfl
          exact he rfl
        cases hpc : (s.procs j).pc <;> simp only [hpc] at ht
        case bget dev sector =>
          obtain rfl := Option.some.inj ht
          have htake : ∀ c x, (s.buf c).busy = false → Aside s ((s.setBuf c x).take j c) i b := by
            intro c x hc
            have hbc : b ≠ c := by
              rintro rfl
              cases hc.symm.trans hbusy
            exact .of (Function.update_of_ne hbc ..) rfl (.inl (hsame hj rfl))
          rw [Sys.bget]
          split
          · dsimp only
            split
            · rename_i hfree
              exact htake _ _ hfree
            · exact .of rfl rfl (.inl (hsame hj rfl))
          · split
            · rename_i c hc
              have hfree : (s.buf c).busy = false := by
                have hfind := List.find?_some hc
                simpa using hfind
              exact htake c _ hfree
            · exact .of rfl rfl (.inl rfl)
        case iderw c =>
          obtain rfl := Option.some.inj ht
          rw [Sys.iderw]
          split
          · exact .of rfl rfl (.inl rfl)
          split
          · exact .of rfl rfl (.inl rfl)
          split
          · exact .of rfl rfl (.inl rfl)
          · obtain ⟨-, hqueue⟩ := (hinv.good j).before c hpc
            rw [hinv.enqueue hqueue]
            exact ⟨rfl, ⟨[c], rfl⟩, .inl (hsame hj rfl)⟩
        case iderwWoken c =>
          exact Option.some.inj ht ▸ .of rfl rfl (.inl (hsame hj rfl))
        all_goals cases ht
    | wake j =>
        by_cases hj : j = i
        · subst hj
          rcases hw with hw | hw
          · simp only [hw] at ht
            obtain rfl := Option.some.inj ht
            exact .of rfl rfl (.inr (by rw [setPc_self]))
          · simp only [hw] at ht
            cases ht
        · cases hpc : (s.procs j).pc <;> simp only [hpc] at ht
          case bgetSleep c dev sector =>
            exact Option.some.inj ht ▸ .of rfl rfl (.inl (hsame hj rfl))
          case iderwSleep c =>
            exact Option.some.inj ht ▸ .of rfl rfl (.inl (hsame hj rfl))
          all_goals cases ht
    | ideintr error => cases hintr
  · cases ht

theorem Aside.waits (h : Aside s t i b) (hw : s.Waits i b) : t.Waits i b := by
  rcases h.pc with hpc | hpc
  · rw [Sys.Waits, hpc]
    exact hw
  · exact .inr hpc

/-- The disk is done with the buffer `b`, and process `i` has been woken. -/
def Sys.Served (s : Sys) (i : Slot) (b : BufIx) : Prop :=
  (s.procs i).pc = .iderwWoken b ∧ (s.buf b).Clean

/-- An interrupt takes the first request off the queue. -/
theorem intr_queue (error : Bool) (hinv : Inv s) (hw : s.Waits i b)
    (hq : s.idequeue = c :: q₁ ++ b :: q₂) :
    (s.ideintr error).Waits i b ∧ (s.ideintr error).idequeue = q₁ ++ b :: q₂ := by
  rw [hinv.ideintr_eq hq]
  exact ⟨waits_wakeup.mpr hw, rfl⟩

theorem intr_serves {error : Bool} (hinv : Inv s) (hw : s.Waits i b)
    (hq : s.idequeue = b :: q₂) : (s.ideintr error).Served i b := by
  rw [hinv.ideintr_eq hq]
  refine ⟨?_, ?_⟩
  · rcases waits_wakeup.mpr hw with h | h
    · exact absurd h (wake_not_asleep b (s.procs i).pc).2
    · exact h
  · show (Function.update s.buf b (s.arrived error b) b).Clean
    rw [Function.update_self]
    exact ⟨rfl, rfl⟩

theorem Sys.Served.step (hinv : Inv s) (h : s.Served i b) (ht : s.step e = some t)
    (he : e ≠ .go i) : t.Served i b := by
  have hw : s.Waits i b := .inr h.1
  cases hintr : e.isIntr with
  | false =>
      have haside := aside_step hinv hw ht he hintr
      refine ⟨?_, by rw [haside.buf]; exact h.2⟩
      rcases haside.pc with hpc | hpc
      · exact hpc.trans h.1
      · exact hpc
  | true =>
      cases e with
      | ideintr error =>
          unfold Sys.step at ht
          split at ht
          · obtain rfl := Option.some.inj ht
            cases hq : s.idequeue with
            | nil =>
                have hide : s.ide = none := by
                  rw [hinv.ide, hq]
                  rfl
                simp only [Sys.ideintr, hq, Sys.transfer, hide]
                exact h
            | cons c q =>
                -- a clean buffer is not queued
                have hcb : b ≠ c := by
                  rintro rfl
                  exact (hinv.queued b (hq ▸ List.mem_cons_self)).1 h.2
                rw [hinv.ideintr_eq hq]
                refine ⟨?_, ?_⟩
                · show (s.procs i).pc.wake c = .iderwWoken b
                  rw [h.1]
                  rfl
                · show (Function.update s.buf c (s.arrived error c) b).Clean
                  rw [Function.update_of_ne hcb]
                  exact h.2
          · cases ht
      | _ => cases hintr

theorem Sys.Served.run {fs : List Event} (hinv : Inv s) (h : s.Served i b) (hfs : .go i ∉ fs)
    (ht : Lib.run Sys.step s fs = some t) : t.Served i b := by
  induction fs generalizing s with
  | nil => exact Option.some.inj ht ▸ h
  | cons e fs ih =>
      obtain ⟨u, hu, hut⟩ := Option.bind_eq_some_iff.mp ht
      have he : e ≠ .go i := fun he => hfs (he ▸ List.mem_cons_self)
      exact ih (hinv.step hu) (h.step hinv hu he) (fun hmem => hfs (List.mem_cons_of_mem e hmem)) hut

theorem served_of_inv {fs : List Event} (hinv : Inv s) (hw : s.Waits i b)
    (hq : s.idequeue = q₁ ++ b :: q₂) (hfs : .go i ∉ fs)
    (hcount : q₁.length < fs.countP Event.isIntr) (ht : run Sys.step s fs = some t) :
    t.Served i b := by
  induction fs generalizing s q₁ q₂ with
  | nil => exact absurd hcount (Nat.not_lt_zero _)
  | cons e fs ih =>
      obtain ⟨u, hu, hut⟩ := Option.bind_eq_some_iff.mp ht
      have he : e ≠ .go i := fun he => hfs (he ▸ List.mem_cons_self)
      have hfs' : .go i ∉ fs := fun hmem => hfs (List.mem_cons_of_mem e hmem)
      cases hintr : e.isIntr with
      | false =>
          have haside := aside_step hinv hw hu he hintr
          obtain ⟨q, hqueue⟩ := haside.queue
          rw [List.countP_cons_of_neg (by simp [hintr])] at hcount
          have hq' : u.idequeue = q₁ ++ b :: (q₂ ++ q) := by
            rw [hqueue, hq, List.append_assoc]
            rfl
          exact ih (hinv.step hu) (haside.waits hw) hq' hfs' hcount hut
      | true =>
          cases e with
          | ideintr error =>
              rw [List.countP_cons_of_pos rfl] at hcount
              have hinv' := hinv.step hu
              unfold Sys.step at hu
              split at hu
              · obtain rfl := Option.some.inj hu
                cases q₁ with
                | nil => exact (intr_serves hinv hw hq).run hinv' hfs' hut
                | cons c q₁ =>
                    obtain ⟨hw', hq'⟩ := intr_queue error hinv hw hq
                    exact ih hinv' hw' hq' hfs' (Nat.lt_of_succ_lt_succ hcount) hut
              · cases hu
          | _ => cases hintr

/-- A request waits for those in front of it only.  When there have been as many interrupts and
one more it is done, and its process has been woken. -/
theorem served_run (havedisk1 : Bool) (disk : Addr → Block) (es fs : List Event)
    (hs : run Sys.step (boot havedisk1 disk) es = some s) (hw : s.Waits i b)
    (hq : s.idequeue = q₁ ++ b :: q₂) (hfs : .go i ∉ fs)
    (hcount : q₁.length < fs.countP Event.isIntr) (ht : run Sys.step s fs = some t) :
    (t.procs i).pc = .iderwWoken b ∧ (t.buf b).Clean :=
  served_of_inv ((inv_run havedisk1 disk es).last hs) hw hq hfs hcount ht

/-- The request of process 1 is behind that of process 0. -/
theorem served_run_second : ∃ s t, run Sys.step (boot true fun _ => .replicate 512 0)
      [.bread slot0 1 5, .bread slot1 0 6, .go slot0, .go slot0, .go slot1, .go slot1] = some s ∧
    run Sys.step s [.ideintr false, .ideintr true] = some t ∧
    (t.procs slot1).pc = .iderwWoken buf1 ∧ (t.buf buf1).Clean := by
  have hs : ∃ s, run Sys.step (boot true fun _ => .replicate 512 0)
      [.bread slot0 1 5, .bread slot1 0 6, .go slot0, .go slot0, .go slot1, .go slot1] = some s ∧
      s.Waits slot1 buf1 ∧ s.idequeue = [buf0] ++ buf1 :: [] ∧
      ∃ t, run Sys.step s [.ideintr false, .ideintr true] = some t :=
    ⟨_, rfl, .inl rfl, rfl, _, rfl⟩
  obtain ⟨s, hs, hw, hq, t, ht⟩ := hs
  exact ⟨s, t, hs, ht, served_run true _ _ _ hs hw hq (by simp) (by decide) ht⟩

end Cs537.Bcache
