/-
# `Cs537.Files.Flow` — what goes through a pipe, and who sleeps on it

Two statements about every run, for every pipe.

What has been read from a pipe is the front part of what has been written to it, and
the rest is its content, at most PIPESIZE bytes (`flow_run`).

A reader sleeps only while the pipe is empty and a writer only while it is full
(`Sys.Awake`), unless a process that has been killed gives up a write of more than
PIPESIZE bytes: it fills the pipe and returns without `wakeup(&p->nread)`.  So nobody
misses a wake-up just if no such write finds a reader asleep (`awake_run`).

Both look at a step in the same way: `step_move` says what it does to the pipes and to
those who sleep.
-/
import Cs537.Files.Safe

namespace Cs537.Files

open Cs537.Lib

variable {s t : Sys} {i j : Slot} {p : Page} {e : Event}

def Pc.Asleep : Pc → Prop
  | .readSleep .. | .writeSleep .. => True
  | _ => False

/-! ## Steps that leave the pipes alone -/

structure Quiet (s t : Sys) : Prop where
  pipes : t.pipes = s.pipes
  asleep : ∀ j, (t.procs j).pc.Asleep → (t.procs j).pc = (s.procs j).pc

theorem Quiet.refl (s : Sys) : Quiet s s := ⟨rfl, fun _ _ => rfl⟩

theorem Quiet.setFile (h : Quiet s t) (f : FileIx) (x : File) : Quiet s (t.setFile f x) :=
  ⟨h.pipes, h.asleep⟩

theorem Quiet.crash (h : Quiet s t) (f : Fault) : Quiet s (t.crash f) := ⟨h.pipes, h.asleep⟩

theorem Quiet.setProc {x : Proc} (h : Quiet s t) (i : Slot) (hx : ¬ x.pc.Asleep) :
    Quiet s (t.setProc i x) := by
  refine ⟨h.pipes, fun j hj => ?_⟩
  by_cases hij : j = i
  · subst hij
    rw [setProc_procs, Function.update_self] at hj
    exact absurd hj hx
  · rw [setProc_procs, Function.update_of_ne hij] at hj ⊢
    exact h.asleep j hj

theorem Quiet.setOfile (h : Quiet s t) (i : Slot) (fd : Fd) (x : Option FileIx) :
    Quiet s (t.setOfile i fd x) := by
  refine ⟨h.pipes, fun j hj => ?_⟩
  rw [setOfile_pc] at hj ⊢
  exact h.asleep j hj

theorem Quiet.filedup (h : Quiet s t) (i : Slot) (fd : Fd) (f : FileIx) :
    Quiet s (t.filedup i fd f) := by
  rw [Sys.filedup]
  split
  · exact h.crash _
  · exact (h.setFile _ _).setOfile _ _ _

theorem awake_next (fs : List FileIx) (ex : Bool) : ¬ (Pc.next fs ex).Asleep := by
  cases fs with
  | nil => cases ex <;> exact id
  | cons f fs => exact id

theorem Quiet.fileclose (h : Quiet s t) (i : Slot) (f : FileIx) (fs : List FileIx) (ex : Bool) :
    Quiet s (t.fileclose i f fs ex) := by
  have hnext := awake_next fs ex
  rw [Sys.fileclose]
  split
  · exact h.crash _
  split
  · exact (h.setFile _ _).setProc i hnext
  · refine (h.setFile _ _).setProc i ?_
    dsimp only
    split
    · exact id
    · exact hnext

theorem Quiet.openFile (h : Quiet s t) (i : Slot) (f : FileIx) (omode : BitVec 32) :
    Quiet s (t.openFile i f omode) := by
  rw [Sys.openFile]
  split
  · exact (h.setFile _ _).setProc i id
  · exact ((h.setFile _ _).setOfile _ _ _).setProc i id

theorem Quiet.pipe (h : Quiet s t) (i : Slot) (f0 f1 : FileIx) : Quiet s (t.pipe i f0 f1) := by
  rw [Sys.pipe]
  split
  · exact h.setProc i id
  split
  · exact h.setProc i id
  · exact ((h.setOfile _ _ _).setOfile _ _ _).setProc i id

theorem call_quiet {c : Call} (ht : s.call i c = some t) : Quiet s t := by
  have h := Quiet.refl s
  have hret : ∀ v, Quiet s (s.ret i v) := fun v => h.setProc i id
  cases c with
  | read fd n v =>
      simp only [Sys.call] at ht
      split at ht
      · exact Option.some.inj ht ▸ hret _
      split at ht
      · exact Option.some.inj ht ▸ hret _
      split at ht
      · exact Option.some.inj ht ▸ h.setProc i id
      · exact Option.some.inj ht ▸ hret _
      · exact Option.some.inj ht ▸ h.crash _
  | write fd n v src =>
      simp only [Sys.call] at ht
      split at ht
      · exact Option.some.inj ht ▸ hret _
      split at ht
      · exact Option.some.inj ht ▸ hret _
      split at ht
      · exact Option.some.inj ht ▸ h.setProc i id
      · exact Option.some.inj ht ▸ hret _
      · exact Option.some.inj ht ▸ h.crash _
  | dup fd =>
      simp only [Sys.call] at ht
      split at ht
      · exact Option.some.inj ht ▸ hret _
      split at ht
      · exact Option.some.inj ht ▸ hret _
      · exact Option.some.inj ht ▸ (h.filedup _ _ _).setProc i id
  | close fd =>
      simp only [Sys.call] at ht
      split at ht
      · exact Option.some.inj ht ▸ hret _
      · exact Option.some.inj ht ▸ (h.setOfile _ _ _).setProc i id
  | pipe =>
      simp only [Sys.call] at ht
      split at ht
      · exact Option.some.inj ht ▸ hret _
      · exact Option.some.inj ht ▸ (h.setFile _ _).setProc i id
  | «open» omode =>
      simp only [Sys.call] at ht
      split at ht
      · exact Option.some.inj ht ▸ hret _
      · exact Option.some.inj ht ▸ h.openFile _ _ _
  | fork np =>
      simp only [Sys.call] at ht
      split at ht
      · exact Option.some.inj ht ▸ (h.setProc np id).setProc i id
      · cases ht
  | exit => exact Option.some.inj ht ▸ h.setProc i id

/-! ## What a step does to the pipes -/

/-- The section that an event is about. -/
def Sys.point (s : Sys) : Event → Option Pc
  | .go i _ _ => some (s.procs i).pc
  | _ => none

inductive Move (s : Sys) : Event → Sys → Prop where
  | quiet (e : Event) (t : Sys) (hread : ∀ p n, s.point e ≠ some (.read p n))
      (hwrite : ∀ p n rest, s.point e ≠ some (.write p n rest)) (h : Quiet s t) : Move s e t
  | read (i : Slot) (killed : Bool) (page : Option (Page × (Int → UInt8))) (p : Page) (n : Int)
      (hi : (s.procs i).pc = .read p n) : Move s (.go i killed page) (s.piperead i killed p n)
  | write (i : Slot) (killed : Bool) (page : Option (Page × (Int → UInt8))) (p : Page) (n : Int)
      (rest : List UInt8) (hi : (s.procs i).pc = .write p n rest) :
      Move s (.go i killed page) (s.pipewrite i killed p n rest)
  | pipealloc (i : Slot) (killed : Bool) (page : Option (Page × (Int → UInt8))) (f0 f1 : FileIx)
      (p : Page) (data : Int → UInt8) (t : Sys) (hi : (s.procs i).pc = .pipe2 f0 f1)
      (hp : s.pipes p = none) (h : Quiet (s.pipealloc f0 f1 p data) t) :
      Move s (.go i killed page) t
  | pipeclose (i : Slot) (killed : Bool) (page : Option (Page × (Int → UInt8))) (p : Page)
      (w : Bool) (fs : List FileIx) (ex : Bool) (hi : (s.procs i).pc = .pipeclose p w fs ex) :
      Move s (.go i killed page) (s.pipeclose i p w fs ex)
  | kfree (i : Slot) (killed : Bool) (page : Option (Page × (Int → UInt8))) (p : Page)
      (fs : List FileIx) (ex : Bool) (t : Sys) (hi : (s.procs i).pc = .kfree p fs ex)
      (h : Quiet (s.setPipe p none) t) : Move s (.go i killed page) t

theorem go_move {killed : Bool} {page : Option (Page × (Int → UInt8))}
    (ht : s.go i killed page = some t) : Move s (.go i killed page) t := by
  have h := Quiet.refl s
  have hquiet : (∀ p n, (s.procs i).pc ≠ .read p n) →
      (∀ p n rest, (s.procs i).pc ≠ .write p n rest) → Quiet s t → Move s (.go i killed page) t := fun hread hwrite hq =>
    .quiet _ t (fun p n he => hread p n (Option.some.inj he))
      (fun p n rest he => hwrite p n rest (Option.some.inj he)) hq
  cases hpc : (s.procs i).pc with
  | read p n =>
      rw [Sys.go, hpc] at ht
      exact Option.some.inj ht ▸ .read i killed page p n hpc
  | write p n rest =>
      rw [Sys.go, hpc] at ht
      exact Option.some.inj ht ▸ .write i killed page p n rest hpc
  | pipe1 f0 =>
      refine hquiet (by simp [hpc]) (by simp [hpc]) ?_
      simp only [Sys.go, hpc] at ht
      split at ht
      · exact Option.some.inj ht ▸ h.setProc i id
      · exact Option.some.inj ht ▸ (h.setFile _ _).setProc i id
  | pipe2 f0 f1 =>
      simp only [Sys.go, hpc] at ht
      split at ht
      · exact hquiet (by simp [hpc]) (by simp [hpc]) (Option.some.inj ht ▸ h.setProc i id)
      · rename_i p data
        split at ht
        · rename_i hp
          obtain rfl := Option.some.inj ht
          exact .pipealloc i killed _ f0 f1 p data _ hpc (Option.isNone_iff_eq_none.mp hp)
            ((Quiet.refl _).pipe i f0 f1)
        · cases ht
  | closing f fs ex =>
      refine hquiet (by simp [hpc]) (by simp [hpc]) ?_
      rw [Sys.go, hpc] at ht
      exact Option.some.inj ht ▸ h.fileclose i f fs ex
  | pipeclose p w fs ex =>
      rw [Sys.go, hpc] at ht
      exact Option.some.inj ht ▸ .pipeclose i killed page p w fs ex hpc
  | kfree p fs ex =>
      simp only [Sys.go, hpc] at ht
      split at ht
      · exact hquiet (by simp [hpc]) (by simp [hpc]) (Option.some.inj ht ▸ h.crash _)
      · exact .kfree i killed page p fs ex t hpc
          (Option.some.inj ht ▸ (Quiet.refl _).setProc i (awake_next fs ex))
  | fork np todo =>
      refine hquiet (by simp [hpc]) (by simp [hpc]) ?_
      cases todo with
      | nil =>
          simp only [Sys.go, hpc] at ht
          exact Option.some.inj ht ▸ (h.setProc i id).setProc np id
      | cons fd todo =>
          simp only [Sys.go, hpc] at ht
          split at ht
          · exact Option.some.inj ht ▸ h.setProc i id
          · exact Option.some.inj ht ▸ (h.setProc i id).filedup np _ _
  | exit =>
      refine hquiet (by simp [hpc]) (by simp [hpc]) ?_
      simp only [Sys.go, hpc] at ht
      split at ht
      · exact Option.some.inj ht ▸ h.setProc i id
      · split at ht
        · cases ht
        · exact Option.some.inj ht ▸ (h.setOfile _ _ _).setProc i id
  | _ =>
      simp only [Sys.go, hpc] at ht
      cases ht

theorem step_move (ht : s.step e = some t) : Move s e t := by
  unfold Sys.step at ht
  split at ht
  · cases e with
    | call i c =>
        dsimp only at ht
        split at ht
        · exact .quiet _ t (by simp [Sys.point]) (by simp [Sys.point]) (call_quiet ht)
        · cases ht
    | go i killed page => exact go_move ht
    | wake i =>
        have h := Quiet.refl s
        refine .quiet _ t (by simp [Sys.point]) (by simp [Sys.point]) ?_
        cases hpc : (s.procs i).pc <;> simp only [hpc] at ht
        case readSleep p n => exact Option.some.inj ht ▸ h.setProc i id
        case writeSleep p n rest => exact Option.some.inj ht ▸ h.setProc i id
        all_goals cases ht
  · cases ht

/-! ## What goes through -/

/-- The bytes that a step writes to the pipe `p`, which is `x`. -/
def Sys.puts (s : Sys) (e : Event) (p : Page) (x : Pipe) : List UInt8 :=
  match s.point e with
  | some (.write q _ rest) =>
      if q = p then rest.take (rest.length - (x.fill rest).2.length) else []
  | _ => []

/-- The bytes that a step from `s` to `t` reads from the pipe `p`: what a call of `read`
returns with. -/
def Sys.gets (s : Sys) (e : Event) (t : Sys) (p : Page) : List UInt8 :=
  match e with
  | .go i _ _ =>
      match (s.procs i).pc with
      | .read q _ =>
          if q = p ∧ (t.procs i).pc = .user ∧ 0 ≤ (t.procs i).eax then (t.procs i).buf else []
      | _ => []
  | _ => []

/-- Since it is a pipe: what has been written to a page, and read from it. -/
abbrev History := Page → List UInt8 × List UInt8

def note (h : History) (s : Sys) (e : Event) (t : Sys) : History := fun p =>
  match s.pipes p with
  | none => ([], [])
  | some x => ((h p).1 ++ s.puts e p x, (h p).2 ++ s.gets e t p)

theorem puts_nil {x : Pipe} (h : ∀ n rest, s.point e ≠ some (.write p n rest)) :
    s.puts e p x = [] := by
  rw [Sys.puts]
  split
  · rename_i q n rest he
    rw [if_neg]
    rintro rfl
    exact h n rest he
  · rfl

theorem gets_nil (h : ∀ n, s.point e ≠ some (.read p n)) : s.gets e t p = [] := by
  unfold Sys.gets
  split
  · rename_i i _ _
    split
    · rename_i q n hpc
      rw [if_neg]
      rintro ⟨rfl, -⟩
      exact h n (congrArg some hpc)
    · rfl
  · rfl

/-- A pipe has the content it had, what is written to it behind and what is read from it
taken off; a new one is empty. -/
structure Carries (s : Sys) (e : Event) (t : Sys) (p : Page) (y : Pipe) : Prop where
  old : ∀ x, s.pipes p = some x → x.Sound →
    y.Sound ∧ x.content ++ s.puts e p x = s.gets e t p ++ y.content
  new : s.pipes p = none → y.Sound ∧ y.content = []

theorem Carries.of_same {y : Pipe} (hsame : s.pipes p = some y)
    (hputs : ∀ x, s.puts e p x = []) (hgets : s.gets e t p = []) : Carries s e t p y := by
  constructor
  · intro x hx hs
    obtain rfl := Option.some.inj (hx.symm.trans hsame)
    rw [hputs, hgets, List.append_nil]
    exact ⟨hs, rfl⟩
  · intro hnone
    cases hnone.symm.trans hsame

theorem carries_read {killed : Bool} {page : Option (Page × (Int → UInt8))} {q : Page} {n : Int}
    {y : Pipe} (hi : (s.procs i).pc = .read q n)
    (hy : (s.piperead i killed q n).pipes p = some y) :
    Carries s (.go i killed page) (s.piperead i killed q n) p y := by
  have hputs : ∀ x, s.puts (.go i killed page) p x = [] := fun x =>
    puts_nil fun n' rest he => by simp [Sys.point, hi] at he
  have hother : q ≠ p → s.gets (.go i killed page) (s.piperead i killed q n) p = [] := fun hq =>
    gets_nil fun n' he => by simp [Sys.point, hi, hq] at he
  have hgets : ∀ u : Sys, ¬ ((u.procs i).pc = .user ∧ 0 ≤ (u.procs i).eax) →
      s.gets (.go i killed page) u p = [] := by
    intro u hu
    simp only [Sys.gets, hi]
    exact if_neg fun h => hu h.2
  cases hx : s.pipes q with
  | none =>
      have hne : q ≠ p := by
        rintro rfl
        simp [Sys.piperead, hx, Sys.crash] at hy
      refine .of_same ?_ hputs (hother hne)
      simpa [Sys.piperead, hx, Sys.crash] using hy
  | some x =>
      by_cases hwait : x.Empty ∧ x.writeopen
      · cases killed with
        | true =>
            simp only [Sys.piperead, hx, if_pos hwait, if_true] at hy ⊢
            exact .of_same hy hputs (hgets _ (by simp [Sys.ret]))
        | false =>
            simp only [Sys.piperead, hx, if_pos hwait] at hy ⊢
            exact .of_same hy hputs (hgets _ (by simp [Sys.setPc]))
      · by_cases hq : q = p
        · subst hq
          simp only [Sys.piperead, hx, if_neg hwait] at hy ⊢
          obtain rfl : (x.drain n.toNat).2 = y := by simpa using hy
          constructor
          · intro x' hx' hs
            obtain rfl := Option.some.inj (hx.symm.trans hx')
            obtain ⟨hcontent, hsound, -⟩ := drain_spec (n := n.toNat) hs
            refine ⟨hsound, ?_⟩
            rw [hputs, List.append_nil, hcontent]
            simp [Sys.gets, hi]
          · intro hnone
            cases hnone.symm.trans hx
        · refine .of_same ?_ hputs (hother hq)
          simpa [Sys.piperead, hx, if_neg hwait, Ne.symm hq] using hy

theorem carries_write {killed : Bool} {page : Option (Page × (Int → UInt8))} {q : Page} {n : Int}
    {rest : List UInt8} {y : Pipe} (hi : (s.procs i).pc = .write q n rest)
    (hy : (s.pipewrite i killed q n rest).pipes p = some y) :
    Carries s (.go i killed page) (s.pipewrite i killed q n rest) p y := by
  have hgets : s.gets (.go i killed page) (s.pipewrite i killed q n rest) p = [] :=
    gets_nil fun n' he => by simp [Sys.point, hi] at he
  have hother : q ≠ p → ∀ x, s.puts (.go i killed page) p x = [] := fun hq x =>
    puts_nil fun n' rest' he => by simp [Sys.point, hi, hq] at he
  cases hx : s.pipes q with
  | none =>
      have hne : q ≠ p := by
        rintro rfl
        simp [Sys.pipewrite, hx, Sys.crash] at hy
      refine .of_same ?_ (hother hne) hgets
      simpa [Sys.pipewrite, hx, Sys.crash] using hy
  | some x =>
      have hpipes : (s.pipewrite i killed q n rest).pipes
          = Function.update s.pipes q (some (x.fill rest).1) := by
        simp only [Sys.pipewrite, hx]
        split
        · rfl
        split <;> rfl
      rw [hpipes] at hy
      by_cases hq : q = p
      · subst hq
        obtain rfl : (x.fill rest).1 = y := by simpa using hy
        constructor
        · intro x' hx' hs
          obtain rfl := Option.some.inj (hx.symm.trans hx')
          obtain ⟨put, hrest, hcontent, hsound, -⟩ := fill_spec hs rest
          refine ⟨hsound, ?_⟩
          have hput : s.puts (.go i killed page) q x = put := by
            have hlen := congrArg List.length hrest
            rw [List.length_append] at hlen
            have hsub : rest.length - (x.fill rest).2.length = put.length := by omega
            simp only [Sys.puts, Sys.point, hi, if_true]
            calc rest.take (rest.length - (x.fill rest).2.length)
                = (put ++ (x.fill rest).2).take put.length := by rw [← hrest, hsub]
              _ = put := List.take_left
          rw [hgets, hput, hcontent]
          rfl
        · intro hnone
          cases hnone.symm.trans hx
      · rw [Function.update_of_ne (Ne.symm hq)] at hy
        exact .of_same hy (hother hq) hgets

theorem Move.carries {y : Pipe} (hm : Move s e t) (hy : t.pipes p = some y) :
    Carries s e t p y := by
  cases hm with
  | quiet _ _ hread hwrite h =>
      rw [h.pipes] at hy
      exact .of_same hy (fun _ => puts_nil (hwrite p)) (gets_nil (hread p))
  | read i killed page q n hi => exact carries_read hi hy
  | write i killed page q n rest hi => exact carries_write hi hy
  | pipealloc i killed page f0 f1 q data _ hi hq h =>
      have hputs : ∀ x, s.puts (.go i killed page) p x = [] := fun x =>
        puts_nil fun n rest he => by simp [Sys.point, hi] at he
      have hgets : s.gets (.go i killed page) t p = [] :=
        gets_nil fun n he => by simp [Sys.point, hi] at he
      have hpipes : t.pipes = Function.update s.pipes q (some (.fresh data)) := h.pipes
      rw [hpipes] at hy
      by_cases hqp : q = p
      · subst hqp
        obtain rfl : Pipe.fresh data = y := by simpa using hy
        have hcount := fresh_count data
        constructor
        · intro x hx
          cases hx.symm.trans hq
        · intro _
          refine ⟨hcount.trans_le (Nat.zero_le _), ?_⟩
          rw [← List.length_eq_zero_iff, length_content, hcount]
      · rw [Function.update_of_ne (Ne.symm hqp)] at hy
        exact .of_same hy hputs hgets
  | pipeclose i killed page q w fs ex hi =>
      have hputs : ∀ x, s.puts (.go i killed page) p x = [] := fun x =>
        puts_nil fun n rest he => by simp [Sys.point, hi] at he
      have hgets : s.gets (.go i killed page) (s.pipeclose i q w fs ex) p = [] :=
        gets_nil fun n he => by simp [Sys.point, hi] at he
      cases hx : s.pipes q with
      | none =>
          refine .of_same ?_ hputs hgets
          simpa [Sys.pipeclose, hx, Sys.crash] using hy
      | some x =>
          have hpipes : (s.pipeclose i q w fs ex).pipes
              = Function.update s.pipes q (some (x.close w)) := by
            simp only [Sys.pipeclose, hx]
            rfl
          rw [hpipes] at hy
          by_cases hqp : q = p
          · subst hqp
            obtain rfl : x.close w = y := by simpa using hy
            constructor
            · intro x' hx' hs
              obtain rfl := Option.some.inj (hx.symm.trans hx')
              rw [hputs, hgets, List.append_nil, close_content]
              exact ⟨(close_count x w).trans_le hs, rfl⟩
            · intro hnone
              cases hnone.symm.trans hx
          · rw [Function.update_of_ne (Ne.symm hqp)] at hy
            exact .of_same hy hputs hgets
  | kfree i killed page q fs ex _ hi h =>
      have hputs : ∀ x, s.puts (.go i killed page) p x = [] := fun x =>
        puts_nil fun n rest he => by simp [Sys.point, hi] at he
      have hgets : s.gets (.go i killed page) t p = [] :=
        gets_nil fun n he => by simp [Sys.point, hi] at he
      have hpipes : t.pipes = Function.update s.pipes q none := h.pipes
      rw [hpipes] at hy
      by_cases hqp : q = p
      · subst hqp
        rw [Function.update_self] at hy
        cases hy
      · rw [Function.update_of_ne (Ne.symm hqp)] at hy
        exact .of_same hy hputs hgets

/-- What has been written is what has been read and the content. -/
def Flows (x : Sys × History) : Prop := ∀ p y, x.1.pipes p = some y →
  y.Sound ∧ (x.2 p).1 = (x.2 p).2 ++ y.content

theorem flows_step {x y : Sys × History} {e : Event} (h : Flows x)
    (ht : watch Sys.step note x e = some y) : Flows y := by
  obtain ⟨hstep, hnote⟩ := watch_eq_some.mp ht
  intro p q hq
  obtain ⟨hold, hnew⟩ := (step_move hstep).carries hq
  rw [← hnote, note]
  cases hp : x.1.pipes p with
  | none =>
      obtain ⟨hs, hnil⟩ := hnew hp
      exact ⟨hs, hnil.symm⟩
  | some z =>
      obtain ⟨hs, hflow⟩ := h p z hp
      obtain ⟨hs', hcarry⟩ := hold z hp hs
      refine ⟨hs', ?_⟩
      show (x.2 p).1 ++ x.1.puts e p z = (x.2 p).2 ++ x.1.gets e y.1 p ++ q.content
      rw [hflow, List.append_assoc, hcarry, List.append_assoc]

/-- What has been read from a pipe is the front part of what has been written to it; the
rest is in it, and there is room for it. -/
theorem flow_run (es : List Event) : AllStates (watch Sys.step note) (fun x =>
    ∀ p y, x.1.pipes p = some y → (x.2 p).1 = (x.2 p).2 ++ y.content ∧
      y.content.length ≤ PIPESIZE) (boot, fun _ => ([], [])) es := by
  have hrun : AllStates (watch Sys.step note) Flows (boot, fun _ => ([], [])) es :=
    allStates_of_step (fun _ _ _ h ht => flows_step h ht) fun p x hx => by cases hx
  refine hrun.mono ?_
  intro x h p y hy
  obtain ⟨hs, hflow⟩ := h p y hy
  exact ⟨hflow, length_content.trans_le hs⟩

/-! ## Who sleeps -/

/-- Whoever sleeps has a reason to. -/
structure Sys.Awake (s : Sys) : Prop where
  read : ∀ i p n, (s.procs i).pc = .readSleep p n →
    ∃ x, s.pipes p = some x ∧ x.Empty ∧ x.writeopen = true
  write : ∀ i p n rest, (s.procs i).pc = .writeSleep p n rest →
    ∃ x, s.pipes p = some x ∧ x.Full ∧ x.readopen = true

/-- A process that has been killed fills a pipe with less than it was to write, while a
reader sleeps. -/
def Sys.GivesUp (s : Sys) (e : Event) : Prop := ∃ i page p n rest, e = .go i true page ∧
  (s.procs i).pc = .write p n rest ∧ PIPESIZE < rest.length ∧
    ∃ j m, (s.procs j).pc = .readSleep p m

theorem Quiet.awake (h : s.Awake) (hq : Quiet s t) : t.Awake := by
  constructor
  · intro i p n hi
    rw [hq.pipes]
    exact h.read i p n ((hq.asleep i (by rw [hi]; trivial)).symm.trans hi)
  · intro i p n rest hi
    rw [hq.pipes]
    exact h.write i p n rest ((hq.asleep i (by rw [hi]; trivial)).symm.trans hi)

/-- One pipe changes; whoever sleeps on it after the step still has a reason. -/
theorem awake_setPipe {q : Page} {y : Option Pipe} (h : s.Awake)
    (hpipes : t.pipes = Function.update s.pipes q y)
    (hasleep : ∀ j, (t.procs j).pc.Asleep → (t.procs j).pc = (s.procs j).pc)
    (hread : ∀ j n, (t.procs j).pc = .readSleep q n →
      ∃ x, y = some x ∧ x.Empty ∧ x.writeopen = true)
    (hwrite : ∀ j n rest, (t.procs j).pc = .writeSleep q n rest →
      ∃ x, y = some x ∧ x.Full ∧ x.readopen = true) : t.Awake := by
  constructor
  · intro j p n hj
    rw [hpipes]
    by_cases hp : p = q
    · subst hp
      rw [Function.update_self]
      exact hread j n hj
    · rw [Function.update_of_ne hp]
      exact h.read j p n ((hasleep j (by rw [hj]; trivial)).symm.trans hj)
  · intro j p n rest hj
    rw [hpipes]
    by_cases hp : p = q
    · subst hp
      rw [Function.update_self]
      exact hwrite j n rest hj
    · rw [Function.update_of_ne hp]
      exact h.write j p n rest ((hasleep j (by rw [hj]; trivial)).symm.trans hj)

/-- Process `i` goes to sleep. -/
theorem awake_sleep {pc : Pc} (h : s.Awake)
    (hread : ∀ p n, pc = .readSleep p n → ∃ x, s.pipes p = some x ∧ x.Empty ∧ x.writeopen = true)
    (hwrite : ∀ p n rest, pc = .writeSleep p n rest →
      ∃ x, s.pipes p = some x ∧ x.Full ∧ x.readopen = true) : (s.setPc i pc).Awake := by
  have hpc : ∀ j, ((s.setPc i pc).procs j).pc = if j = i then pc else (s.procs j).pc := by
    intro j
    by_cases hj : j = i
    · subst hj
      simp [Sys.setPc]
    · simp [Sys.setPc, hj]
  constructor
  · intro j p n hj
    rw [hpc] at hj
    split at hj
    · exact hread p n hj
    · exact h.read j p n hj
  · intro j p n rest hj
    rw [hpc] at hj
    split at hj
    · exact hwrite p n rest hj
    · exact h.write j p n rest hj

theorem wakeRead_asleep {pc : Pc} (h : (pc.wakeRead p).Asleep) :
    pc.wakeRead p = pc ∧ ∀ n, pc ≠ .readSleep p n := by
  cases pc with
  | readSleep q n =>
      rw [Pc.wakeRead] at h ⊢
      split at h
      · cases h
      · rename_i hq
        rw [if_neg hq]
        exact ⟨rfl, fun n' he => hq (Pc.readSleep.inj he).1⟩
  | _ => exact ⟨rfl, by simp⟩

theorem wakeWrite_asleep {pc : Pc} (h : (pc.wakeWrite p).Asleep) :
    pc.wakeWrite p = pc ∧ ∀ n rest, pc ≠ .writeSleep p n rest := by
  cases pc with
  | writeSleep q n rest =>
      rw [Pc.wakeWrite] at h ⊢
      split at h
      · cases h
      · rename_i hq
        rw [if_neg hq]
        exact ⟨rfl, fun n' rest' he => hq (Pc.writeSleep.inj he).1⟩
  | _ => exact ⟨rfl, by simp⟩

theorem awake_piperead {killed : Bool} {n : Int} (hinv : Inv s) (h : s.Awake)
    (hi : (s.procs i).pc = .read p n) : (s.piperead i killed p n).Awake := by
  obtain ⟨x, hx, -⟩ := hinv.pipe_open (i := i) (p := p) (w := false) (by rw [hi]; rfl)
  rw [Sys.piperead, hx]
  dsimp only
  split
  · rename_i hwait
    split
    · exact ((Quiet.refl s).setProc i id).awake h
    · refine awake_sleep h ?_ (by simp)
      intro q m hq
      obtain ⟨rfl, -⟩ := Pc.readSleep.inj hq
      exact ⟨x, hx, hwait⟩
  · rename_i hwait
    -- nobody reads in his sleep from `p`, and the writers are woken
    have hdrain : ((s.setPipe p (some (x.drain n.toNat).2)).wakeup (.wakeWrite p)).Awake := by
      refine awake_setPipe h rfl (fun j hj => (wakeWrite_asleep hj).1) ?_ ?_
      · intro j m hj
        have hj' : ((s.procs j).pc.wakeWrite p) = .readSleep p m := hj
        have hold := (wakeWrite_asleep (by rw [hj']; trivial)).1.symm.trans hj'
        obtain ⟨x', hx', hreason⟩ := h.read j p m hold
        obtain rfl := Option.some.inj (hx.symm.trans hx')
        exact absurd hreason hwait
      · intro j m rest hj
        have hj' : ((s.procs j).pc.wakeWrite p) = .writeSleep p m rest := hj
        have hasleep : ((s.procs j).pc.wakeWrite p).Asleep := by
          rw [hj']
          trivial
        obtain ⟨hsame, hne⟩ := wakeWrite_asleep hasleep
        exact absurd (hsame.symm.trans hj') (hne m rest)
    exact ((Quiet.refl _).setProc i id).awake hdrain

theorem awake_pipewrite {killed : Bool} {page : Option (Page × (Int → UInt8))} {n : Int}
    {rest : List UInt8} (hinv : Inv s) (hsound : ∀ p x, s.pipes p = some x → x.Sound)
    (h : s.Awake) (hi : (s.procs i).pc = .write p n rest)
    (hgive : ¬ s.GivesUp (.go i killed page)) : (s.pipewrite i killed p n rest).Awake := by
  obtain ⟨x, hx, -⟩ := hinv.pipe_open (i := i) (p := p) (w := true) (by rw [hi]; rfl)
  obtain ⟨hro, hwo⟩ := fill_open x rest
  obtain ⟨put, hrest, hcontent, hs, hfull⟩ := fill_spec (hsound p x hx) rest
  -- a writer sleeps only on a full pipe, and then nothing goes in
  have hwriters : ∀ j m rest', (s.procs j).pc = .writeSleep p m rest' →
      ∃ y, some (x.fill rest).1 = some y ∧ y.Full ∧ y.readopen = true := by
    intro j m rest' hj
    obtain ⟨x', hx', hfull', hopen⟩ := h.write j p m rest' hj
    obtain rfl := Option.some.inj (hx.symm.trans hx')
    rw [fill_full hfull']
    exact ⟨x, rfl, hfull', hopen⟩
  have hwake : ((s.setPipe p (some (x.fill rest).1)).wakeup (.wakeRead p)).Awake := by
    refine awake_setPipe h rfl (fun j hj => (wakeRead_asleep hj).1) ?_ ?_
    · intro j m hj
      have hj' : ((s.procs j).pc.wakeRead p) = .readSleep p m := hj
      have hasleep : ((s.procs j).pc.wakeRead p).Asleep := by
        rw [hj']
        trivial
      obtain ⟨hsame, hne⟩ := wakeRead_asleep hasleep
      exact absurd (hsame.symm.trans hj') (hne m)
    · intro j m rest' hj
      have hj' : ((s.procs j).pc.wakeRead p) = .writeSleep p m rest' := hj
      exact hwriters j m rest' ((wakeRead_asleep (by rw [hj']; trivial)).1.symm.trans hj')
  rw [Sys.pipewrite, hx]
  dsimp only
  split
  · exact ((Quiet.refl _).setProc i id).awake hwake
  rename_i hleft
  split
  · rename_i hstop
    have hsilent : (s.setPipe p (some (x.fill rest).1)).Awake := by
      refine awake_setPipe h rfl (fun j _ => rfl) ?_ hwriters
      intro j m hj
      have hj' : (s.procs j).pc = .readSleep p m := hj
      -- no reader sleeps: he would have the pipe open, and find it empty
      obtain ⟨x', hx', hempty, -⟩ := h.read j p m hj
      obtain rfl := Option.some.inj (hx.symm.trans hx')
      obtain ⟨x', hx', hopen⟩ := hinv.pipe_open (i := j) (p := p) (w := false) (by rw [hj']; rfl)
      obtain rfl := Option.some.inj (hx.symm.trans hx')
      rcases hstop with hshut | hkilled
      · cases hshut.symm.trans (hro.trans hopen)
      · subst hkilled
        exact absurd ⟨i, page, p, n, rest, rfl, hi, (fill_empty hempty).mp hleft, j, m, hj⟩ hgive
    exact ((Quiet.refl _).setProc i id).awake hsilent
  · rename_i hgoes
    refine awake_sleep hwake (by simp) ?_
    intro q m rest' hq
    obtain ⟨rfl, -, -⟩ := Pc.writeSleep.inj hq
    refine ⟨(x.fill rest).1, by simp, hfull hleft, ?_⟩
    cases hopen : (x.fill rest).1.readopen with
    | true => rfl
    | false => exact absurd (.inl hopen) hgoes

theorem awake_pipeclose {w : Bool} {fs : List FileIx} {ex : Bool} (hinv : Inv s) (h : s.Awake)
    (hi : (s.procs i).pc = .pipeclose p w fs ex) : (s.pipeclose i p w fs ex).Awake := by
  have hmem : Res.side p w ∈ s.holds (.inr (.inl i)) := by
    rw [Sys.holds, hi]
    exact List.mem_cons_self
  obtain ⟨x, hx, -⟩ := hinv.side_open hmem
  have hasleep : ∀ pc : Pc, (pc.wakeOther p w).Asleep → pc.wakeOther p w = pc ∧
      (∀ n, w = true → pc ≠ .readSleep p n) ∧ ∀ n rest, w = false → pc ≠ .writeSleep p n rest := by
    intro pc hpc
    cases w with
    | true =>
        obtain ⟨hsame, hne⟩ := wakeRead_asleep (p := p) hpc
        exact ⟨hsame, fun n _ => hne n, by simp⟩
    | false =>
        obtain ⟨hsame, hne⟩ := wakeWrite_asleep (p := p) hpc
        exact ⟨hsame, by simp, fun n rest _ => hne n rest⟩
  have hclose : ((s.setPipe p (some (x.close w))).wakeup (.wakeOther p w)).Awake := by
    refine awake_setPipe h rfl (fun j hj => (hasleep _ hj).1) ?_ ?_
    · intro j n hj
      have hj' : (s.procs j).pc.wakeOther p w = .readSleep p n := hj
      obtain ⟨hsame, hne, -⟩ := hasleep (s.procs j).pc (by rw [hj']; trivial)
      have hold := hsame.symm.trans hj'
      obtain ⟨x', hx', hempty, hopen⟩ := h.read j p n hold
      obtain rfl := Option.some.inj (hx.symm.trans hx')
      cases w with
      | true => exact absurd hold (hne n rfl)
      | false => exact ⟨_, rfl, hempty, hopen⟩
    · intro j n rest hj
      have hj' : (s.procs j).pc.wakeOther p w = .writeSleep p n rest := hj
      obtain ⟨hsame, -, hne⟩ := hasleep (s.procs j).pc (by rw [hj']; trivial)
      have hold := hsame.symm.trans hj'
      obtain ⟨x', hx', hfull, hopen⟩ := h.write j p n rest hold
      obtain rfl := Option.some.inj (hx.symm.trans hx')
      cases w with
      | true => exact ⟨_, rfl, hfull, hopen⟩
      | false => exact absurd hold (hne n rest rfl)
  have hnext := awake_next fs ex
  rw [Sys.pipeclose, hx]
  refine ((Quiet.refl _).setProc i ?_).awake hclose
  dsimp only
  split
  · exact id
  · exact hnext

theorem Move.awake (hm : Move s e t) (hinv : Inv s)
    (hsound : ∀ p x, s.pipes p = some x → x.Sound) (h : s.Awake) (hgive : ¬ s.GivesUp e) :
    t.Awake := by
  cases hm with
  | quiet _ _ _ _ hq => exact hq.awake h
  | read i killed page p n hi => exact awake_piperead hinv h hi
  | write i killed page p n rest hi => exact awake_pipewrite hinv hsound h hi hgive
  | pipealloc i killed page f0 f1 q data _ hi hq hquiet =>
      have hnew : (s.pipealloc f0 f1 q data).Awake := by
        refine awake_setPipe (q := q) h rfl (fun _ _ => rfl) ?_ ?_
        · intro j n hj
          obtain ⟨x, hx, -⟩ := h.read j q n hj
          cases hq.symm.trans hx
        · intro j n rest hj
          obtain ⟨x, hx, -⟩ := h.write j q n rest hj
          cases hq.symm.trans hx
      exact hquiet.awake hnew
  | pipeclose i killed page p w fs ex hi => exact awake_pipeclose hinv h hi
  | kfree i killed page q fs ex _ hi hquiet =>
      obtain ⟨x, hx, hread, hwrite⟩ := hinv.shut hi
      have hfree : (s.setPipe q none).Awake := by
        refine awake_setPipe (q := q) h rfl (fun _ _ => rfl) ?_ ?_
        · intro j n hj
          obtain ⟨x', hx', -, hopen⟩ := h.read j q n hj
          obtain rfl := Option.some.inj (hx.symm.trans hx')
          cases hwrite.symm.trans hopen
        · intro j n rest hj
          obtain ⟨x', hx', -, hopen⟩ := h.write j q n rest hj
          obtain rfl := Option.some.inj (hx.symm.trans hx')
          cases hread.symm.trans hopen
      exact hquiet.awake hfree

/-- The write that gives up leaves a reader asleep on a full pipe. -/
theorem givesUp_asleep (hinv : Inv s) (hsound : ∀ p x, s.pipes p = some x → x.Sound)
    (h : s.Awake) (hgive : s.GivesUp e) (ht : s.step e = some t) : ¬ t.Awake := by
  obtain ⟨i, page, p, n, rest, rfl, hi, hlen, j, m, hj⟩ := hgive
  obtain ⟨x, hx, hempty, -⟩ := h.read j p m hj
  have hs := hsound p x hx
  have hleft := (fill_empty hempty).mpr hlen
  obtain ⟨-, -, -, hs', hfull⟩ := fill_spec hs rest
  have hij : j ≠ i := by
    rintro rfl
    cases hi.symm.trans hj
  have hgo : s.go i true page = some t := by
    unfold Sys.step at ht
    rwa [if_pos hinv.fault] at ht
  simp only [Sys.go, hi, Sys.pipewrite, hx, if_neg hleft, or_true, if_true] at hgo
  obtain rfl := Option.some.inj hgo
  intro hawake
  have hpc : ((Sys.ret (s.setPipe p (some (x.fill rest).1)) i (-1)).procs j).pc
      = .readSleep p m := by
    rw [Sys.ret, setProc_procs, Function.update_of_ne hij]
    exact hj
  obtain ⟨y, hy, hnil, -⟩ := hawake.read j p m hpc
  obtain rfl : (x.fill rest).1 = y := by simpa [Sys.ret] using hy
  have hzero := empty_iff.mp hnil
  have hsize := (full_iff hs').mp (hfull hleft)
  cases hzero.symm.trans hsize

/-- Nobody misses a wake-up, just if no killed process gives up a write of more than PIPESIZE
bytes to a pipe on which a reader sleeps. -/
theorem awake_run (es : List Event) : AllStates Sys.step Sys.Awake boot es ↔
    AllSteps Sys.step (fun s e => ¬ s.GivesUp e) boot es := by
  have hboot : Inv boot ∧ (∀ p x, boot.pipes p = some x → x.Sound) ∧ boot.Awake := by
    refine ⟨inv_boot, by simp [boot], ?_, ?_⟩
    · intro i p n hi
      rcases boot_pc i with h | h <;> cases h.symm.trans hi
    · intro i p n rest hi
      rcases boot_pc i with h | h <;> cases h.symm.trans hi
  refine allStates_iff_allSteps (I := fun s => Inv s ∧ (∀ p x, s.pipes p = some x → x.Sound) ∧
    s.Awake) (fun s h => h.2.2) ?_ ?_ hboot allSteps_true
  · rintro s e t ⟨hinv, hs, hawake⟩ - ht hP hgive
    exact givesUp_asleep hinv hs hawake hgive ht hP
  · rintro s e t ⟨hinv, hs, hawake⟩ - hgive ht
    have hm := step_move ht
    refine ⟨hinv.step ht, ?_, hm.awake hinv hs hawake hgive⟩
    intro p y hy
    obtain ⟨hold, hnew⟩ := hm.carries hy
    cases hx : s.pipes p with
    | none => exact (hnew hx).1
    | some x => exact (hold x hx (hs p x hx)).1

end Cs537.Files
