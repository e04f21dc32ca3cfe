/-
# `Cs537.Threads.Dirs` — the lifetime of page directories

Processes that share an address space have the same `pgdir`, and nothing
counts them.  `exec` frees the old page directory of its caller, and `wait`
that of the zombie it reaps when no process has the pid in `parent_pid`.  No
live process loses its page directory, and none is freed twice, just when each
of these calls is about a page directory that is in use and that no other live
process has (`Unshared`).
-/
import Cs537.Lib.Run
import Cs537.Threads.Table

namespace Cs537.Threads

open Cs537.Lib

/-- The page directories of live processes are in use. -/
def LiveDirs (s : Sys) : Prop :=
  ∀ p, (s.ptable p).Live → ∃ d, (s.ptable p).pgdir = some d ∧ s.dirs d = true

/-- The call of `freevm` in a step, if there is one on a page directory that has
been visible to others. -/
def Sys.freed (s : Sys) : Event → Option (Option Dir)
  | .exec x (some a) =>
      if (s.ptable x).Ready ∧ s.dirs a = false then some (s.ptable x).pgdir else none
  | .call c x =>
      if (s.ptable x).Ready ∧ ¬ (c = .join ∧ (s.ptable x).num_child = 0) then c.frees s.ptable x
      else none
  | .resume x =>
      if (s.ptable x).state = .runnable then (s.ptable x).call.bind fun c => c.frees s.ptable x
      else none
  | _ => none

/-- `d` is a page directory in use. -/
def Sys.InUse (s : Sys) (d : Option Dir) : Prop := ∃ a, d = some a ∧ s.dirs a = true

/-- `freevm` is called on a page directory in use. -/
def FreesOk (s : Sys) (e : Event) : Prop := ∀ d, s.freed e = some d → s.InUse d

def Event.caller : Event → Slot
  | .fork x _ _ | .clone x _ _ | .exec x _ | .exit x _ | .call _ x | .resume x | .kill x _ => x

/-- `freevm` is called on a page directory in use, which no live process but the
caller has. -/
def Unshared (s : Sys) (e : Event) : Prop := ∀ d, s.freed e = some d →
  s.InUse d ∧ ∀ p, p ≠ e.caller → (s.ptable p).Live → (s.ptable p).pgdir ≠ d

section

variable {s t : Sys} {T : Table} {x p : Slot} {d : Option Dir} {c : Call}

/-! ## Tables -/

/-- The same live processes with the same page directories. -/
def SameLive (T T' : Table) : Prop :=
  ∀ p, ((T' p).Live ↔ (T p).Live) ∧ ((T p).Live → (T' p).pgdir = (T p).pgdir)

theorem SameLive.refl (T : Table) : SameLive T T := fun _ => ⟨Iff.rfl, fun _ => rfl⟩

theorem SameLive.trans {T' T'' : Table} (h : SameLive T T') (h' : SameLive T' T'') :
    SameLive T T'' := fun p =>
  ⟨(h' p).1.trans (h p).1, fun hl => ((h' p).2 ((h p).1.mpr hl)).trans ((h p).2 hl)⟩

theorem sameLive_update {y : Proc} (hs : y.Live ↔ (T p).Live) (hd : y.pgdir = (T p).pgdir) :
    SameLive T (Function.update T p y) := fun q => by
  by_cases hq : q = p
  · rw [hq, Function.update_self]
    exact ⟨hs, fun _ => hd⟩
  · rw [Function.update_of_ne hq]
    exact ⟨Iff.rfl, fun _ => rfl⟩

theorem sameLive_wakeup1 (p : Slot) (T : Table) : SameLive T (wakeup1 p T) := by
  rw [wakeup1]
  split
  · rename_i hs
    exact sameLive_update (iff_of_true (.inl rfl) (.inr hs)) rfl
  · exact SameLive.refl T

theorem sameLive_wakeParent (x : Slot) (T : Table) : SameLive T (wakeParent x T) := by
  rw [wakeParent]
  split
  · exact sameLive_wakeup1 _ T
  · exact SameLive.refl T

theorem sameLive_abandon (x : Slot) (T : Table) : SameLive T (abandon x T) := by
  have hparent : SameLive T (orphan x T) := fun p => by
    rw [orphan]
    split
    · exact ⟨Iff.rfl, fun _ => rfl⟩
    · exact ⟨Iff.rfl, fun _ => rfl⟩
  rw [abandon]
  split
  · exact hparent.trans (sameLive_wakeup1 _ _)
  · exact hparent

theorem sameLive_dropChild (k : Int) (T : Table) : SameLive T (dropChild k T) := fun p => by
  rw [dropChild]
  split
  · exact ⟨Iff.rfl, fun _ => rfl⟩
  · exact ⟨Iff.rfl, fun _ => rfl⟩

theorem LiveDirs.same (h : LiveDirs s) (hT : SameLive s.ptable t.ptable)
    (hdirs : ∀ a, s.dirs a = true → t.dirs a = true) : LiveDirs t := fun p hp => by
  obtain ⟨d, hd, hu⟩ := h p ((hT p).1.mp hp)
  exact ⟨d, ((hT p).2 ((hT p).1.mp hp)).trans hd, hdirs d hu⟩

/-! ## Single calls -/

/-- A process more, or changed, with a page directory in use if it is live. -/
theorem LiveDirs.update {y : Proc} (h : LiveDirs s) (hy : y.Live → s.InUse y.pgdir) :
    LiveDirs (s.setProc p y) := fun q hq => by
  by_cases hqp : q = p
  · rw [hqp, setProc_self] at hq ⊢
    exact hy hq
  · rw [setProc_of_ne hqp] at hq ⊢
    exact h q hq

/-- More page directories. -/
theorem LiveDirs.newdir {a : Dir} (h : LiveDirs s) :
    LiveDirs { s with dirs := Function.update s.dirs a true } :=
  h.same (SameLive.refl _) fun b hb => by
    by_cases hba : b = a
    · rw [hba]
      exact Function.update_self ..
    · exact (Function.update_of_ne hba ..).trans hb

/-- One page directory less, which no live process has. -/
theorem LiveDirs.freevm {a : Dir} (h : LiveDirs s)
    (ha : ∀ p, (s.ptable p).Live → (s.ptable p).pgdir ≠ some a) :
    LiveDirs { s with dirs := Function.update s.dirs a false } := fun p hp => by
  obtain ⟨d, hd, hu⟩ := h p hp
  have hne : d ≠ a := fun he => ha p hp (he ▸ hd)
  exact ⟨d, hd, (Function.update_of_ne hne ..).trans hu⟩

theorem not_live_of_unused {y : Proc} (h : y.state = .unused) : ¬ y.Live := by
  simp [Proc.Live, h]

theorem live_of_ready {y : Proc} (h : y.Ready) : y.Live := .inl h.1

theorem liveDirs_spent (h : LiveDirs s) (hfree : (s.ptable p).state = .unused) :
    LiveDirs (s.spent p) :=
  h.update fun hl => absurd hl (not_live_of_unused hfree)

theorem used_of_ready {y : Proc} (h : y.Ready) : y.state ≠ .unused := by
  simp [h.1]

theorem liveDirs_fork {ok : Bool} {a : Option Dir} (h : LiveDirs s) (hx : (s.ptable x).Ready)
    (ht : s.fork x ok a = some t) : LiveDirs t := by
  rcases fork_cases ht (used_of_ready hx) with rfl | ⟨np, hfree, rfl | ⟨a, -, rfl⟩⟩
  · exact h
  · exact liveDirs_spent h hfree
  · exact h.newdir.update fun _ => ⟨a, rfl, Function.update_self ..⟩

theorem liveDirs_clone (ok : Bool) (stack : Nat) (h : LiveDirs s) (hx : (s.ptable x).Ready) :
    LiveDirs (s.clone x ok stack) := by
  have hdir : s.InUse (s.ptable x).pgdir := h x (live_of_ready hx)
  rcases clone_cases ok stack (used_of_ready hx) with he | ⟨np, hfree, he | he⟩
  · rwa [he]
  · rw [he]
    exact liveDirs_spent h hfree
  · rw [he]
    have hchild : LiveDirs (s.child np x (s.ptable x).pgdir (s.ptable x).pid stack) :=
      h.update fun _ => hdir
    exact hchild.update fun _ => hdir

theorem exec_cases {a : Option Dir} (h : s.exec x a = some t) :
    (a = none ∧ t = s) ∨ ∃ b old, a = some b ∧ s.dirs b = false ∧ (s.ptable x).pgdir = some old ∧
      t = { s.setProc x { s.ptable x with pgdir := some b } with
        dirs := Function.update (Function.update s.dirs b true) old false } := by
  cases a with
  | none => exact .inl ⟨rfl, (Option.some.inj h).symm⟩
  | some b =>
      obtain ⟨u, hu, hfree⟩ := Option.bind_eq_some_iff.mp h
      obtain ⟨hb, rfl⟩ := newdir_some hu
      obtain ⟨old, hold, rfl⟩ := Option.map_eq_some_iff.mp hfree
      exact .inr ⟨b, old, rfl, hb, hold, rfl⟩

/-- The copies that `exit` makes only take new page directories. -/
theorem copies_dirs {l : List Slot} {cs : List (Option Dir)} {d' : Option Dir}
    {dirs dirs' : Dir → Bool} (h : copies T x l d cs dirs = some (d', dirs')) {a : Dir}
    (ha : dirs a = true) : dirs' a = true := by
  induction l generalizing d cs dirs with
  | nil =>
      cases h
      exact ha
  | cons p l ih =>
      unfold copies at h
      split at h
      · split at h
        · split at h
          · cases h
          · rename_i b cs hb
            refine ih h ?_
            rwa [Function.update_of_ne]
            exact fun he => hb (he ▸ ha)
        · exact ih h ha
        · cases h
      · exact ih h ha

theorem liveDirs_exit {cs : List (Option Dir)} (h : LiveDirs s) (ht : s.exit x cs = some t) :
    LiveDirs t := by
  rw [Sys.exit] at ht
  split at ht
  · cases ht
  · obtain ⟨⟨d, dirs⟩, hcopies, rfl⟩ := Option.map_eq_some_iff.mp ht
    refine LiveDirs.update ?_ fun hl => ?_
    · exact h.same ((sameLive_wakeParent x _).trans (sameLive_abandon x _)) fun a ha =>
        copies_dirs hcopies ha
    · simp [Proc.Live] at hl

/-! ## `wait` and `join` -/

theorem look_found (h : c.look T x = .found p) : c.test T x p ∧ (T p).state = .zombie := by
  rw [Call.look] at h
  split at h
  · rename_i q hfind
    cases h
    have hq := List.find?_some hfind
    exact of_decide_eq_true hq
  · split at h <;> cases h

theorem frees_found (h : c.frees T x = some d) :
    c = .wait ∧ ∃ p, c.look T x = .found p ∧ d = (T p).pgdir := by
  unfold Call.frees at h
  split at h
  · rename_i p hlook
    split at h
    · cases h
    · exact ⟨rfl, p, hlook, (Option.some.inj h).symm⟩
  · cases h

/-- A turn of the loop changes no live process, and the page directories only
by `freevm`. -/
theorem reap_same (hz : (s.ptable p).state = .zombie) :
    SameLive s.ptable (s.reap c x p).ptable ∧ (s.reap c x p).dirs = s.dirs := by
  have hdrop := sameLive_dropChild (s.ptable p).parent_pid s.ptable
  have hnot : ¬ (dropChild (s.ptable p).parent_pid s.ptable p).Live := by
    rw [(hdrop p).1]
    simp [Proc.Live, hz]
  have hT : SameLive s.ptable (Function.update (Function.update
      (dropChild (s.ptable p).parent_pid s.ptable) p
        (dropChild (s.ptable p).parent_pid s.ptable p).clear) x
      { Function.update (dropChild (s.ptable p).parent_pid s.ptable) p
          (dropChild (s.ptable p).parent_pid s.ptable p).clear x with call := none }) := by
    refine (hdrop.trans ?_).trans (sameLive_update Iff.rfl rfl)
    intro q
    by_cases hq : q = p
    · rw [hq, Function.update_self]
      exact ⟨iff_of_false (not_live_of_unused rfl) hnot, fun hl => absurd hl hnot⟩
    · rw [Function.update_of_ne hq]
      exact ⟨Iff.rfl, fun _ => rfl⟩
  cases c with
  | wait => exact ⟨hT, rfl⟩
  | join => exact ⟨hT, rfl⟩

theorem loop_cases (hx : (s.ptable x).state = .runnable) (h : s.loop c x = some t) :
    SameLive s.ptable t.ptable ∧ ((c.frees s.ptable x = none ∧ t.dirs = s.dirs) ∨
      ∃ a, c.frees s.ptable x = some (some a) ∧ t.dirs = Function.update s.dirs a false) := by
  have hsleep : ∀ y : Proc, y.state = .runnable ∨ y.state = .sleeping →
      (y.Live ↔ (s.ptable x).Live) := fun y hy => iff_of_true hy (.inl hx)
  rw [Sys.loop] at h
  split at h
  · rename_i p hlook
    have hz := (look_found hlook).2
    split at h
    · rename_i d hfrees
      obtain ⟨u, hu, rfl⟩ := Option.map_eq_some_iff.mp h
      obtain ⟨a, rfl, rfl⟩ := Option.map_eq_some_iff.mp hu
      have hreap := reap_same (s := { s with dirs := Function.update s.dirs a false })
        (c := c) (x := x) hz
      exact ⟨hreap.1, .inr ⟨a, hfrees, hreap.2⟩⟩
    · rename_i hfrees
      obtain rfl := Option.some.inj h
      have hreap := reap_same (c := c) (x := x) hz
      exact ⟨hreap.1, .inl ⟨hfrees, hreap.2⟩⟩
  · rename_i hlook
    obtain rfl := Option.some.inj h
    refine ⟨sameLive_update (hsleep _ (.inl hx)) rfl, .inl ⟨?_, rfl⟩⟩
    simp [Call.frees, hlook]
  · rename_i hlook
    obtain rfl := Option.some.inj h
    refine ⟨sameLive_update (hsleep _ (.inr rfl)) rfl, .inl ⟨?_, rfl⟩⟩
    simp [Call.frees, hlook]

theorem liveDirs_loop (h : LiveDirs s) (hx : (s.ptable x).state = .runnable)
    (hok : ∀ d, c.frees s.ptable x = some d →
      ∀ p, p ≠ x → (s.ptable p).Live → (s.ptable p).pgdir ≠ d)
    (ht : s.loop c x = some t) : LiveDirs t := by
  obtain ⟨hsame, ⟨-, hdirs⟩ | ⟨a, hfrees, hdirs⟩⟩ := loop_cases hx ht
  · exact h.same hsame fun a ha => hdirs ▸ ha
  · have hun : ∀ p, (s.ptable p).Live → (s.ptable p).pgdir ≠ some a := fun p hp => by
      by_cases hpx : p = x
      · obtain ⟨rfl, q, hlook, hd⟩ := frees_found hfrees
        rw [hpx, hd]
        exact fun he => (look_found hlook).1.2 he.symm
      · exact hok _ hfrees p hpx hp
    exact (h.freevm hun).same hsame fun b hb => hdirs ▸ hb

/-- The loop frees a page directory in use: then it goes through, and nobody
may have that page directory. -/
theorem unshared_loop (hx : (s.ptable x).state = .runnable)
    (hd : c.frees s.ptable x = some d) (huse : s.InUse d)
    (hlive : ∀ t, s.loop c x = some t → LiveDirs t) (hp : (s.ptable p).Live) :
    (s.ptable p).pgdir ≠ d := by
  intro hpd
  obtain ⟨a, rfl, -⟩ := huse
  obtain ⟨-, q, hlook, -⟩ := frees_found hd
  obtain ⟨t, ht⟩ : ∃ t, s.loop c x = some t := by
    simp [Sys.loop, hlook, hd, Sys.freevm]
  obtain ⟨hsame, ⟨hnone, -⟩ | ⟨b, hb, hdirs⟩⟩ := loop_cases hx ht
  · cases hnone.symm.trans hd
  · cases hb.symm.trans hd
    obtain ⟨b, hb, hu⟩ := hlive t ht p ((hsame p).1.mpr hp)
    cases ((hsame p).2 hp).symm.trans hb |>.symm.trans hpd
    rw [hdirs, Function.update_self] at hu
    cases hu

theorem Unshared.freesOk {e : Event} (h : Unshared s e) : FreesOk s e := fun d hd => (h d hd).1

/-! ## Runs -/

theorem ite_some {α : Type*} {P : Prop} [Decidable P] {o : Option α} {r : α}
    (h : (if P then o else none) = some r) : P ∧ o = some r := by
  split at h
  · exact ⟨‹P›, h⟩
  · cases h

theorem step_liveDirs {e : Event} (h : LiveDirs s) (hok : Unshared s e) (ht : s.step e = some t) :
    LiveDirs t := by
  cases e with
  | fork x ok a =>
      obtain ⟨hx, ht⟩ := ite_some ht
      exact liveDirs_fork h hx ht
  | clone x ok stack =>
      obtain ⟨hx, ht⟩ := ite_some ht
      exact Option.some.inj ht ▸ liveDirs_clone ok stack h hx
  | exec x a =>
      obtain ⟨hx, ht⟩ := ite_some ht
      rcases exec_cases ht with ⟨-, rfl⟩ | ⟨b, old, rfl, hb, hold, rfl⟩
      · exact h
      · have hfreed : s.freed (.exec x (some b)) = some (s.ptable x).pgdir := if_pos ⟨hx, hb⟩
        obtain ⟨⟨old', hd, huse⟩, hun⟩ := hok _ hfreed
        cases hold.symm.trans hd
        have hne : b ≠ old := fun he => by simp [he, huse] at hb
        have hnew : LiveDirs
            (Sys.setProc { s with dirs := Function.update s.dirs b true } x
              { s.ptable x with pgdir := some b }) :=
          h.newdir.update fun _ => ⟨b, rfl, Function.update_self ..⟩
        refine hnew.freevm fun p hp => ?_
        by_cases hpx : p = x
        · rw [hpx, setProc_self]
          exact fun he => hne (Option.some.inj he)
        · rw [setProc_of_ne hpx] at hp ⊢
          exact hold ▸ hun p hpx hp
  | exit x cs => exact liveDirs_exit h (ite_some ht).2
  | call c x =>
      obtain ⟨hx, ht⟩ := ite_some ht
      rw [Sys.call] at ht
      split at ht
      · exact Option.some.inj ht ▸ h
      · rename_i hnj
        have hfreed : s.freed (.call c x) = c.frees s.ptable x := if_pos ⟨hx, hnj⟩
        exact liveDirs_loop h hx.1 (fun d hd => (hok d (hfreed.trans hd)).2) ht
  | resume x =>
      obtain ⟨hx, ht⟩ := ite_some ht
      obtain ⟨c, hc, ht⟩ := Option.bind_eq_some_iff.mp ht
      have hfreed : s.freed (.resume x) = c.frees s.ptable x := by simp [Sys.freed, hx, hc]
      exact liveDirs_loop h hx (fun d hd => (hok d (hfreed.trans hd)).2) ht
  | kill x pid =>
      obtain ⟨hx, ht⟩ := ite_some ht
      obtain rfl := Option.some.inj ht
      rw [Sys.kill]
      split
      · exact h
      · rename_i p hfind
        refine h.same (sameLive_update ?_ ?_) fun _ ha => ha
        · split
          · rename_i hs
            exact iff_of_true (.inl rfl) (.inr hs)
          · exact Iff.rfl
        · split <;> rfl

/-- A step that frees a page directory in use, and leaves every live process
with one, is `Unshared`. -/
theorem unshared_of_liveDirs {e : Event} (hfree : FreesOk s e)
    (hlive : ∀ t, s.step e = some t → LiveDirs t) : Unshared s e := by
  intro d hd
  refine ⟨hfree d hd, fun p hpx hp => ?_⟩
  cases e with
  | exec x a =>
      cases a with
      | none => cases hd
      | some b =>
          obtain ⟨⟨hx, hb⟩, rfl⟩ : ((s.ptable x).Ready ∧ s.dirs b = false) ∧
              (s.ptable x).pgdir = d := by
            obtain ⟨hpre, hpost⟩ := ite_some hd
            exact ⟨hpre, Option.some.inj hpost⟩
          obtain ⟨old, hold, huse⟩ := hfree _ hd
          rw [hold]
          intro hpd
          have ht : s.step (.exec x (some b)) = some
              { s.setProc x { s.ptable x with pgdir := some b } with
                dirs := Function.update (Function.update s.dirs b true) old false } := by
            simp [Sys.step, hx, Sys.exec, Sys.newdir, hb, hold, Sys.freevm, Sys.setProc]
          have hkeep := setProc_of_ne (s := s) (y := { s.ptable x with pgdir := some b }) hpx
          obtain ⟨d, hd, hu⟩ := hlive _ ht p (hkeep ▸ hp)
          cases (congrArg Proc.pgdir hkeep).symm.trans hd |>.symm.trans hpd
          simp at hu
  | call c x =>
      obtain ⟨⟨hx, hnj⟩, hd⟩ := ite_some hd
      refine unshared_loop hx.1 hd (hfree d (by rw [Sys.freed, if_pos ⟨hx, hnj⟩, hd])) ?_ hp
      intro t ht
      exact hlive t (by rw [Sys.step, if_pos hx, Sys.call, if_neg hnj, ht])
  | resume x =>
      obtain ⟨hx, hd'⟩ := ite_some hd
      obtain ⟨c, hc, hd'⟩ := Option.bind_eq_some_iff.mp hd'
      refine unshared_loop hx hd' (hfree d hd) ?_ hp
      intro t ht
      exact hlive t (by simp [Sys.step, hx, hc, ht])
  | fork | clone | exit | kill => cases hd

theorem boot_liveDirs (a : Dir) : LiveDirs (boot a) := fun p hp => by
  by_cases h : p = initproc
  · exact ⟨a, by simp [boot, h], by simp [boot]⟩
  · simp [boot, h, Proc.Live] at hp

instance (s : Sys) : Decidable (LiveDirs s) :=
  decidable_of_iff (∀ p, (s.ptable p).Live → (s.ptable p).pgdir.any fun d => s.dirs d)
    (forall₂_congr fun p _ => by simp [Option.any_eq_true])

instance (s : Sys) (e : Event) : Decidable (FreesOk s e) :=
  decidable_of_iff ((s.freed e).all fun d => d.any fun a => s.dirs a)
    (by simp [FreesOk, Sys.InUse, Option.all_eq_true, Option.any_eq_true])

/-- A process of `init` clones two threads and exits, and `init` reaps it; then
one of the threads exits, and `init` reaps it too.  Nobody has the pid in its
`parent_pid` any more, so its page directory is freed, and the other thread is
still running in it.  When that one exits, it is freed again. -/
def orphansRun : List Event :=
  [.fork 0 true (some 1), .clone 1 true 0, .clone 1 true 0, .exit 1 [some 2], .call .wait 0,
    .exit 2 [], .call .wait 0, .exit 3 [], .call .wait 0]

end

end Cs537.Threads
