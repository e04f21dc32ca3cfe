/-
# `Cs537.Files.Safe` — no reference is lost, no pipe is used after `kfree`

The rest of the sections, the calls and the whole step.  For every run, whatever
processes there are and in whatever order they go on:

    refs_run    no panic, and `ref` counts the descriptors and the hands
    page_run    a page is allocated just as long as there is an end of it
-/
import Cs537.Files.Table

namespace Cs537.Files

open Cs537.Lib

variable {s t : Sys} {i j np : Slot} {fd : Fd} {f f0 f1 : FileIx} {fs : List FileIx} {p : Page}
  {w ex : Bool} {r : Res} {pc : Pc} {v : Int} {todo : List Fd}

/-! ## `pipeclose` and `kfree` -/

/-- An end is closed, or the page is to be freed. -/
theorem count_close {x : Pipe} (fs : List FileIx) (ex : Bool)
    (hopen : (if w then x.writeopen else x.readopen) = true) :
    (parts p (some (x.close w))).count r + (Pc.pipeclose p w fs ex).held.count r
      = (parts p (some x)).count r
        + (if (x.close w).readopen = false ∧ (x.close w).writeopen = false then Pc.kfree p fs ex
          else .next fs ex).held.count r := by
  have hside : (Pc.pipeclose p w fs ex).held = .side p w :: fs.map .ref := rfl
  have hpage : (Pc.kfree p fs ex).held = .page p :: fs.map .ref := rfl
  have hnext := held_next fs ex
  obtain ⟨data, nread, nwrite, readopen, writeopen⟩ := x
  cases w with
  | true =>
      obtain rfl : writeopen = true := hopen
      cases readopen <;> simp [Pipe.close, parts, hside, hpage, hnext, List.count_cons] <;> omega
  | false =>
      obtain rfl : readopen = true := hopen
      cases writeopen <;> simp [Pipe.close, parts, hside, hpage, hnext, List.count_cons] <;> omega

theorem Inv.pipeclose (h : Inv s) (hi : (s.procs i).pc = .pipeclose p w fs ex) :
    Inv (s.pipeclose i p w fs ex) := by
  -- the wake-up changes nothing here, so it may come first
  have hwake : Wakes (.wakeOther p w) := by
    cases w
    · exact wakes_write p
    · exact wakes_read p
  have hw := h.wakeup hwake
  have hi' : ((s.wakeup (.wakeOther p w)).procs i).pc = .pipeclose p w fs ex := by
    rw [wakeup_pc, hi]
    cases w <;> rfl
  have hembryo : ((s.wakeup (.wakeOther p w)).procs i).pc ≠ .embryo := by
    rw [hi']
    simp
  have hmem : Res.side p w ∈ s.holds (.inr (.inl i)) := by
    rw [Sys.holds, hi]
    exact List.mem_cons_self
  obtain ⟨x, hx, hopen⟩ := h.side_open hmem
  rw [Sys.pipeclose, hx]
  dsimp only
  have hplain : (if (x.close w).readopen = false ∧ (x.close w).writeopen = false then
      Pc.kfree p fs ex else .next fs ex).Plain := by
    split
    · trivial
    · exact plain_next fs ex
  refine hw.step_of rfl hembryo hplain.not_fork ?_ hw.files (fun j _ => .of_eq rfl) ?_ rfl
  · intro r
    have hclose := count_close (p := p) (r := r) fs ex hopen
    have hpc : ((s.setPipe p (some (x.close w))).wakeup (.wakeOther p w)).procs i
      = (s.wakeup (.wakeOther p w)).procs i := rfl
    rw [gap_setPc, gap_wakeup hwake.held, gap_setPipe, hpc, hi', hx, h.gap r]
    omega
  · exact hw.good_goes (by simpa [Sys.setPc] using hplain) (by simp [Sys.setPc]) (.of_eq rfl)

/-- A page is freed when both ends are closed. -/
theorem Inv.shut (h : Inv s) (hi : (s.procs i).pc = .kfree p fs ex) :
    ∃ x, s.pipes p = some x ∧ x.readopen = false ∧ x.writeopen = false := by
  have hmem : Res.page p ∈ s.holds (.inr (.inl i)) := by
    rw [Sys.holds, hi]
    exact List.mem_cons_self
  have hle := count_le_uses s.holds (.inr (.inl i)) (.page p)
  have hpage : Res.page p ∈ parts p (s.pipes p) :=
    List.count_pos_iff.mp ((one_le_count hmem).trans (hle.trans (h.uses_eq _).le))
  cases hx : s.pipes p with
  | none =>
      rw [hx] at hpage
      cases hpage
  | some x =>
      rw [hx] at hpage
      exact ⟨x, rfl, by simpa [parts] using hpage⟩

theorem Inv.kfree {x : Pipe} (h : Inv s) (hi : (s.procs i).pc = .kfree p fs ex)
    (hx : s.pipes p = some x) (hshut : x.readopen = false ∧ x.writeopen = false) :
    Inv ((s.setPipe p none).setPc i (.next fs ex)) := by
  have hembryo : (s.procs i).pc ≠ .embryo := by simp [hi]
  have hplain := plain_next fs ex
  refine h.step_of rfl hembryo hplain.not_fork ?_ h.files (fun j _ => .of_eq rfl) ?_ rfl
  · intro r
    have hparts : parts p (some x) = [.page p] := by simp [parts, hshut]
    have hheld : (Pc.kfree p fs ex).held = [.page p] ++ fs.map .ref := rfl
    rw [gap_setPc, gap_setPipe, setPipe_procs, hi, hx, hparts, held_next, hheld,
      List.count_append, h.gap r]
    simp only [parts, List.count_nil]
    omega
  · exact h.good_goes (by simpa [Sys.setPc] using hplain) (by simp [Sys.setPc]) (.of_eq rfl)

/-! ## Reading and writing -/

theorem parts_open {x y : Pipe} (hr : y.readopen = x.readopen) (hw : y.writeopen = x.writeopen) :
    parts p (some y) = parts p (some x) := by
  rw [parts, parts, hr, hw]

theorem Inv.pipewrite {killed : Bool} {n : Int} {rest : List UInt8} (h : Inv s)
    (hi : (s.procs i).pc = .write p n rest) : Inv (s.pipewrite i killed p n rest) := by
  have hembryo : (s.procs i).pc ≠ .embryo := by simp [hi]
  have hheld : (s.procs i).pc.held = [] := by rw [hi]; rfl
  have hside := (h.good i).side p true (by rw [hi]; rfl)
  obtain ⟨x, hx, -⟩ := h.pipe_open (i := i) (p := p) (w := true) (by rw [hi]; rfl)
  obtain ⟨hro, hwo⟩ := fill_open x rest
  have hfill : Inv (s.setPipe p (some (x.fill rest).1)) :=
    h.setPipe (by rw [hx, parts_open hro hwo])
  have hwake := hfill.wakeup (wakes_read p)
  have hpc : (((s.setPipe p (some (x.fill rest).1)).wakeup (.wakeRead p)).procs i).pc
      = .write p n rest := by
    rw [wakeup_pc, setPipe_procs, hi]
    rfl
  rw [Sys.pipewrite, hx]
  dsimp only
  split
  · exact hwake.goes (fun he => by cases hpc.symm.trans he) rfl (by rw [hpc]; rfl) trivial
  split
  · exact hfill.goes hembryo rfl hheld.symm trivial
  · exact hwake.goes_side (fun he => by cases hpc.symm.trans he) (by rw [hpc]; rfl) rfl hside

theorem Inv.piperead {killed : Bool} {n : Int} (h : Inv s) (hi : (s.procs i).pc = .read p n) :
    Inv (s.piperead i killed p n) := by
  have hembryo : (s.procs i).pc ≠ .embryo := by simp [hi]
  have hheld : (s.procs i).pc.held = [] := by rw [hi]; rfl
  have hside := (h.good i).side p false (by rw [hi]; rfl)
  obtain ⟨x, hx, -⟩ := h.pipe_open (i := i) (p := p) (w := false) (by rw [hi]; rfl)
  rw [Sys.piperead, hx]
  dsimp only
  split
  · split
    · exact h.goes hembryo rfl hheld.symm trivial
    · exact h.goes_side hembryo hheld rfl hside
  · obtain ⟨hro, hwo⟩ := drain_open x n.toNat
    have hdrain : Inv (s.setPipe p (some (x.drain n.toNat).2)) :=
      h.setPipe (by rw [hx, parts_open hro hwo])
    have hwake := hdrain.wakeup (wakes_write p)
    have hpc : (((s.setPipe p (some (x.drain n.toNat).2)).wakeup (.wakeWrite p)).procs i).pc
        = .read p n := by
      rw [wakeup_pc, setPipe_procs, hi]
      rfl
    exact hwake.goes (fun he => by cases hpc.symm.trans he) rfl (by rw [hpc]; rfl) trivial

/-! ## `fork` and `exit` -/

theorem Inv.embryo (h : Inv s) (hnp : (s.procs np).pc = .gone) : Inv (s.setPc np .embryo) := by
  have hproc : (s.setPc np .embryo).procs np = { s.procs np with pc := .embryo } :=
    Function.update_self ..
  refine h.step_of rfl (by simp [hnp]) (by simp) ?_ h.files (fun j _ => .of_eq rfl) ?_ rfl
  · intro r
    rw [gap_setPc, hnp, h.gap r]
    rfl
  · refine good_quiet (by rw [hproc]; rfl) (by rw [hproc]; rfl) (by simp [hproc]) ?_
    exact h.named_frame (by rw [hproc]) (.of_eq rfl)

/-- Process `i` has the child `np`, and `todo` left to copy. -/
theorem Inv.copies (h : Inv s) (hi : (s.procs i).pc ≠ .embryo) (hheld : (s.procs i).pc.held = [])
    (hnp : (s.procs np).pc = .embryo) (hnodup : todo.Nodup)
    (hslots : ∀ fd ∈ todo, (s.procs np).ofile fd = none)
    (honly : ∀ k todo', (s.procs k).pc = .fork np todo' → k = i) :
    Inv (s.setPc i (.fork np todo)) := by
  have hproc : (s.setPc i (.fork np todo)).procs i = { s.procs i with pc := .fork np todo } :=
    Function.update_self ..
  have hother : ∀ k, k ≠ i → (s.setPc i (.fork np todo)).procs k = s.procs k := fun k hk =>
    Function.update_of_ne hk ..
  have hne : np ≠ i := by
    rintro rfl
    exact hi hnp
  refine ⟨?_, h.files, ?_, ⟨?_, ?_⟩, h.fault⟩
  · intro r
    rw [gap_setPc, hheld, h.gap r]
    rfl
  · intro k
    by_cases hk : k = i
    · subst hk
      refine good_quiet (by rw [hproc]; rfl) (by rw [hproc]; rfl) (by simp [hproc]) ?_
      exact h.named_frame (by rw [hproc]) (.of_eq rfl)
    · exact (h.good k).frame (hother k hk) (.of_eq rfl)
  · intro k np' todo' hk
    by_cases hki : k = i
    · subst hki
      rw [hproc] at hk
      obtain ⟨rfl, rfl⟩ := Pc.fork.inj hk
      rw [hother np hne]
      exact ⟨hnp, hnodup, hslots⟩
    · rw [hother k hki] at hk
      obtain ⟨hembryo, hrest⟩ := h.forks.child k np' todo' hk
      have hne' : np' ≠ i := by
        rintro rfl
        exact hi hembryo
      rw [hother np' hne']
      exact ⟨hembryo, hrest⟩
  · have hto : ∀ k np' todo', ((s.setPc i (.fork np todo)).procs k).pc = .fork np' todo' →
        k = i ∧ np' = np ∨ k ≠ i ∧ (s.procs k).pc = .fork np' todo' := by
      intro k np' todo' hk
      by_cases hki : k = i
      · subst hki
        rw [hproc] at hk
        exact .inl ⟨rfl, (Pc.fork.inj hk).1.symm⟩
      · rw [hother k hki] at hk
        exact .inr ⟨hki, hk⟩
    intro k l np' todo₁ todo₂ hk hl
    rcases hto k np' todo₁ hk with ⟨rfl, hnk⟩ | ⟨hki, hkold⟩
    · rcases hto l np' todo₂ hl with ⟨rfl, -⟩ | ⟨hli, hlold⟩
      · rfl
      · exact absurd (honly l todo₂ (hnk ▸ hlold)) hli
    · rcases hto l np' todo₂ hl with ⟨rfl, hnl⟩ | ⟨-, hlold⟩
      · exact absurd (honly k todo₁ (hnl ▸ hkold)) hki
      · exact h.forks.apart k l np' todo₁ todo₂ hkold hlold

/-- The child is done. -/
theorem Inv.newborn (h : Inv s) (hnp : (s.procs np).pc = .embryo)
    (honly : ∀ k todo, (s.procs k).pc ≠ .fork np todo) : Inv (s.ret np v) := by
  have hproc : (s.ret np v).procs np = { s.procs np with eax := v, pc := .user } :=
    Function.update_self ..
  have hother : ∀ k, k ≠ np → (s.ret np v).procs k = s.procs k := fun k hk =>
    Function.update_of_ne hk ..
  have hold : ∀ k np' todo, ((s.ret np v).procs k).pc = .fork np' todo →
      (s.procs k).pc = .fork np' todo := by
    intro k np' todo hk
    by_cases hkn : k = np
    · subst hkn
      rw [hproc] at hk
      cases hk
    · rwa [hother k hkn] at hk
  refine ⟨?_, h.files, ?_, ⟨?_, ?_⟩, h.fault⟩
  · intro r
    rw [gap_ret, hnp, h.gap r]
    rfl
  · intro k
    by_cases hk : k = np
    · subst hk
      exact h.good_goes (by rw [hproc]; trivial) (by rw [hproc]) (.of_eq rfl)
    · exact (h.good k).frame (hother k hk) (.of_eq rfl)
  · intro k np' todo hk
    have hfork := hold k np' todo hk
    have hne : np' ≠ np := by
      rintro rfl
      exact honly k todo hfork
    rw [hother np' hne]
    exact h.forks.child k np' todo hfork
  · intro k l np' todo₁ todo₂ hk hl
    exact h.forks.apart k l np' todo₁ todo₂ (hold k np' todo₁ hk) (hold l np' todo₂ hl)

/-- `exit` is done. -/
theorem Inv.goes_gone (h : Inv s) (hi : (s.procs i).pc ≠ .embryo)
    (hheld : (s.procs i).pc.held = []) (hnone : ∀ fd, (s.procs i).ofile fd = none) :
    Inv (s.setPc i .gone) := by
  have hproc : (s.setPc i .gone).procs i = { s.procs i with pc := .gone } :=
    Function.update_self ..
  refine h.step_of rfl hi (by simp) ?_ h.files (fun j _ => .of_eq rfl) ?_ rfl
  · intro r
    rw [gap_setPc, hheld, h.gap r]
    rfl
  · refine good_quiet (by rw [hproc]; rfl) (by rw [hproc]; rfl) ?_ ?_
    · rw [hproc]
      exact fun _ => hnone
    · exact h.named_frame (by rw [hproc]) (.of_eq rfl)

theorem Inv.fork (h : Inv s) (hi : (s.procs i).pc = .user) (hnp : (s.procs np).pc = .gone) :
    Inv ((s.setPc np .embryo).setPc i (.fork np (List.finRange nofile))) := by
  have hne : i ≠ np := by
    rintro rfl
    cases hi.symm.trans hnp
  have hpc : ((s.setPc np .embryo).procs i).pc = .user := by
    rw [Sys.setPc, setProc_procs, Function.update_of_ne hne, hi]
  have hchild : (s.setPc np .embryo).procs np = { s.procs np with pc := .embryo } :=
    Function.update_self ..
  refine (h.embryo hnp).copies (by simp [hpc]) (by rw [hpc]; rfl) (by rw [hchild])
    (List.nodup_finRange _) ?_ ?_
  · intro fd _
    rw [hchild]
    exact (h.good np).gone hnp fd
  · intro k todo hk
    by_cases hkn : k = np
    · subst hkn
      rw [hchild] at hk
      cases hk
    · rw [Sys.setPc, setProc_procs, Function.update_of_ne hkn] at hk
      cases (h.forks.child k np todo hk).1.symm.trans hnp

/-! ## The steps -/

theorem Inv.call {c : Call} (h : Inv s) (hi : (s.procs i).pc = .user) (ht : s.call i c = some t) :
    Inv t := by
  have hembryo : (s.procs i).pc ≠ .embryo := by simp [hi]
  have hheld : (s.procs i).pc.held = [] := by rw [hi]; rfl
  have hret : ∀ v, Inv (s.ret i v) := fun v => h.goes hembryo rfl hheld.symm trivial
  cases c with
  | read fd n v =>
      simp only [Sys.call] at ht
      split at ht
      · exact Option.some.inj ht ▸ hret _
      rename_i f hf
      split at ht
      · exact Option.some.inj ht ▸ hret _
      rename_i hread
      split at ht
      · rename_i hpipe
        obtain rfl := Option.some.inj ht
        refine h.goes_side hembryo hheld rfl ⟨fd, f, hf, hpipe, rfl, ?_⟩
        have hflag := (h.files f).pipe hpipe
        simpa [hread] using hflag
      · exact Option.some.inj ht ▸ hret _
      · rename_i hnone
        exact absurd hnone ((h.good i).named fd f hf)
  | write fd n v src =>
      simp only [Sys.call] at ht
      split at ht
      · exact Option.some.inj ht ▸ hret _
      rename_i f hf
      split at ht
      · exact Option.some.inj ht ▸ hret _
      rename_i hwrite
      split at ht
      · rename_i hpipe
        obtain rfl := Option.some.inj ht
        refine h.goes_side hembryo hheld rfl ⟨fd, f, hf, hpipe, rfl, ?_⟩
        simpa using hwrite
      · exact Option.some.inj ht ▸ hret _
      · rename_i hnone
        exact absurd hnone ((h.good i).named fd f hf)
  | dup fd =>
      simp only [Sys.call] at ht
      split at ht
      · exact Option.some.inj ht ▸ hret _
      rename_i f hf
      split at ht
      · exact Option.some.inj ht ▸ hret _
      rename_i fd' hfd'
      obtain rfl := Option.some.inj ht
      have hdup : Inv (s.filedup i fd' f) := by
        refine h.filedup hf (by simp [hi]) (fdalloc_free hfd') ?_
        rintro k np todo hk rfl
        cases (h.forks.child k np todo hk).1.symm.trans hi
      have hpc : ((s.filedup i fd' f).procs i).pc = .user := by
        rw [Sys.filedup]
        split
        · exact hi
        · exact (setOfile_pc ..).trans hi
      exact hdup.goes (by simp [hpc]) rfl (by rw [hpc]) trivial
  | close fd =>
      simp only [Sys.call] at ht
      split at ht
      · exact Option.some.inj ht ▸ hret _
      rename_i f hf
      obtain rfl := Option.some.inj ht
      exact h.drop hembryo hheld hf rfl rfl
  | pipe =>
      simp only [Sys.call] at ht
      split at ht
      · exact Option.some.inj ht ▸ hret _
      rename_i f hf
      obtain rfl := Option.some.inj ht
      exact h.filealloc hf hembryo (by simp [hi, Pc.held]) (by simp [hi, Pc.fresh])
  | «open» omode =>
      simp only [Sys.call] at ht
      split at ht
      · exact Option.some.inj ht ▸ hret _
      rename_i f hf
      obtain rfl := Option.some.inj ht
      exact h.openFile hf hi
  | fork np =>
      simp only [Sys.call] at ht
      split at ht
      · rename_i hnp
        obtain rfl := Option.some.inj ht
        exact h.fork hi hnp
      · cases ht
  | exit =>
      obtain rfl := Option.some.inj ht
      exact h.goes hembryo rfl hheld.symm trivial

theorem Inv.go {killed : Bool} {page : Option (Page × (Int → UInt8))} (h : Inv s)
    (ht : s.go i killed page = some t) : Inv t := by
  cases hpc : (s.procs i).pc with
  | read p n =>
      rw [Sys.go, hpc] at ht
      exact Option.some.inj ht ▸ h.piperead hpc
  | write p n rest =>
      rw [Sys.go, hpc] at ht
      exact Option.some.inj ht ▸ h.pipewrite hpc
  | pipe1 f0 =>
      simp only [Sys.go, hpc] at ht
      split at ht
      · obtain rfl := Option.some.inj ht
        exact h.goes (by simp [hpc]) rfl (by rw [hpc]; rfl) trivial
      · rename_i f1 hf1
        obtain rfl := Option.some.inj ht
        exact h.filealloc hf1 (by simp [hpc]) (by simp [hpc, Pc.held])
          (by simp [hpc, Pc.fresh])
  | pipe2 f0 f1 =>
      simp only [Sys.go, hpc] at ht
      split at ht
      · obtain rfl := Option.some.inj ht
        exact h.goes (by simp [hpc]) rfl (by rw [hpc]; rfl) trivial
      · split at ht
        · rename_i hp
          obtain rfl := Option.some.inj ht
          exact h.pipe hpc (Option.isNone_iff_eq_none.mp hp)
        · cases ht
  | closing f fs ex =>
      rw [Sys.go, hpc] at ht
      exact Option.some.inj ht ▸ h.fileclose hpc
  | pipeclose p w fs ex =>
      rw [Sys.go, hpc] at ht
      exact Option.some.inj ht ▸ h.pipeclose hpc
  | kfree p fs ex =>
      obtain ⟨x, hx, hshut⟩ := h.shut hpc
      simp only [Sys.go, hpc, hx] at ht
      exact Option.some.inj ht ▸ h.kfree hpc hx hshut
  | fork np todo =>
      obtain ⟨hembryo, hnodup, hslots⟩ := h.forks.child i np todo hpc
      have honly : ∀ k todo', (s.procs k).pc = .fork np todo' → k = i := fun k todo' hk =>
        h.forks.apart k i np todo' todo hk hpc
      have hne : np ≠ i := by
        rintro rfl
        cases hpc.symm.trans hembryo
      have hself : ∀ pc, (s.setPc i pc).procs i = { s.procs i with pc := pc } := fun pc =>
        Function.update_self ..
      have hother : ∀ {pc} k, k ≠ i → (s.setPc i pc).procs k = s.procs k := fun k hk =>
        Function.update_of_ne hk ..
      cases todo with
      | nil =>
          simp only [Sys.go, hpc] at ht
          obtain rfl := Option.some.inj ht
          have huser : Inv (s.setPc i .user) :=
            h.goes (by simp [hpc]) rfl (by rw [hpc]; rfl) trivial
          refine huser.newborn ?_ ?_
          · rw [hother np hne, hembryo]
          · intro k todo hk
            by_cases hki : k = i
            · subst hki
              rw [hself] at hk
              cases hk
            · rw [hother k hki] at hk
              exact hki (honly k todo hk)
      | cons fd todo =>
          have hcopies : Inv (s.setPc i (.fork np todo)) :=
            h.copies (by simp [hpc]) (by rw [hpc]; rfl) hembryo hnodup.of_cons
              (fun fd' hfd' => hslots fd' (List.mem_cons_of_mem fd hfd')) honly
          simp only [Sys.go, hpc] at ht
          split at ht
          · exact Option.some.inj ht ▸ hcopies
          · rename_i f hf
            obtain rfl := Option.some.inj ht
            have hfd : ((s.setPc i (.fork np todo)).procs i).ofile fd = some f := by
              rw [hself]
              exact hf
            refine hcopies.filedup hfd ?_ ?_ ?_
            · rw [hother np hne, hembryo]
              simp
            · rw [hother np hne]
              exact hslots fd List.mem_cons_self
            · rintro k np' todo' hk rfl
              obtain rfl : k = i := by
                by_contra hki
                rw [hother k hki] at hk
                exact hki (honly k todo' hk)
              rw [hself] at hk
              obtain rfl := (Pc.fork.inj hk).2
              exact (List.nodup_cons.mp hnodup).1
  | exit =>
      simp only [Sys.go, hpc] at ht
      split at ht
      · rename_i hnone
        obtain rfl := Option.some.inj ht
        refine h.goes_gone (by simp [hpc]) (by rw [hpc]; rfl) ?_
        intro fd
        simpa using List.find?_eq_none.mp hnone fd (List.mem_finRange fd)
      · rename_i fd hfd
        split at ht
        · cases ht
        · rename_i f hf
          obtain rfl := Option.some.inj ht
          exact h.drop (by simp [hpc]) (by rw [hpc]; rfl) hf rfl rfl
  | _ =>
      simp only [Sys.go, hpc] at ht
      cases ht

theorem Inv.step {e : Event} (h : Inv s) (ht : s.step e = some t) : Inv t := by
  unfold Sys.step at ht
  rw [if_pos h.fault] at ht
  cases e with
  | call i c =>
      dsimp only at ht
      split at ht
      · rename_i hi
        exact h.call hi ht
      · cases ht
  | go i killed page => exact h.go ht
  | wake i =>
      cases hpc : (s.procs i).pc <;> simp only [hpc] at ht
      case readSleep p n =>
        obtain rfl := Option.some.inj ht
        exact h.goes_side (by simp [hpc]) (by rw [hpc]; rfl) rfl
          ((h.good i).side p false (by rw [hpc]; rfl))
      case writeSleep p n rest =>
        obtain rfl := Option.some.inj ht
        exact h.goes_side (by simp [hpc]) (by rw [hpc]; rfl) rfl
          ((h.good i).side p true (by rw [hpc]; rfl))
      all_goals cases ht

theorem boot_pc (i : Slot) : (boot.procs i).pc = .user ∨ (boot.procs i).pc = .gone := by
  simp only [boot]
  split
  · exact .inl rfl
  · exact .inr rfl

theorem inv_boot : Inv boot := by
  refine ⟨?_, ?_, ?_, ⟨?_, ?_⟩, rfl⟩
  · intro r
    have hnone : ∀ x, (boot.holds x).count r = 0 := by
      rintro (d | i | f)
      · rfl
      · show ((boot.procs i).pc.held).count r = 0
        rcases boot_pc i with h | h <;> rw [h] <;> rfl
      · rfl
    have huses : uses boot.holds r = 0 := Finset.sum_eq_zero fun x _ => hnone x
    have howed : boot.owed r = 0 := by cases r <;> rfl
    rw [Sys.gap, huses, howed]
    rfl
  · intro f
    exact ⟨fun _ => rfl, by simp [boot]⟩
  · intro i
    refine ⟨by simp [boot], ?_, ?_, fun _ _ => rfl⟩
    · intro f hf
      rcases boot_pc i with h | h <;> rw [h] at hf <;> cases hf
    · intro p w hside
      rcases boot_pc i with h | h <;> rw [h] at hside <;> cases hside
  · intro i np todo hi
    rcases boot_pc i with h | h <;> cases h.symm.trans hi
  · intro i j np todo todo' hi _
    rcases boot_pc i with h | h <;> cases h.symm.trans hi

theorem inv_run (es : List Event) : AllStates Sys.step Inv boot es :=
  allStates_of_step (fun _ _ _ h ht => h.step ht) inv_boot

/-! ## What follows for a run -/

/-- There is no panic of `file.c`, no pipe is used after `kfree`, and `ref` of a file is the
number of descriptors that name it, together with the processes that have it in their
hands. -/
theorem refs_run (es : List Event) : AllStates Sys.step (fun s => s.fault = none ∧
    ∀ f, (s.ftable f).ref = uses s.holds (.ref f)) boot es :=
  (inv_run es).mono fun _ h => ⟨h.fault, fun f => (h.uses_eq (.ref f)).symm⟩

/-- Some file is an end of the pipe `p`, or some process is closing it. -/
inductive Sys.InUse (s : Sys) (p : Page) : Prop where
  | file (f : FileIx) (w : Bool) (h : (s.ftable f).IsSide p w)
  | pipeclose (i : Slot) (w : Bool) (fs : List FileIx) (ex : Bool)
      (h : (s.procs i).pc = .pipeclose p w fs ex)
  | kfree (i : Slot) (fs : List FileIx) (ex : Bool) (h : (s.procs i).pc = .kfree p fs ex)

theorem file_side_held (h : (s.ftable f).IsSide p w) : Res.side p w ∈ s.holds (.inr (.inr f)) := by
  rw [Sys.holds, File.held, if_pos h.type, h.pipe, h.writable]
  exact List.mem_singleton_self _

/-- An end or the page of a pipe is with a file or with a process that closes it. -/
theorem held_inUse {x : Holder} (hr : r = .page p ∨ ∃ w, r = .side p w) (hx : r ∈ s.holds x) :
    s.InUse p := by
  have hno : ∀ fs : List FileIx, r ∉ fs.map .ref := by
    intro fs hmem
    obtain ⟨f, -, rfl⟩ := List.mem_map.mp hmem
    rcases hr with hr | ⟨w, hr⟩ <;> cases hr
  rcases x with ⟨i, fd⟩ | i | f
  · exact absurd hx (hno _)
  · have hpc : r ∈ (s.procs i).pc.held := hx
    cases hp : (s.procs i).pc <;> rw [hp] at hpc
    case pipeclose q w fs ex =>
      rcases List.mem_cons.mp hpc with rfl | hmem
      · rcases hr with hr | ⟨w', hr⟩
        · cases hr
        · obtain ⟨rfl, rfl⟩ := Res.side.inj hr
          exact .pipeclose i w fs ex hp
      · exact absurd hmem (hno fs)
    case kfree q fs ex =>
      rcases List.mem_cons.mp hpc with rfl | hmem
      · rcases hr with hr | ⟨w', hr⟩
        · obtain rfl := Res.page.inj hr
          exact .kfree i fs ex hp
        · cases hr
      · exact absurd hmem (hno fs)
    case closing f fs ex => exact absurd hpc (hno (f :: fs))
    case pipe1 f0 => exact absurd hpc (hno [f0])
    case pipe2 f0 f1 => exact absurd hpc (hno [f0, f1])
    all_goals cases hpc
  · have hfile : r ∈ (s.ftable f).held := hx
    rw [File.held] at hfile
    split at hfile
    · rename_i htype
      obtain rfl := List.mem_singleton.mp hfile
      rcases hr with hr | ⟨w, hr⟩
      · cases hr
      · obtain ⟨hp, -⟩ := Res.side.inj hr
        exact .file f (s.ftable f).writable ⟨htype, hp, rfl⟩
    · cases hfile

/-- There is always something of a pipe to hold. -/
theorem exists_part (p : Page) (x : Pipe) :
    ∃ r ∈ parts p (some x), r = .page p ∨ ∃ w, r = .side p w := by
  obtain ⟨data, nread, nwrite, readopen, writeopen⟩ := x
  cases writeopen with
  | true => exact ⟨.side p true, by simp [parts], .inr ⟨true, rfl⟩⟩
  | false =>
      cases readopen with
      | true => exact ⟨.side p false, by simp [parts], .inr ⟨false, rfl⟩⟩
      | false => exact ⟨.page p, by simp [parts], .inl rfl⟩

theorem owed_parts (hr : r = .page p ∨ ∃ w, r = .side p w) :
    s.owed r = (parts p (s.pipes p)).count r := by
  rcases hr with rfl | ⟨w, rfl⟩ <;> rfl

theorem Inv.page_iff (h : Inv s) (p : Page) : s.pipes p ≠ none ↔ s.InUse p := by
  constructor
  · intro hp
    obtain ⟨x, hx⟩ := Option.ne_none_iff_exists'.mp hp
    obtain ⟨r, hmem, hr⟩ := exists_part p x
    have hpos : 0 < uses s.holds r := by
      rw [h.uses_eq, owed_parts hr, hx]
      exact List.count_pos_iff.mpr hmem
    obtain ⟨y, hy⟩ := exists_of_uses_pos hpos
    exact held_inUse hr hy
  · have hheld : ∀ {r x}, (r = .page p ∨ ∃ w, r = .side p w) → r ∈ s.holds x →
        s.pipes p ≠ none := by
      intro r x hr hx hnone
      have hle := (one_le_count hx).trans (count_le_uses s.holds x r)
      rw [h.uses_eq, owed_parts hr, hnone] at hle
      exact absurd hle (Nat.not_succ_le_zero 0)
    intro huse
    cases huse with
    | file f w hf => exact hheld (.inr ⟨w, rfl⟩) (file_side_held hf)
    | pipeclose i w fs ex hi =>
        refine hheld (x := .inr (.inl i)) (.inr ⟨w, rfl⟩) ?_
        rw [Sys.holds, hi]
        exact List.mem_cons_self
    | kfree i fs ex hi =>
        refine hheld (x := .inr (.inl i)) (.inl rfl) ?_
        rw [Sys.holds, hi]
        exact List.mem_cons_self

/-- An end of a pipe is not given out twice. -/
theorem Inv.side_once (h : Inv s) (p : Page) (w : Bool) : uses s.holds (.side p w) ≤ 1 := by
  rw [h.uses_eq, Sys.owed]
  cases hp : s.pipes p with
  | none => exact Nat.zero_le 1
  | some x =>
      obtain ⟨data, nread, nwrite, readopen, writeopen⟩ := x
      cases readopen <;> cases writeopen <;> cases w <;> simp [parts]

/-- The page of a pipe is allocated as long as a file is one of its ends or a process is
closing it, and no longer; and no two files are the same end of it. -/
theorem page_run (es : List Event) : AllStates Sys.step (fun s => ∀ p,
    (s.pipes p ≠ none ↔ s.InUse p) ∧
      ∀ f g w, (s.ftable f).IsSide p w → (s.ftable g).IsSide p w → f = g) boot es := by
  refine (inv_run es).mono ?_
  intro s h p
  refine ⟨h.page_iff p, ?_⟩
  intro f g w hf hg
  have hfg := holder_unique (h.side_once p w) (file_side_held hf) (file_side_held hg)
  exact Sum.inr.inj (Sum.inr.inj hfg)

end Cs537.Files
