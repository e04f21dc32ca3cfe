/-
# `Cs537.Files.Table` — the table of open files

`filealloc`, `fileclose` and `filedup`, and the calls that make files: each keeps the
invariant.  A file changes in three ways only.  It may get or lose a reference, and
whoever relies on it does not see that; it may be free, and then nobody relies on it;
or it may be in the hands of one process alone.
-/
import Cs537.Files.Inv

namespace Cs537.Files

open Cs537.Lib

variable {s t : Sys} {i j np : Slot} {fd : Fd} {f f0 f1 : FileIx} {fs : List FileIx} {p : Page}
  {w ex : Bool} {r : Res} {pc : Pc} {v : Int} {todo : List Fd}

/-! ## `filealloc` -/

theorem filealloc_free (h : s.filealloc = some f) : (s.ftable f).ref = 0 := by
  have hfind := List.find?_some h
  exact of_decide_eq_true hfind

theorem fdalloc_free {ofile : Fd → Option FileIx} (h : fdalloc ofile = some fd) :
    ofile fd = none := by
  have hfind := List.find?_some h
  exact of_decide_eq_true hfind

/-- A file without references may change as it likes. -/
theorem Inv.frame_free {x : File} (h : Inv s) (hf : (s.ftable f).ref = 0)
    (hftable : t.ftable = Function.update s.ftable f x) : Frame s t j := by
  refine .of_update hftable (fun fd hfd => ?_) fun hfresh => ?_
  · exact absurd ((h.files f).free hf) ((h.good j).named fd f hfd)
  · have href := ((h.good j).fresh f hfresh).2
    omega

theorem Inv.sound_set {x : File} (h : Inv s) (hx : x.Sound) (g : FileIx) :
    (Function.update s.ftable f x g).Sound := by
  by_cases hg : g = f
  · subst hg
    rwa [Function.update_self]
  · rw [Function.update_of_ne hg]
    exact h.files g

theorem held_none {x : File} (h : x.type = .none) : x.held = [] := by
  rw [File.held, if_neg (by simp [h])]

/-- `filealloc` in `pipealloc`. -/
theorem Inv.filealloc (h : Inv s) (hf : s.filealloc = some f) (hi : (s.procs i).pc ≠ .embryo)
    (hheld : pc.held = (s.procs i).pc.held ++ [.ref f])
    (hfresh : pc.fresh = (s.procs i).pc.fresh ++ [f]) :
    Inv ((s.setFile f { s.ftable f with ref := 1 }).setPc i pc) := by
  have hfree := filealloc_free hf
  have hnone := (h.files f).free hfree
  have hpc : pc.side = none ∧ pc ≠ .gone ∧ ∀ np todo, pc ≠ .fork np todo := by
    cases pc <;> simp [Pc.side, Pc.fresh] at hfresh ⊢
  obtain ⟨hside, hgone, hfork⟩ := hpc
  refine h.step_of rfl hi hfork ?_ ?_ ?_ ?_ rfl
  · intro r
    rw [gap_setPc, gap_setFile, hheld, List.count_append, held_none hnone, hfree, h.gap r]
    rw [held_none (x := { s.ftable f with ref := 1 }) hnone]
    simp
  · exact h.sound_set ⟨by simp, fun hp => by cases hnone.symm.trans hp⟩
  · exact fun j _ => h.frame_free hfree rfl
  · have hproc : ((s.setFile f { s.ftable f with ref := 1 }).setPc i pc).procs i
        = { s.procs i with pc := pc } := Function.update_self ..
    have hframe : Frame s ((s.setFile f { s.ftable f with ref := 1 }).setPc i pc) i :=
      h.frame_free hfree rfl
    refine ⟨?_, ?_, ?_, ?_⟩
    · intro fd g hfd
      rw [hproc] at hfd
      obtain ⟨r, hr⟩ := hframe.named fd g hfd
      rw [hr]
      exact (h.good i).named fd g hfd
    · intro g hg
      rw [hproc] at hg
      rw [hfresh] at hg
      rcases List.mem_append.mp hg with hold | hnew
      · rw [hframe.fresh g hold]
        exact (h.good i).fresh g hold
      · obtain rfl := List.mem_singleton.mp hnew
        simpa [Sys.setPc] using hnone
    · intro p w hq
      rw [hproc] at hq
      cases hside.symm.trans hq
    · intro hg
      rw [hproc] at hg
      exact absurd hg hgone

/-! ## `sys_open` -/

theorem Inv.openFile {omode : BitVec 32} (h : Inv s) (hf : s.filealloc = some f)
    (hi : (s.procs i).pc = .user) : Inv (s.openFile i f omode) := by
  have hfree := filealloc_free hf
  have hnone := (h.files f).free hfree
  have hembryo : (s.procs i).pc ≠ .embryo := by simp [hi]
  have hheld : (s.procs i).pc.held = [] := by rw [hi]; rfl
  rw [Sys.openFile]
  split
  · refine h.step_of rfl hembryo (by simp) ?_ ?_ ?_ ?_ rfl
    · intro r
      rw [gap_ret, gap_setFile, setFile_procs, hheld, held_none hnone, hfree, h.gap r]
      rw [held_none (x := { s.ftable f with ref := 1 }) hnone]
      simp [Pc.held]
    · exact h.sound_set ⟨by simp, fun hp => by cases hnone.symm.trans hp⟩
    · exact fun j _ => h.frame_free hfree rfl
    · exact h.good_goes (by simp [Sys.ret, Pc.Plain]) (by simp [Sys.ret]) (h.frame_free hfree rfl)
  · rename_i fd hfd
    have hslot := fdalloc_free hfd
    have hprocs := setOfile_ret_procs (s := s) i fd (some f) (fd.val : Nat) .user
    refine h.step_of hprocs hembryo (by simp) ?_ ?_ ?_ ?_ rfl
    · intro r
      rw [gap_ret, gap_setOfile, gap_setFile, setOfile_pc, setFile_procs, hheld, hslot, hfree,
        held_none hnone, h.gap r]
      simp [File.held, Pc.held]
    · exact h.sound_set ⟨by simp, by simp⟩
    · exact fun j _ => h.frame_free hfree rfl
    · refine good_plain (by simp [Sys.ret, Pc.Plain]) ?_
      intro fd' g hfd'
      by_cases hg : g = f
      · subst hg
        simp [Sys.ret, Sys.setOfile]
      · have hold : (s.procs i).ofile fd' = some g := by
          by_cases hne : fd' = fd
          · subst hne
            simp [Sys.ret, Sys.setOfile, Ne.symm hg] at hfd'
          · simpa [Sys.ret, Sys.setOfile, hne] using hfd'
        simpa [Sys.ret, Sys.setOfile, hg] using (h.good i).named fd' g hold

/-! ## `fileclose` -/

theorem count_closing :
    (Pc.closing f fs ex).held.count r = [Res.ref f].count r + (fs.map Res.ref).count r := by
  rw [← List.count_append]
  rfl

theorem Inv.fileclose (h : Inv s) (hi : (s.procs i).pc = .closing f fs ex) :
    Inv (s.fileclose i f fs ex) := by
  have hembryo : (s.procs i).pc ≠ .embryo := by simp [hi]
  have hhand : Res.ref f ∈ (s.procs i).pc.held := by
    rw [hi]
    exact List.mem_cons_self
  have hmem : Res.ref f ∈ s.holds (.inr (.inl i)) := hhand
  have href := h.ref_pos hmem
  have hfresh : ∀ j, f ∉ (s.procs j).pc.fresh := by
    intro j
    by_cases hij : j = i
    · subst hij
      rw [hi]
      exact List.not_mem_nil
    · exact h.not_fresh hmem (by simpa using Ne.symm hij)
  have hplain := plain_next fs ex
  rw [Sys.fileclose, if_neg (by omega)]
  split
  · rename_i hpos
    have hframe : ∀ (t : Sys) j, t.ftable = Function.update s.ftable f
        { s.ftable f with ref := (s.ftable f).ref - 1 } → Frame s t j := fun t j ht =>
      .of_update ht (fun _ _ => ⟨_, rfl⟩) (hfresh j)
    refine h.step_of rfl hembryo hplain.not_fork ?_ ?_ (fun j _ => hframe _ j rfl) ?_ rfl
    · intro r
      have hheld : File.held { s.ftable f with ref := (s.ftable f).ref - 1 }
        = (s.ftable f).held := rfl
      have hsub : (((s.ftable f).ref - 1 : Nat) : Int) - (s.ftable f).ref = -1 := by omega
      rw [gap_setPc, gap_setFile, setFile_procs, hi, held_next, count_closing, hheld, h.gap r]
      rw [hsub]
      omega
    · exact h.sound_set ⟨fun h0 => absurd h0 hpos.ne', (h.files f).pipe⟩
    · exact h.good_goes (by simpa [Sys.setPc] using hplain) (by simp [Sys.setPc]) (hframe _ i rfl)
  · rename_i hlast
    have hone : (s.ftable f).ref = 1 := by omega
    have hplain : (if (s.ftable f).type = .pipe then
        Pc.pipeclose (s.ftable f).pipe (s.ftable f).writable fs ex else .next fs ex).Plain := by
      split
      · trivial
      · exact hplain
    have hframe : ∀ (t : Sys) j, t.ftable = Function.update s.ftable f
        { s.ftable f with ref := 0, type := .none } → Frame s t j := fun t j ht =>
      .of_update ht (fun fd hfd => absurd hfd (h.no_descriptor hhand hone.le)) (hfresh j)
    have hpc : ∀ r, (if (s.ftable f).type = .pipe then
        Pc.pipeclose (s.ftable f).pipe (s.ftable f).writable fs ex else .next fs ex).held.count r
          = (s.ftable f).held.count r + (fs.map Res.ref).count r := by
      intro r
      rw [File.held]
      split
      · rw [← List.count_append]
        rfl
      · rw [held_next, List.count_nil, Nat.zero_add]
    refine h.step_of rfl hembryo hplain.not_fork ?_ ?_ (fun j _ => hframe _ j rfl) ?_ rfl
    · intro r
      rw [gap_setPc, gap_setFile, setFile_procs, hi, hpc, count_closing, hone, h.gap r]
      rw [held_none (x := { s.ftable f with ref := 0, type := .none }) rfl, List.count_nil]
      dsimp only
      omega
    · exact h.sound_set ⟨fun _ => rfl, by simp⟩
    · exact h.good_goes (by simpa [Sys.setPc] using hplain) (by simp [Sys.setPc]) (hframe _ i rfl)

/-! ## `filedup`, and moving a file to a descriptor or from it -/

theorem Inv.filedup (h : Inv s) (hf : (s.procs i).ofile fd = some f) {fd' : Fd}
    (hj : (s.procs j).pc ≠ .gone) (hslot : (s.procs j).ofile fd' = none)
    (hforks : ∀ k np todo, (s.procs k).pc = .fork np todo → np = j → fd' ∉ todo) :
    Inv (s.filedup j fd' f) := by
  have hmem := descriptor_held hf
  have href := h.ref_pos hmem
  have hfresh : ∀ k, f ∉ (s.procs k).pc.fresh := fun k => h.not_fresh hmem (by simp)
  have hframe : ∀ (t : Sys) k, t.ftable = Function.update s.ftable f
      { s.ftable f with ref := (s.ftable f).ref + 1 } → Frame s t k := fun t k ht =>
    .of_update ht (fun _ _ => ⟨_, rfl⟩) (hfresh k)
  rw [Sys.filedup, if_neg (by omega)]
  refine ⟨?_, ?_, ?_, ?_, h.fault⟩
  · intro r
    have hheld : File.held { s.ftable f with ref := (s.ftable f).ref + 1 }
      = (s.ftable f).held := rfl
    rw [gap_setOfile, gap_setFile, setFile_procs, hheld, hslot, h.gap r]
    simp only [Option.toList, List.map_cons, List.map_nil, List.count_nil]
    omega
  · exact h.sound_set ⟨by simp, (h.files f).pipe⟩
  · intro k
    have hk := hframe (Sys.setOfile (s.setFile f { s.ftable f with
      ref := (s.ftable f).ref + 1 }) j fd' (some f)) k rfl
    refine ⟨?_, ?_, ?_, ?_⟩
    · intro fd₁ g hg
      rw [setOfile_ofile] at hg
      split at hg
      · obtain rfl := Option.some.inj hg
        simpa using (h.good i).named fd f hf
      · obtain ⟨r, hr⟩ := hk.named fd₁ g hg
        rw [hr]
        exact (h.good k).named fd₁ g hg
    · intro g hg
      rw [setOfile_pc] at hg
      rw [hk.fresh g hg]
      exact (h.good k).fresh g hg
    · intro p w hside
      rw [setOfile_pc] at hside
      obtain ⟨fd₁, g, hg, hs⟩ := (h.good k).side p w hside
      obtain ⟨r, hr⟩ := hk.named fd₁ g hg
      refine ⟨fd₁, g, ?_, ?_⟩
      · rw [setOfile_ofile, if_neg]
        · exact hg
        · rintro ⟨rfl, rfl⟩
          cases hslot.symm.trans hg
      · rw [hr]
        exact ⟨hs.type, hs.pipe, hs.writable⟩
    · intro hgone fd₁
      rw [setOfile_pc] at hgone
      rw [setOfile_ofile, if_neg]
      · exact (h.good k).gone hgone fd₁
      · rintro ⟨rfl, -⟩
        exact hj hgone
  · constructor
    · intro k np todo hk
      rw [setOfile_pc] at hk
      obtain ⟨hembryo, hnodup, hnone⟩ := h.forks.child k np todo hk
      refine ⟨(setOfile_pc ..).trans hembryo, hnodup, ?_⟩
      intro fd₁ hfd₁
      rw [setOfile_ofile, if_neg]
      · exact hnone fd₁ hfd₁
      · rintro ⟨rfl, rfl⟩
        exact hforks k np todo hk rfl hfd₁
    · intro k l np todo todo' hk hl
      rw [setOfile_pc] at hk hl
      exact h.forks.apart k l np todo todo' hk hl

theorem Inv.drop {x : Proc} (h : Inv s) (hi : (s.procs i).pc ≠ .embryo)
    (hheld : (s.procs i).pc.held = []) (hf : (s.procs i).ofile fd = some f)
    (hx : x.ofile = ((s.setOfile i fd none).procs i).ofile) (hpc : x.pc = .closing f [] ex) :
    Inv ((s.setOfile i fd none).setProc i x) := by
  have hprocs : ((s.setOfile i fd none).setProc i x).procs = Function.update s.procs i x := by
    simp [Sys.setOfile]
  have hplain : x.pc.Plain := by
    rw [hpc]
    trivial
  refine h.step_of hprocs hi hplain.not_fork ?_ h.files (fun j _ => .of_eq rfl) ?_ rfl
  · intro r
    rw [gap_setProc hx, gap_setOfile, setOfile_pc, hheld, hf, hpc, count_closing, h.gap r]
    simp only [Option.toList, List.map_cons, List.map_nil, List.count_nil]
    omega
  · refine good_plain (by simpa using hplain) ?_
    intro fd' g hg
    rw [setProc_procs, Function.update_self, hx, setOfile_ofile] at hg
    split at hg
    · cases hg
    · exact (h.good i).named fd' g hg

/-! ## `sys_pipe` -/

variable {data : Int → UInt8} {g : FileIx}

theorem pipealloc_other (h0 : g ≠ f0) (h1 : g ≠ f1) :
    (s.pipealloc f0 f1 p data).ftable g = s.ftable g := by
  simp [Sys.pipealloc, h0, h1]

theorem pipealloc_mem (s : Sys) (p : Page) (data : Int → UInt8) (hg : g ∈ [f0, f1]) :
    ∃ w, (s.pipealloc f0 f1 p data).ftable g = ⟨.pipe, (s.ftable g).ref, !w, w, p⟩ := by
  by_cases hg1 : g = f1
  · exact ⟨true, by simp [Sys.pipealloc, hg1]⟩
  · obtain rfl : g = f0 := by simpa [hg1] using hg
    exact ⟨false, by simp [Sys.pipealloc, hg1]⟩

/-- The two files that `pipealloc` has. -/
theorem Inv.fresh_pair (h : Inv s) (hi : (s.procs i).pc = .pipe2 f0 f1) :
    (∀ g ∈ [f0, f1], (s.ftable g).type = .none ∧ (s.ftable g).ref = 1) ∧ f1 ≠ f0 := by
  have hfresh := (h.good i).fresh
  rw [hi] at hfresh
  refine ⟨hfresh, ?_⟩
  rintro rfl
  have hle := count_le_uses s.holds (.inr (.inl i)) (.ref f1)
  rw [h.uses_eq, Sys.holds, hi, Sys.owed, (hfresh f1 List.mem_cons_self).2] at hle
  simp [Pc.held] at hle

theorem Inv.gap_pipealloc (h : Inv s) (hi : (s.procs i).pc = .pipe2 f0 f1) (hp : s.pipes p = none)
    (r : Res) : (s.pipealloc f0 f1 p data).gap r = 0 := by
  obtain ⟨hfresh, hne⟩ := h.fresh_pair hi
  have hnone0 := held_none (hfresh f0 (by simp)).1
  have hnone1 := held_none (hfresh f1 (by simp)).1
  rw [Sys.pipealloc, gap_setFile, gap_setFile, gap_setPipe, h.gap r, hp, setFile_ftable,
    setPipe_ftable, Function.update_of_ne hne, hnone0, hnone1]
  simp [parts, Pipe.fresh, File.held, List.count_cons]

theorem Inv.sound_pipealloc (h : Inv s) (hi : (s.procs i).pc = .pipe2 f0 f1) (g : FileIx) :
    ((s.pipealloc f0 f1 p data).ftable g).Sound := by
  by_cases hg : g ∈ [f0, f1]
  · obtain ⟨w, hw⟩ := pipealloc_mem s p data hg
    have href := ((h.fresh_pair hi).1 g hg).2
    rw [hw]
    exact ⟨fun h0 => (by cases href.symm.trans h0), fun _ => rfl⟩
  · simp only [List.mem_cons, List.not_mem_nil, or_false, not_or] at hg
    rw [pipealloc_other hg.1 hg.2]
    exact h.files g

theorem Inv.frame_pipealloc (h : Inv s) (hi : (s.procs i).pc = .pipe2 f0 f1) (hj : j ≠ i)
    (ht : t.ftable = (s.pipealloc f0 f1 p data).ftable) : Frame s t j := by
  have hfresh := (h.fresh_pair hi).1
  have hhand : ∀ g ∈ [f0, f1], Res.ref g ∈ s.holds (.inr (.inl i)) := by
    intro g hg
    rw [Sys.holds, hi]
    exact List.mem_map_of_mem (f := Res.ref) hg
  have hsame : ∀ g, g ∉ [f0, f1] → t.ftable g = s.ftable g := by
    intro g hg
    simp only [List.mem_cons, List.not_mem_nil, or_false, not_or] at hg
    rw [ht, pipealloc_other hg.1 hg.2]
  constructor
  · intro fd g hg
    refine ⟨(s.ftable g).ref, ?_⟩
    rw [hsame g fun hmem => (h.good j).named fd g hg (hfresh g hmem).1]
  · intro g hg
    exact hsame g fun hmem => h.not_fresh (hhand g hmem) (by simpa using Ne.symm hj) hg

theorem Inv.pipe (h : Inv s) (hi : (s.procs i).pc = .pipe2 f0 f1) (hp : s.pipes p = none) :
    Inv ((s.pipealloc f0 f1 p data).pipe i f0 f1) := by
  have hembryo : (s.procs i).pc ≠ .embryo := by simp [hi]
  have hnamed : ∀ g, g ∈ [f0, f1] ∨ (∃ fd, (s.procs i).ofile fd = some g) →
      ((s.pipealloc f0 f1 p data).ftable g).type ≠ .none := by
    intro g hg
    by_cases hmem : g ∈ [f0, f1]
    · obtain ⟨w, hw⟩ := pipealloc_mem s p data hmem
      rw [hw]
      simp
    · obtain ⟨fd, hfd⟩ := hg.resolve_left hmem
      simp only [List.mem_cons, List.not_mem_nil, or_false, not_or] at hmem
      rw [pipealloc_other hmem.1 hmem.2]
      exact (h.good i).named fd g hfd
  have hclose : Inv ((s.pipealloc f0 f1 p data).ret i (-1) (.closing f0 [f1] false)) := by
    refine h.step_of rfl hembryo (by simp) ?_ (h.sound_pipealloc hi)
      (fun j hj => h.frame_pipealloc hi hj rfl) ?_ rfl
    · intro r
      have hold : ((s.pipealloc f0 f1 p data).procs i).pc = (s.procs i).pc := rfl
      rw [gap_ret, h.gap_pipealloc hi hp, hold, hi]
      exact Int.sub_eq_zero.mpr (Int.zero_add _)
    · refine good_plain (by simp [Sys.ret, Pc.Plain]) ?_
      intro fd g hg
      rw [Sys.ret, setProc_procs, Function.update_self] at hg
      exact hnamed g (.inr ⟨fd, hg⟩)
  rw [Sys.pipe]
  split
  · exact hclose
  · rename_i fd0 hfd0
    split
    · exact hclose
    · rename_i fd1 hfd1
      have hslot0 : (s.procs i).ofile fd0 = none := fdalloc_free hfd0
      have hslot1 : (((s.pipealloc f0 f1 p data).setOfile i fd0 (some f0)).procs i).ofile fd1
          = none := by
        simpa [Sys.setOfile] using fdalloc_free hfd1
      have hprocs : ((((s.pipealloc f0 f1 p data).setOfile i fd0 (some f0)).setOfile i fd1
          (some f1)).ret i 0).procs = Function.update s.procs i
            ⟨Function.update (Function.update (s.procs i).ofile fd0 (some f0)) fd1 (some f1),
              .user, 0, (s.procs i).buf⟩ := by
        rw [setOfile_ret_procs]
        simp [Sys.setOfile, Sys.pipealloc]
      refine h.step_of hprocs hembryo (by simp) ?_ (h.sound_pipealloc hi)
        (fun j hj => h.frame_pipealloc hi hj rfl) ?_ rfl
      · intro r
        have hold : ((s.pipealloc f0 f1 p data).procs i).ofile fd0 = none := hslot0
        have hpc : ((s.pipealloc f0 f1 p data).procs i).pc = .pipe2 f0 f1 := hi
        rw [gap_ret, gap_setOfile, gap_setOfile, setOfile_pc, setOfile_pc, hslot1, hold, hpc,
          h.gap_pipealloc hi hp]
        simp only [Pc.held, Option.toList, List.map_cons, List.map_nil, List.count_nil,
          List.count_cons]
        omega
      · refine good_plain ?_ ?_
        · rw [hprocs, Function.update_self]
          trivial
        · intro fd g hg
          rw [hprocs, Function.update_self] at hg
          dsimp only at hg
          refine hnamed g ?_
          by_cases he1 : fd = fd1
          · have hg1 : f1 = g := by simpa [he1] using hg
            exact .inl (by simp [hg1])
          · rw [Function.update_of_ne he1] at hg
            by_cases he0 : fd = fd0
            · have hg0 : f0 = g := by simpa [he0] using hg
              exact .inl (by simp [hg0])
            · rw [Function.update_of_ne he0] at hg
              exact .inr ⟨fd, hg⟩

end Cs537.Files
