/-
# `Cs537.Names.Steps` — walks, opens and links keep the invariant (p5/xv6)

A step of process `i` is a change of its record and of the references (`Inv.setProc`), and
in `sys_link` of one count or one entry.  A step that stops the kernel is not considered:
`iget` goes on (`iget_cases`).
-/
import Cs537.Names.Inv

namespace Cs537.Names

open Cs537.Lib

variable {s t u : Sys} {i j : Slot} {n m c d dp ip : Inum} {x y : Inode} {k : Nat} {name : Name}
  {f g : Inum → Inode} {p q : Proc} {pc : Pc} {goal : Goal} {path : List UInt8}
  {drops : List Inum} {next : Sys → Sys}

/-! ## Counting -/

/-- How often `[n]` has `m`. -/
def one (n m : Inum) : Nat := if n = m then 1 else 0

theorem count_cons (n m : Inum) (l : List Inum) : (n :: l).count m = one n m + l.count m := by
  rw [one]
  split
  · rename_i he
    rw [he, List.count_cons_self, Nat.add_comm]
  · rename_i hne
    rw [List.count_cons_of_ne hne, Nat.zero_add]

theorem one_self (n : Inum) : one n n = 1 := if_pos rfl

theorem setRef_ref (s : Sys) (n m : Inum) :
    (s.setRef n (s.ref n + 1)).ref m = s.ref m + one n m := by
  rw [one]
  split
  · rename_i he
    subst he
    exact Function.update_self ..
  · rename_i hne
    exact Function.update_of_ne (Ne.symm hne) ..

theorem held_count (p : Proc) (m : Inum) : p.held.count m =
    one p.cwd m + p.files.count m + p.drops.count m + p.pc.held.count m := by
  rw [Proc.held, List.cons_append, List.cons_append, count_cons, List.count_append,
    List.count_append]
  omega

theorem Goal.fail_held : goal.fail.held = goal.held := by cases goal <;> rfl

theorem Goal.fail_goal : goal.fail.goal = none := by cases goal <;> rfl

theorem Goal.fail_pending : goal.fail.pending = goal.held := by cases goal <;> rfl

/-! ## `iget` -/

theorem iget_cases (hok : (s.iget n next).fault = none) :
    s.iget n next = next (s.setRef n (s.ref n + 1)) := by
  unfold Sys.iget at hok ⊢
  split at hok
  · rename_i hif
    exact if_pos hif
  · cases hok

theorem namex_cases (hok : (s.namex i path goal drops).fault = none) :
    ∃ n, s.namex i path goal drops =
      (s.setRef n (s.ref n + 1)).leave i (.walk n path goal) drops := by
  unfold Sys.namex at hok ⊢
  split at hok
  · rename_i hif
    exact ⟨ROOTINO, by rw [if_pos hif, iget_cases hok]⟩
  · rename_i hif
    exact ⟨(s.procs i).cwd, by rw [if_neg hif]⟩

/-! ## Steps that change no inode -/

/-- Process `i` becomes `p`, and `u` has the references for it. -/
theorem Inv.setProc (h : Inv s) (hi : u.inodes = s.inodes) (hp : u.procs = s.procs)
    (hrefs : ∀ n, u.ref n + (s.procs i).held.count n = s.ref n + p.held.count n)
    (hpend : p.pc.pending = (s.procs i).pc.pending) (hmono : ∀ n, s.ref n ≤ u.ref n)
    (hgood : p.Good s.inodes) : Inv (u.setProc i p) := by
  refine h.of_proc (t := u.setProc i p) hi ?_ hrefs hpend ?_ hgood
  · show Function.update u.procs i p = _
    rw [hp]
  · intro n _ _ hpos
    exact hpos.trans_le (hmono n)

/-- It goes to `pc`, which is not the end of `nameiparent`. -/
theorem Inv.leave (h : Inv s) (hi : u.inodes = s.inodes) (hp : u.procs = s.procs)
    (hrefs : ∀ n, u.ref n + (s.procs i).drops.count n + (s.procs i).pc.held.count n =
      s.ref n + drops.count n + pc.held.count n)
    (hpend : pc.pending = (s.procs i).pc.pending) (hmono : ∀ n, s.ref n ≤ u.ref n)
    (hparent : ∀ ip name goal, pc = .found ip name goal → goal.parent = true →
      (s.inodes ip).type = .dir) (hkind : pc.Kind) : Inv (u.leave i pc drops) := by
  rw [Sys.leave, hp]
  refine h.setProc hi hp ?_ hpend hmono ⟨(h.good i).cwd, hparent, ?_, hkind⟩
  · intro n
    have hstep := hrefs n
    rw [held_count, held_count]
    dsimp only
    omega
  · intro n hn
    exact (h.good i).pending n (hpend ▸ hn)

/-- It is in the call `pc`, in which it has put all that it had to. -/
def Sys.At (s : Sys) (i : Slot) (pc : Pc) : Prop := (s.procs i).pc = pc ∧ (s.procs i).drops = []

theorem Inv.leave_at (h : Inv s) {pc' : Pc} (hat : s.At i pc)
    (hrefs : ∀ n, pc.held.count n = drops.count n + pc'.held.count n)
    (hpend : pc'.pending = pc.pending)
    (hparent : ∀ ip name goal, pc' = .found ip name goal → goal.parent = true →
      (s.inodes ip).type = .dir) (hkind : pc'.Kind) : Inv (s.leave i pc' drops) := by
  obtain ⟨hpc, hdrops⟩ := hat
  refine h.leave rfl rfl ?_ (hpc ▸ hpend) (fun _ => Nat.le_refl _) hparent hkind
  intro n
  have hstep := hrefs n
  rw [hpc, hdrops, List.count_nil]
  omega

theorem Inv.kind_at (h : Inv s) (hat : s.At i pc) : pc.Kind := hat.1 ▸ (h.good i).kind

/-- The same with one more reference. -/
theorem Inv.get_at (h : Inv s) {pc' : Pc} (hat : s.At i pc)
    (hrefs : ∀ m, one n m + pc.held.count m = drops.count m + pc'.held.count m)
    (hpend : pc'.pending = pc.pending)
    (hparent : ∀ ip name goal, pc' = .found ip name goal → goal.parent = true →
      (s.inodes ip).type = .dir) (hkind : pc'.Kind) :
    Inv ((s.setRef n (s.ref n + 1)).leave i pc' drops) := by
  obtain ⟨hpc, hdrops⟩ := hat
  refine h.leave rfl rfl ?_ (hpc ▸ hpend) ?_ hparent hkind
  · intro m
    have hstep := hrefs m
    rw [setRef_ref, hpc, hdrops, List.count_nil]
    omega
  · intro m
    rw [setRef_ref]
    exact Nat.le_add_right _ _

theorem Inv.namex (h : Inv s) (hat : s.At i .user) (hheld : goal.held = [])
    (htype : ∀ type full, goal = .create type full → type ≠ .free)
    (hok : (s.namex i path goal []).fault = none) : Inv (s.namex i path goal []) := by
  obtain ⟨n, hn⟩ := namex_cases hok
  rw [hn]
  refine h.get_at hat ?_ hheld (fun ip name goal he => by cases he) ?_
  · intro m
    simp only [Pc.held, hheld, count_cons, List.count_nil]
    omega
  · intro type full he
    exact htype type full (Option.some.inj he)

theorem Inv.fail_at (h : Inv s) (hat : s.At i pc) (hheld : pc.held = ip :: goal.held)
    (hpend : pc.pending = goal.held) : Inv (s.leave i goal.fail [ip]) := by
  refine h.leave_at hat ?_ (by rw [Goal.fail_pending, hpend]) ?_ (Pc.kind_of_none Goal.fail_goal)
  · intro m
    rw [hheld, Goal.fail_held, count_cons, count_cons, List.count_nil]
    omega
  · intro ip name goal' he
    cases goal <;> cases he

theorem Inv.walk (h : Inv s) (hat : s.At i (.walk ip path goal))
    (hok : (s.walk i ip path goal).fault = none) : Inv (s.walk i ip path goal) := by
  have hfail : Inv (s.leave i goal.fail [ip]) := h.fail_at hat rfl rfl
  have hkind := h.kind_at hat
  unfold Sys.walk at hok ⊢
  cases hskip : skipelem path with
  | none =>
      dsimp only
      split
      · exact hfail
      · rename_i hparent
        refine h.leave_at hat (fun m => (Nat.zero_add _).symm) rfl ?_
          (fun type full he => hkind type full he)
        intro ip' name' goal' he hgoal
        cases he
        exact absurd hgoal hparent
  | some r =>
      obtain ⟨name, path⟩ := r
      rw [hskip] at hok
      dsimp only at hok ⊢
      split at hok
      · cases hok
      · rename_i hfree
        rw [if_neg hfree]
        split at hok
        · rename_i htype
          rw [if_pos htype]
          exact hfail
        · rename_i htype
          rw [if_neg htype]
          have hdir := not_not.mp htype
          split at hok
          · rename_i hlast
            rw [if_pos hlast]
            refine h.leave_at hat (fun m => (Nat.zero_add _).symm) rfl ?_
              (fun type full he => hkind type full he)
            intro ip' name' goal' he _
            cases he
            exact hdir
          · rename_i hlast
            rw [if_neg hlast]
            cases hlook : dirlookup name (s.inodes ip).entries with
            | none => exact hfail
            | some r =>
                rw [hlook] at hok
                dsimp only at hok ⊢
                rw [iget_cases hok]
                refine h.get_at hat ?_ rfl (fun ip name goal he => by cases he)
                  (fun type full he => hkind type full he)
                intro m
                simp only [Pc.held, count_cons, List.count_nil]
                omega

/-! ## The ends of `sys_open` and `create` -/

/-- The process has `ip` in a file, or has to put it. -/
theorem created_cases (s : Sys) (i : Slot) (ip : Inum) (full : Option Bool) (drops : List Inum) :
    ∃ p, s.created i ip full drops = s.setProc i p ∧ p.pc = .user ∧
      p.cwd = (s.procs i).cwd ∧ ∀ m, p.files.count m + p.drops.count m =
        one ip m + (s.procs i).files.count m + drops.count m := by
  have hleave : ∃ p, s.leave i .user (drops ++ [ip]) = s.setProc i p ∧ p.pc = .user ∧
      p.cwd = (s.procs i).cwd ∧ ∀ m, p.files.count m + p.drops.count m =
        one ip m + (s.procs i).files.count m + drops.count m := by
    refine ⟨_, rfl, rfl, rfl, ?_⟩
    intro m
    simp only [List.count_append, count_cons, List.count_nil]
    omega
  cases full with
  | none => exact hleave
  | some full =>
      cases full with
      | true => exact hleave
      | false =>
          refine ⟨_, rfl, rfl, rfl, ?_⟩
          intro m
          simp only [count_cons]

theorem good_user (hcwd : (f p.cwd).type = .dir) (hpc : p.pc = .user) : p.Good f := by
  refine ⟨hcwd, fun ip name goal he => ?_, fun n hn => ?_, Pc.kind_of_none (by rw [hpc]; rfl)⟩
  · rw [hpc] at he
    cases he
  · rw [hpc] at hn
    cases hn

theorem Inv.created (h : Inv s) {full : Option Bool} (hat : s.At i pc) (hheld : pc.held = [ip])
    (hpend : pc.pending = []) : Inv (s.created i ip full []) := by
  obtain ⟨p, hp, huser, hcwd, hcount⟩ := created_cases s i ip full []
  obtain ⟨hpc, hdrops⟩ := hat
  rw [hp]
  refine h.setProc rfl rfl ?_ (by rw [huser, hpc, hpend]; rfl) (fun _ => Nat.le_refl _)
    (good_user (hcwd ▸ (h.good i).cwd) huser)
  intro m
  have hm := hcount m
  rw [held_count, held_count, huser, hcwd, hpc, hdrops, hheld]
  simp only [Pc.held, count_cons, List.count_nil] at hm ⊢
  omega

theorem Inv.present (h : Inv s) {type : FType} {full : Option Bool}
    (hat : s.At i (.present ip type full)) (hok : (s.present i ip type full).fault = none) :
    Inv (s.present i ip type full) := by
  unfold Sys.present at hok ⊢
  dsimp only at hok ⊢
  split at hok
  · cases hok
  · rename_i hfree
    rw [if_neg hfree]
    split
    · exact h.created hat rfl rfl
    · exact h.leave_at hat (fun m => rfl) rfl (fun ip name goal he => by cases he)
        (Pc.kind_of_none rfl)

theorem Inv.drop_at (h : Inv s) {goal : Goal} (hat : s.At i (.found ip name goal))
    (hheld : goal.held = []) : Inv (s.leave i .user [ip]) := by
  refine h.leave_at hat ?_ hheld.symm (fun ip name goal he => by cases he) (Pc.kind_of_none rfl)
  intro m
  simp only [Pc.held, hheld, count_cons, List.count_nil]

/-! ## One inode -/

theorem type_update (hx : x.type = (f n).type) (m : Inum) :
    (Function.update f n x m).type = (f m).type := by
  by_cases hm : m = n
  · rw [hm, Function.update_self, hx]
  · rw [Function.update_of_ne hm]

theorem setNlink_type (m : Inum) :
    (Function.update f n { f n with nlink := k } m).type = (f m).type :=
  type_update (x := { f n with nlink := k }) rfl m

/-- Only the count of `n` changes, which is no directory. -/
theorem Shape.setNlink (h : Shape f) (hdir : (f n).type ≠ .dir) (hfree : (f n).type ≠ .free) :
    Shape (Function.update f n { f n with nlink := k }) := by
  have htype : ∀ d, (Function.update f n { f n with nlink := k } d).type = (f d).type :=
    setNlink_type
  have hother : ∀ d, (f d).type = .dir → Function.update f n { f n with nlink := k } d = f d := by
    intro d hd
    refine Function.update_of_ne ?_ _ _
    rintro rfl
    exact hdir hd
  refine h.of_same ?_ (fun d hd => htype d ▸ hd) ?_ ?_ ?_ ?_ ?_ ?_
  · intro m hm
    rw [htype] at hm
    have hmn : m ≠ n := by
      rintro rfl
      exact hfree hm
    rw [Function.update_of_ne hmn]
    exact h.free m hm
  · intro d hd
    rw [htype] at hd
    obtain ⟨p, hp⟩ := h.dots d hd
    exact ⟨p, hp, by rw [hother d hd]; exact hp⟩
  · intro d hd
    rw [htype] at hd
    rw [hother d hd]
    exact h.distinct d hd
  · intro d hd
    rw [hother d hd]
  · intro d hd
    rw [htype]
    exact hd.1
  · intro d hd c _
    rw [htype] at hd
    rw [hother d hd]
  · intro d hd hzero
    rw [htype] at hd
    rw [hother d hd] at hzero ⊢
    exact h.removed d hd hzero

theorem links_nil (hdir : x.type ≠ .dir) : x.links = [] :=
  Inode.links_dead fun halive => hdir halive.1

theorem made_setNlink (hdir : (f n).type ≠ .dir) :
    made (Function.update f n { f n with nlink := k }) = made f := by
  funext d
  rw [made, made]
  by_cases hd : d = n
  · rw [hd, Function.update_self, links_nil hdir]
    exact links_nil hdir
  · rw [Function.update_of_ne hd]

theorem Proc.Good.of_type (h : p.Good f) (htype : ∀ m, (g m).type = (f m).type) : p.Good g :=
  h.congr (fun m _ hm => (htype m).trans hm) (fun m _ hm => htype m ▸ hm)

/-- The first step of `sys_link`: the link is counted. -/
theorem Inv.link (h : Inv s) {new : List UInt8} (hat : s.At i (.found ip name (.link new)))
    (hdir : (s.inodes ip).type ≠ .dir) (hfree : (s.inodes ip).type ≠ .free)
    (hok : ((s.setInode ip { s.inodes ip with nlink := (s.inodes ip).nlink + 1 }).namex i new
      (.linkTo ip) []).fault = none) :
    Inv ((s.setInode ip { s.inodes ip with nlink := (s.inodes ip).nlink + 1 }).namex i new
      (.linkTo ip) []) := by
  obtain ⟨n, hn⟩ := namex_cases hok
  obtain ⟨hpc, hdrops⟩ := hat
  rw [hn]
  refine h.of_step (i := i) rfl ?_ ?_ ?_ (h.shape.setNlink hdir hfree) ?_
    (fun j _ => (h.good j).of_type setNlink_type)
  · intro m
    rw [Sys.held, held_count, held_count, hpc, hdrops]
    show (s.setRef n (s.ref n + 1)).ref m + _ = s.ref m +
      (one (s.procs i).cwd m + (s.procs i).files.count m + _ + _)
    rw [setRef_ref]
    simp only [Pc.held, Goal.held, count_cons, List.count_nil]
    omega
  · intro m
    show (Function.update s.inodes ip _ m).nlink + _ + _ =
      _ + uses (made (Function.update s.inodes ip _)) m + _
    rw [made_setNlink hdir, Sys.pending, hpc]
    simp only [Pc.pending, Goal.held, count_cons, List.count_nil]
    by_cases hm : m = ip
    · rw [hm, Function.update_self, one_self]
      dsimp only
      omega
    · rw [Function.update_of_ne hm, one, if_neg (Ne.symm hm)]
  · intro m hm
    show 0 < (Function.update s.inodes ip _ m).nlink + (s.setRef n (s.ref n + 1)).ref m
    rw [setRef_ref]
    have hused := h.used m (setNlink_type m ▸ hm)
    by_cases hmip : m = ip
    · rw [hmip, Function.update_self]
      dsimp only
      omega
    · rw [Function.update_of_ne hmip]
      omega
  · refine ⟨?_, (fun ip name goal he => by cases he), ?_, fun type full he => by cases he⟩
    · show (Function.update s.inodes ip _ (s.procs i).cwd).type = .dir
      rw [setNlink_type]
      exact (h.good i).cwd
    · intro m hm
      obtain rfl := List.mem_singleton.mp hm
      show (Function.update s.inodes m _ m).type ≠ .dir
      rw [setNlink_type]
      exact hdir

/-- `bad` in `sys_link`: the link is not made. -/
theorem Inv.bad (h : Inv s) (hat : s.At i (.bad ip)) (hok : (s.bad i ip).fault = none) :
    Inv (s.bad i ip) := by
  obtain ⟨hpc, hdrops⟩ := hat
  have hmem : ip ∈ (s.procs i).pc.pending := by
    rw [hpc]
    exact List.mem_cons_self
  have hdir := (h.good i).pending ip hmem
  have hpos := h.pos_of_pending hmem
  unfold Sys.bad at hok ⊢
  dsimp only at hok ⊢
  split at hok
  · cases hok
  · rename_i hfree
    rw [if_neg hfree]
    refine h.of_step (i := i) rfl ?_ ?_ ?_ (h.shape.setNlink hdir hfree) ?_
      (fun j _ => (h.good j).of_type setNlink_type)
    · intro m
      rw [Sys.held, held_count, held_count, hpc, hdrops]
      show s.ref m + _ = s.ref m + (one (s.procs i).cwd m + (s.procs i).files.count m + _ + _)
      simp only [Pc.held, count_cons, List.count_nil]
      omega
    · intro m
      show (Function.update s.inodes ip _ m).nlink + _ + _ =
        _ + uses (made (Function.update s.inodes ip _)) m + _
      rw [made_setNlink hdir, Sys.pending, hpc]
      simp only [Pc.pending, count_cons, List.count_nil]
      by_cases hm : m = ip
      · rw [hm, Function.update_self, one_self]
        dsimp only
        omega
      · rw [Function.update_of_ne hm, one, if_neg (Ne.symm hm)]
    · intro m hm
      show 0 < (Function.update s.inodes ip _ m).nlink + s.ref m
      have hused := h.used m (setNlink_type m ▸ hm)
      by_cases hmip : m = ip
      · have hcount := count_le_uses s.held i m
        have hrefs := h.refs m
        rw [Sys.held, held_count, hpc, Pc.held, count_cons, hmip, one_self] at hcount
        rw [hmip] at hrefs ⊢
        omega
      · rw [Function.update_of_ne hmip]
        omega
    · refine good_user ?_ rfl
      show (Function.update s.inodes ip _ (s.procs i).cwd).type = .dir
      rw [setNlink_type]
      exact (h.good i).cwd

end Cs537.Names
