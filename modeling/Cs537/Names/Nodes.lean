/-
# `Cs537.Names.Nodes` — entries and inodes come and go (p5/xv6)

What `dirlink`, `create`, `sys_unlink` and `iput` do to the inodes of a disk with the
invariant:

    Inv.linked     an entry for a file that is there
    Inv.mknode     a new inode and its entry
    Inv.rmnode     an entry goes, and a link of its inode
    Inv.iput       a reference goes, and the inode if it was the last

An entry is made in a directory that is alive.  In one that has been removed it would count
for a link that nothing removes again.
-/
import Cs537.Names.Steps

namespace Cs537.Names

open Cs537.Lib

variable {s t u : Sys} {i j : Slot} {n m c d dp ip : Inum} {x y : Inode} {k : Nat} {name : Name}
  {f g : Inum → Inode} {p q : Proc} {pc : Pc} {up : Inum} {type : FType}

/-! ## Links of a directory -/

theorem made_update (f : Inum → Inode) (n : Inum) (x : Inode) :
    made (Function.update f n x) = Function.update (made f) n x.links := by
  funext d
  rw [made]
  by_cases hd : d = n
  · rw [hd, Function.update_self, Function.update_self]
  · rw [Function.update_of_ne hd, Function.update_of_ne hd]
    rfl

theorem links_dirlink (hx : x.Dotted d up) (halive : x.Alive) (hy : y.Alive)
    (he : y.entries = dirlink ⟨some n, name⟩ x.entries) (m : Inum) :
    y.links.count m = one n m + x.links.count m := by
  have hdot : y.Dotted d up := dotted_dirlink hx he
  have hkids : y.kids.count m = (n :: x.kids).count m := by
    rw [Inode.kids, he]
    exact (kids_dirlink hx).count_eq m
  rw [hdot.links_eq hy, hx.links_eq halive, count_cons, count_cons, hkids, count_cons]
  omega

theorem links_set (hx : x.Dotted d up) (halive : x.Alive) (hy : y.Alive)
    (hk : (x.entries.drop 2)[k]? = some ⟨some n, name⟩)
    (he : y.entries = x.entries.set (k + 2) ⟨none, []⟩) (m : Inum) :
    x.links.count m = one n m + y.links.count m := by
  have hdot : y.Dotted d up := dotted_set hx he
  have hkids : x.kids.count m = (n :: y.kids).count m := by
    rw [Inode.kids, Inode.kids, he]
    exact (kids_set hx hk).count_eq m
  rw [hdot.links_eq hy, hx.links_eq halive, count_cons, count_cons, hkids, count_cons]
  omega

/-! ## Files -/

/-- The entries for files in `dp` change, and the file `n`. -/
theorem Shape.file (h : Shape f) (hdp : (f dp).Alive) (hf : (f dp).Dotted dp up)
    (hdot : (g dp).Dotted dp up) (htype : (g dp).type = .dir)
    (hnlink : (g dp).nlink = (f dp).nlink) (hdistinct : Distinct (g dp).entries)
    (hkids : ∀ c, (f c).type = .dir → (g dp).kids.count c = (f dp).kids.count c)
    (hfn : (f n).type ≠ .dir) (hgn : (g n).type ≠ .dir)
    (hfree : (g n).type = .free → (g n).nlink = 0) (hg : ∀ d, d ≠ n → d ≠ dp → g d = f d) :
    Shape g := by
  have hdir : ∀ d, (g d).type = .dir → (f d).type = .dir := by
    intro d hd
    have hdn : d ≠ n := by
      rintro rfl
      exact hgn hd
    by_cases hddp : d = dp
    · exact hddp ▸ hdp.1
    · exact hg d hdn hddp ▸ hd
  have hother : ∀ d, (f d).type = .dir → d ≠ dp → g d = f d := by
    intro d hd hddp
    refine hg d ?_ hddp
    rintro rfl
    exact hfn hd
  refine h.of_same ?_ hdir ?_ ?_ ?_ ?_ ?_ ?_
  · intro m hm
    by_cases hmn : m = n
    · rw [hmn] at hm ⊢
      exact hfree hm
    · by_cases hmdp : m = dp
      · rw [hmdp, htype] at hm
        cases hm
      · rw [hg m hmn hmdp] at hm ⊢
        exact h.free m hm
  · intro d hd
    by_cases hddp : d = dp
    · exact ⟨up, hddp ▸ hf, hddp ▸ hdot⟩
    · obtain ⟨p, hp⟩ := h.dots d (hdir d hd)
      exact ⟨p, hp, by rw [hother d (hdir d hd) hddp]; exact hp⟩
  · intro d hd
    by_cases hddp : d = dp
    · exact hddp ▸ hdistinct
    · rw [hother d (hdir d hd) hddp]
      exact h.distinct d (hdir d hd)
  · intro d hd
    by_cases hddp : d = dp
    · rw [hddp, hnlink]
    · rw [hother d hd hddp]
  · intro d hd
    by_cases hddp : d = dp
    · exact hddp ▸ htype
    · rw [hother d hd.1 hddp]
      exact hd.1
  · intro d hd c hc
    by_cases hddp : d = dp
    · rw [hddp]
      exact hkids c (hdir c hc)
    · rw [hother d (hdir d hd) hddp]
  · intro d hd hzero
    by_cases hddp : d = dp
    · rw [hddp, hnlink] at hzero
      exact absurd hzero hdp.2.ne'
    · rw [hother d (hdir d hd) hddp] at hzero ⊢
      exact h.removed d (hdir d hd) hzero

theorem count_kids_file (hx : x.Dotted d up) (he : y.entries = dirlink ⟨some n, name⟩ x.entries)
    (hc : c ≠ n) : y.kids.count c = x.kids.count c := by
  rw [Inode.kids, he, (kids_dirlink hx).count_eq c, List.count_cons_of_ne (Ne.symm hc)]

/-- An entry for the file `n` in `dp`. -/
theorem Shape.link (h : Shape f) (hdp : (f dp).Alive) (hn : (f n).type ≠ .dir)
    (hnone : dirlookup name (f dp).entries = none) :
    Shape (Function.update f dp
      { f dp with entries := dirlink ⟨some n, name⟩ (f dp).entries }) := by
  have hne : n ≠ dp := by
    rintro rfl
    exact hn hdp.1
  obtain ⟨up, hup⟩ := h.dots dp hdp.1
  refine h.file hdp hup (n := n) ?_ ?_ ?_ ?_ ?_ hn ?_ ?_ ?_
  · rw [Function.update_self]
    exact dotted_dirlink hup rfl
  · rw [Function.update_self]
    exact hdp.1
  · rw [Function.update_self]
  · rw [Function.update_self]
    exact distinct_dirlink (h.distinct dp hdp.1) hnone
  · intro c hc
    rw [Function.update_self]
    refine count_kids_file hup rfl ?_
    rintro rfl
    exact hn hc
  · rw [Function.update_of_ne hne]
    exact hn
  · rw [Function.update_of_ne hne]
    exact h.free n
  · intro d _ hd
    exact Function.update_of_ne hd _ _

/-- `sys_link` makes the entry that it has counted. -/
theorem Inv.linked (h : Inv s) {old : Inum} (hat : s.At i (.found dp name (.linkTo old)))
    (hdp : (s.inodes dp).Alive) (hnone : dirlookup name (s.inodes dp).entries = none) :
    Inv ((s.setInode dp { s.inodes dp with
      entries := dirlink ⟨some old, name⟩ (s.inodes dp).entries }).leave i .user [dp, old]) := by
  obtain ⟨hpc, hdrops⟩ := hat
  obtain ⟨up, hup⟩ := h.shape.dots dp hdp.1
  have hold : (s.inodes old).type ≠ .dir := by
    refine (h.good i).pending old ?_
    rw [hpc]
    exact List.mem_cons_self
  have htype : ∀ m, (Function.update s.inodes dp { s.inodes dp with
      entries := dirlink ⟨some old, name⟩ (s.inodes dp).entries } m).type =
        (s.inodes m).type :=
    type_update (x := { s.inodes dp with
      entries := dirlink ⟨some old, name⟩ (s.inodes dp).entries }) rfl
  have hnlink : ∀ m, (Function.update s.inodes dp { s.inodes dp with
      entries := dirlink ⟨some old, name⟩ (s.inodes dp).entries } m).nlink =
        (s.inodes m).nlink := by
    intro m
    by_cases hm : m = dp
    · rw [hm, Function.update_self]
    · rw [Function.update_of_ne hm]
  refine h.of_step (i := i) rfl ?_ ?_ ?_ (h.shape.link hdp hold hnone) ?_ ?_
  · intro m
    rw [Sys.held, held_count, held_count, hpc, hdrops]
    show s.ref m + _ = s.ref m + (one (s.procs i).cwd m + (s.procs i).files.count m + _ + _)
    simp only [Pc.held, Goal.held, count_cons, List.count_nil]
    omega
  · intro m
    show (Function.update s.inodes dp _ m).nlink + _ + _ =
      _ + uses (made (Function.update s.inodes dp _)) m + _
    rw [hnlink, made_update, Sys.pending, hpc]
    have hsum := uses_update (made s.inodes) dp ({ s.inodes dp with
      entries := dirlink ⟨some old, name⟩ (s.inodes dp).entries } : Inode).links m
    generalize hy : ({ s.inodes dp with
      entries := dirlink ⟨some old, name⟩ (s.inodes dp).entries } : Inode) = y at hsum ⊢
    have halive : y.Alive := by
      rw [← hy]
      exact hdp
    rw [links_dirlink hup hdp halive (by rw [← hy]) m, made] at hsum
    simp only [Pc.pending, Goal.held, count_cons, List.count_nil]
    omega
  · intro m hm
    show 0 < (Function.update s.inodes dp _ m).nlink + s.ref m
    rw [hnlink]
    exact h.used m (htype m ▸ hm)
  · refine good_user ?_ rfl
    show (Function.update s.inodes dp _ (s.procs i).cwd).type = .dir
    rw [htype]
    exact (h.good i).cwd
  · intro j _
    exact (h.good j).of_type htype

/-! ## `create` -/

/-- The free inode `n` is in no directory. -/
theorem Inv.notMem_kids (h : Inv s) (hn : (s.inodes n).type = .free)
    (hd : (s.inodes d).type = .dir) : n ∉ (s.inodes d).kids := by
  intro hmem
  exact h.ne_free (h.pos_of_kid hd hmem) hn

theorem mknode_inodes (s : Sys) (dp n : Inum) (name : Name) (type : FType) (hne : n ≠ dp) :
    ((s.mknode dp name n type).inodes n = ⟨type, 1,
      if type = .dir then [⟨some n, dot⟩, ⟨some dp, dotdot⟩] else []⟩) ∧
    ((s.mknode dp name n type).inodes dp = ⟨(s.inodes dp).type,
      if type = .dir then (s.inodes dp).nlink + 1 else (s.inodes dp).nlink,
      dirlink ⟨some n, name⟩ (s.inodes dp).entries⟩) ∧
    ∀ d, d ≠ n → d ≠ dp → (s.mknode dp name n type).inodes d = s.inodes d := by
  refine ⟨?_, ?_, ?_⟩
  · show Function.update (Function.update s.inodes n _) dp _ n = _
    rw [Function.update_of_ne hne, Function.update_self]
  · show Function.update (Function.update s.inodes n _) dp _ dp = _
    rw [Function.update_self]
  · intro d hdn hddp
    show Function.update (Function.update s.inodes n _) dp _ d = _
    rw [Function.update_of_ne hddp, Function.update_of_ne hdn]

theorem Shape.mknode (h : Shape s.inodes) (hdp : (s.inodes dp).Alive)
    (hn : (s.inodes n).type = .free) (htype : type ≠ .free)
    (hnew : ∀ d, (s.inodes d).type = .dir → n ∉ (s.inodes d).kids)
    (hnone : dirlookup name (s.inodes dp).entries = none) :
    Shape (s.mknode dp name n type).inodes := by
  have hne : n ≠ dp := free_ne_dir hn hdp.1
  obtain ⟨hgn, hgdp, hg⟩ := mknode_inodes s dp n name type hne
  by_cases hdir : type = .dir
  · rw [if_pos hdir] at hgn hgdp
    exact h.mkdir hdp hn hnew hnone (hdir ▸ hgn) hgdp hg
  · rw [if_neg hdir] at hgn hgdp
    obtain ⟨up, hup⟩ := h.dots dp hdp.1
    refine h.file hdp hup (n := n) ?_ ?_ ?_ ?_ ?_ ?_ ?_ ?_ hg
    · rw [hgdp]
      exact dotted_dirlink hup rfl
    · rw [hgdp]
      exact hdp.1
    · rw [hgdp]
    · rw [hgdp]
      exact distinct_dirlink (h.distinct dp hdp.1) hnone
    · intro c hc
      rw [hgdp]
      exact count_kids_file hup rfl (free_ne_dir hn hc).symm
    · rw [hn]
      exact fun he => by cases he
    · rw [hgn]
      exact hdir
    · rw [hgn]
      exact fun he => absurd he htype

/-- The only link that a new inode makes is `..`. -/
theorem new_links (m : Inum) : (⟨type, 1, if type = .dir then
    [⟨some n, dot⟩, ⟨some dp, dotdot⟩] else []⟩ : Inode).links.count m =
      if type = .dir then one dp m else 0 := by
  split
  · rename_i hdir
    rw [Inode.links, if_pos ⟨hdir, Nat.one_pos⟩]
    exact count_cons dp m []
  · rename_i hdir
    rw [links_nil hdir]
    rfl

theorem mknode_made (h : Shape s.inodes) (hdp : (s.inodes dp).Alive)
    (hn : (s.inodes n).type = .free) (m : Inum) :
    uses (made (s.mknode dp name n type).inodes) m = uses (made s.inodes) m + one n m +
      if type = .dir then one dp m else 0 := by
  have hne : n ≠ dp := free_ne_dir hn hdp.1
  obtain ⟨up, hup⟩ := h.dots dp hdp.1
  show uses (made (Function.update (Function.update s.inodes n _) dp _)) m = _
  rw [made_update, made_update]
  generalize hx : (⟨type, 1, if type = .dir then [⟨some n, dot⟩, ⟨some dp, dotdot⟩] else []⟩ :
    Inode) = x
  generalize hy : (⟨(s.inodes dp).type,
    if type = .dir then (s.inodes dp).nlink + 1 else (s.inodes dp).nlink,
    dirlink ⟨some n, name⟩ (s.inodes dp).entries⟩ : Inode) = y
  have hyalive : y.Alive := by
    rw [← hy]
    refine ⟨hdp.1, ?_⟩
    dsimp only
    split
    · exact Nat.succ_pos _
    · exact hdp.2
  have hsum := uses_update (Function.update (made s.inodes) n x.links) dp y.links m
  have hsum' := uses_update (made s.inodes) n x.links m
  have hylinks : y.links.count m = one n m + (s.inodes dp).links.count m :=
    links_dirlink hup hdp hyalive (by rw [← hy]) m
  have hold : (made s.inodes n).count m = 0 := by
    rw [made, links_nil (by rw [hn]; exact fun he => by cases he)]
    rfl
  have hxlinks : x.links.count m = if type = .dir then one dp m else 0 := by
    rw [← hx]
    exact new_links m
  rw [Function.update_of_ne hne.symm, hylinks] at hsum
  rw [hold, hxlinks] at hsum'
  rw [made] at hsum
  omega

/-- A new inode with its entry; the process then holds it. -/
theorem Inv.mknode (h : Inv s) {full : Option Bool}
    (hat : s.At i (.found dp name (.create type full))) (hdp : (s.inodes dp).Alive)
    (hn : (s.inodes n).type = .free) (htype : type ≠ .free)
    (hnone : dirlookup name (s.inodes dp).entries = none) :
    Inv (((s.setRef n (s.ref n + 1)).mknode dp name n type).created i n full [dp]) := by
  have hne : n ≠ dp := free_ne_dir hn hdp.1
  obtain ⟨p, hp, huser, hcwd, hcount⟩ :=
    created_cases ((s.setRef n (s.ref n + 1)).mknode dp name n type) i n full [dp]
  obtain ⟨hgn, hgdp, hg⟩ := mknode_inodes s dp n name type hne
  obtain ⟨hpc, hdrops⟩ := hat
  have htypes : ∀ m, m ≠ n → ((s.mknode dp name n type).inodes m).type = (s.inodes m).type := by
    intro m hm
    by_cases hmdp : m = dp
    · rw [hmdp, hgdp]
    · rw [hg m hm hmdp]
  have hdirs : ∀ m, (s.inodes m).type = .dir →
      ((s.mknode dp name n type).inodes m).type = .dir := by
    intro m hm
    exact (htypes m (free_ne_dir hn hm).symm).trans hm
  rw [hp]
  refine h.of_step (t := ((s.setRef n (s.ref n + 1)).mknode dp name n type).setProc i p)
    (i := i) (p := p) rfl ?_ ?_ ?_ (h.shape.mknode hdp hn htype
      (fun d hd => h.notMem_kids hn hd) hnone) ?_ ?_
  · intro m
    have hm := hcount m
    show (s.setRef n (s.ref n + 1)).ref m + _ = _
    rw [setRef_ref, Sys.held, held_count, held_count, hpc, hdrops, huser, hcwd]
    simp only [Pc.held, Goal.held, count_cons, List.count_nil] at hm ⊢
    have hfiles : (((s.setRef n (s.ref n + 1)).mknode dp name n type).procs i).files =
      (s.procs i).files := rfl
    have hcwd' : (((s.setRef n (s.ref n + 1)).mknode dp name n type).procs i).cwd =
      (s.procs i).cwd := rfl
    rw [hfiles] at hm
    rw [hcwd']
    omega
  · intro m
    show ((s.mknode dp name n type).inodes m).nlink + _ + _ =
      _ + uses (made (s.mknode dp name n type).inodes) m + _
    rw [mknode_made h.shape hdp hn m, Sys.pending, hpc, huser]
    simp only [Pc.pending, Goal.held, List.count_nil]
    have hzero := h.shape.free n hn
    by_cases hmn : m = n
    · rw [hmn, hgn, one_self]
      dsimp only
      have hone : one dp n = 0 := if_neg hne.symm
      rw [hone, ite_self]
      omega
    · have hone : one n m = 0 := if_neg (Ne.symm hmn)
      rw [hone]
      by_cases hmdp : m = dp
      · rw [hmdp, hgdp, one_self]
        dsimp only
        split <;> omega
      · have hone' : one dp m = 0 := if_neg (Ne.symm hmdp)
        rw [hg m hmn hmdp, hone', ite_self]
        omega
  · intro m hm
    show 0 < ((s.mknode dp name n type).inodes m).nlink + (s.setRef n (s.ref n + 1)).ref m
    rw [setRef_ref]
    by_cases hmn : m = n
    · rw [hmn, one_self]
      omega
    · have hused := h.used m (htypes m hmn ▸ hm)
      by_cases hmdp : m = dp
      · rw [hmdp, hgdp]
        have hpos := hdp.2
        dsimp only
        split <;> omega
      · rw [hg m hmn hmdp]
        omega
  · exact good_user (hcwd ▸ hdirs _ (h.good i).cwd) huser
  · intro j _
    refine (h.good j).congr (fun m _ hm => hdirs m hm) ?_
    intro m hm hndir
    have hmn : m ≠ n := by
      rintro rfl
      exact h.ne_free (h.pos_of_pending hm) hn
    show ((s.mknode dp name n type).inodes m).type ≠ .dir
    rw [htypes m hmn]
    exact hndir

end Cs537.Names
