/-
# `Cs537.Names.Unlink` — links and references go (p5/xv6)

`sys_unlink` and `iput`.  The only link of an empty directory is its entry
(`Inv.nlink_empty`), so it is dead when `sys_unlink` has taken the entry away, and its
`..` counts no longer; that is what `dp->nlink--` is for.
-/
import Cs537.Names.Nodes

namespace Cs537.Names

open Cs537.Lib

variable {s t u : Sys} {i j : Slot} {n m c d dp ip : Inum} {x y : Inode} {k : Nat} {name : Name}
  {f g : Inum → Inode} {p q : Proc} {pc : Pc} {up : Inum} {rest : List Inum}

/-! ## Empty directories -/

/-- An empty directory is the `..` of no directory that is alive. -/
theorem Shape.up_ne (h : Shape f) (hd : (f d).Alive) (hn : (f n).type = .dir) (hroot : n ≠ ROOTINO)
    (hempty : (f n).kids = []) : (f d).up ≠ some n := by
  intro hup
  by_cases hdroot : d = ROOTINO
  · rw [hdroot, h.top] at hup
    exact hroot (Option.some.inj hup).symm
  · have hcount := h.kids n d hn hd.1
    rw [hempty, if_pos ⟨hdroot, hd.2, hup⟩] at hcount
    cases hcount

theorem alive_of_mem_links (h : n ∈ x.links) : x.Alive := by
  by_contra hdead
  rw [Inode.links_dead hdead] at h
  cases h

theorem Inv.nlink_empty (h : Inv s) (hdp : (s.inodes dp).type = .dir)
    (hn : (s.inodes n).type = .dir) (hmem : n ∈ (s.inodes dp).kids)
    (hempty : (s.inodes n).kids = []) : (s.inodes n).nlink = 1 ∧ 1 < (s.inodes dp).nlink := by
  obtain ⟨hroot, halive, hup, hdpalive⟩ := h.shape.kid hdp hn hmem
  obtain ⟨q, hq⟩ := h.shape.dots dp hdp
  have hpending : uses s.pending n = 0 := by
    refine uses_eq_zero ?_
    intro j hj
    exact (h.good j).pending n hj hn
  have hmade : uses (made s.inodes) n = (made s.inodes dp).count n := by
    refine uses_eq_count dp ?_
    intro d hd hlink
    have hdalive := alive_of_mem_links hlink
    obtain ⟨p, hp⟩ := h.shape.dots d hdalive.1
    rw [made, hp.links_eq hdalive] at hlink
    rcases List.mem_cons.mp hlink with he | hkid
    · exact h.shape.up_ne hdalive hn hroot hempty (he ▸ hp.up_eq)
    · obtain ⟨-, -, hup', -⟩ := h.shape.kid hdalive.1 hn hkid
      exact hd (Option.some.inj (hup'.symm.trans hup))
  have hdplinks : (made s.inodes dp).count n = 1 := by
    rw [made, hq.links_eq hdpalive, List.count_cons_of_ne, h.shape.kids dp n hdp hn,
      if_pos ⟨hroot, halive.2, hup⟩]
    rintro rfl
    exact h.shape.up_ne hdpalive hn hroot hempty hq.up_eq
  refine ⟨by rw [h.links n, Sys.links, hpending, hmade, hdplinks], ?_⟩
  -- the links of `dp` are the `..` of `n` and one elsewhere
  have hother : ∃ d, d ≠ n ∧ dp ∈ made s.inodes d := by
    by_cases hdproot : dp = ROOTINO
    · have htop := h.shape.top
      rw [← hdproot, hq.up_eq] at htop
      refine ⟨dp, h.shape.kid_ne hdp hmem, ?_⟩
      rw [made, hq.links_eq hdpalive, Option.some.inj htop]
      exact List.mem_cons_self
    · have hqalive := h.shape.above dp q hdpalive hdproot hq.up_eq
      refine ⟨q, ?_, ?_⟩
      · rintro rfl
        exact h.shape.up_ne hdpalive hn hroot hempty hq.up_eq
      · obtain ⟨r, hr⟩ := h.shape.dots q hqalive.1
        refine mem_kids_links hr hqalive (List.count_pos_iff.mp ?_)
        rw [h.shape.kids q dp hqalive.1 hdp, if_pos ⟨hdproot, hdpalive.2, hq.up_eq⟩]
        exact Nat.one_pos
  obtain ⟨d, hdn, hd⟩ := hother
  obtain ⟨r, hr⟩ := h.shape.dots n hn
  have hdots : dp ∈ made s.inodes n := by
    rw [made, hr.links_eq halive, Option.some.inj (hr.up_eq.symm.trans hup)]
    exact List.mem_cons_self
  have htwo := count_add_count_le_uses (made s.inodes) hdn dp
  have hone := one_le_count hd
  have hone' := one_le_count hdots
  rw [h.links dp, Sys.links]
  omega

/-! ## `sys_unlink` -/

theorem rmnode_inodes (s : Sys) (dp n : Inum) (k : Nat) (hne : n ≠ dp) :
    ((s.rmnode dp k n).inodes n =
      { s.inodes n with nlink := (s.inodes n).nlink - 1 }) ∧
    ((s.rmnode dp k n).inodes dp = ⟨(s.inodes dp).type,
      if (s.inodes n).type = .dir then (s.inodes dp).nlink - 1 else (s.inodes dp).nlink,
      (s.inodes dp).entries.set k ⟨none, []⟩⟩) ∧
    ∀ d, d ≠ n → d ≠ dp → (s.rmnode dp k n).inodes d = s.inodes d := by
  refine ⟨?_, ?_, ?_⟩
  · show Function.update (Function.update s.inodes dp _) n _ n = _
    rw [Function.update_self]
  · show Function.update (Function.update s.inodes dp _) n _ dp = _
    rw [Function.update_of_ne hne.symm, Function.update_self]
  · intro d hdn hddp
    show Function.update (Function.update s.inodes dp _) n _ d = _
    rw [Function.update_of_ne hdn, Function.update_of_ne hddp]

theorem rmnode_type (s : Sys) (dp n : Inum) (k : Nat) (hne : n ≠ dp) (m : Inum) :
    ((s.rmnode dp k n).inodes m).type = (s.inodes m).type := by
  obtain ⟨hgn, hgdp, hg⟩ := rmnode_inodes s dp n k hne
  by_cases hmn : m = n
  · rw [hmn, hgn]
  · by_cases hmdp : m = dp
    · rw [hmdp, hgdp]
    · rw [hg m hmn hmdp]

/-- The entry `k + 2` of `dp`, which names `n`, goes. -/
theorem Inv.shape_rmnode (h : Inv s) (hdp : (s.inodes dp).type = .dir)
    (hk : ((s.inodes dp).entries.drop 2)[k]? = some ⟨some n, name⟩)
    (hempty : (s.inodes n).type = .dir → (s.inodes n).kids = []) (hne : n ≠ dp) :
    Shape (s.rmnode dp (k + 2) n).inodes := by
  obtain ⟨hgn, hgdp, hg⟩ := rmnode_inodes s dp n (k + 2) hne
  have hmem : n ∈ (s.inodes dp).kids := List.mem_filterMap.mpr ⟨_, List.mem_of_getElem? hk, rfl⟩
  by_cases hdir : (s.inodes n).type = .dir
  · rw [if_pos hdir] at hgdp
    obtain ⟨hone, htwo⟩ := h.nlink_empty hdp hdir hmem (hempty hdir)
    exact h.shape.rmdir hdp hdir hk (hempty hdir) hone htwo hgn hgdp hg
  · rw [if_neg hdir] at hgdp
    have halive := h.shape.alive_of_kid hdp hmem
    obtain ⟨up, hup⟩ := h.shape.dots dp hdp
    refine h.shape.file halive hup (n := n) ?_ ?_ ?_ ?_ ?_ hdir ?_ ?_ hg
    · rw [hgdp]
      exact dotted_set hup rfl
    · rw [hgdp]
      exact hdp
    · rw [hgdp]
    · rw [hgdp]
      exact distinct_set (h.shape.distinct dp hdp)
    · intro c hc
      have hcount := (kids_set hup hk).count_eq c
      rw [List.count_cons_of_ne] at hcount
      · rw [hgdp]
        exact hcount.symm
      · rintro rfl
        exact hdir hc
    · rw [hgn]
      exact hdir
    · rw [hgn]
      intro hfree
      show (s.inodes n).nlink - 1 = 0
      rw [h.shape.free n hfree]

theorem Inv.made_rmnode (h : Inv s) (hdp : (s.inodes dp).type = .dir)
    (hk : ((s.inodes dp).entries.drop 2)[k]? = some ⟨some n, name⟩)
    (hempty : (s.inodes n).type = .dir → (s.inodes n).kids = []) (hne : n ≠ dp) (m : Inum) :
    uses (made (s.rmnode dp (k + 2) n).inodes) m + one n m +
      (if (s.inodes n).type = .dir then one dp m else 0) = uses (made s.inodes) m := by
  have hmem : n ∈ (s.inodes dp).kids := List.mem_filterMap.mpr ⟨_, List.mem_of_getElem? hk, rfl⟩
  have halive := h.shape.alive_of_kid hdp hmem
  obtain ⟨up, hup⟩ := h.shape.dots dp hdp
  show uses (made (Function.update (Function.update s.inodes dp _) n _)) m + _ + _ = _
  rw [made_update, made_update]
  generalize hy : (⟨(s.inodes dp).type,
    if (s.inodes n).type = .dir then (s.inodes dp).nlink - 1 else (s.inodes dp).nlink,
    (s.inodes dp).entries.set (k + 2) ⟨none, []⟩⟩ : Inode) = y
  generalize hx : (⟨(s.inodes n).type, (s.inodes n).nlink - 1, (s.inodes n).entries⟩ : Inode) = x
  have hyalive : y.Alive := by
    rw [← hy]
    refine ⟨hdp, ?_⟩
    dsimp only
    split
    · rename_i hdir
      obtain ⟨-, htwo⟩ := h.nlink_empty hdp hdir hmem (hempty hdir)
      omega
    · exact halive.2
  have hylinks : (s.inodes dp).links.count m = one n m + y.links.count m :=
    links_set hup halive hyalive hk (by rw [← hy]) m
  have hxlinks : x.links.count m + (if (s.inodes n).type = .dir then one dp m else 0) =
      (s.inodes n).links.count m := by
    by_cases hdir : (s.inodes n).type = .dir
    · obtain ⟨hone, -⟩ := h.nlink_empty hdp hdir hmem (hempty hdir)
      obtain ⟨-, hnalive, hnup, -⟩ := h.shape.kid hdp hdir hmem
      obtain ⟨q, hq⟩ := h.shape.dots n hdir
      have hdead : ¬x.Alive := by
        rw [← hx]
        intro hx'
        have hpos : 0 < (s.inodes n).nlink - 1 := hx'.2
        omega
      rw [Inode.links_dead hdead, if_pos hdir, hq.links_eq hnalive, hempty hdir, count_cons,
        Option.some.inj (hq.up_eq.symm.trans hnup)]
      simp only [List.count_nil]
      omega
    · have hxdir : x.type ≠ .dir := by
        rw [← hx]
        exact hdir
      rw [if_neg hdir, links_nil hdir, links_nil hxdir]
      rfl
  have hsum := uses_update (Function.update (made s.inodes) dp y.links) n x.links m
  have hsum' := uses_update (made s.inodes) dp y.links m
  rw [Function.update_of_ne hne] at hsum
  rw [made] at hsum hsum'
  omega

/-- `sys_unlink` takes the entry away, and a link. -/
theorem Inv.rmnode (h : Inv s) (hat : s.At i (.found dp name .unlink))
    (hdp : (s.inodes dp).type = .dir)
    (hk : ((s.inodes dp).entries.drop 2)[k]? = some ⟨some n, name⟩)
    (hempty : (s.inodes n).type = .dir → (s.inodes n).kids = []) (hne : n ≠ dp) :
    Inv (((s.setRef n (s.ref n + 1)).rmnode dp (k + 2) n).leave i .user [dp, n]) := by
  obtain ⟨hgn, hgdp, hg⟩ := rmnode_inodes s dp n (k + 2) hne
  have htype := rmnode_type s dp n (k + 2) hne
  have hmem : n ∈ (s.inodes dp).kids := List.mem_filterMap.mpr ⟨_, List.mem_of_getElem? hk, rfl⟩
  have hpos := h.pos_of_kid hdp hmem
  obtain ⟨hpc, hdrops⟩ := hat
  refine h.of_step
    (t := ((s.setRef n (s.ref n + 1)).rmnode dp (k + 2) n).leave i .user [dp, n]) (i := i) rfl
    ?_ ?_ ?_ (h.shape_rmnode hdp hk hempty hne) ?_ ?_
  · intro m
    rw [Sys.held, held_count, held_count, hpc, hdrops]
    show (s.setRef n (s.ref n + 1)).ref m + _ =
      s.ref m + (one (s.procs i).cwd m + (s.procs i).files.count m + _ + _)
    rw [setRef_ref]
    simp only [Pc.held, Goal.held, count_cons, List.count_nil]
    omega
  · intro m
    show ((s.rmnode dp (k + 2) n).inodes m).nlink + _ + _ =
      _ + uses (made (s.rmnode dp (k + 2) n).inodes) m + _
    have hmade := h.made_rmnode hdp hk hempty hne m
    rw [Sys.pending, hpc]
    simp only [Pc.pending, Goal.held, List.count_nil]
    by_cases hmn : m = n
    · subst hmn
      have hone : one dp m = 0 := if_neg (Ne.symm hne)
      rw [one_self, hone, ite_self] at hmade
      rw [hgn]
      dsimp only
      omega
    · have hone : one n m = 0 := if_neg (Ne.symm hmn)
      rw [hone] at hmade
      by_cases hmdp : m = dp
      · subst hmdp
        rw [one_self] at hmade
        rw [hgdp]
        dsimp only
        split at hmade
        · rename_i hdir
          obtain ⟨-, htwo⟩ := h.nlink_empty hdp hdir hmem (hempty hdir)
          rw [if_pos hdir]
          omega
        · rename_i hdir
          rw [if_neg hdir]
          omega
      · have hone' : one dp m = 0 := if_neg (Ne.symm hmdp)
        rw [hone', ite_self] at hmade
        rw [hg m hmn hmdp]
        omega
  · intro m hm
    show 0 < ((s.rmnode dp (k + 2) n).inodes m).nlink + (s.setRef n (s.ref n + 1)).ref m
    rw [setRef_ref]
    have hused := h.used m (htype m ▸ hm)
    by_cases hmn : m = n
    · rw [hmn, one_self]
      omega
    · by_cases hmdp : m = dp
      · have hcount := count_le_uses s.held i m
        have hrefs := h.refs m
        rw [Sys.held, held_count, hpc, Pc.held, count_cons, hmdp, one_self] at hcount
        rw [hmdp] at hrefs ⊢
        omega
      · rw [hg m hmn hmdp]
        omega
  · refine good_user ?_ rfl
    show ((s.rmnode dp (k + 2) n).inodes (s.procs i).cwd).type = .dir
    rw [htype]
    exact (h.good i).cwd
  · intro j _
    exact (h.good j).of_type htype

/-! ## `iput` -/

/-- An inode without links goes. -/
theorem Shape.free_inode (h : Shape f) (hzero : (f n).nlink = 0) :
    Shape (Function.update f n ⟨.free, 0, []⟩) := by
  have hne : ∀ d, (Function.update f n ⟨.free, 0, []⟩ d).type = .dir → d ≠ n := by
    rintro d hd rfl
    rw [Function.update_self] at hd
    cases hd
  have hother : ∀ d, d ≠ n → Function.update f n ⟨.free, 0, []⟩ d = f d :=
    fun d hd => Function.update_of_ne hd _ _
  refine h.of_same ?_ ?_ ?_ ?_ ?_ ?_ ?_ ?_
  · intro m hm
    by_cases hmn : m = n
    · rw [hmn, Function.update_self]
    · rw [hother m hmn] at hm ⊢
      exact h.free m hm
  · intro d hd
    rw [hother d (hne d hd)] at hd
    exact hd
  · intro d hd
    have hdn := hne d hd
    rw [hother d hdn] at hd ⊢
    obtain ⟨p, hp⟩ := h.dots d hd
    exact ⟨p, hp, hp⟩
  · intro d hd
    have hdn := hne d hd
    rw [hother d hdn] at hd ⊢
    exact h.distinct d hd
  · intro d _
    by_cases hd : d = n
    · rw [hd, Function.update_self, hzero]
    · rw [hother d hd]
  · intro d hd
    have hdn : d ≠ n := by
      rintro rfl
      exact absurd hzero hd.2.ne'
    rw [hother d hdn]
    exact hd.1
  · intro d hd c _
    rw [hother d (hne d hd)]
  · intro d hd hnlink
    have hdn := hne d hd
    rw [hother d hdn] at hd hnlink ⊢
    exact h.removed d hd hnlink

/-- Process `i` puts the next reference. -/
theorem Inv.iput (h : Inv s) (hdrops : (s.procs i).drops = n :: rest) :
    Inv ((s.iput n).setProc i { s.procs i with drops := rest }) := by
  have hheld : ∀ m, (s.procs i).held.count m =
      one n m + ({ s.procs i with drops := rest } : Proc).held.count m := by
    intro m
    rw [held_count, held_count, hdrops, count_cons]
    dsimp only
    omega
  have hpos : 0 < s.ref n := by
    have hcount := count_le_uses s.held i n
    rw [Sys.held, hheld, one_self] at hcount
    rw [h.refs n]
    omega
  have href : ∀ m, (s.iput n).ref m + one n m = s.ref m := by
    intro m
    have hput : (s.iput n).ref = Function.update s.ref n (s.ref n - 1) := by
      unfold Sys.iput
      split <;> rfl
    rw [hput]
    by_cases hm : m = n
    · rw [hm, Function.update_self, one_self]
      omega
    · rw [Function.update_of_ne hm, one, if_neg (Ne.symm hm)]
      rfl
  by_cases hlast : s.ref n = 1 ∧ (s.inodes n).nlink = 0
  · obtain ⟨hone, hzero⟩ := hlast
    have hinodes : (s.iput n).inodes = Function.update s.inodes n ⟨.free, 0, []⟩ := by
      unfold Sys.iput
      rw [if_pos ⟨hone, hzero⟩]
      rfl
    have hmade : made (Function.update s.inodes n ⟨.free, 0, []⟩) = made s.inodes := by
      rw [made_update, links_nil (fun he => by cases he)]
      refine Function.update_eq_self_iff.mpr ?_
      exact (Inode.links_dead fun halive => absurd hzero halive.2.ne').symm
    have hdirs : ∀ m, (s.inodes m).type ≠ .dir →
        (Function.update s.inodes n ⟨.free, 0, []⟩ m).type ≠ .dir := by
      intro m hdir he
      by_cases hmn : m = n
      · rw [hmn, Function.update_self] at he
        cases he
      · rw [Function.update_of_ne hmn] at he
        exact hdir he
    -- nobody else has the inode, and process `i` has it only to put it
    have hkeep : ∀ j m, (j ≠ i ∧ m ∈ (s.procs j).held) ∨
        m ∈ ({ s.procs i with drops := rest } : Proc).held →
        Function.update s.inodes n ⟨.free, 0, []⟩ m = s.inodes m := by
      intro j m hm
      refine Function.update_of_ne ?_ _ _
      rintro rfl
      have hrefs := h.refs m
      rcases hm with ⟨hj, hm⟩ | hm
      · have htwo := count_add_count_le_uses s.held hj m
        have hj' : 1 ≤ (s.held j).count m := one_le_count hm
        rw [Sys.held, Sys.held, hheld, one_self] at htwo
        rw [Sys.held] at hj'
        omega
      · have hcount := count_le_uses s.held i m
        rw [Sys.held, hheld, one_self] at hcount
        have hm' := one_le_count hm
        omega
    refine h.of_step (t := (s.iput n).setProc i { s.procs i with drops := rest }) (i := i)
      (p := { s.procs i with drops := rest }) ?_ ?_ ?_ ?_ ?_ ?_ ?_
    · unfold Sys.iput
      rw [if_pos ⟨hone, hzero⟩]
      rfl
    · intro m
      have hm := href m
      show (s.iput n).ref m + _ = _
      rw [Sys.held, hheld]
      omega
    · intro m
      show ((s.iput n).inodes m).nlink + _ + _ = _ + uses (made (s.iput n).inodes) m + _
      rw [hinodes, hmade]
      have hsame : (Function.update s.inodes n ⟨.free, 0, []⟩ m).nlink = (s.inodes m).nlink := by
        by_cases hm : m = n
        · rw [hm, Function.update_self, hzero]
        · rw [Function.update_of_ne hm]
      rw [hsame]
      rfl
    · intro m hm
      show 0 < ((s.iput n).inodes m).nlink + (s.iput n).ref m
      have hm' : (Function.update s.inodes n ⟨.free, 0, []⟩ m).type ≠ .free := hinodes ▸ hm
      have hmn : m ≠ n := by
        rintro rfl
        rw [Function.update_self] at hm'
        exact hm' rfl
      have hr := href m
      rw [Function.update_of_ne hmn] at hm'
      have hused := h.used m hm'
      rw [one, if_neg (Ne.symm hmn)] at hr
      rw [hinodes, Function.update_of_ne hmn]
      omega
    · show Shape (s.iput n).inodes
      rw [hinodes]
      exact h.shape.free_inode hzero
    · show Proc.Good (s.iput n).inodes _
      rw [hinodes]
      have hgood : ({ s.procs i with drops := rest } : Proc).Good s.inodes :=
        ⟨(h.good i).cwd, (h.good i).parent, (h.good i).pending, (h.good i).kind⟩
      refine hgood.congr ?_ fun m _ => hdirs m
      intro m hm hdir
      rw [hkeep i m (.inr hm)]
      exact hdir
    · intro j hj
      show Proc.Good (s.iput n).inodes _
      rw [hinodes]
      refine (h.good j).congr ?_ fun m _ => hdirs m
      intro m hm hdir
      rw [hkeep j m (.inl ⟨hj, hm⟩)]
      exact hdir
  · have hinodes : (s.iput n).inodes = s.inodes := by
      unfold Sys.iput
      rw [if_neg hlast]
      rfl
    refine h.of_proc (t := (s.iput n).setProc i { s.procs i with drops := rest }) (i := i)
      (p := { s.procs i with drops := rest }) hinodes ?_ ?_ rfl ?_
      ⟨(h.good i).cwd, (h.good i).parent, (h.good i).pending, (h.good i).kind⟩
    · unfold Sys.iput
      rw [if_neg hlast]
      rfl
    · intro m
      have hm := href m
      show (s.iput n).ref m + _ = _
      rw [Sys.held, hheld]
      omega
    · intro m _ hzero hmpos
      have hm := href m
      show 0 < (s.iput n).ref m
      by_cases hmn : m = n
      · subst hmn
        rw [one_self] at hm
        have hnot : s.ref m ≠ 1 := fun he => hlast ⟨he, hzero⟩
        omega
      · rw [one, if_neg (Ne.symm hmn)] at hm
        omega

end Cs537.Names
