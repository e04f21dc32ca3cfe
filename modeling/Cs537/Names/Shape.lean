/-
# `Cs537.Names.Shape` — the tree of directories (p5/xv6)

`Shape f`: what the inodes `f` of a disk are.  A directory is alive if it has a link.  Its
first two entries are `.` and `..`; the inodes that the others name are its `kids`.

A directory is among the kids of the directory that its `..` names, once, and nowhere else,
as long as it has a link (`kids`).  So there is one step for each way to change a disk:

    Shape.of_same   the directories stay, though entries for files come and go
    Shape.mkdir     a new directory
    Shape.rmdir     an empty directory loses its entry and its link
-/
import Cs537.Names.Entries
import Cs537.Lib.Holdings

namespace Cs537.Names

open Cs537.Lib

variable {f g : Inum → Inode} {n c d dp p : Inum} {x y : Inode} {k : Nat} {name : Name}

/-- A directory with a link. -/
def Inode.Alive (x : Inode) : Prop := x.type = .dir ∧ 0 < x.nlink

instance (x : Inode) : Decidable x.Alive := inferInstanceAs (Decidable (_ ∧ _))

/-- What the entries behind `.` and `..` name. -/
def Inode.kids (x : Inode) : List Inum := targets (x.entries.drop 2)

/-- Where `..` leads. -/
def Inode.up (x : Inode) : Option Inum := x.entries[1]?.bind Dirent.inum

/-- `.` and `..` come first. -/
def Inode.Dotted (x : Inode) (n p : Inum) : Prop :=
  ∃ rest, x.entries = ⟨some n, dot⟩ :: ⟨some p, dotdot⟩ :: rest

/-- The links that a directory makes: its `.` is none, and it has none if it is removed. -/
def Inode.links (x : Inode) : List Inum := if x.Alive then targets (x.entries.drop 1) else []

structure Shape (f : Inum → Inode) : Prop where
  free : ∀ n, (f n).type = .free → (f n).nlink = 0
  dots : ∀ d, (f d).type = .dir → ∃ p, (f d).Dotted d p
  distinct : ∀ d, (f d).type = .dir → Distinct (f d).entries
  removed : ∀ d, (f d).type = .dir → (f d).nlink = 0 → (f d).kids = []
  kids : ∀ d c, (f d).type = .dir → (f c).type = .dir →
    (f d).kids.count c = if c ≠ ROOTINO ∧ 0 < (f c).nlink ∧ (f c).up = some d then 1 else 0
  above : ∀ c d, (f c).Alive → c ≠ ROOTINO → (f c).up = some d → (f d).Alive
  rank : ∃ rank : Inum → Nat, ∀ c d, (f c).Alive → c ≠ ROOTINO → (f c).up = some d →
    rank d < rank c
  root : (f ROOTINO).Alive
  top : (f ROOTINO).up = some ROOTINO

/-! ## Types -/

theorem dir_ne_free (h : x.type = .dir) : x.type ≠ .free := by
  intro he
  rw [h] at he
  cases he

theorem free_ne_dir (hn : (f n).type = .free) (hd : (f d).type = .dir) : n ≠ d := by
  rintro rfl
  exact dir_ne_free hd hn

/-! ## Dots -/

theorem Inode.Dotted.up_eq (h : x.Dotted n p) : x.up = some p := by
  obtain ⟨rest, hrest⟩ := h
  rw [Inode.up, hrest]
  rfl

theorem Inode.Dotted.links_eq (h : x.Dotted n p) (halive : x.Alive) : x.links = p :: x.kids := by
  obtain ⟨rest, hrest⟩ := h
  rw [Inode.links, if_pos halive, Inode.kids, hrest]
  rfl

theorem Inode.links_dead (h : ¬x.Alive) : x.links = [] := if_neg h

theorem mem_kids_links (h : x.Dotted d p) (halive : x.Alive) (hn : n ∈ x.kids) : n ∈ x.links := by
  rw [h.links_eq halive]
  exact List.mem_cons_of_mem p hn

/-- An empty directory has no kids. -/
theorem isdirempty_kids (h : isdirempty x.entries) : x.kids = [] := by
  rw [Inode.kids, targets, List.filterMap_eq_nil_iff]
  exact h

/-- A new entry is behind `.` and `..`. -/
theorem dotted_dirlink {de : Dirent} (h : x.Dotted d p) (he : y.entries = dirlink de x.entries) :
    y.Dotted d p := by
  obtain ⟨rest, hrest⟩ := h
  refine ⟨dirlink de rest, ?_⟩
  rw [he, hrest]
  rfl

theorem kids_dirlink (h : x.Dotted d p) :
    (targets ((dirlink ⟨some n, name⟩ x.entries).drop 2)).Perm (n :: x.kids) := by
  obtain ⟨rest, hrest⟩ := h
  rw [Inode.kids, hrest]
  exact targets_dirlink

/-- An entry with another name is behind `.` and `..`. -/
theorem two_le_index (h : x.Dotted d p) (hdot : name ≠ dot) (hdotdot : name ≠ dotdot)
    (hk : x.entries[k]? = some ⟨some n, name⟩) :
    ∃ j, k = j + 2 ∧ (x.entries.drop 2)[j]? = some ⟨some n, name⟩ := by
  obtain ⟨rest, hrest⟩ := h
  rw [hrest] at hk
  cases k with
  | zero =>
      obtain ⟨-, rfl⟩ := Dirent.mk.inj (Option.some.inj hk)
      exact absurd rfl hdot
  | succ k =>
      cases k with
      | zero =>
          obtain ⟨-, rfl⟩ := Dirent.mk.inj (Option.some.inj hk)
          exact absurd rfl hdotdot
      | succ j =>
          refine ⟨j, rfl, ?_⟩
          rw [hrest]
          exact hk

theorem dotted_set {de : Dirent} (h : x.Dotted d p)
    (he : y.entries = x.entries.set (k + 2) de) : y.Dotted d p := by
  obtain ⟨rest, hrest⟩ := h
  refine ⟨rest.set k de, ?_⟩
  rw [he, hrest]
  rfl

theorem kids_set (h : x.Dotted d p) (hk : (x.entries.drop 2)[k]? = some ⟨some n, name⟩) :
    x.kids.Perm (n :: targets ((x.entries.set (k + 2) ⟨none, []⟩).drop 2)) := by
  obtain ⟨rest, hrest⟩ := h
  rw [hrest] at hk
  rw [Inode.kids, hrest]
  exact targets_set hk

/-! ## Reading a shape -/

theorem Shape.ne_up (h : Shape f) (hc : (f c).Alive) (hroot : c ≠ ROOTINO)
    (hup : (f c).up = some d) : d ≠ c := by
  rintro rfl
  obtain ⟨rank, hrank⟩ := h.rank
  exact Nat.lt_irrefl _ (hrank d d hc hroot hup)

/-- A directory is the kid of one that is alive. -/
theorem Shape.kid (h : Shape f) (hd : (f d).type = .dir) (hc : (f c).type = .dir)
    (hmem : c ∈ (f d).kids) : c ≠ ROOTINO ∧ (f c).Alive ∧ (f c).up = some d ∧ (f d).Alive := by
  have hcount := h.kids d c hd hc
  have hpos := one_le_count hmem
  split at hcount
  · rename_i hif
    exact ⟨hif.1, ⟨hc, hif.2.1⟩, hif.2.2, h.above c d ⟨hc, hif.2.1⟩ hif.1 hif.2.2⟩
  · omega

theorem Shape.kid_ne (h : Shape f) (hd : (f d).type = .dir) (hmem : c ∈ (f d).kids) : d ≠ c := by
  rintro rfl
  obtain ⟨hroot, halive, hup, -⟩ := h.kid hd hd hmem
  exact h.ne_up halive hroot hup rfl

/-- A directory with kids is alive. -/
theorem Shape.alive_of_kid (h : Shape f) (hd : (f d).type = .dir) (hmem : c ∈ (f d).kids) :
    (f d).Alive := by
  refine ⟨hd, Nat.pos_of_ne_zero fun hzero => ?_⟩
  rw [h.removed d hd hzero] at hmem
  cases hmem

/-- From every directory that is alive, `..` leads to the root. -/
theorem Shape.toRoot (h : Shape f) (hc : (f c).Alive) :
    Relation.ReflTransGen (fun c d => (f c).up = some d) c ROOTINO := by
  obtain ⟨rank, hrank⟩ := h.rank
  induction hn : rank c using Nat.strong_induction_on generalizing c with
  | _ n ih =>
      by_cases hroot : c = ROOTINO
      · rw [hroot]
      · obtain ⟨p, hp⟩ := h.dots c hc.1
        have hup := hp.up_eq
        have hlt := hrank c p hc hroot hup
        exact .head hup (ih (rank p) (hn ▸ hlt) (h.above c p hc hroot hup) rfl)

/-! ## Changes -/

/-- The directories stay, or are gone if they had no link. -/
theorem Shape.of_same (h : Shape f) (hfree : ∀ n, (g n).type = .free → (g n).nlink = 0)
    (hdir : ∀ d, (g d).type = .dir → (f d).type = .dir)
    (hdots : ∀ d, (g d).type = .dir → ∃ p, (f d).Dotted d p ∧ (g d).Dotted d p)
    (hdistinct : ∀ d, (g d).type = .dir → Distinct (g d).entries)
    (hlive : ∀ d, (f d).type = .dir → (0 < (g d).nlink ↔ 0 < (f d).nlink))
    (hstay : ∀ d, (f d).Alive → (g d).type = .dir)
    (hkids : ∀ d, (g d).type = .dir → ∀ c, (g c).type = .dir →
      (g d).kids.count c = (f d).kids.count c)
    (hremoved : ∀ d, (g d).type = .dir → (g d).nlink = 0 → (g d).kids = []) : Shape g := by
  have hup : ∀ d, (g d).type = .dir → (g d).up = (f d).up := by
    intro d hd
    obtain ⟨p, hf, hg⟩ := hdots d hd
    rw [hf.up_eq, hg.up_eq]
  have halive : ∀ d, (g d).Alive → (f d).Alive := by
    intro d hd
    exact ⟨hdir d hd.1, (hlive d (hdir d hd.1)).mp hd.2⟩
  have halive' : ∀ d, (f d).Alive → (g d).Alive := by
    intro d hd
    exact ⟨hstay d hd, (hlive d hd.1).mpr hd.2⟩
  refine ⟨hfree, ?_, hdistinct, hremoved, ?_, ?_, ?_, halive' _ h.root, ?_⟩
  · intro d hd
    obtain ⟨p, -, hp⟩ := hdots d hd
    exact ⟨p, hp⟩
  · intro d c hd hc
    rw [hkids d hd c hc, h.kids d c (hdir d hd) (hdir c hc), hup c hc]
    simp only [hlive c (hdir c hc)]
  · intro c d hc hroot hd
    exact halive' d (h.above c d (halive c hc) hroot (hup c hc.1 ▸ hd))
  · obtain ⟨rank, hrank⟩ := h.rank
    exact ⟨rank, fun c d hc hroot hd => hrank c d (halive c hc) hroot (hup c hc.1 ▸ hd)⟩
  · rw [hup _ (halive' _ h.root).1]
    exact h.top

/-- The new directory `n` in `dp`. -/
theorem Shape.mkdir (h : Shape f) (hdp : (f dp).Alive) (hn : (f n).type = .free)
    (hnew : ∀ d, (f d).type = .dir → n ∉ (f d).kids) (hnone : dirlookup name (f dp).entries = none)
    (hgn : g n = ⟨.dir, 1, [⟨some n, dot⟩, ⟨some dp, dotdot⟩]⟩)
    (hgdp : g dp = { f dp with
      nlink := (f dp).nlink + 1, entries := dirlink ⟨some n, name⟩ (f dp).entries })
    (hg : ∀ d, d ≠ n → d ≠ dp → g d = f d) : Shape g := by
  have hne : dp ≠ n := (free_ne_dir hn hdp.1).symm
  have hroot : ROOTINO ≠ n := (free_ne_dir hn h.root.1).symm
  obtain ⟨p, hp⟩ := h.dots dp hdp.1
  have hdotn : (g n).Dotted n dp := by
    rw [hgn]
    exact ⟨[], rfl⟩
  have hdotdp : (g dp).Dotted dp p := by
    rw [hgdp]
    exact dotted_dirlink hp rfl
  have hkidsn : (g n).kids = [] := by
    rw [hgn]
    rfl
  have hkidsdp : ∀ c, (g dp).kids.count c = (n :: (f dp).kids).count c := by
    intro c
    rw [hgdp]
    exact (kids_dirlink hp).count_eq c
  -- the directories that were there
  have htype : ∀ d, d ≠ n → (g d).type = (f d).type := by
    intro d hd
    by_cases hddp : d = dp
    · rw [hddp, hgdp]
    · rw [hg d hd hddp]
  have hlive : ∀ d, d ≠ n → (f d).type = .dir → (0 < (g d).nlink ↔ 0 < (f d).nlink) := by
    intro d hd _
    by_cases hddp : d = dp
    · rw [hddp, hgdp]
      exact ⟨fun _ => hdp.2, fun _ => Nat.succ_pos _⟩
    · rw [hg d hd hddp]
  have hup : ∀ d, d ≠ n → (g d).up = (f d).up := by
    intro d hd
    by_cases hddp : d = dp
    · rw [hddp, hdotdp.up_eq, hp.up_eq]
    · rw [hg d hd hddp]
  have halive : ∀ d, d ≠ n → (g d).Alive → (f d).Alive := by
    intro d hd hgd
    have hfd := htype d hd ▸ hgd.1
    exact ⟨hfd, (hlive d hd hfd).mp hgd.2⟩
  have halive' : ∀ d, (f d).Alive → d ≠ n ∧ (g d).Alive := by
    intro d hfd
    have hd : d ≠ n := (free_ne_dir hn hfd.1).symm
    exact ⟨hd, by rw [htype d hd]; exact hfd.1, (hlive d hd hfd.1).mpr hfd.2⟩
  refine ⟨?_, ?_, ?_, ?_, ?_, ?_, ?_, (halive' _ h.root).2, ?_⟩
  · intro m hm
    by_cases hmn : m = n
    · rw [hmn, hgn] at hm
      cases hm
    · by_cases hmdp : m = dp
      · rw [hmdp, hgdp] at hm
        exact absurd hm (dir_ne_free hdp.1)
      · rw [hg m hmn hmdp] at hm ⊢
        exact h.free m hm
  · intro d hd
    by_cases hdn : d = n
    · exact ⟨dp, hdn ▸ hdotn⟩
    · by_cases hddp : d = dp
      · exact ⟨p, hddp ▸ hdotdp⟩
      · rw [hg d hdn hddp] at hd ⊢
        exact h.dots d hd
  · intro d hd
    by_cases hdn : d = n
    · rw [hdn, hgn]
      exact .cons (by simp [dot, dotdot]) (List.pairwise_singleton _ _)
    · by_cases hddp : d = dp
      · rw [hddp, hgdp]
        exact distinct_dirlink (h.distinct dp hdp.1) hnone
      · rw [hg d hdn hddp] at hd ⊢
        exact h.distinct d hd
  · intro d hd hzero
    by_cases hdn : d = n
    · rw [hdn, hgn] at hzero
      cases hzero
    · by_cases hddp : d = dp
      · rw [hddp, hgdp] at hzero
        cases hzero
      · rw [hg d hdn hddp] at hd hzero ⊢
        exact h.removed d hd hzero
  · intro d c hd hc
    by_cases hcn : c = n
    · subst hcn
      by_cases hdn : d = c
      · rw [hdn, hkidsn, hdotn.up_eq, if_neg fun hif => hne (Option.some.inj hif.2.2)]
        rfl
      · by_cases hddp : d = dp
        · rw [hddp, hkidsdp, List.count_cons_self, List.count_eq_zero_of_not_mem (hnew dp hdp.1),
            if_pos ⟨hroot.symm, by rw [hgn]; exact Nat.one_pos, hdotn.up_eq⟩]
        · rw [hdotn.up_eq, if_neg fun hif => hddp (Option.some.inj hif.2.2).symm, hg d hdn hddp]
          exact List.count_eq_zero_of_not_mem (hnew d (htype d hdn ▸ hd))
    · have hfc := htype c hcn ▸ hc
      rw [hup c hcn]
      simp only [hlive c hcn hfc]
      by_cases hdn : d = n
      · rw [hdn, hkidsn, if_neg]
        · rfl
        · intro hif
          have hfn := (h.above c n ⟨hfc, hif.2.1⟩ hif.1 hif.2.2).1
          exact dir_ne_free hfn hn
      · rw [← h.kids d c (htype d hdn ▸ hd) hfc]
        by_cases hddp : d = dp
        · rw [hddp, hkidsdp, List.count_cons_of_ne (Ne.symm hcn)]
        · rw [hg d hdn hddp]
  · intro c d hc hcroot hd
    by_cases hcn : c = n
    · rw [hcn, hdotn.up_eq] at hd
      obtain rfl := Option.some.inj hd
      exact (halive' _ hdp).2
    · rw [hup c hcn] at hd
      exact (halive' d (h.above c d (halive c hcn hc) hcroot hd)).2
  · obtain ⟨rank, hrank⟩ := h.rank
    refine ⟨Function.update rank n (rank dp + 1), ?_⟩
    intro c d hc hcroot hd
    by_cases hcn : c = n
    · rw [hcn, hdotn.up_eq] at hd
      obtain rfl := Option.some.inj hd
      rw [hcn, Function.update_self, Function.update_of_ne hne]
      exact Nat.lt_succ_self _
    · rw [hup c hcn] at hd
      have hdn := (halive' d (h.above c d (halive c hcn hc) hcroot hd)).1
      rw [Function.update_of_ne hcn, Function.update_of_ne hdn]
      exact hrank c d (halive c hcn hc) hcroot hd
  · rw [hup _ hroot]
    exact h.top

/-- The empty directory `n` loses its entry in `dp` and its link. -/
theorem Shape.rmdir (h : Shape f) (hdp : (f dp).type = .dir) (hn : (f n).type = .dir)
    (hk : ((f dp).entries.drop 2)[k]? = some ⟨some n, name⟩) (hempty : (f n).kids = [])
    (hone : (f n).nlink = 1) (htwo : 1 < (f dp).nlink)
    (hgn : g n = { f n with nlink := (f n).nlink - 1 })
    (hgdp : g dp = { f dp with
      nlink := (f dp).nlink - 1, entries := (f dp).entries.set (k + 2) ⟨none, []⟩ })
    (hg : ∀ d, d ≠ n → d ≠ dp → g d = f d) : Shape g := by
  have hmem : n ∈ (f dp).kids :=
    List.mem_filterMap.mpr ⟨_, List.mem_of_getElem? hk, rfl⟩
  obtain ⟨hnroot, hnalive, hnup, hdpalive⟩ := h.kid hdp hn hmem
  have hne : dp ≠ n := h.kid_ne hdp hmem
  obtain ⟨p, hp⟩ := h.dots dp hdp
  have hdotdp : (g dp).Dotted dp p := by
    rw [hgdp]
    exact dotted_set hp rfl
  have hkidsdp : ∀ c, (f dp).kids.count c = (n :: (g dp).kids).count c := by
    intro c
    rw [hgdp]
    exact (kids_set hp hk).count_eq c
  have htype : ∀ d, (g d).type = (f d).type := by
    intro d
    by_cases hdn : d = n
    · rw [hdn, hgn]
    · by_cases hddp : d = dp
      · rw [hddp, hgdp]
      · rw [hg d hdn hddp]
  have hgone : (g n).nlink = 0 := by
    rw [hgn, hone]
  have hlive : ∀ d, d ≠ n → (0 < (g d).nlink ↔ 0 < (f d).nlink) := by
    intro d hdn
    by_cases hddp : d = dp
    · rw [hddp, hgdp]
      dsimp only
      omega
    · rw [hg d hdn hddp]
  have hup : ∀ d, (g d).up = (f d).up := by
    intro d
    by_cases hdn : d = n
    · rw [hdn, hgn]
      rfl
    · by_cases hddp : d = dp
      · rw [hddp, hdotdp.up_eq, hp.up_eq]
      · rw [hg d hdn hddp]
  have hne_of_alive : ∀ d, (g d).Alive → d ≠ n := by
    rintro d hd rfl
    exact absurd hgone hd.2.ne'
  have halive : ∀ d, (g d).Alive → (f d).Alive := by
    intro d hd
    exact ⟨htype d ▸ hd.1, (hlive d (hne_of_alive d hd)).mp hd.2⟩
  refine ⟨?_, ?_, ?_, ?_, ?_, ?_, ?_, ?_, ?_⟩
  · intro m hm
    by_cases hmn : m = n
    · rw [hmn]
      exact hgone
    · by_cases hmdp : m = dp
      · rw [htype, hmdp, hdp] at hm
        cases hm
      · rw [hg m hmn hmdp] at hm ⊢
        exact h.free m hm
  · intro d hd
    by_cases hdn : d = n
    · rw [hdn, hgn]
      exact h.dots n hn
    · by_cases hddp : d = dp
      · exact ⟨p, hddp ▸ hdotdp⟩
      · rw [hg d hdn hddp] at hd ⊢
        exact h.dots d hd
  · intro d hd
    by_cases hdn : d = n
    · rw [hdn, hgn]
      exact h.distinct n hn
    · by_cases hddp : d = dp
      · rw [hddp, hgdp]
        exact distinct_set (h.distinct dp hdp)
      · rw [hg d hdn hddp] at hd ⊢
        exact h.distinct d hd
  · intro d hd hzero
    by_cases hdn : d = n
    · rw [hdn, hgn]
      exact hempty
    · by_cases hddp : d = dp
      · rw [hddp] at hdn hzero
        exact absurd hzero ((hlive dp hdn).mpr hdpalive.2).ne'
      · rw [hg d hdn hddp] at hd hzero ⊢
        exact h.removed d hd hzero
  · intro d c hd hc
    have hfd := htype d ▸ hd
    have hfc := htype c ▸ hc
    have hold := h.kids d c hfd hfc
    rw [hup c]
    by_cases hcn : c = n
    · subst hcn
      rw [if_neg fun hif => absurd hgone hif.2.1.ne']
      by_cases hddp : d = dp
      · subst hddp
        have hcount := hkidsdp c
        rw [List.count_cons_self] at hcount
        rw [if_pos ⟨hnroot, hnalive.2, hnup⟩] at hold
        omega
      · rw [if_neg fun hif => hddp (Option.some.inj (hif.2.2.symm.trans hnup))] at hold
        by_cases hdn : d = c
        · rw [hdn, hgn]
          exact hdn ▸ hold
        · rw [hg d hdn hddp]
          exact hold
    · simp only [hlive c hcn]
      rw [← hold]
      by_cases hddp : d = dp
      · rw [hddp, hkidsdp, List.count_cons_of_ne (Ne.symm hcn)]
      · by_cases hdn : d = n
        · rw [hdn, hgn]
          rfl
        · rw [hg d hdn hddp]
  · intro c d hc hcroot hd
    rw [hup c] at hd
    have hfd := h.above c d (halive c hc) hcroot hd
    have hdn : d ≠ n := by
      rintro rfl
      -- an empty directory is the `..` of none
      have hcount := h.kids d c hn (halive c hc).1
      rw [hempty, if_pos ⟨hcroot, (halive c hc).2, hd⟩] at hcount
      cases hcount
    exact ⟨by rw [htype]; exact hfd.1, (hlive d hdn).mpr hfd.2⟩
  · obtain ⟨rank, hrank⟩ := h.rank
    exact ⟨rank, fun c d hc hcroot hd => hrank c d (halive c hc) hcroot (hup c ▸ hd)⟩
  · exact ⟨by rw [htype]; exact h.root.1, (hlive _ (Ne.symm hnroot)).mpr h.root.2⟩
  · rw [hup]
    exact h.top

end Cs537.Names
