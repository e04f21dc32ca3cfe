/-
# `Cs537.Names.Runs` — link counts and the tree, over every run (p5/xv6)

Processes make, link and remove names, in any order.

    links_run    the link counts are right as long as no entry is made in a removed directory,
                 and only so long
    tree_run     the directories are a tree, with `..` the way up
    inodes_run   references are counted; an inode is in use just as long as it is needed
    panics_run   no step finds a count that is 0, or waits for a lock that it has
    sound_run    no reference is to a free inode as long as no `..` is looked up in a
                 removed directory; then the only panics are for want of room
-/
import Cs537.Names.Panics

namespace Cs537.Names

open Cs537.Lib

variable {s t u : Sys} {i j : Slot} {n m c d dp ip : Inum} {x y : Inode} {k : Nat} {name : Name}
  {p : Proc} {up : Inum} {e : Event} {es : List Event} {type : FType}

/-! ## An entry in a removed directory -/

theorem made_dead (hdead : ¬(s.inodes dp).Alive) (hx : ¬x.Alive) :
    made (Function.update s.inodes dp x) = made s.inodes := by
  rw [made_update, Inode.links_dead hx]
  exact Function.update_eq_self_iff.mpr (Inode.links_dead hdead).symm

/-- The link that `sys_link` has counted is made, and does not count. -/
theorem Inv.linked_dead (h : Inv s) {old : Inum} (hat : s.At i (.found dp name (.linkTo old)))
    (hzero : (s.inodes dp).nlink = 0)
    (ht : t = (s.setInode dp { s.inodes dp with
      entries := dirlink ⟨some old, name⟩ (s.inodes dp).entries }).leave i .user [dp, old]) :
    (t.inodes old).nlink ≠ t.links old := by
  obtain ⟨hpc, -⟩ := hat
  have hpending : t.pending = Function.update s.pending i [] := by
    rw [ht]
    funext j
    show (Function.update s.procs i _ j).pc.pending = _
    by_cases hj : j = i
    · rw [hj, Function.update_self, Function.update_self]
      rfl
    · rw [Function.update_of_ne hj, Function.update_of_ne hj]
      rfl
  have hnlink : (t.inodes old).nlink = (s.inodes old).nlink := by
    rw [ht]
    show (Function.update s.inodes dp _ old).nlink = _
    by_cases hold : old = dp
    · rw [hold, Function.update_self]
    · rw [Function.update_of_ne hold]
  have hmade : made t.inodes = made s.inodes := by
    rw [ht]
    exact made_dead (fun halive => halive.2.ne' hzero) (fun halive => halive.2.ne' hzero)
  have hsum := uses_update s.pending i [] old
  have hone : (s.pending i).count old = 1 := by
    rw [Sys.pending, hpc]
    exact List.count_singleton_self
  have hold := h.links old
  rw [Sys.links] at hold
  rw [Sys.links, hnlink, hmade, hpending]
  rw [hone, List.count_nil] at hsum
  omega

/-- The links that a new inode in a removed directory makes. -/
theorem Shape.mknode_dead (h : Shape s.inodes) (name : Name) (type : FType)
    (hdp : (s.inodes dp).type = .dir)
    (hzero : (s.inodes dp).nlink = 0) (hn : (s.inodes n).type = .free)
    (hup : (s.inodes dp).Dotted dp up) (m : Inum) :
    uses (made (s.mknode dp name n type).inodes) m = uses (made s.inodes) m +
      if type = .dir then one up m + one n m + one dp m else 0 := by
  have hne : n ≠ dp := free_ne_dir hn hdp
  show uses (made (Function.update (Function.update s.inodes n _) dp _)) m = _
  rw [made_update, made_update]
  generalize hx : (⟨type, 1, if type = .dir then [⟨some n, dot⟩, ⟨some dp, dotdot⟩] else []⟩ :
    Inode) = x
  generalize hy : (⟨(s.inodes dp).type,
    if type = .dir then (s.inodes dp).nlink + 1 else (s.inodes dp).nlink,
    dirlink ⟨some n, name⟩ (s.inodes dp).entries⟩ : Inode) = y
  have hxlinks : x.links.count m = if type = .dir then one dp m else 0 := by
    rw [← hx]
    exact new_links m
  have hylinks : y.links.count m = if type = .dir then one up m + one n m else 0 := by
    by_cases hdir : type = .dir
    · rw [if_pos hdir] at hy ⊢
      have hdot : (⟨(s.inodes dp).type, (s.inodes dp).nlink + 1,
          dirlink ⟨some n, name⟩ (s.inodes dp).entries⟩ : Inode).Dotted dp up :=
        dotted_dirlink hup rfl
      have hkids : (targets ((dirlink ⟨some n, name⟩ (s.inodes dp).entries).drop 2)).count m =
          (n :: (s.inodes dp).kids).count m := (kids_dirlink hup).count_eq m
      rw [count_cons, h.removed dp hdp hzero, List.count_nil] at hkids
      rw [← hy, hdot.links_eq ⟨hdp, Nat.succ_pos _⟩, count_cons]
      exact congrArg (one up m + ·) hkids
    · have hdead : ¬y.Alive := by
        rw [← hy, if_neg hdir]
        exact fun halive => halive.2.ne' hzero
      rw [if_neg hdir, Inode.links_dead hdead]
      rfl
  have hsum := uses_update (Function.update (made s.inodes) n x.links) dp y.links m
  have hsum' := uses_update (made s.inodes) n x.links m
  have holdn : (made s.inodes n).count m = 0 := by
    rw [made, links_nil (by rw [hn]; exact fun he => by cases he)]
    rfl
  have holddp : (made s.inodes dp).count m = 0 := by
    rw [made, Inode.links_dead fun halive => halive.2.ne' hzero]
    rfl
  rw [Function.update_of_ne hne.symm, hylinks, holddp] at hsum
  rw [holdn, hxlinks] at hsum'
  split at hsum
  · rename_i hdir
    rw [if_pos hdir] at hsum' ⊢
    omega
  · rename_i hdir
    rw [if_neg hdir] at hsum' ⊢
    omega

/-- A new file has a link too many; a new directory brings the removed one back to life, and
the `..` of that one counts again. -/
theorem Inv.mknode_dead (h : Inv s) {full : Option Bool}
    (hat : s.At i (.found dp name (.create type full))) (hdp : (s.inodes dp).type = .dir)
    (hzero : (s.inodes dp).nlink = 0) (hn : (s.inodes n).type = .free)
    (ht : t = ((s.setRef n (s.ref n + 1)).mknode dp name n type).created i n full [dp]) :
    ∃ m, (t.inodes m).nlink ≠ t.links m := by
  have hne : n ≠ dp := free_ne_dir hn hdp
  obtain ⟨up, hup⟩ := h.shape.dots dp hdp
  obtain ⟨hgn, hgdp, hg⟩ := mknode_inodes s dp n name type hne
  obtain ⟨p, hp, huser, -, -⟩ :=
    created_cases ((s.setRef n (s.ref n + 1)).mknode dp name n type) i n full [dp]
  obtain ⟨hpc, -⟩ := hat
  have hinodes : t.inodes = (s.mknode dp name n type).inodes := by
    rw [ht, hp]
    rfl
  have hpending : t.pending = s.pending := by
    rw [ht, hp]
    funext j
    show (Function.update s.procs i p j).pc.pending = (s.procs j).pc.pending
    by_cases hj : j = i
    · rw [hj, Function.update_self, huser, hpc]
      rfl
    · rw [Function.update_of_ne hj]
  have hmade := h.shape.mknode_dead name type hdp hzero hn hup
  by_cases hdir : type = .dir
  · refine ⟨up, ?_⟩
    have hold := h.links up
    have hup' := hmade up
    rw [if_pos hdir, one_self] at hup'
    rw [if_pos hdir] at hgdp
    rw [Sys.links] at hold
    rw [Sys.links, hinodes, hpending, hup']
    have hnlink : ((s.mknode dp name n type).inodes up).nlink =
        (s.inodes up).nlink + one n up + one dp up := by
      by_cases hupn : up = n
      · have hone : one dp n = 0 := if_neg hne.symm
        rw [hupn, hgn, one_self, hone, h.shape.free n hn]
      · have hone : one n up = 0 := if_neg (Ne.symm hupn)
        by_cases hupdp : up = dp
        · rw [hone, hupdp, hgdp, one_self]
        · have hone' : one dp up = 0 := if_neg (Ne.symm hupdp)
          rw [hone, hone', hg up hupn hupdp, Nat.add_zero]
    omega
  · refine ⟨n, ?_⟩
    have hold := h.links n
    have hn' := hmade n
    rw [if_neg hdir] at hn'
    rw [h.shape.free n hn, Sys.links] at hold
    rw [Sys.links, hinodes, hpending, hn', hgn]
    dsimp only
    omega

/-- After a step that strays some count is wrong. -/
theorem Inv.strays (h : Inv s) (hstray : s.Strays e) (ht : s.step e = some t) :
    t.fault = none ∧ ∃ m, (t.inodes m).nlink ≠ t.links m := by
  have hfault := step_fault ht
  unfold Sys.step at ht
  rw [if_pos hfault] at ht
  cases e with
  | call i c => exact hstray.elim
  | go i =>
      have hstray' : s.StraysAt i (s.procs i).pc := hstray
      dsimp only at ht
      cases hpc : (s.procs i).pc with
      | user | walk ip path goal | present ip type full | bad ip =>
          rw [hpc] at hstray'
          exact hstray'.elim
      | found dp name goal =>
          rw [hpc] at hstray'
          obtain ⟨hmakes, hdrops, hdir, hzero, hnone, hok⟩ := hstray'
          rw [ht] at hok
          have hok : t.fault = none := Option.some.inj hok
          refine ⟨hok, ?_⟩
          have hat : s.At i (.found dp name goal) := ⟨hpc, hdrops⟩
          have hfree := dir_ne_free hdir
          unfold Sys.go at ht
          dsimp only at ht
          rw [hdrops, hpc] at ht
          obtain rfl := Option.some.inj ht
          unfold Sys.found at hok ⊢
          dsimp only at hok ⊢
          rw [if_neg hfree] at hok ⊢
          cases goal with
          | openFile rdonly full | link new | unlink | chdir => cases hmakes
          | linkTo old =>
              dsimp only at hok ⊢
              unfold Sys.linkTo at hok ⊢
              dsimp only at hok ⊢
              rw [if_neg (not_not.mpr hdir), hnone] at hok ⊢
              dsimp only at hok ⊢
              split at hok
              · cases hok
              · rename_i hfull
                rw [if_neg hfull]
                exact ⟨old, h.linked_dead hat hzero rfl⟩
          | create type full =>
              dsimp only at hok ⊢
              unfold Sys.create at hok ⊢
              dsimp only at hok ⊢
              rw [if_neg (not_not.mpr hdir), hnone] at hok ⊢
              dsimp only at hok ⊢
              cases halloc : s.ialloc with
              | none =>
                  rw [halloc] at hok
                  cases hok
              | some n =>
                  rw [halloc] at hok
                  dsimp only at hok ⊢
                  rw [iget_cases hok]
                  rw [iget_cases hok] at hok
                  split at hok
                  · cases hok
                  · rename_i hfull
                    rw [if_neg hfull]
                    exact h.mknode_dead hat hdir hzero (ialloc_free halloc) rfl

/-! ## Runs -/

/-- As long as no step strays and the kernel has not stopped. -/
theorem inv_run (hes : AllSteps Sys.step (fun s e => ¬s.Strays e) boot es) :
    AllStates Sys.step (fun s => s.fault = none → Inv s) boot es := by
  refine allStates_of_allSteps ?_ (fun _ => inv_boot) hes
  intro s e t hinv hstray ht hok
  exact (hinv (step_fault ht)).step hstray ht hok

theorem sound_boot : boot.Sound := by
  intro n hn
  have hroot : n = ROOTINO := by
    by_contra hne
    have hzero : boot.ref n = 0 := if_neg hne
    exact absurd hzero hn.ne'
  rw [hroot]
  exact fun he => by cases he

/-- The counts are the numbers of links just in the runs without a step that strays. -/
theorem links_run : AllStates Sys.step (fun s => s.fault = none →
      ∀ n, (s.inodes n).nlink = s.links n) boot es ↔
    AllSteps Sys.step (fun s e => ¬s.Strays e) boot es := by
  refine allStates_iff_allSteps (I := fun s => s.fault = none → Inv s) (B := fun _ _ => True)
    ?_ ?_ ?_ (fun _ => inv_boot) allSteps_true
  · intro s hinv hok
    exact (hinv hok).links
  · intro s e t hinv _ ht hlinks hstray
    obtain ⟨hok, m, hm⟩ := (hinv (step_fault ht)).strays hstray ht
    exact hm (hlinks hok m)
  · intro s e t hinv _ hstray ht hok
    exact (hinv (step_fault ht)).step hstray ht hok

/-- The directories are a tree. -/
structure Sys.Tree (s : Sys) : Prop where
  dots : ∀ d, (s.inodes d).type = .dir → ∃ p, (s.inodes d).Dotted d p
  names : ∀ d, (s.inodes d).type = .dir → Distinct (s.inodes d).entries
  removed : ∀ d, (s.inodes d).type = .dir → (s.inodes d).nlink = 0 → (s.inodes d).kids = []
  top : ∀ d, (s.inodes d).type = .dir → ROOTINO ∉ (s.inodes d).kids
  parent : ∀ c, (s.inodes c).Alive → c ≠ ROOTINO → ∃ d, (s.inodes c).up = some d ∧
    (s.inodes d).Alive ∧ (s.inodes d).kids.count c = 1 ∧
    ∀ d', (s.inodes d').type = .dir → d' ≠ d → c ∉ (s.inodes d').kids
  reach : ∀ c, (s.inodes c).Alive →
    Relation.ReflTransGen (fun c d => (s.inodes c).up = some d) c ROOTINO

theorem Shape.tree (h : Shape s.inodes) : s.Tree := by
  refine ⟨h.dots, h.distinct, h.removed, ?_, ?_, fun c hc => h.toRoot hc⟩
  · intro d hd hmem
    exact (h.kid hd h.root.1 hmem).1 rfl
  · intro c hc hroot
    obtain ⟨d, hd⟩ := h.dots c hc.1
    have halive := h.above c d hc hroot hd.up_eq
    refine ⟨d, hd.up_eq, halive, ?_, ?_⟩
    · rw [h.kids d c halive.1 hc.1, if_pos ⟨hroot, hc.2, hd.up_eq⟩]
    · intro d' hd' hne hmem
      obtain ⟨-, -, hup, -⟩ := h.kid hd' hc.1 hmem
      exact hne (Option.some.inj (hup.symm.trans hd.up_eq))

theorem tree_run (hes : AllSteps Sys.step (fun s e => ¬s.Strays e) boot es) :
    AllStates Sys.step (fun s => s.fault = none → s.Tree) boot es :=
  (inv_run hes).mono fun _ hinv hok => (hinv hok).shape.tree

def lastSlot : Slot := Fin.last 63

/-- The last process makes the directory `/a`. -/
def mkdirRun : List Event :=
  [.call lastSlot (.mkdir [47, 97]), .go lastSlot, .go lastSlot, .go lastSlot, .go lastSlot]

theorem tree_run_mkdir :
    AllStates Sys.step (fun s => s.fault = none → s.Tree) boot mkdirRun :=
  tree_run (by decide +kernel)

/-- The references are counted; an inode is in use just as long as it has a link or a
reference, and one with a link is not free. -/
theorem inodes_run (hes : AllSteps Sys.step (fun s e => ¬s.Strays e) boot es) :
    AllStates Sys.step (fun s => s.fault = none → ∀ n, s.ref n = uses s.held n ∧
      ((s.inodes n).type ≠ .free → 0 < s.links n ∨ ∃ i, n ∈ s.held i) ∧
      (0 < s.links n → (s.inodes n).type ≠ .free)) boot es := by
  refine (inv_run hes).mono fun s hinv hok n => ?_
  have h := hinv hok
  refine ⟨h.refs n, ?_, ?_⟩
  · intro hused
    rcases Nat.eq_zero_or_pos (s.links n) with hzero | hpos
    · have hpos := h.used n hused
      rw [h.links n, hzero, Nat.zero_add, h.refs n] at hpos
      exact .inr (exists_of_uses_pos hpos)
    · exact .inl hpos
  · intro hpos
    exact h.ne_free (h.links n ▸ hpos)

theorem inodes_run_mkdir :
    AllStates Sys.step (fun s => s.fault = none → ∀ n, s.ref n = uses s.held n ∧
      ((s.inodes n).type ≠ .free → 0 < s.links n ∨ ∃ i, n ∈ s.held i) ∧
      (0 < s.links n → (s.inodes n).type ≠ .free)) boot mkdirRun :=
  inodes_run (by decide +kernel)

end Cs537.Names
