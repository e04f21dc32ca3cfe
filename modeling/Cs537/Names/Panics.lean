/-
# `Cs537.Names.Panics` — which panics there are (p5/xv6)

`Stops b t`: if the kernel has stopped, it is for want of room, or, should `b` hold, because
`ilock` has found an inode without a type.  A step of a process with the invariant stops for
no other reason (`Inv.stops_step`): what `nameiparent` returns is a directory, and an entry
that `sys_unlink` finds is for another inode, which has a link.

`ilock` finds a type as long as no reference is to a free inode (`Sys.Sound`), and the only
way to get one that is: the `..` of a removed directory (`Inv.sound_step`).
-/
import Cs537.Names.Safe

namespace Cs537.Names

open Cs537.Lib

variable {s t u : Sys} {i j : Slot} {n m c d dp ip : Inum} {x y : Inode} {k : Nat} {name : Name}
  {p q : Proc} {up : Inum} {goal : Goal} {e : Event} {next : Sys → Sys} {b : Prop}
  {path : List UInt8} {drops : List Inum} {type : FType} {full : Option Bool}

/-! ## Panics -/

/-- The cache, the disk or a directory is full. -/
def Fault.Room (f : Fault) : Prop := f = .noInodes ∨ f = .noFree ∨ f = .dirFull

def Sys.Stops (b : Prop) (s : Sys) : Prop :=
  ∀ f, s.fault = some f → f.Room ∨ (f = .noType ∧ b)

theorem stops_of_none (h : s.fault = none) : s.Stops b := by
  intro f hf
  rw [h] at hf
  cases hf

theorem stops_room {f : Fault} (h : f.Room) : (s.crash f).Stops b := by
  intro g hg
  exact .inl (Option.some.inj hg ▸ h)

theorem stops_noType (h : b) : (s.crash .noType).Stops b := by
  intro g hg
  exact .inr ⟨(Option.some.inj hg).symm, h⟩

theorem Sys.Stops.iget (h : (next (s.setRef n (s.ref n + 1))).Stops b) :
    (s.iget n next).Stops b := by
  unfold Sys.iget
  split
  · exact h
  · exact stops_room (.inl rfl)

theorem stops_namex (h : s.fault = none) : (s.namex i path goal drops).Stops b := by
  unfold Sys.namex
  split
  · exact Sys.Stops.iget (stops_of_none h)
  · exact stops_of_none h

theorem stops_walk (h : s.fault = none) (hb : (s.inodes ip).type = .free → b) :
    (s.walk i ip path goal).Stops b := by
  unfold Sys.walk
  split
  · split <;> exact stops_of_none h
  · dsimp only
    split
    · rename_i hfree
      exact stops_noType (hb hfree)
    · split
      · exact stops_of_none h
      · split
        · exact stops_of_none h
        · split
          · exact stops_of_none h
          · exact Sys.Stops.iget (stops_of_none h)

theorem stops_created (h : s.fault = none) : (s.created i ip full drops).Stops b := by
  obtain ⟨p, hp, -, -, -⟩ := created_cases s i ip full drops
  rw [hp]
  exact stops_of_none h

theorem stops_create (h : s.fault = none) (hdir : (s.inodes dp).type = .dir) :
    (s.create i dp name type full).Stops b := by
  unfold Sys.create
  dsimp only
  rw [if_neg (not_not.mpr hdir)]
  split
  · exact Sys.Stops.iget (stops_of_none h)
  · split
    · exact stops_room (.inr (.inl rfl))
    · rename_i n _
      refine Sys.Stops.iget ?_
      split
      · exact stops_room (.inr (.inr rfl))
      · exact stops_created (s := (s.setRef n (s.ref n + 1)).mknode dp name n type) h

theorem stops_linkTo (h : s.fault = none) {old : Inum} (hdir : (s.inodes dp).type = .dir) :
    (s.linkTo i dp name old).Stops b := by
  unfold Sys.linkTo
  dsimp only
  rw [if_neg (not_not.mpr hdir)]
  split
  · exact Sys.Stops.iget (stops_of_none h)
  · split
    · exact stops_room (.inr (.inr rfl))
    · exact stops_of_none h

/-- The entry that `sys_unlink` finds is for another inode, which has a link. -/
theorem Inv.unlinked (h : Inv s) (hdir : (s.inodes dp).type = .dir)
    (hdots : ¬(name = dot ∨ name = dotdot))
    (hlook : dirlookup name (s.inodes dp).entries = some (k, n)) :
    n ≠ dp ∧ 0 < (s.inodes n).nlink := by
  obtain ⟨up, hup⟩ := h.shape.dots dp hdir
  obtain ⟨j, -, hj⟩ := two_le_index hup (fun he => hdots (.inl he)) (fun he => hdots (.inr he))
    (dirlookup_some hlook)
  have hmem : n ∈ (s.inodes dp).kids := List.mem_filterMap.mpr ⟨_, List.mem_of_getElem? hj, rfl⟩
  exact ⟨(h.shape.kid_ne hdir hmem).symm, h.pos_of_kid hdir hmem⟩

theorem Inv.stops_unlink (h : Inv s) (hok : s.fault = none) (hdir : (s.inodes dp).type = .dir) :
    (s.unlink i dp name).Stops b := by
  unfold Sys.unlink
  dsimp only
  split
  · exact stops_of_none hok
  · rename_i hdots
    rw [if_neg (not_not.mpr hdir)]
    cases hlook : dirlookup name (s.inodes dp).entries with
    | none => exact stops_of_none hok
    | some r =>
        obtain ⟨k, n⟩ := r
        obtain ⟨hne, hpos⟩ := h.unlinked hdir hdots hlook
        refine Sys.Stops.iget ?_
        dsimp only
        rw [if_neg hne]
        split
        · rename_i hfree
          exact absurd hfree (h.ne_free hpos)
        · split
          · rename_i hlt
            exact absurd hpos (Nat.not_lt.mpr (Nat.lt_succ_iff.mp hlt))
          · split <;> exact stops_of_none hok

theorem Inv.stops_found (h : Inv s) (hok : s.fault = none) (hat : s.At i (.found ip name goal))
    (hb : (s.inodes ip).type = .free → b) : (s.found i ip name goal).Stops b := by
  have hdir : goal.parent = true → (s.inodes ip).type = .dir :=
    fun hgoal => (h.good i).parent ip name goal hat.1 hgoal
  unfold Sys.found
  dsimp only
  split
  · rename_i hfree
    exact stops_noType (hb hfree)
  · cases goal with
    | openFile rdonly full =>
        dsimp only
        split
        · exact stops_of_none hok
        · have hend : (s.created i ip (some full) []).Stops b := stops_created hok
          exact hend
    | create type full => exact stops_create hok (hdir rfl)
    | link new =>
        dsimp only
        split
        · exact stops_of_none hok
        · exact stops_namex hok
    | linkTo old => exact stops_linkTo hok (hdir rfl)
    | unlink => exact h.stops_unlink hok (hdir rfl)
    | chdir =>
        dsimp only
        split <;> exact stops_of_none hok

/-- A process has a reference to the inode that it locks. -/
theorem Inv.ref_pos (h : Inv s) (hn : n ∈ (s.procs i).pc.held) : 0 < s.ref n := by
  have hcount := count_le_uses s.held i n
  have hone := one_le_count hn
  rw [Sys.held, held_count] at hcount
  rw [h.refs n]
  omega

theorem Inv.stops_step (h : Inv s) (hb : ∀ n, 0 < s.ref n → (s.inodes n).type = .free → b)
    (ht : s.step e = some t) : t.Stops b := by
  have hok := step_fault ht
  unfold Sys.step at ht
  rw [if_pos hok] at ht
  cases e with
  | call i c =>
      dsimp only at ht
      split at ht
      · cases c with
        | close k =>
            obtain ⟨n, -, rfl⟩ := Option.map_eq_some_iff.mp ht
            exact stops_of_none hok
        | openFile | create | mkdir | mknod | link | unlink | chdir =>
            obtain rfl := Option.some.inj ht
            exact stops_namex hok
      · cases ht
  | go i =>
      dsimp only at ht
      unfold Sys.go at ht
      dsimp only at ht
      cases hdrops : (s.procs i).drops with
      | cons n rest =>
          rw [hdrops] at ht
          obtain rfl := Option.some.inj ht
          refine stops_of_none ?_
          show (s.iput n).fault = none
          unfold Sys.iput
          split <;> exact hok
      | nil =>
          rw [hdrops] at ht
          have hheld : ∀ n, n ∈ (s.procs i).pc.held → (s.inodes n).type = .free → b :=
            fun n hn => hb n (h.ref_pos hn)
          cases hpc : (s.procs i).pc with
          | user =>
              rw [hpc] at ht
              cases ht
          | walk ip path goal =>
              rw [hpc] at ht hheld
              obtain rfl := Option.some.inj ht
              exact stops_walk hok (hheld ip List.mem_cons_self)
          | found ip name goal =>
              rw [hpc] at ht hheld
              obtain rfl := Option.some.inj ht
              exact h.stops_found hok ⟨hpc, hdrops⟩ (hheld ip List.mem_cons_self)
          | present ip type full =>
              rw [hpc] at ht hheld
              obtain rfl := Option.some.inj ht
              show (s.present i ip type full).Stops b
              unfold Sys.present
              dsimp only
              split
              · rename_i hfree
                exact stops_noType (hheld ip List.mem_cons_self hfree)
              · split
                · exact stops_created hok
                · exact stops_of_none hok
          | bad ip =>
              rw [hpc] at ht hheld
              obtain rfl := Option.some.inj ht
              show (s.bad i ip).Stops b
              unfold Sys.bad
              dsimp only
              split
              · rename_i hfree
                exact stops_noType (hheld ip List.mem_cons_self hfree)
              · exact stops_of_none hok

/-! ## References to inodes in use -/

/-- No reference is to a free inode. -/
def Sys.Sound (s : Sys) : Prop := ∀ n, 0 < s.ref n → (s.inodes n).type ≠ .free

/-- Process `i` looks `..` up in a directory that has been removed. -/
def Sys.LooksUpAt (s : Sys) (i : Slot) : Pc → Prop
  | .walk dp path _ => (s.procs i).drops = [] ∧ (s.inodes dp).nlink = 0 ∧
      (skipelem path).map Prod.fst = some dotdot
  | .found dp name goal => (s.procs i).drops = [] ∧ (s.inodes dp).nlink = 0 ∧
      goal.makes = true ∧ name = dotdot
  | _ => False

instance instDecidableLooksUpAt (s : Sys) (i : Slot) : ∀ pc, Decidable (s.LooksUpAt i pc)
  | .walk dp path _ =>
      inferInstanceAs (Decidable ((s.procs i).drops = [] ∧ (s.inodes dp).nlink = 0 ∧
        (skipelem path).map Prod.fst = some dotdot))
  | .found dp name goal =>
      inferInstanceAs (Decidable ((s.procs i).drops = [] ∧ (s.inodes dp).nlink = 0 ∧
        goal.makes = true ∧ name = dotdot))
  | .user | .present _ _ _ | .bad _ => inferInstanceAs (Decidable False)

def Sys.LooksUp (s : Sys) : Event → Prop
  | .call _ _ => False
  | .go i => s.LooksUpAt i (s.procs i).pc

instance instDecidableLooksUp (s : Sys) : ∀ e, Decidable (s.LooksUp e)
  | .call _ _ => inferInstanceAs (Decidable False)
  | .go i => inferInstanceAs (Decidable (s.LooksUpAt i (s.procs i).pc))

/-- What `dirlookup` finds is in use. -/
theorem Inv.looked (h : Inv s) (hdp : (s.inodes dp).type = .dir)
    (hlook : dirlookup name (s.inodes dp).entries = some (k, n))
    (hup : (s.inodes dp).nlink = 0 → name ≠ dotdot) : (s.inodes n).type ≠ .free := by
  have hk := dirlookup_some hlook
  obtain ⟨p, hp⟩ := h.shape.dots dp hdp
  by_cases hdots : name = dot ∨ name = dotdot
  · obtain ⟨rest, hrest⟩ := hp
    rw [hrest] at hk
    cases k with
    | zero =>
        obtain ⟨hn, -⟩ := Dirent.mk.inj (Option.some.inj hk)
        obtain rfl := Option.some.inj hn
        exact dir_ne_free hdp
    | succ k =>
        cases k with
        | zero =>
            obtain ⟨hn, rfl⟩ := Dirent.mk.inj (Option.some.inj hk)
            obtain rfl := Option.some.inj hn
            have halive : (s.inodes dp).Alive :=
              ⟨hdp, Nat.pos_of_ne_zero fun hzero => hup hzero rfl⟩
            have hdpup : (s.inodes dp).up = some p := (show (s.inodes dp).Dotted dp p from
              ⟨rest, hrest⟩).up_eq
            by_cases hroot : dp = ROOTINO
            · rw [hroot, h.shape.top] at hdpup
              rw [← Option.some.inj hdpup]
              exact dir_ne_free h.shape.root.1
            · exact dir_ne_free (h.shape.above dp p halive hroot hdpup).1
        | succ k =>
            have hmem : n ∈ (s.inodes dp).kids := by
              rw [Inode.kids, hrest]
              exact List.mem_filterMap.mpr ⟨_, List.mem_of_getElem? hk, rfl⟩
            exact h.ne_free (h.pos_of_kid hdp hmem)
  · exact h.ne_free (h.unlinked hdp hdots hlook).2

theorem Sys.Sound.setRef (h : s.Sound) (hn : (s.inodes n).type ≠ .free) :
    (s.setRef n (s.ref n + 1)).Sound := by
  intro m hm
  by_cases hmn : m = n
  · exact hmn ▸ hn
  · refine h m ?_
    rw [setRef_ref, one, if_neg (Ne.symm hmn)] at hm
    exact hm

theorem Sys.Sound.congr (h : s.Sound) (href : t.ref = s.ref)
    (htype : ∀ m, (t.inodes m).type = (s.inodes m).type) : t.Sound := by
  intro m hm
  rw [htype]
  exact h m (href ▸ hm)

theorem setInode_type (hx : x.type = (s.inodes n).type) (m : Inum) :
    ((s.setInode n x).inodes m).type = (s.inodes m).type := type_update hx m

theorem sound_namex (h : s.Sound) (hroot : (s.inodes ROOTINO).type ≠ .free)
    (hcwd : (s.inodes (s.procs i).cwd).type ≠ .free)
    (hok : (s.namex i path goal drops).fault = none) : (s.namex i path goal drops).Sound := by
  unfold Sys.namex at hok ⊢
  split at hok
  · rename_i hif
    rw [if_pos hif, iget_cases hok]
    exact h.setRef hroot
  · rename_i hif
    rw [if_neg hif]
    exact h.setRef hcwd

theorem sound_created (h : s.Sound) : (s.created i ip full drops).Sound := by
  obtain ⟨p, hp, -, -, -⟩ := created_cases s i ip full drops
  rw [hp]
  exact h

theorem Inv.sound_walk (h : Inv s) (hs : s.Sound)
    (hup : (s.inodes ip).nlink = 0 → (skipelem path).map Prod.fst ≠ some dotdot)
    (hok : (s.walk i ip path goal).fault = none) : (s.walk i ip path goal).Sound := by
  unfold Sys.walk at hok ⊢
  cases hskip : skipelem path with
  | none =>
      dsimp only
      split <;> exact hs
  | some r =>
      obtain ⟨name, path⟩ := r
      rw [hskip] at hok hup
      dsimp only at hok ⊢
      split at hok
      · cases hok
      · rename_i hfree
        rw [if_neg hfree]
        split at hok
        · rename_i htype
          rw [if_pos htype]
          exact hs
        · rename_i htype
          rw [if_neg htype]
          split at hok
          · rename_i hlast
            rw [if_pos hlast]
            exact hs
          · rename_i hlast
            rw [if_neg hlast]
            cases hlook : dirlookup name (s.inodes ip).entries with
            | none => exact hs
            | some r =>
                rw [hlook] at hok
                dsimp only at hok ⊢
                rw [iget_cases hok]
                refine hs.setRef (h.looked (not_not.mp htype) hlook ?_)
                rintro hzero rfl
                exact hup hzero rfl

theorem Inv.sound_create (h : Inv s) (hs : s.Sound) (hdir : (s.inodes dp).type = .dir)
    (htype : type ≠ .free) (hup : (s.inodes dp).nlink = 0 → name ≠ dotdot)
    (hok : (s.create i dp name type full).fault = none) :
    (s.create i dp name type full).Sound := by
  unfold Sys.create at hok ⊢
  dsimp only at hok ⊢
  rw [if_neg (not_not.mpr hdir)] at hok ⊢
  cases hlook : dirlookup name (s.inodes dp).entries with
  | some r =>
      rw [hlook] at hok
      dsimp only at hok ⊢
      rw [iget_cases hok]
      exact hs.setRef (h.looked hdir hlook hup)
  | none =>
      rw [hlook] at hok
      dsimp only at hok ⊢
      cases halloc : s.ialloc with
      | none =>
          rw [halloc] at hok
          cases hok
      | some n =>
          rw [halloc] at hok
          dsimp only at hok ⊢
          rw [iget_cases hok]
          rw [iget_cases hok] at hok
          split at hok
          · cases hok
          · rename_i hfull
            rw [if_neg hfull]
            refine sound_created ?_
            have hn := ialloc_free halloc
            have hne : n ≠ dp := free_ne_dir hn hdir
            obtain ⟨hgn, hgdp, hg⟩ := mknode_inodes s dp n name type hne
            intro m hm
            show ((s.mknode dp name n type).inodes m).type ≠ .free
            by_cases hmn : m = n
            · rw [hmn, hgn]
              exact htype
            · have hm' : 0 < (s.setRef n (s.ref n + 1)).ref m := hm
              rw [setRef_ref, one, if_neg (Ne.symm hmn)] at hm'
              by_cases hmdp : m = dp
              · rw [hmdp, hgdp]
                exact dir_ne_free hdir
              · rw [hg m hmn hmdp]
                exact hs m hm'

theorem Inv.sound_linkTo (h : Inv s) (hs : s.Sound) {old : Inum}
    (hdir : (s.inodes dp).type = .dir) (hup : (s.inodes dp).nlink = 0 → name ≠ dotdot)
    (hok : (s.linkTo i dp name old).fault = none) : (s.linkTo i dp name old).Sound := by
  unfold Sys.linkTo at hok ⊢
  dsimp only at hok ⊢
  rw [if_neg (not_not.mpr hdir)] at hok ⊢
  cases hlook : dirlookup name (s.inodes dp).entries with
  | some r =>
      rw [hlook] at hok
      dsimp only at hok ⊢
      rw [iget_cases hok]
      exact hs.setRef (h.looked hdir hlook hup)
  | none =>
      rw [hlook] at hok
      dsimp only at hok ⊢
      split at hok
      · cases hok
      · rename_i hfull
        rw [if_neg hfull]
        exact hs.congr rfl (setInode_type rfl)

theorem Inv.sound_unlink (h : Inv s) (hs : s.Sound) (hdir : (s.inodes dp).type = .dir)
    (hok : (s.unlink i dp name).fault = none) : (s.unlink i dp name).Sound := by
  unfold Sys.unlink at hok ⊢
  dsimp only at hok ⊢
  split at hok
  · rename_i hdots
    rw [if_pos hdots]
    exact hs
  · rename_i hdots
    rw [if_neg hdots]
    rw [if_neg (not_not.mpr hdir)] at hok ⊢
    cases hlook : dirlookup name (s.inodes dp).entries with
    | none => exact hs
    | some r =>
        obtain ⟨k, n⟩ := r
        obtain ⟨hne, hpos⟩ := h.unlinked hdir hdots hlook
        have hgot := hs.setRef (h.ne_free hpos)
        rw [hlook] at hok
        dsimp only at hok ⊢
        rw [iget_cases hok]
        rw [iget_cases hok] at hok
        rw [if_neg hne] at hok ⊢
        split at hok
        · cases hok
        · rename_i hfree
          rw [if_neg hfree]
          split at hok
          · cases hok
          · rename_i hnlink
            rw [if_neg hnlink]
            split
            · exact hgot
            · exact hgot.congr rfl (rmnode_type (s.setRef n (s.ref n + 1)) dp n k hne)

theorem Inv.sound_found (h : Inv s) (hs : s.Sound) (hat : s.At i (.found ip name goal))
    (hup : (s.inodes ip).nlink = 0 → goal.makes = true → name ≠ dotdot)
    (hok : (s.found i ip name goal).fault = none) : (s.found i ip name goal).Sound := by
  have hdir : goal.parent = true → (s.inodes ip).type = .dir :=
    fun hgoal => (h.good i).parent ip name goal hat.1 hgoal
  unfold Sys.found at hok ⊢
  dsimp only at hok ⊢
  split at hok
  · cases hok
  · rename_i hfree
    rw [if_neg hfree]
    cases goal with
    | openFile rdonly full =>
        dsimp only
        split
        · exact hs
        · have hend : (s.created i ip (some full) []).Sound := sound_created hs
          exact hend
    | create type full =>
        have htype := h.kind_at hat type full rfl
        exact h.sound_create hs (hdir rfl) htype (fun hzero => hup hzero rfl) hok
    | link new =>
        dsimp only at hok ⊢
        split at hok
        · rename_i htyp
          rw [if_pos htyp]
          exact hs
        · rename_i htyp
          rw [if_neg htyp]
          have htypes : ∀ m, ((s.setInode ip
              { s.inodes ip with nlink := (s.inodes ip).nlink + 1 }).inodes m).type =
                (s.inodes m).type := setNlink_type
          refine sound_namex (hs.congr rfl htypes) ?_ ?_ hok
          · rw [htypes]
            exact dir_ne_free h.shape.root.1
          · rw [htypes]
            exact dir_ne_free (h.good i).cwd
    | linkTo old => exact h.sound_linkTo hs (hdir rfl) (fun hzero => hup hzero rfl) hok
    | unlink => exact h.sound_unlink hs (hdir rfl) hok
    | chdir =>
        dsimp only
        split <;> exact hs

theorem Sys.Sound.iput (h : s.Sound) : (s.iput n).Sound := by
  intro m hm
  unfold Sys.iput at hm ⊢
  by_cases hmn : m = n
  · subst hmn
    split at hm
    · rename_i hlast
      have hzero : Function.update s.ref m (s.ref m - 1) m = 0 := by
        rw [Function.update_self, hlast.1]
      exact absurd hzero hm.ne'
    · rename_i hlast
      rw [if_neg hlast]
      have hpos : 0 < Function.update s.ref m (s.ref m - 1) m := hm
      rw [Function.update_self] at hpos
      exact h m (by omega)
  · split at hm
    · rename_i hlast
      rw [if_pos hlast]
      have hpos : 0 < Function.update s.ref n (s.ref n - 1) m := hm
      rw [Function.update_of_ne hmn] at hpos
      show (Function.update s.inodes n _ m).type ≠ .free
      rw [Function.update_of_ne hmn]
      exact h m hpos
    · rename_i hlast
      rw [if_neg hlast]
      have hpos : 0 < Function.update s.ref n (s.ref n - 1) m := hm
      rw [Function.update_of_ne hmn] at hpos
      exact h m hpos

theorem Inv.sound_step (h : Inv s) (hs : s.Sound) (hup : ¬s.LooksUp e) (ht : s.step e = some t)
    (hok : t.fault = none) : t.Sound := by
  have hfault := step_fault ht
  unfold Sys.step at ht
  rw [if_pos hfault] at ht
  cases e with
  | call i c =>
      dsimp only at ht
      split at ht
      · cases c with
        | close k =>
            obtain ⟨n, -, rfl⟩ := Option.map_eq_some_iff.mp ht
            exact hs
        | openFile | create | mkdir | mknod | link | unlink | chdir =>
            obtain rfl := Option.some.inj ht
            exact sound_namex hs (dir_ne_free h.shape.root.1) (dir_ne_free (h.good i).cwd) hok
      · cases ht
  | go i =>
      have hup' : ¬s.LooksUpAt i (s.procs i).pc := hup
      dsimp only at ht
      unfold Sys.go at ht
      dsimp only at ht
      cases hdrops : (s.procs i).drops with
      | cons n rest =>
          rw [hdrops] at ht
          obtain rfl := Option.some.inj ht
          exact hs.iput
      | nil =>
          rw [hdrops] at ht
          cases hpc : (s.procs i).pc with
          | user =>
              rw [hpc] at ht
              cases ht
          | walk ip path goal =>
              rw [hpc] at ht hup'
              obtain rfl := Option.some.inj ht
              exact h.sound_walk hs (fun hzero hdots => hup' ⟨hdrops, hzero, hdots⟩) hok
          | found ip name goal =>
              rw [hpc] at ht hup'
              obtain rfl := Option.some.inj ht
              refine h.sound_found hs ⟨hpc, hdrops⟩ ?_ hok
              intro hzero hmakes hdots
              exact hup' ⟨hdrops, hzero, hmakes, hdots⟩
          | present ip type full =>
              rw [hpc] at ht
              obtain rfl := Option.some.inj ht
              have hend : (s.present i ip type full).fault = none := hok
              show (s.present i ip type full).Sound
              unfold Sys.present at hend ⊢
              dsimp only at hend ⊢
              split at hend
              · cases hend
              · rename_i hfree
                rw [if_neg hfree]
                split
                · exact sound_created hs
                · exact hs
          | bad ip =>
              rw [hpc] at ht
              obtain rfl := Option.some.inj ht
              have hend : (s.bad i ip).fault = none := hok
              show (s.bad i ip).Sound
              unfold Sys.bad at hend ⊢
              dsimp only at hend ⊢
              split at hend
              · cases hend
              · rename_i hfree
                rw [if_neg hfree]
                exact hs.congr rfl (setInode_type rfl)

end Cs537.Names
