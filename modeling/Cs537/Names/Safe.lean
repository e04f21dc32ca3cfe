/-
# `Cs537.Names.Safe` — every step keeps the invariant (p5/xv6)

A step strays if it makes an entry in a removed directory.  A process can have such a
directory from `nameiparent`, or as its own; nothing in `create` and `sys_link` looks at the
count of the directory.  Every other step keeps `Inv`, as long as the kernel does not stop
(`Inv.step`).
-/
import Cs537.Names.Unlink

namespace Cs537.Names

open Cs537.Lib

variable {s t u : Sys} {i j : Slot} {n m c d dp ip : Inum} {x y : Inode} {k : Nat} {name : Name}
  {f g : Inum → Inode} {p q : Proc} {pc : Pc} {up : Inum} {goal : Goal} {e : Event}
  {es : List Event} {next : Sys → Sys} {path : List UInt8} {drops : List Inum}

/-- Whether the call makes an entry. -/
def Goal.makes : Goal → Bool
  | .create _ _ | .linkTo _ => true
  | _ => false

/-- Process `i` makes an entry in a directory that has been removed. -/
def Sys.StraysAt (s : Sys) (i : Slot) : Pc → Prop
  | .found dp name goal =>
      goal.makes = true ∧ (s.procs i).drops = [] ∧ (s.inodes dp).type = .dir ∧
        (s.inodes dp).nlink = 0 ∧ dirlookup name (s.inodes dp).entries = none ∧
        (s.go i).map Sys.fault = some none
  | _ => False

instance instDecidableStraysAt (s : Sys) (i : Slot) : ∀ pc, Decidable (s.StraysAt i pc)
  | .found dp name goal =>
      inferInstanceAs (Decidable (goal.makes = true ∧ (s.procs i).drops = [] ∧
        (s.inodes dp).type = .dir ∧ (s.inodes dp).nlink = 0 ∧
        dirlookup name (s.inodes dp).entries = none ∧ (s.go i).map Sys.fault = some none))
  | .user | .walk _ _ _ | .present _ _ _ | .bad _ => inferInstanceAs (Decidable False)

def Sys.Strays (s : Sys) : Event → Prop
  | .call _ _ => False
  | .go i => s.StraysAt i (s.procs i).pc

instance instDecidableStrays (s : Sys) : ∀ e, Decidable (s.Strays e)
  | .call _ _ => inferInstanceAs (Decidable False)
  | .go i => inferInstanceAs (Decidable (s.StraysAt i (s.procs i).pc))

/-! ## What a process does with an inode -/

theorem ialloc_free (h : s.ialloc = some n) : (s.inodes n).type = .free := by
  have hn := List.find?_some h
  exact (of_decide_eq_true hn).2

theorem Inv.create (h : Inv s) {type : FType} {full : Option Bool}
    (hat : s.At i (.found dp name (.create type full))) (htype : type ≠ .free)
    (hlive : dirlookup name (s.inodes dp).entries = none → 0 < (s.inodes dp).nlink)
    (hok : (s.create i dp name type full).fault = none) :
    Inv (s.create i dp name type full) := by
  unfold Sys.create at hok ⊢
  dsimp only at hok ⊢
  split at hok
  · cases hok
  · rename_i hdir
    rw [if_neg hdir]
    cases hlook : dirlookup name (s.inodes dp).entries with
    | some r =>
        rw [hlook] at hok
        dsimp only at hok ⊢
        rw [iget_cases hok]
        refine h.get_at hat ?_ rfl (fun ip name goal he => by cases he)
          (Pc.kind_of_none rfl)
        intro m
        simp only [Pc.held, Goal.held, count_cons, List.count_nil]
        omega
    | none =>
        rw [hlook] at hok
        dsimp only at hok ⊢
        cases halloc : s.ialloc with
        | none =>
            rw [halloc] at hok
            cases hok
        | some n =>
            rw [halloc] at hok
            dsimp only at hok ⊢
            rw [iget_cases hok]
            rw [iget_cases hok] at hok
            split at hok
            · cases hok
            · rename_i hfull
              rw [if_neg hfull]
              exact h.mknode hat ⟨not_not.mp hdir, hlive hlook⟩ (ialloc_free halloc) htype hlook

theorem Inv.linkTo (h : Inv s) {old : Inum} (hat : s.At i (.found dp name (.linkTo old)))
    (hlive : dirlookup name (s.inodes dp).entries = none → 0 < (s.inodes dp).nlink)
    (hok : (s.linkTo i dp name old).fault = none) : Inv (s.linkTo i dp name old) := by
  unfold Sys.linkTo at hok ⊢
  dsimp only at hok ⊢
  split at hok
  · cases hok
  · rename_i hdir
    rw [if_neg hdir]
    cases hlook : dirlookup name (s.inodes dp).entries with
    | some r =>
        rw [hlook] at hok
        dsimp only at hok ⊢
        rw [iget_cases hok]
        refine h.get_at hat ?_ rfl (fun ip name goal he => by cases he)
          (Pc.kind_of_none rfl)
        intro m
        simp only [Pc.held, Goal.held, count_cons, List.count_nil]
        omega
    | none =>
        rw [hlook] at hok
        dsimp only at hok ⊢
        split at hok
        · cases hok
        · rename_i hfull
          rw [if_neg hfull]
          exact h.linked hat ⟨not_not.mp hdir, hlive hlook⟩ hlook

theorem Inv.unlink (h : Inv s) (hat : s.At i (.found dp name .unlink))
    (hok : (s.unlink i dp name).fault = none) : Inv (s.unlink i dp name) := by
  have hleave : Inv (s.leave i .user [dp]) := h.drop_at hat rfl
  unfold Sys.unlink at hok ⊢
  dsimp only at hok ⊢
  split at hok
  · rename_i hdots
    rw [if_pos hdots]
    exact hleave
  · rename_i hdots
    rw [if_neg hdots]
    split at hok
    · cases hok
    · rename_i hdir
      rw [if_neg hdir]
      have hdp := not_not.mp hdir
      cases hlook : dirlookup name (s.inodes dp).entries with
      | none => exact hleave
      | some r =>
          obtain ⟨k, n⟩ := r
          rw [hlook] at hok
          dsimp only at hok ⊢
          rw [iget_cases hok]
          rw [iget_cases hok] at hok
          split at hok
          · cases hok
          · rename_i hne
            rw [if_neg hne]
            split at hok
            · cases hok
            · rename_i hfree
              rw [if_neg hfree]
              split at hok
              · cases hok
              · rename_i hnlink
                rw [if_neg hnlink]
                split
                · refine h.get_at hat ?_ rfl (fun ip name goal he => by cases he)
                    (Pc.kind_of_none rfl)
                  intro m
                  simp only [Pc.held, Goal.held, count_cons, List.count_nil]
                  omega
                · rename_i hempty
                  obtain ⟨up, hup⟩ := h.shape.dots dp hdp
                  obtain ⟨j, rfl, hj⟩ := two_le_index hup (fun he => hdots (.inl he))
                    (fun he => hdots (.inr he)) (dirlookup_some hlook)
                  refine h.rmnode hat hdp hj ?_ hne
                  intro hn
                  refine isdirempty_kids ?_
                  by_contra hnot
                  exact hempty ⟨hn, hnot⟩

theorem Inv.chdir (h : Inv s) (hat : s.At i (.found ip name .chdir))
    (hdir : (s.inodes ip).type = .dir) :
    Inv (s.setProc i { s.procs i with pc := .user, cwd := ip, drops := [(s.procs i).cwd] }) := by
  obtain ⟨hpc, hdrops⟩ := hat
  refine h.setProc rfl rfl ?_ (by rw [hpc]; rfl) (fun _ => Nat.le_refl _)
    (good_user hdir rfl)
  intro m
  rw [held_count, held_count, hpc, hdrops]
  simp only [Pc.held, Goal.held, count_cons, List.count_nil]
  omega

theorem Inv.found (h : Inv s) (hat : s.At i (.found ip name goal))
    (hlive : goal.makes = true → dirlookup name (s.inodes ip).entries = none →
      (s.inodes ip).type = .dir → 0 < (s.inodes ip).nlink)
    (hok : (s.found i ip name goal).fault = none) : Inv (s.found i ip name goal) := by
  have hdir : goal.parent = true → (s.inodes ip).type = .dir :=
    fun hgoal => (h.good i).parent ip name goal hat.1 hgoal
  unfold Sys.found at hok ⊢
  dsimp only at hok ⊢
  split at hok
  · cases hok
  · rename_i hfree
    rw [if_neg hfree]
    cases goal with
    | openFile rdonly full =>
        dsimp only at hok ⊢
        split
        · exact h.drop_at hat rfl
        · have hend : Inv (s.created i ip (some full) []) := h.created hat rfl rfl
          exact hend
    | create type full =>
        have htype := h.kind_at hat type full rfl
        exact h.create hat htype (fun hnone => hlive rfl hnone (hdir rfl)) hok
    | link new =>
        dsimp only at hok ⊢
        split at hok
        · rename_i htyp
          rw [if_pos htyp]
          exact h.drop_at hat rfl
        · rename_i htyp
          rw [if_neg htyp]
          exact h.link hat htyp hfree hok
    | linkTo old => exact h.linkTo hat (fun hnone => hlive rfl hnone (hdir rfl)) hok
    | unlink => exact h.unlink hat hok
    | chdir =>
        dsimp only at hok ⊢
        split
        · exact h.drop_at hat rfl
        · rename_i htyp
          exact h.chdir hat (not_not.mp htyp)

/-! ## Steps -/

theorem step_fault (ht : s.step e = some t) : s.fault = none := by
  unfold Sys.step at ht
  split at ht
  · assumption
  · cases ht

theorem Inv.call (h : Inv s) {c : Call} (hat : s.At i .user) (ht : s.call i c = some t)
    (hok : t.fault = none) : Inv t := by
  cases c with
  | close k =>
      obtain ⟨n, hn, rfl⟩ := Option.map_eq_some_iff.mp ht
      obtain ⟨hpc, hdrops⟩ := hat
      refine h.setProc rfl rfl ?_ rfl (fun _ => Nat.le_refl _)
        ⟨(h.good i).cwd, (h.good i).parent, (h.good i).pending, (h.good i).kind⟩
      intro m
      obtain ⟨hlt, rfl⟩ := List.getElem?_eq_some_iff.mp hn
      have hcount := (List.getElem_cons_eraseIdx_perm hlt).count_eq m
      rw [held_count, held_count, hdrops]
      simp only [count_cons, List.count_nil] at hcount ⊢
      omega
  | openFile path rdonly full =>
      obtain rfl := Option.some.inj ht
      exact h.namex hat rfl (fun type full he => by cases he) hok
  | create path checked full =>
      obtain rfl := Option.some.inj ht
      refine h.namex hat rfl ?_ hok
      rintro type full' he rfl
      cases checked <;> cases he
  | mkdir path =>
      obtain rfl := Option.some.inj ht
      refine h.namex hat rfl ?_ hok
      rintro type full he rfl
      cases he
  | mknod path =>
      obtain rfl := Option.some.inj ht
      refine h.namex hat rfl ?_ hok
      rintro type full he rfl
      cases he
  | link old new =>
      obtain rfl := Option.some.inj ht
      exact h.namex hat rfl (fun type full he => by cases he) hok
  | unlink path =>
      obtain rfl := Option.some.inj ht
      exact h.namex hat rfl (fun type full he => by cases he) hok
  | chdir path =>
      obtain rfl := Option.some.inj ht
      exact h.namex hat rfl (fun type full he => by cases he) hok

theorem Inv.step (h : Inv s) (hstray : ¬s.Strays e) (ht : s.step e = some t)
    (hok : t.fault = none) : Inv t := by
  have hfault := step_fault ht
  unfold Sys.step at ht
  rw [if_pos hfault] at ht
  cases e with
  | call i c =>
      dsimp only at ht
      split at ht
      · rename_i huser
        obtain ⟨huser, hdrops⟩ := huser
        refine h.call ⟨?_, hdrops⟩ ht hok
        cases hpc : (s.procs i).pc with
        | user => rfl
        | walk ip path goal | found ip name goal | present ip type full | bad ip =>
            rw [hpc] at huser
            cases huser
      · cases ht
  | go i =>
      dsimp only at ht
      have hgo := ht
      unfold Sys.go at ht
      dsimp only at ht
      cases hdrops : (s.procs i).drops with
      | cons n rest =>
          rw [hdrops] at ht
          obtain rfl := Option.some.inj ht
          exact h.iput hdrops
      | nil =>
          rw [hdrops] at ht
          cases hpc : (s.procs i).pc with
          | user =>
              rw [hpc] at ht
              cases ht
          | walk ip path goal =>
              rw [hpc] at ht
              obtain rfl := Option.some.inj ht
              exact h.walk ⟨hpc, hdrops⟩ hok
          | found ip name goal =>
              rw [hpc] at ht
              obtain rfl := Option.some.inj ht
              refine h.found ⟨hpc, hdrops⟩ ?_ hok
              intro hmakes hnone hdir
              refine Nat.pos_of_ne_zero fun hzero => hstray ?_
              show s.StraysAt i (s.procs i).pc
              rw [hpc]
              refine ⟨hmakes, hdrops, hdir, hzero, hnone, ?_⟩
              rw [hgo]
              exact congrArg some hok
          | present ip type full =>
              rw [hpc] at ht
              obtain rfl := Option.some.inj ht
              exact h.present ⟨hpc, hdrops⟩ hok
          | bad ip =>
              rw [hpc] at ht
              obtain rfl := Option.some.inj ht
              exact h.bad ⟨hpc, hdrops⟩ hok

/-! ## The first state -/

theorem boot_inodes : boot.inodes n =
    if n = ROOTINO then ⟨.dir, 1, [⟨some ROOTINO, dot⟩, ⟨some ROOTINO, dotdot⟩]⟩
    else ⟨.free, 0, []⟩ := rfl

theorem boot_dir (h : (boot.inodes n).type = .dir) : n = ROOTINO := by
  by_contra hn
  rw [boot_inodes, if_neg hn] at h
  cases h

theorem boot_shape : Shape boot.inodes := by
  have hroot : boot.inodes ROOTINO =
      ⟨.dir, 1, [⟨some ROOTINO, dot⟩, ⟨some ROOTINO, dotdot⟩]⟩ := rfl
  refine ⟨?_, ?_, ?_, ?_, ?_, ?_, ?_, ?_, ?_⟩
  · intro n hn
    rw [boot_inodes] at hn ⊢
    split at hn
    · cases hn
    · rename_i hne
      rw [if_neg hne]
  · intro d hd
    obtain rfl := boot_dir hd
    exact ⟨ROOTINO, [], by rw [hroot]⟩
  · intro d hd
    obtain rfl := boot_dir hd
    rw [hroot]
    exact .cons (by simp [dot, dotdot]) (List.pairwise_singleton _ _)
  · intro d hd _
    obtain rfl := boot_dir hd
    rw [hroot]
    rfl
  · intro d c hd hc
    obtain rfl := boot_dir hd
    obtain rfl := boot_dir hc
    rw [if_neg fun hif => hif.1 rfl, hroot]
    rfl
  · intro c d hc hne
    exact absurd (boot_dir hc.1) hne
  · exact ⟨fun _ => 0, fun c d hc hne => absurd (boot_dir hc.1) hne⟩
  · rw [hroot]
    exact ⟨rfl, Nat.one_pos⟩
  · rw [hroot]
    rfl

theorem inv_boot : Inv boot := by
  refine ⟨?_, ?_, ?_, boot_shape, ?_⟩
  · intro n
    show (if n = ROOTINO then NPROC else 0) = ∑ i : Slot, ([ROOTINO] : List Inum).count n
    rw [Finset.sum_const, Finset.card_univ, Fintype.card_fin, count_cons, one]
    by_cases hn : n = ROOTINO
    · rw [if_pos hn, if_pos hn.symm]
      rfl
    · rw [if_neg hn, if_neg (Ne.symm hn)]
      rfl
  · intro n
    have hpending : uses boot.pending n = 0 := uses_eq_zero fun i hi => by cases hi
    have hmade : uses (made boot.inodes) n = (made boot.inodes ROOTINO).count n := by
      refine uses_eq_count ROOTINO ?_
      intro d hd hmem
      exact hd (boot_dir (alive_of_mem_links hmem).1)
    have hroot : made boot.inodes ROOTINO = [ROOTINO] := rfl
    rw [Sys.links, hpending, hmade, hroot, count_cons, one, boot_inodes]
    by_cases hn : n = ROOTINO
    · rw [if_pos hn, if_pos hn.symm]
      rfl
    · rw [if_neg hn, if_neg (Ne.symm hn)]
      rfl
  · intro n hn
    rw [boot_inodes] at hn ⊢
    split at hn
    · rename_i he
      rw [if_pos he]
      exact Nat.lt_add_right _ Nat.one_pos
    · exact absurd rfl hn
  · intro i
    exact good_user rfl rfl

end Cs537.Names
