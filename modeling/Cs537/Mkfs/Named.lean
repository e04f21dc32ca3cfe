/-
# `Cs537.Mkfs.Named` — the entries of a tree

`refsOf es` are the numbers in the entries of a directory whose names do not
begin with a dot: those that the checker counts.  In a tree each file and
directory has one entry, in its parent (`count_refs`, `made_parent`); the ones
with an ordinary name are `named`.  They are all just if the tree is `Plain`.
-/
import Cs537.Mkfs.Main

namespace Cs537.Mkfs

open Cs537.Lib

variable {d : Dir} {k cur x : Nat}

/-- The name begins with a dot. -/
def DotName (name : List UInt8) : Prop := name.head? = some 46

instance (name : List UInt8) : Decidable (DotName name) := inferInstanceAs (Decidable (_ = _))

/-- No file and no directory has a name that begins with a dot. -/
def Dir.Plain : Dir → Prop
  | .nil => True
  | .file name _ rest => (Passed name ∨ ¬ DotName name) ∧ rest.Plain
  | .sub name dir rest => (Passed name ∨ ¬ DotName name ∧ dir.Plain) ∧ rest.Plain

instance Dir.decPlain : (d : Dir) → Decidable d.Plain
  | .nil => inferInstanceAs (Decidable True)
  | .file name _ rest =>
      have := rest.decPlain
      inferInstanceAs (Decidable ((Passed name ∨ ¬ DotName name) ∧ rest.Plain))
  | .sub name dir rest =>
      have := dir.decPlain
      have := rest.decPlain
      inferInstanceAs (Decidable ((Passed name ∨ ¬ DotName name ∧ dir.Plain) ∧ rest.Plain))

/-- The numbers in the entries whose names do not begin with a dot. -/
def refsOf (es : List (Nat × List UInt8)) : List Nat :=
  (es.filter fun e => ¬ DotName e.2).map Prod.fst

def Made.refs (m : Made) : List Nat :=
  match m.kind with
  | .file _ => []
  | .dir es => refsOf es

/-- The inodes whose names do not begin with a dot. -/
def named : Dir → Nat → List Nat
  | .nil, _ => []
  | .file name _ rest, k =>
      if Passed name then named rest k
      else (if DotName name then [] else [k]) ++ named rest (k + 1)
  | .sub name dir rest, k =>
      if Passed name then named rest k
      else (if DotName name then [] else [k]) ++
        (named dir (k + 1) ++ named rest (k + 1 + dir.nodes))

theorem refsOf_cons {name : List UInt8} {es : List (Nat × List UInt8)} :
    refsOf ((x, name) :: es) = (if DotName name then [] else [x]) ++ refsOf es := by
  rw [refsOf, List.filter_cons]
  by_cases h : DotName name
  · rw [if_neg (by simpa using h), if_pos h]
    rfl
  · rw [if_pos (by simpa using h), if_neg h]
    rfl

theorem dotName_dot : DotName dot := rfl

theorem dotName_dotdot : DotName dotdot := rfl

/-- The two entries that each directory has are not counted. -/
theorem refsOf_allEntries (d : Dir) (cur parent k : Nat) :
    refsOf (allEntries d cur parent k) = refsOf (listing d k) := by
  rw [allEntries, refsOf_cons, if_pos dotName_dot, refsOf_cons, if_pos dotName_dotdot]
  rfl

/-- The entries in `cur` and in what is made for it are those of the named inodes. -/
theorem count_refs (d : Dir) (cur k x : Nat) :
    (refsOf (listing d k)).count x + ((made d cur k).flatMap Made.refs).count x =
      (named d k).count x := by
  induction d generalizing cur k with
  | nil => rfl
  | file name reads rest ih =>
      rw [listing, made, named]
      by_cases hname : Passed name
      · rw [if_pos hname, if_pos hname, if_pos hname]
        exact ih cur k
      · rw [if_neg hname, if_neg hname, if_neg hname, refsOf_cons, List.flatMap_cons]
        have hrest := ih cur (k + 1)
        have hfile : Made.refs ⟨k, .file reads.flatten⟩ = [] := rfl
        simp only [List.count_append, hfile, List.count_nil]
        omega
  | sub name dir rest ihd ih =>
      rw [listing, made, named]
      by_cases hname : Passed name
      · rw [if_pos hname, if_pos hname, if_pos hname]
        exact ih cur k
      · rw [if_neg hname, if_neg hname, if_neg hname, refsOf_cons, List.cons_append,
          List.flatMap_cons, List.flatMap_append]
        have hdir := ihd k (k + 1)
        have hrest := ih cur (k + 1 + dir.nodes)
        have hself : Made.refs ⟨k, .dir (allEntries dir k cur (k + 1))⟩ =
            refsOf (listing dir (k + 1)) :=
          refsOf_allEntries dir k cur (k + 1)
        simp only [List.count_append, hself]
        omega

theorem head_sublist (name : List UInt8) (k : Nat) :
    List.Sublist (if DotName name then [] else [k]) [k] := by
  split_ifs
  · exact List.nil_sublist _
  · exact List.Sublist.refl _

/-- The named inodes are some of those of the tree, in order. -/
theorem named_sublist (d : Dir) (k : Nat) :
    List.Sublist (named d k) (List.range' k d.nodes) := by
  induction d generalizing k with
  | nil => exact List.Sublist.refl _
  | file name reads rest ih =>
      rw [named, Dir.nodes]
      by_cases hname : Passed name
      · rw [if_pos hname, if_pos hname, Nat.zero_add]
        exact ih k
      · rw [if_neg hname, if_neg hname, Nat.add_comm 1, List.range'_succ, ← List.singleton_append]
        exact (head_sublist name k).append (ih (k + 1))
  | sub name dir rest ihd ih =>
      rw [named, Dir.nodes]
      by_cases hname : Passed name
      · rw [if_pos hname, if_pos hname, Nat.zero_add]
        exact ih k
      · rw [if_neg hname, if_neg hname, Nat.add_right_comm dir.nodes 1, List.range'_succ,
          ← List.range'_append_1, ← List.singleton_append]
        exact (head_sublist name k).append ((ihd (k + 1)).append (ih (k + 1 + dir.nodes)))

theorem mem_named (h : x ∈ named d k) : k ≤ x ∧ x < k + d.nodes :=
  List.mem_range'_1.mp ((named_sublist d k).subset h)

theorem named_nodup (d : Dir) (k : Nat) : (named d k).Nodup :=
  (List.nodup_range' 1).sublist (named_sublist d k)

theorem mem_head {name : List UInt8} (h : x ∈ if DotName name then [] else [k]) : x = k :=
  List.mem_singleton.mp ((head_sublist name k).subset h)

/-- In a plain tree every inode is named. -/
theorem named_plain (h : d.Plain) : named d k = List.range' k d.nodes := by
  induction d generalizing k with
  | nil => rfl
  | file name reads rest ih =>
      obtain ⟨hname, hrest⟩ := h
      rw [named, Dir.nodes]
      by_cases hpass : Passed name
      · rw [if_pos hpass, if_pos hpass, ih hrest, Nat.zero_add]
      · rw [if_neg hpass, if_neg hpass, if_neg (hname.resolve_left hpass), ih hrest, Nat.add_comm 1,
          List.range'_succ, List.singleton_append]
  | sub name dir rest ihd ih =>
      obtain ⟨hname, hrest⟩ := h
      rw [named, Dir.nodes]
      by_cases hpass : Passed name
      · rw [if_pos hpass, if_pos hpass, ih hrest, Nat.zero_add]
      · obtain ⟨hdot, hdir⟩ := hname.resolve_left hpass
        rw [if_neg hpass, if_neg hpass, if_neg hdot, ihd hdir, ih hrest, List.range'_append_1,
          Nat.add_right_comm dir.nodes 1, List.range'_succ, List.singleton_append]

/-- In one that is not plain, one is not. -/
theorem named_missing (h : ¬ d.Plain) : ∃ x, k ≤ x ∧ x < k + d.nodes ∧ x ∉ named d k := by
  induction d generalizing k with
  | nil => exact absurd trivial h
  | file name reads rest ih =>
      rw [Dir.nodes, named]
      by_cases hpass : Passed name
      · rw [if_pos hpass, if_pos hpass, Nat.zero_add]
        exact ih fun hrest => h ⟨.inl hpass, hrest⟩
      · rw [if_neg hpass, if_neg hpass]
        by_cases hdot : DotName name
        · refine ⟨k, Nat.le_refl _, by omega, fun hmem => ?_⟩
          rw [if_pos hdot, List.nil_append] at hmem
          have := (mem_named hmem).1
          omega
        · obtain ⟨x, hlo, hhi, hx⟩ := ih (k := k + 1) fun hrest => h ⟨.inr hdot, hrest⟩
          refine ⟨x, by omega, by omega, fun hmem => ?_⟩
          rcases List.mem_append.mp hmem with hmem | hmem
          · have := mem_head hmem
            omega
          · exact hx hmem
  | sub name dir rest ihd ih =>
      rw [Dir.nodes, named]
      by_cases hpass : Passed name
      · rw [if_pos hpass, if_pos hpass, Nat.zero_add]
        exact ih fun hrest => h ⟨.inl hpass, hrest⟩
      · rw [if_neg hpass, if_neg hpass]
        by_cases hdot : DotName name
        · refine ⟨k, Nat.le_refl _, by omega, fun hmem => ?_⟩
          rw [if_pos hdot, List.nil_append] at hmem
          rcases List.mem_append.mp hmem with hmem | hmem
          · have := (mem_named hmem).1
            omega
          · have := (mem_named hmem).1
            omega
        · by_cases hdir : dir.Plain
          · obtain ⟨x, hlo, hhi, hx⟩ := ih (k := k + 1 + dir.nodes) fun hrest =>
              h ⟨.inr ⟨hdot, hdir⟩, hrest⟩
            refine ⟨x, by omega, by omega, fun hmem => ?_⟩
            rcases List.mem_append.mp hmem with hmem | hmem
            · have := mem_head hmem
              omega
            · rcases List.mem_append.mp hmem with hmem | hmem
              · have := (mem_named hmem).2
                omega
              · exact hx hmem
          · obtain ⟨x, hlo, hhi, hx⟩ := ihd (k := k + 1) hdir
            refine ⟨x, by omega, by omega, fun hmem => ?_⟩
            rcases List.mem_append.mp hmem with hmem | hmem
            · have := mem_head hmem
              omega
            · rcases List.mem_append.mp hmem with hmem | hmem
              · exact hx hmem
              · have := (mem_named hmem).1
                omega

/-! ## Parents -/

/-- The entries of a directory begin with its own number and its parent's. -/
def Starts (m : Made) (parent : Nat) : Prop :=
  ∃ es, m.kind = .dir ((m.inum, dot) :: (parent, dotdot) :: es)

theorem starts_allEntries (d : Dir) (n parent k : Nat) :
    Starts ⟨n, .dir (allEntries d n parent k)⟩ parent := ⟨_, rfl⟩

theorem mem_made {m : Made} (h : m ∈ made d cur k) : k ≤ m.inum ∧ m.inum < k + d.nodes := by
  have hinum : m.inum ∈ List.range' k d.nodes := made_inums d cur k ▸ List.mem_map_of_mem h
  exact List.mem_range'_1.mp hinum

theorem mem_tail {name : List UInt8} {l : List Nat} (hx : k < x)
    (h : x ∈ (if DotName name then [] else [k]) ++ l) : x ∈ l :=
  (List.mem_append.mp h).resolve_left fun h => Nat.ne_of_gt hx (mem_head h)

/-- A directory has its parent in its second entry; if it is named, the parent
has an entry for it. -/
theorem made_parent : ∀ {d : Dir} {cur k : Nat}, ∀ m ∈ made d cur k, m.type = T_DIR →
    ∃ parent, Starts m parent ∧ (m.inum ∈ named d k →
      parent = cur ∧ m.inum ∈ refsOf (listing d k) ∨
        ∃ p ∈ made d cur k, p.inum = parent ∧ p.type = T_DIR ∧ m.inum ∈ p.refs) := by
  intro d
  induction d with
  | nil => exact fun m hm => absurd hm List.not_mem_nil
  | file name reads rest ih =>
      intro cur k m hm hdir
      rw [made] at hm ⊢
      rw [listing, named]
      by_cases hpass : Passed name
      · rw [if_pos hpass] at hm ⊢
        rw [if_pos hpass, if_pos hpass]
        exact ih m hm hdir
      · rw [if_neg hpass] at hm ⊢
        rw [if_neg hpass, if_neg hpass, refsOf_cons]
        rcases List.mem_cons.mp hm with rfl | hm
        · exact absurd hdir (by show ¬ T_FILE = T_DIR; decide)
        · obtain ⟨parent, hstarts, hparent⟩ := ih m hm hdir
          refine ⟨parent, hstarts, fun hnamed => ?_⟩
          rcases hparent (mem_tail (mem_made hm).1 hnamed) with ⟨heq, hmem⟩ | ⟨p, hp, hrest⟩
          · exact .inl ⟨heq, List.mem_append_right _ hmem⟩
          · exact .inr ⟨p, List.mem_cons_of_mem _ hp, hrest⟩
  | sub name dir rest ihd ih =>
      intro cur k m hm hdir
      rw [made] at hm ⊢
      rw [listing, named]
      by_cases hpass : Passed name
      · rw [if_pos hpass] at hm ⊢
        rw [if_pos hpass, if_pos hpass]
        exact ih m hm hdir
      · rw [if_neg hpass] at hm ⊢
        rw [if_neg hpass, if_neg hpass, refsOf_cons]
        rcases List.mem_append.mp hm with hm | hm
        · rcases List.mem_cons.mp hm with rfl | hm
          · refine ⟨cur, starts_allEntries dir k cur (k + 1), fun hnamed => .inl ⟨rfl, ?_⟩⟩
            refine List.mem_append_left _ ((List.mem_append.mp hnamed).resolve_right fun hlater => ?_)
            rcases List.mem_append.mp hlater with hlater | hlater
            · exact Nat.not_succ_le_self _ (mem_named hlater).1
            · have hlow : k + 1 + dir.nodes ≤ k := (mem_named hlater).1
              omega
          · obtain ⟨hlow, hhigh⟩ := mem_made hm
            obtain ⟨parent, hstarts, hparent⟩ := ihd m hm hdir
            refine ⟨parent, hstarts, fun hnamed => .inr ?_⟩
            have hin : m.inum ∈ named dir (k + 1) :=
              (List.mem_append.mp (mem_tail hlow hnamed)).resolve_right fun hlater =>
                absurd (mem_named hlater).1 (Nat.not_le.mpr hhigh)
            rcases hparent hin with ⟨heq, hmem⟩ | ⟨p, hp, hrest⟩
            · refine ⟨⟨k, .dir (allEntries dir k cur (k + 1))⟩,
                List.mem_append_left _ List.mem_cons_self, heq.symm, rfl, ?_⟩
              show m.inum ∈ refsOf _
              rwa [refsOf_allEntries]
            · exact ⟨p, List.mem_append_left _ (List.mem_cons_of_mem _ hp), hrest⟩
        · have hlow := (mem_made hm).1
          obtain ⟨parent, hstarts, hparent⟩ := ih m hm hdir
          refine ⟨parent, hstarts, fun hnamed => ?_⟩
          have hin : m.inum ∈ named rest (k + 1 + dir.nodes) :=
            (List.mem_append.mp (mem_tail (by omega) hnamed)).resolve_left fun hbefore =>
              absurd (mem_named hbefore).2 (Nat.not_lt.mpr hlow)
          rcases hparent hin with ⟨heq, hmem⟩ | ⟨p, hp, hrest⟩
          · exact .inl ⟨heq, List.mem_append_right _ hmem⟩
          · exact .inr ⟨p, List.mem_append_right _ hp, hrest⟩

/-! ## Bounds -/

/-- There are at most `n` entries, with numbers below `k`. -/
def Bounded (n k : Nat) (es : List (Nat × List UInt8)) : Prop := es.length ≤ n ∧ ∀ e ∈ es, e.1 < k

theorem Bounded.mono {n n' k' : Nat} {es : List (Nat × List UInt8)} (h : Bounded n k es) (hn : n ≤ n')
    (hk : k ≤ k') : Bounded n' k' es :=
  ⟨Nat.le_trans h.1 hn, fun e he => Nat.lt_of_lt_of_le (h.2 e he) hk⟩

theorem Bounded.cons {n : Nat} {name : List UInt8} {es : List (Nat × List UInt8)}
    (h : Bounded n k es) (hx : x < k) : Bounded (n + 1) k ((x, name) :: es) :=
  ⟨Nat.succ_le_succ h.1, List.forall_mem_cons.mpr ⟨hx, h.2⟩⟩

theorem bounded_listing (d : Dir) (k : Nat) : Bounded d.nodes (k + d.nodes) (listing d k) := by
  induction d generalizing k with
  | nil => exact ⟨Nat.le_refl _, fun e he => absurd he List.not_mem_nil⟩
  | file name reads rest ih =>
      rw [listing, Dir.nodes]
      by_cases hpass : Passed name
      · rw [if_pos hpass, if_pos hpass, Nat.zero_add]
        exact ih k
      · rw [if_neg hpass, if_neg hpass]
        exact ((ih (k + 1)).mono (Nat.le_refl _) (by omega)).cons (by omega) |>.mono (by omega)
          (Nat.le_refl _)
  | sub name dir rest ihd ih =>
      rw [listing, Dir.nodes]
      by_cases hpass : Passed name
      · rw [if_pos hpass, if_pos hpass, Nat.zero_add]
        exact ih k
      · rw [if_neg hpass, if_neg hpass]
        exact ((ih (k + 1 + dir.nodes)).mono (Nat.le_refl _) (by omega)).cons (by omega) |>.mono
          (by omega) (Nat.le_refl _)

theorem bounded_allEntries {d : Dir} {cur parent k : Nat} (hcur : cur < k) (hparent : parent < k) :
    Bounded (d.nodes + 2) (k + d.nodes) (allEntries d cur parent k) :=
  ((bounded_listing d k).cons (Nat.lt_add_right _ hparent)).cons (Nat.lt_add_right _ hcur)

theorem made_bounded : ∀ {d : Dir} {cur k : Nat}, cur < k → ∀ m ∈ made d cur k, ∀ es,
    m.kind = .dir es → Bounded (d.nodes + 2) (k + d.nodes) es := by
  intro d
  induction d with
  | nil => exact fun _ m hm => absurd hm List.not_mem_nil
  | file name reads rest ih =>
      intro cur k hcur m hm es hes
      rw [made] at hm
      rw [Dir.nodes]
      by_cases hpass : Passed name
      · rw [if_pos hpass] at hm
        rw [if_pos hpass, Nat.zero_add]
        exact ih hcur m hm es hes
      · rw [if_neg hpass] at hm
        rw [if_neg hpass]
        rcases List.mem_cons.mp hm with rfl | hm
        · cases hes
        · exact (ih (Nat.lt_succ_of_lt hcur) m hm es hes).mono (by omega) (by omega)
  | sub name dir rest ihd ih =>
      intro cur k hcur m hm es hes
      rw [made] at hm
      rw [Dir.nodes]
      by_cases hpass : Passed name
      · rw [if_pos hpass] at hm
        rw [if_pos hpass, Nat.zero_add]
        exact ih hcur m hm es hes
      · rw [if_neg hpass] at hm
        rw [if_neg hpass]
        rcases List.mem_append.mp hm with hm | hm
        · rcases List.mem_cons.mp hm with rfl | hm
          · cases hes
            exact (bounded_allEntries (Nat.lt_succ_self k) (Nat.lt_succ_of_lt hcur)).mono (by omega)
              (by omega)
          · exact (ihd (Nat.lt_succ_self k) m hm es hes).mono (by omega) (by omega)
        · exact (ih (by omega) m hm es hes).mono (by omega) (by omega)

/-! ## The whole tree -/

/-- The entries that are counted, of all directories. -/
theorem count_madeRoot (root : Dir) (x : Nat) :
    ((madeRoot root).flatMap Made.refs).count x = (named root (ROOTINO + 1)).count x := by
  have hself : Made.refs ⟨ROOTINO, .dir (allEntries root ROOTINO ROOTINO (ROOTINO + 1))⟩ =
      refsOf (listing root (ROOTINO + 1)) := refsOf_allEntries root ROOTINO ROOTINO (ROOTINO + 1)
  rw [madeRoot, List.flatMap_cons, List.count_append, hself, count_refs]

/-- Every directory starts as it should, and if it is named it has an entry in
its parent. -/
theorem madeRoot_parent (root : Dir) : ∀ m ∈ madeRoot root, m.type = T_DIR →
    ∃ parent, Starts m parent ∧ (m.inum = ROOTINO → parent = ROOTINO) ∧
      (m.inum ∈ named root (ROOTINO + 1) → ∃ p ∈ madeRoot root, p.inum = parent ∧ p.type = T_DIR ∧
        m.inum ∈ p.refs) := by
  intro m hm hdir
  rcases List.mem_cons.mp hm with rfl | hm
  · exact ⟨ROOTINO, starts_allEntries root ROOTINO ROOTINO (ROOTINO + 1), fun _ => rfl,
      fun hnamed => absurd (mem_named hnamed).1 (Nat.not_succ_le_self ROOTINO)⟩
  · obtain ⟨parent, hstarts, hparent⟩ := made_parent m hm hdir
    have hlow := (mem_made hm).1
    refine ⟨parent, hstarts, fun heq => absurd hlow (by omega), fun hnamed => ?_⟩
    rcases hparent hnamed with ⟨rfl, hmem⟩ | ⟨p, hp, hrest⟩
    · refine ⟨_, List.mem_cons_self, rfl, rfl, ?_⟩
      show m.inum ∈ refsOf _
      rwa [refsOf_allEntries]
    · exact ⟨p, List.mem_cons_of_mem _ hp, hrest⟩

/-- The directories have few entries. -/
theorem madeRoot_bounded (root : Dir) : ∀ m ∈ madeRoot root, ∀ es, m.kind = .dir es →
    Bounded (root.nodes + 2) (ROOTINO + 1 + root.nodes) es := by
  intro m hm es hes
  rcases List.mem_cons.mp hm with rfl | hm
  · cases hes
    exact bounded_allEntries (Nat.lt_succ_self _) (Nat.lt_succ_self _)
  · exact made_bounded (Nat.lt_succ_self _) m hm es hes

end Cs537.Mkfs
