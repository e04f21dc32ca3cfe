/-
# `Cs537.Mkfs.Tree` — the files of a directory tree

`add_dir` gives the inodes their numbers in the order in which it comes to the
entries, a directory before what is in it.  So a tree tells which inodes there
are and what is in each of them (`made`), and the run of `mkfs` makes just these
(`addEntries_spec`), as long as the inodes stay in front of the bitmap.
-/
import Cs537.Mkfs.Calls

namespace Cs537.Mkfs

open Cs537.Lib

/-! ## What a tree has -/

/-- The number of files and directories. -/
def Dir.nodes : Dir → Nat
  | .nil => 0
  | .file name _ rest => (if Passed name then 0 else 1) + rest.nodes
  | .sub name dir rest => (if Passed name then 0 else dir.nodes + 1) + rest.nodes

/-- The entries of a directory; `k` is the next inode number. -/
def listing : Dir → Nat → List (Nat × List UInt8)
  | .nil, _ => []
  | .file name _ rest, k => if Passed name then listing rest k else (k, name) :: listing rest (k + 1)
  | .sub name dir rest, k =>
      if Passed name then listing rest k else (k, name) :: listing rest (k + 1 + dir.nodes)

def entryBytes (es : List (Nat × List UInt8)) : List UInt8 := es.flatMap fun e => dirent e.1 e.2

@[simp] theorem length_dirent (inum : Nat) (name : List UInt8) : (dirent inum name).length = 16 := by
  simp only [dirent, List.length_append, length_le, List.length_take, List.length_replicate, DIRSIZ]
  omega

theorem length_entryBytes (es : List (Nat × List UInt8)) : (entryBytes es).length = 16 * es.length := by
  induction es with
  | nil => rfl
  | cons e es ih =>
      rw [entryBytes, List.flatMap_cons, List.length_append, length_dirent, List.length_cons]
      rw [entryBytes] at ih
      omega

/-- The entries of the directory `cur`, with the two that each directory has. -/
def allEntries (dir : Dir) (cur parent k : Nat) : List (Nat × List UInt8) :=
  (cur, dot) :: (parent, dotdot) :: listing dir k

/-- The size of a directory of `len` bytes, after `fixSize`. -/
def roundUp (len : Nat) : Nat := (len / 512 + 1) * 512

inductive Kind where
  | file (bytes : List UInt8)
  | dir (entries : List (Nat × List UInt8))

/-- A file or a directory, with its inode. -/
structure Made where
  inum : Nat
  kind : Kind

namespace Made

def type (m : Made) : Nat :=
  match m.kind with
  | .file _ => T_FILE
  | .dir _ => T_DIR

def bytes (m : Made) : List UInt8 :=
  match m.kind with
  | .file bytes => bytes
  | .dir entries => entryBytes entries

/-- The size that it has at the end; that of a directory is rounded up. -/
def size (m : Made) : Nat :=
  match m.kind with
  | .file bytes => bytes.length
  | .dir entries => roundUp (entryBytes entries).length

end Made

/-- What is made for the entries of the directory `cur`. -/
def made : Dir → Nat → Nat → List Made
  | .nil, _, _ => []
  | .file name reads rest, cur, k =>
      if Passed name then made rest cur k
      else ⟨k, .file reads.flatten⟩ :: made rest cur (k + 1)
  | .sub name dir rest, cur, k =>
      if Passed name then made rest cur k
      else ⟨k, .dir (allEntries dir k cur (k + 1))⟩ :: made dir k (k + 1) ++
        made rest cur (k + 1 + dir.nodes)

/-- What is made for the directory `root`. -/
def madeRoot (root : Dir) : List Made :=
  ⟨ROOTINO, .dir (allEntries root ROOTINO ROOTINO (ROOTINO + 1))⟩ ::
    made root ROOTINO (ROOTINO + 1)

/-- The inodes are numbered one after the other. -/
theorem made_inums (d : Dir) (cur k : Nat) :
    (made d cur k).map Made.inum = List.range' k d.nodes := by
  induction d generalizing cur k with
  | nil => rfl
  | file name reads rest ih =>
      rw [made, Dir.nodes]
      split_ifs
      · rw [ih, Nat.zero_add]
      · rw [List.map_cons, ih, Nat.add_comm 1, List.range'_succ]
  | sub name dir rest ihd ih =>
      rw [made, Dir.nodes]
      split_ifs
      · rw [ih, Nat.zero_add]
      · rw [List.cons_append, List.map_cons, List.map_append, ihd, ih, Nat.add_right_comm _ 1,
          Nat.add_assoc k, Nat.add_comm dir.nodes 1, Nat.add_assoc 1, Nat.add_comm 1 (_ + _),
          List.range'_succ, ← Nat.add_assoc k, List.range'_append_1]

theorem madeRoot_inums (root : Dir) :
    (madeRoot root).map Made.inum = List.range' 1 (root.nodes + 1) := by
  rw [madeRoot, List.map_cons, made_inums, List.range'_succ]
  rfl

theorem mem_madeRoot {root : Dir} {m : Made} (hm : m ∈ madeRoot root) :
    1 ≤ m.inum ∧ m.inum < root.nodes + 2 := by
  have hinum : m.inum ∈ List.range' 1 (root.nodes + 1) :=
    madeRoot_inums root ▸ List.mem_map_of_mem hm
  have := List.mem_range'_1.mp hinum
  omega

theorem exists_made {root : Dir} {i : Nat} (hlow : 1 ≤ i) (hhigh : i < root.nodes + 2) :
    ∃ m ∈ madeRoot root, m.inum = i := by
  have hmem : i ∈ (madeRoot root).map Made.inum := by
    rw [madeRoot_inums, List.mem_range'_1]
    omega
  exact List.mem_map.mp hmem

/-! ## The numbers that are handed out -/

/-- The trace has grown, and so has the counter of inodes, by the events for it. -/
structure Counted (s s' : St) (k : Nat) : Prop where
  trace : s.trace <:+ s'.trace
  freeinode : s'.freeinode = s.freeinode + k
  handed : ∀ i, s.freeinode ≤ i → i < s.freeinode + k → .ialloc i ∈ s'.trace

variable {s s' s'' : St} {T : Nat → Dinode} {B B' : Nat → Nat → Nat} {f : Nat → List UInt8}
  {n i j k l m cur parent : Nat} {p : List UInt8} {d : Dinode}

namespace Counted

theorem refl : Counted s s 0 :=
  ⟨List.suffix_refl _, rfl, fun _ hlo hhi => absurd hhi (Nat.not_lt.mpr hlo)⟩

theorem trans (h : Counted s s' k) (h' : Counted s' s'' l) : Counted s s'' (k + l) := by
  refine ⟨h.trace.trans h'.trace, by rw [h'.freeinode, h.freeinode, Nat.add_assoc],
    fun i hlo hhi => ?_⟩
  by_cases hi : i < s.freeinode + k
  · exact h'.trace.subset (h.handed i hlo hi)
  · exact h'.handed i (by rw [h.freeinode]; omega) (by rw [h.freeinode]; omega)

/-- Steps that hand out no inode. -/
theorem of_suffix (ht : s.trace <:+ s'.trace) (hfi : s'.freeinode = s.freeinode) : Counted s s' 0 :=
  ⟨ht, hfi, fun _ hlo hhi => absurd hhi (Nat.not_lt.mpr hlo)⟩

theorem wsect {what : What} {sec : Nat} {buf : Mem} : Counted s (s.wsect what sec buf) 0 :=
  of_suffix (List.suffix_cons _ _) rfl

theorem take : Counted s s.take 0 := of_suffix (List.suffix_cons _ _) rfl

theorem link : Counted s (s.link d j).1 0 := by
  rw [St.link]
  split_ifs
  · exact take
  · exact refl

theorem linkEntry {sec : Nat} {ind : Mem} : Counted s (s.linkEntry sec ind j).1 0 := by
  rw [St.linkEntry]
  split_ifs
  · exact take.trans wsect
  · exact refl

theorem entryBlock {d' : Dinode} {x : Nat} (h : s.entryBlock d j = some (s', d', x)) :
    Counted s s' 0 := by
  obtain ⟨ind, -, h⟩ := Option.bind_eq_some_iff.mp h
  cases h
  exact linkEntry

theorem blockFor {d' : Dinode} {x : Nat} (h : s.blockFor d j = some (s', d', x)) :
    Counted s s' 0 := by
  by_cases hj : j < NDIRECT
  · rw [blockFor_lt hj] at h
    cases h
    exact link
  · rw [blockFor_ge hj] at h
    exact link.trans (entryBlock h)

theorem turn {off : Nat} {d' : Dinode} (h : s.turn d off p = some (s', d')) : Counted s s' 0 := by
  rw [St.turn] at h
  split_ifs at h
  obtain ⟨⟨s₁, d₁, x⟩, hblock, h⟩ := Option.bind_eq_some_iff.mp h
  obtain ⟨buf, -, h⟩ := Option.bind_eq_some_iff.mp h
  cases h
  exact (blockFor hblock).trans wsect

theorem iappendLoop {off off' : Nat} {d' : Dinode} (h : s.iappendLoop d off p = some (s', d', off')) :
    Counted s s' 0 := by
  induction hl : p.length using Nat.strongRecOn generalizing s d off p with
  | ind l ih =>
      by_cases hp : p = []
      · subst hp
        rw [St.iappendLoop, dif_pos rfl] at h
        cases h
        exact refl
      · rw [iappendLoop_cons hp] at h
        obtain ⟨⟨s₁, d₁⟩, hturn, h⟩ := Option.bind_eq_some_iff.mp h
        have hpos := St.chunk_pos off hp
        have hle : St.chunk off p ≤ p.length := chunk_le
        exact (turn hturn).trans (ih _ (by rw [List.length_drop]; omega) h rfl)

theorem winode (h : s.winode n d = some s') : Counted s s' 0 := by
  obtain ⟨buf, -, h⟩ := Option.bind_eq_some_iff.mp h
  cases h
  exact wsect

theorem iappend (h : s.iappend n p = some s') : Counted s s' 0 := by
  obtain ⟨din, -, h⟩ := Option.bind_eq_some_iff.mp h
  obtain ⟨⟨s₁, d₁, off⟩, hloop, h⟩ := Option.bind_eq_some_iff.mp h
  obtain ⟨s₂, hw, h⟩ := Option.bind_eq_some_iff.mp h
  cases h
  have hdone : Counted s₂ (s₂.done n p) 0 := of_suffix (List.suffix_cons _ _) rfl
  exact ((iappendLoop hloop).trans (winode hw)).trans hdone

theorem fixSize (h : s.fixSize n = some s') : Counted s s' 0 := by
  obtain ⟨din, -, h⟩ := Option.bind_eq_some_iff.mp h
  exact winode h

theorem ialloc {t : Nat} (h : s.ialloc t = some (n, s')) : n = s.freeinode ∧ Counted s s' 1 := by
  obtain ⟨s₁, hw, h⟩ := Option.bind_eq_some_iff.mp h
  cases h
  have hc := winode hw
  refine ⟨rfl, hc.trace.trans (List.suffix_cons _ _), hc.freeinode, fun i hlo hhi => ?_⟩
  obtain rfl : i = s.freeinode := by omega
  exact List.mem_cons_self

theorem reads {bufs : List (List UInt8)}
    (h : bufs.foldlM (fun s buf => s.iappend n buf) s = some s') : Counted s s' 0 := by
  induction bufs generalizing s with
  | nil =>
      cases h
      exact refl
  | cons buf bufs ih =>
      rw [List.foldlM_cons] at h
      obtain ⟨s₁, happ, h⟩ := Option.bind_eq_some_iff.mp h
      exact (iappend happ).trans (ih h)

theorem inDir {entries : St → Option St} (hent : ∀ {s s'}, entries s = some s' → Counted s s' k)
    (h : St.inDir entries cur parent s = some s') : Counted s s' k := by
  obtain ⟨s₁, hdot, h⟩ := Option.bind_eq_some_iff.mp h
  obtain ⟨s₂, hdotdot, h⟩ := Option.bind_eq_some_iff.mp h
  obtain ⟨s₃, hentries, h⟩ := Option.bind_eq_some_iff.mp h
  have hc := (((iappend hdot).trans (iappend hdotdot)).trans (hent hentries)).trans (fixSize h)
  rwa [Nat.add_zero, Nat.add_zero, Nat.zero_add] at hc

/-- A tree takes as many inodes as it has files and directories. -/
theorem addEntries {d : Dir} (h : St.addEntries d cur s = some s') : Counted s s' d.nodes := by
  induction d generalizing cur s s' with
  | nil =>
      cases h
      exact refl
  | file name bufs rest ih =>
      rw [St.addEntries] at h
      rw [Dir.nodes]
      by_cases hname : Passed name
      · rw [if_pos hname] at h
        rw [if_pos hname, Nat.zero_add]
        exact ih h
      · rw [if_neg hname] at h
        rw [if_neg hname]
        obtain ⟨⟨child, s₁⟩, hialloc, h⟩ := Option.bind_eq_some_iff.mp h
        obtain ⟨s₂, hreads, h⟩ := Option.bind_eq_some_iff.mp h
        obtain ⟨s₃, happ, h⟩ := Option.bind_eq_some_iff.mp h
        exact (((ialloc hialloc).2.trans (reads hreads)).trans (iappend happ)).trans (ih h)
  | sub name dir rest ihd ih =>
      rw [St.addEntries] at h
      rw [Dir.nodes]
      by_cases hname : Passed name
      · rw [if_pos hname] at h
        rw [if_pos hname, Nat.zero_add]
        exact ih h
      · rw [if_neg hname] at h
        rw [if_neg hname, Nat.add_comm dir.nodes]
        obtain ⟨⟨child, s₁⟩, hialloc, h⟩ := Option.bind_eq_some_iff.mp h
        obtain ⟨s₂, hdir, h⟩ := Option.bind_eq_some_iff.mp h
        obtain ⟨s₃, happ, h⟩ := Option.bind_eq_some_iff.mp h
        exact (((ialloc hialloc).2.trans (inDir ihd hdir)).trans (iappend happ)).trans (ih h)

end Counted

/-! ## The state while the tree is made -/

/-- What has been appended to each inode. -/
def filed (s : St) : Nat → List UInt8 := fun i => appended i s.trace

structure Good (s : St) (B : Nat → Nat → Nat) : Prop where
  ready : Ready s B (filed s)
  positive : 1 ≤ s.freeinode
  unused : ∀ i, s.freeinode ≤ i → filed s i = []
  zero : ∀ i < room, s.freeinode ≤ i → ∀ a < 64, table s.img i a = 0
  full : ∀ b, data ≤ b → b < s.freeblock → ∃ i < room, ∃ j ≤ MAXFILE, B i j = b

/-- Inode `i` and its bytes are as they were. -/
def Keeps (s s' : St) (i : Nat) : Prop :=
  filed s' i = filed s i ∧ ∀ a < 64, table s'.img i a = table s.img i a

theorem Keeps.trans (h : Keeps s s' i) (h' : Keeps s' s'' i) : Keeps s s'' i :=
  ⟨h'.1.trans h.1, fun a ha => (h'.2 a ha).trans (h.2 a ha)⟩

theorem Keeps.sized (h : Keeps s s' i) (hs : Sized s (filed s) i) : Sized s' (filed s') i := by
  rw [Sized, h.1, ← hs]
  exact Mem.get_congr fun k hk => h.2 _ (by omega)

/-- Only inode `n` has grown, of those there were. -/
structure Grew (n : Nat) (s s' : St) : Prop where
  freeinode : s.freeinode ≤ s'.freeinode
  others : ∀ i < s.freeinode, i ≠ n → Keeps s s' i
  head : ∀ a < 8, table s'.img n a = table s.img n a
  low : ∀ a < 1024, s'.img a = s.img a

theorem Grew.trans (h : Grew n s s') (h' : Grew n s' s'') : Grew n s s'' :=
  ⟨Nat.le_trans h.freeinode h'.freeinode,
    fun i hi hin => (h.others i hi hin).trans (h'.others i (Nat.lt_of_lt_of_le hi h.freeinode) hin),
    fun a ha => (h'.head a ha).trans (h.head a ha), fun a ha => (h'.low a ha).trans (h.low a ha)⟩

theorem Grew.refl : Grew n s s :=
  ⟨Nat.le_refl _, fun _ _ _ => ⟨rfl, fun _ _ => rfl⟩, fun _ _ => rfl, fun _ _ => rfl⟩

namespace Good

theorem iappend (h : Good s B) (hs : Sized s (filed s) n) (hn : n < s.freeinode)
    (hroom : s.freeinode ≤ room) (heq : s.iappend n p = some s') :
    ∃ B', Good s' B' ∧ Sized s' (filed s') n ∧ filed s' = extend (filed s) n p ∧ Grew n s s' ∧
      s'.freeinode = s.freeinode ∧ s'.freeblock + blocksFor (filed s n).length =
        s.freeblock + blocksFor ((filed s n).length + p.length) := by
  have hn' : n < room := Nat.lt_of_lt_of_le hn hroom
  have hfits : Fits s (filed s) n p := by
    by_contra hfits
    rw [h.ready.iappend_none hs hn' hfits] at heq
    cases heq
  obtain ⟨s₁, B', heq₁, hready, ht, hsized, hfb⟩ := h.ready.iappend_ok hs hn' hfits
  cases heq.symm.trans heq₁
  have hfiled : filed s' = extend (filed s) n p := by
    funext i
    rw [filed, ht.appended]
    by_cases hin : i = n
    · rw [if_pos hin, hin, extend_self, filed]
    · rw [if_neg hin, extend_ne hin, filed]
  refine ⟨B', ⟨hfiled ▸ hready, ht.freeinode ▸ h.positive, fun i hi => ?_, fun i hi hfree a ha => ?_,
    fun b hlo hhi => ?_⟩, hfiled ▸ hsized, hfiled, ⟨Nat.le_of_eq ht.freeinode.symm,
      fun i hi hin => ⟨?_, fun a ha => ?_⟩, ht.head, fun a ha => ?_⟩, ht.freeinode, hfb⟩
  · rw [ht.freeinode] at hi
    rw [hfiled, extend_ne (Nat.ne_of_gt (Nat.lt_of_lt_of_le hn hi)), h.unused i hi]
  · rw [ht.freeinode] at hfree
    rw [ht.inode h.ready hn' hi (Nat.ne_of_gt (Nat.lt_of_lt_of_le hn hfree)) ha, h.zero i hi hfree a ha]
  · by_cases hb : b < s.freeblock
    · obtain ⟨i, hi, j, hj, rfl⟩ := h.full b hlo hb
      refine ⟨i, hi, j, hj, ?_⟩
      by_cases hin : i = n
      · rw [hin] at hlo ⊢
        exact ht.kept j (Nat.ne_of_gt (Nat.lt_of_lt_of_le (by decide) hlo))
      · rw [ht.blocks i hin]
    · obtain ⟨j, hj, hjb⟩ := ht.onto b (Nat.ne_of_gt (Nat.lt_of_lt_of_le (by decide) hlo))
        (Nat.le_of_not_lt hb) hhi
      exact ⟨n, hn', j, hj, hjb⟩
  · rw [hfiled, extend_ne hin]
  · exact ht.inode h.ready hn' (by omega) hin ha
  · have hlow : a < data * 512 := Nat.lt_trans ha (by decide)
    exact ht.img a (h.ready.holds.inode_below hlow) (h.ready.holds.not_own hn' hlow)
      (.inl (Nat.lt_of_lt_of_le ha (Nat.le_add_right _ _)))

/-- The chunks of a file. -/
theorem reads (h : Good s B) (hs : Sized s (filed s) n) (hn : n < s.freeinode)
    (hroom : s.freeinode ≤ room) {bufs : List (List UInt8)}
    (heq : bufs.foldlM (fun s buf => s.iappend n buf) s = some s') :
    ∃ B', Good s' B' ∧ Sized s' (filed s') n ∧ filed s' n = filed s n ++ bufs.flatten ∧
      Grew n s s' ∧ s'.freeinode = s.freeinode ∧ s'.freeblock + blocksFor (filed s n).length =
        s.freeblock + blocksFor ((filed s n).length + bufs.flatten.length) := by
  induction bufs generalizing s B with
  | nil =>
      cases heq
      exact ⟨B, h, hs, (List.append_nil _).symm, .refl, rfl, rfl⟩
  | cons buf bufs ih =>
      rw [List.foldlM_cons] at heq
      obtain ⟨s₁, happ, heq⟩ := Option.bind_eq_some_iff.mp heq
      obtain ⟨B₁, hgood₁, hsized₁, hfiled₁, hgrew₁, hfi₁, hfb₁⟩ := h.iappend hs hn hroom happ
      obtain ⟨B₂, hgood₂, hsized₂, hbytes₂, hgrew₂, hfi₂, hfb₂⟩ :=
        ih hgood₁ hsized₁ (hfi₁ ▸ hn) (hfi₁ ▸ hroom) heq
      rw [hfiled₁, extend_self] at hbytes₂ hfb₂
      refine ⟨B₂, hgood₂, hsized₂, ?_, hgrew₁.trans hgrew₂, hfi₂.trans hfi₁, ?_⟩
      · rw [hbytes₂, List.flatten_cons, List.append_assoc]
      · rw [List.length_append] at hfb₂
        rw [List.flatten_cons, List.length_append, ← Nat.add_assoc]
        omega

/-- A new inode. -/
theorem ialloc {t : Nat} (h : Good s B) (hn : s.freeinode < room) (ht : t < 2 ^ 16)
    (heq : s.ialloc t = some (n, s')) :
    n = s.freeinode ∧ ∃ B', Good s' B' ∧ Sized s' (filed s') n ∧ filed s' = filed s ∧
      s'.freeinode = s.freeinode + 1 ∧ s'.freeblock = s.freeblock ∧
      (∀ i < s.freeinode, Keeps s s' i) ∧ (∀ a < 1024, s'.img a = s.img a) ∧
      (table s'.img n).type = t ∧ (table s'.img n).nlink = 1 := by
  rw [h.ready.ialloc_eq hn] at heq
  cases heq
  have hfiled : filed (s.allocated t) = reset (filed s) s.freeinode := by
    funext i
    show (if s.freeinode = i then [] else appended i s.trace) = _
    by_cases hin : i = s.freeinode
    · rw [if_pos hin.symm, hin, reset_self]
    · rw [if_neg (Ne.symm hin), reset_ne hin, filed]
  have hsame : reset (filed s) s.freeinode = filed s := by
    rw [reset, Function.update_eq_self_iff]
    exact (h.unused _ (Nat.le_refl _)).symm
  have hnone : ∀ j ≤ MAXFILE, B s.freeinode j = 0 := fun j hj => by
    by_contra hne
    have := (h.ready.exact s.freeinode hn j hj).mp hne
    rw [h.unused _ (Nat.le_refl _)] at this
    exact Nat.not_lt_zero _ this
  refine ⟨rfl, clear B s.freeinode, ⟨hfiled ▸ h.ready.allocated hn h.positive,
    Nat.le_succ_of_le h.positive, fun i hi => ?_, fun i hi hfree a ha => ?_, fun b hlo hhi => ?_⟩,
    hfiled ▸ allocated_sized, hfiled.trans hsame, rfl, rfl, fun i hi => ⟨?_, fun a ha => ?_⟩,
    fun a ha => withInode_apart (s := s) (.inl (by omega)), ?_, ?_⟩
  · rw [hfiled, hsame]
    exact h.unused i (Nat.le_of_succ_le hi)
  · rw [allocated_other (Nat.ne_of_gt hfree) ha, h.zero i hi (Nat.le_of_succ_le hfree) a ha]
  · obtain ⟨i, hi, j, hj, rfl⟩ := h.full b hlo hhi
    refine ⟨i, hi, j, hj, ?_⟩
    have hin : i ≠ s.freeinode := fun hin => by
      rw [hin, hnone j hj] at hlo
      exact absurd hlo (by decide)
    rw [clear_ne hin]
  · rw [hfiled, hsame]
  · exact allocated_other (Nat.ne_of_lt hi) ha
  · exact (Mem.get_congr fun k hk => allocated_self (by omega)).trans (newInode_type ht)
  · exact (Mem.get_congr fun k hk => allocated_self (by omega)).trans (newInode_nlink t)

theorem roundUp_small {len : Nat} (h : len ≤ MAXFILE * 512) : roundUp len < 2 ^ 32 := by
  simp only [MAXFILE, roundUp] at *
  omega

theorem fixSize (h : Good s B) (hs : Sized s (filed s) n) (hn' : n < s.freeinode)
    (hroom : s.freeinode ≤ room) (heq : s.fixSize n = some s') :
    Good s' B ∧ filed s' = filed s ∧ (table s'.img n).size = roundUp (filed s n).length ∧
      Grew n s s' ∧ s'.freeinode = s.freeinode ∧ s'.freeblock = s.freeblock := by
  have hn : n < room := Nat.lt_of_lt_of_le hn' hroom
  have hshort := h.ready.short n hn
  have hs' : (table s.img n).size = (filed s n).length := hs
  rw [St.fixSize, h.ready.holds.rinode hn] at heq
  simp only [Option.bind_eq_bind, Option.bind_some] at heq
  rw [Holds.winode h.ready.holds.sectors hn, hs'] at heq
  let d := (table s.img n).setSize (roundUp (filed s n).length)
  have heq' : some (Holds.withInode s n d) = some s' := heq
  cases heq'
  have hself : ∀ a < 64, table (Holds.withInode s n d).img n a = d a := fun a ha =>
    withInode_self ha
  have hother : ∀ i, i ≠ n → ∀ a < 64, table (Holds.withInode s n d).img i a = table s.img i a :=
    fun i hin a ha => table_withInode hin ha
  have hdata : ∀ a, data * 512 ≤ a → (Holds.withInode s n d).img a = s.img a := fun a ha =>
    withInode_data hn ha
  have hholds := h.ready.holds
  refine ⟨⟨⟨⟨hholds.sectors, hholds.below, hholds.layout.congr (fun i hi j hj => ?_) hdata,
    hholds.stored.congr hholds.layout.placed hdata, hholds.logged.withInode hn⟩, h.ready.exact,
    h.ready.short⟩, h.positive, h.unused, fun i hi hfree a ha => ?_, h.full⟩, rfl, ?_,
    ⟨Nat.le_refl _, fun i _ hin => ⟨rfl, hother i hin⟩, fun a ha => ?_,
      fun a ha => withInode_apart (s := s) (.inl (by omega))⟩, rfl, rfl⟩
  · by_cases hin : i = n
    · rw [hin, Dinode.addrs_congr hself hj, Dinode.addrs_setSize]
    · exact Dinode.addrs_congr (hother i hin) hj
  · exact (hother i (Nat.ne_of_gt (Nat.lt_of_lt_of_le hn' hfree)) a ha).trans (h.zero i hi hfree a ha)
  · exact (Mem.get_congr fun k hk => hself _ (by omega)).trans
      (Dinode.size_setSize (roundUp_small hshort))
  · rw [show table _ n a = d a from hself a (by omega)]
    exact Mem.copy_apart (by omega)

end Good

/-! ## The tree -/

/-- It is in the image. -/
structure Has (s : St) (m : Made) : Prop where
  bytes : filed s m.inum = m.bytes
  type : (table s.img m.inum).type = m.type
  nlink : (table s.img m.inum).nlink = 1
  size : (table s.img m.inum).size = m.size

theorem Has.keeps {m : Made} (h : Has s m) (hk : Keeps s s' m.inum) : Has s' m := by
  have hget : ∀ k o, o + k ≤ 64 → (table s'.img m.inum).get k o = (table s.img m.inum).get k o :=
    fun k o ho => Mem.get_congr fun i hi => hk.2 _ (by omega)
  exact ⟨hk.1.trans h.bytes, (hget 2 0 (by decide)).trans h.type,
    (hget 2 6 (by decide)).trans h.nlink, (hget 4 8 (by decide)).trans h.size⟩

/-- Type and number of links are in the first eight bytes. -/
theorem type_of_head (h : ∀ a < 8, table s'.img n a = table s.img n a) :
    (table s'.img n).type = (table s.img n).type ∧ (table s'.img n).nlink = (table s.img n).nlink :=
  ⟨Mem.get_congr fun k hk => h _ (by omega), Mem.get_congr fun k hk => h _ (by omega)⟩

theorem blocksFor_zero : blocksFor 0 = 0 := rfl

/-- The blocks of what is made. -/
def blocksOf (l : List Made) : Nat := (l.map fun m => blocksFor m.bytes.length).sum

theorem blocksOf_append (l l' : List Made) : blocksOf (l ++ l') = blocksOf l + blocksOf l' := by
  rw [blocksOf, List.map_append, List.sum_append, blocksOf, blocksOf]

theorem blocksOf_file {bytes : List UInt8} {l : List Made} :
    blocksOf (⟨i, .file bytes⟩ :: l) = blocksFor bytes.length + blocksOf l := by
  rw [blocksOf, List.map_cons, List.sum_cons, blocksOf]
  rfl

theorem blocksOf_dir {es : List (Nat × List UInt8)} {l : List Made} :
    blocksOf (⟨i, .dir es⟩ :: l) = blocksFor (entryBytes es).length + blocksOf l := by
  rw [blocksOf, List.map_cons, List.sum_cons, blocksOf]
  rfl

/-- The entries of `d` have been added to the directory `cur`. -/
structure Added (d : Dir) (cur : Nat) (s s' : St) (B' : Nat → Nat → Nat) : Prop where
  good : Good s' B'
  sized : Sized s' (filed s') cur
  bytes : filed s' cur = filed s cur ++ entryBytes (listing d s.freeinode)
  grew : Grew cur s s'
  freeinode : s'.freeinode = s.freeinode + d.nodes
  freeblock : s'.freeblock + blocksFor (filed s cur).length =
    s.freeblock + blocksOf (made d cur s.freeinode) + blocksFor (filed s' cur).length
  has : ∀ m ∈ made d cur s.freeinode, Has s' m

/-- What `addEntries` does, for a tree that it has room for. -/
def EntriesSpec (d : Dir) : Prop :=
  ∀ {cur s s' B}, Good s B → Sized s (filed s) cur → cur < s.freeinode →
    s.freeinode + d.nodes ≤ room → St.addEntries d cur s = some s' → ∃ B', Added d cur s s' B'

/-- A directory that is new gets its entries. -/
theorem inDir_spec {dir : Dir} (hdir : EntriesSpec dir) (h : Good s B)
    (hs : Sized s (filed s) n) (hn : n < s.freeinode) (hempty : filed s n = [])
    (hroom : s.freeinode + dir.nodes ≤ room)
    (heq : St.inDir (St.addEntries dir n) n parent s = some s') :
    ∃ B', Good s' B' ∧ Grew n s s' ∧ s'.freeinode = s.freeinode + dir.nodes ∧
      filed s' n = entryBytes (allEntries dir n parent s.freeinode) ∧
      (table s'.img n).size = roundUp (filed s' n).length ∧
      s'.freeblock = s.freeblock + blocksOf (made dir n s.freeinode) +
        blocksFor (filed s' n).length ∧
      ∀ m ∈ made dir n s.freeinode, Has s' m := by
  obtain ⟨s₁, hdot, heq⟩ := Option.bind_eq_some_iff.mp heq
  obtain ⟨s₂, hdotdot, heq⟩ := Option.bind_eq_some_iff.mp heq
  obtain ⟨s₃, hent, hfix⟩ := Option.bind_eq_some_iff.mp heq
  have hroom' : s.freeinode ≤ room := by omega
  obtain ⟨B₁, hgood₁, hsized₁, hfiled₁, hgrew₁, hfi₁, hfb₁⟩ := h.iappend hs hn hroom' hdot
  obtain ⟨B₂, hgood₂, hsized₂, hfiled₂, hgrew₂, hfi₂, hfb₂⟩ :=
    hgood₁.iappend hsized₁ (hfi₁ ▸ hn) (hfi₁ ▸ hroom') hdotdot
  have hfi := hfi₂.trans hfi₁
  obtain ⟨B₃, hadded⟩ := hdir hgood₂ hsized₂ (hfi ▸ hn) (hfi ▸ hroom) hent
  have hfi₃ := hadded.freeinode
  obtain ⟨hgood', hfiled', hsize', hgrew', hfi', hfb'⟩ :=
    hadded.good.fixSize hadded.sized (by omega) (by omega) hfix
  have hbytes : filed s' n = entryBytes (allEntries dir n parent s.freeinode) := by
    rw [hfiled', hadded.bytes, hfi, hfiled₂, extend_self, hfiled₁, extend_self, hempty,
      List.nil_append, List.append_assoc]
    rfl
  refine ⟨B₃, hgood', ((hgrew₁.trans hgrew₂).trans hadded.grew).trans hgrew', ?_, hbytes,
    hfiled' ▸ hsize', ?_, fun m hm => ?_⟩
  · rw [hfi', hadded.freeinode, hfi]
  · have hfb₃ := hadded.freeblock
    rw [hfi, hfiled₂, extend_self, List.length_append] at hfb₃
    rw [hfiled₁, extend_self] at hfb₂ hfb₃
    rw [hempty, List.length_nil, Nat.zero_add, blocksFor_zero] at hfb₁
    rw [hempty, List.nil_append] at hfb₂ hfb₃
    rw [hfiled', hfb']
    omega
  · have hinum : m.inum ∈ List.range' s.freeinode dir.nodes :=
      made_inums dir n _ ▸ List.mem_map_of_mem hm
    rw [List.mem_range'_1] at hinum
    rw [← hfi] at hm
    exact (hadded.has m hm).keeps (hgrew'.others _ (by rw [hadded.freeinode, hfi]; omega) (by omega))

/-- What is made keeps while the directory grows. -/
theorem has_grew {l : List Made} (hgrew : Grew cur s s') (hcur : cur < k) (hlen : k + m ≤ s.freeinode)
    (hl : l.map Made.inum = List.range' k m) (hhas : ∀ x ∈ l, Has s x) : ∀ x ∈ l, Has s' x := by
  intro x hx
  have hinum : x.inum ∈ List.range' k m := hl ▸ List.mem_map_of_mem hx
  rw [List.mem_range'_1] at hinum
  exact (hhas x hx).keeps (hgrew.others _ (by omega) (by omega))

/-- After an inode and what is in it have been made, the directory gets the
entry for it and then the others. -/
theorem added_entry {rest : Dir} {s₂ s₃ : St} {B₂ : Nat → Nat → Nat} {l : List Made}
    {name : List UInt8} (ih : EntriesSpec rest) (hs : Sized s (filed s) cur)
    (hcur : cur < s.freeinode) (hgood : Good s₂ B₂) (hkeeps : ∀ i < s.freeinode, Keeps s s₂ i)
    (hlow : ∀ a < 1024, s₂.img a = s.img a)
    (hfi : s₂.freeinode = s.freeinode + m) (hfb : s₂.freeblock = s.freeblock + blocksOf l)
    (hroom : s.freeinode + m + rest.nodes ≤ room)
    (hl : l.map Made.inum = List.range' s.freeinode m) (hhas : ∀ x ∈ l, Has s₂ x)
    (happ : s₂.iappend cur (dirent s.freeinode name) = some s₃)
    (heq : St.addEntries rest cur s₃ = some s') :
    ∃ B', Good s' B' ∧ Sized s' (filed s') cur ∧
      filed s' cur = filed s cur ++
        entryBytes ((s.freeinode, name) :: listing rest (s.freeinode + m)) ∧
      Grew cur s s' ∧ s'.freeinode = s.freeinode + (m + rest.nodes) ∧
      s'.freeblock + blocksFor (filed s cur).length = s.freeblock +
        blocksOf (l ++ made rest cur (s.freeinode + m)) + blocksFor (filed s' cur).length ∧
      ∀ x ∈ l ++ made rest cur (s.freeinode + m), Has s' x := by
  obtain ⟨B₃, hgood₃, hsized₃, hfiled₃, hgrew₃, hfi₃, hfb₃⟩ :=
    hgood.iappend ((hkeeps cur hcur).sized hs) (by omega) (by omega) happ
  have hfi' : s₃.freeinode = s.freeinode + m := hfi₃.trans hfi
  obtain ⟨B', ha⟩ := ih hgood₃ hsized₃ (by omega) (by omega) heq
  have hgrew := hgrew₃.trans ha.grew
  have hfirst : Grew cur s s₂ :=
    ⟨by omega, fun i hi _ => hkeeps i hi, fun a ha => (hkeeps cur hcur).2 a (by omega), hlow⟩
  refine ⟨B', ha.good, ha.sized, ?_, hfirst.trans hgrew, ?_, ?_, fun x hx => ?_⟩
  · rw [ha.bytes, hfiled₃, extend_self, (hkeeps cur hcur).1, hfi', List.append_assoc]
    rfl
  · rw [ha.freeinode, hfi', Nat.add_assoc]
  · have hfb' := ha.freeblock
    rw [hfiled₃, extend_self, List.length_append, (hkeeps cur hcur).1, hfi'] at hfb'
    rw [(hkeeps cur hcur).1] at hfb₃
    rw [blocksOf_append]
    omega
  · rcases List.mem_append.mp hx with hx | hx
    · exact has_grew hgrew hcur (Nat.le_of_eq hfi.symm) hl hhas x hx
    · exact ha.has x (hfi' ▸ hx)

/-- The loop of `add_dir` makes what the tree has. -/
theorem addEntries_spec (d : Dir) : EntriesSpec d := by
  induction d with
  | nil =>
      intro cur s s' B h hs hcur hroom heq
      cases heq
      exact ⟨B, h, hs, (List.append_nil _).symm, .refl, rfl, rfl,
        fun m hm => absurd hm List.not_mem_nil⟩
  | file name bufs rest ih =>
      intro cur s s' B h hs hcur hroom heq
      rw [St.addEntries] at heq
      rw [Dir.nodes] at hroom
      by_cases hname : Passed name
      · rw [if_pos hname] at heq hroom
        rw [Nat.zero_add] at hroom
        obtain ⟨B', ha⟩ := ih h hs hcur hroom heq
        refine ⟨B', ha.good, ha.sized, ?_, ha.grew, ?_, ?_, ?_⟩
        · rw [listing, if_pos hname, ha.bytes]
        · rw [Dir.nodes, if_pos hname, Nat.zero_add, ha.freeinode]
        · rw [made, if_pos hname, ha.freeblock]
        · rw [made, if_pos hname]
          exact ha.has
      · rw [if_neg hname] at heq hroom
        obtain ⟨⟨child, s₁⟩, hialloc, heq₁⟩ := Option.bind_eq_some_iff.mp heq
        obtain ⟨s₂, hreads, heq₂⟩ := Option.bind_eq_some_iff.mp heq₁
        obtain ⟨s₃, happ, hrest⟩ := Option.bind_eq_some_iff.mp heq₂
        obtain ⟨rfl, B₁, hgood₁, hsized₁, hfiled₁, hfi₁, hfb₁, hkeeps₁, hlow₁, htype₁, hnlink₁⟩ :=
          h.ialloc (by omega) (by decide) hialloc
        obtain ⟨B₂, hgood₂, hsized₂, hbytes₂, hgrew₂, hfi₂, hfb₂⟩ :=
          hgood₁.reads hsized₁ (by omega) (by omega) hreads
        have hhead := type_of_head hgrew₂.head
        rw [hfiled₁, h.unused _ (Nat.le_refl _)] at hbytes₂ hfb₂
        rw [List.nil_append] at hbytes₂
        rw [List.length_nil, Nat.zero_add, blocksFor_zero, Nat.add_zero, hfb₁] at hfb₂
        have hsize₂ : (table s₂.img s.freeinode).size = bufs.flatten.length := hbytes₂ ▸ hsized₂
        have hhas₂ : Has s₂ ⟨s.freeinode, .file bufs.flatten⟩ :=
          ⟨hbytes₂, hhead.1.trans htype₁, hhead.2.trans hnlink₁, hsize₂⟩
        obtain ⟨B', hgood', hsized', hbytes', hgrew', hfi', hfb', hhas'⟩ :=
          added_entry ih hs hcur hgood₂
            (fun i hi => (hkeeps₁ i hi).trans (hgrew₂.others i (by omega) (by omega)))
            (fun a ha => (hgrew₂.low a ha).trans (hlow₁ a ha))
            (hfi₂.trans hfi₁) (l := [⟨s.freeinode, .file bufs.flatten⟩]) hfb₂ (by omega) rfl
            (fun x hx => by rw [List.mem_singleton.mp hx]; exact hhas₂) happ hrest
        refine ⟨B', hgood', hsized', ?_, hgrew', ?_, ?_, ?_⟩
        · rw [listing, if_neg hname, hbytes']
        · rw [Dir.nodes, if_neg hname, hfi']
        · rw [made, if_neg hname]
          exact hfb'
        · rw [made, if_neg hname]
          exact hhas'
  | sub name dir rest ihd ih =>
      intro cur s s' B h hs hcur hroom heq
      rw [St.addEntries] at heq
      rw [Dir.nodes] at hroom
      by_cases hname : Passed name
      · rw [if_pos hname] at heq hroom
        rw [Nat.zero_add] at hroom
        obtain ⟨B', ha⟩ := ih h hs hcur hroom heq
        refine ⟨B', ha.good, ha.sized, ?_, ha.grew, ?_, ?_, ?_⟩
        · rw [listing, if_pos hname, ha.bytes]
        · rw [Dir.nodes, if_pos hname, Nat.zero_add, ha.freeinode]
        · rw [made, if_pos hname, ha.freeblock]
        · rw [made, if_pos hname]
          exact ha.has
      · rw [if_neg hname] at heq hroom
        obtain ⟨⟨child, s₁⟩, hialloc, heq₁⟩ := Option.bind_eq_some_iff.mp heq
        obtain ⟨s₂, hdir, heq₂⟩ := Option.bind_eq_some_iff.mp heq₁
        obtain ⟨s₃, happ, hrest⟩ := Option.bind_eq_some_iff.mp heq₂
        obtain ⟨rfl, B₁, hgood₁, hsized₁, hfiled₁, hfi₁, hfb₁, hkeeps₁, hlow₁, htype₁, hnlink₁⟩ :=
          h.ialloc (by omega) (by decide) hialloc
        obtain ⟨B₂, hgood₂, hgrew₂, hfi₂, hbytes₂, hsize₂, hfb₂, hhas₂⟩ :=
          inDir_spec ihd hgood₁ hsized₁ (by omega)
            (by rw [hfiled₁, h.unused _ (Nat.le_refl _)]) (by omega) hdir
        have hhead := type_of_head hgrew₂.head
        rw [hfi₁] at hbytes₂ hhas₂ hfi₂ hfb₂
        rw [hbytes₂] at hsize₂
        have hdir₂ : Has s₂ ⟨s.freeinode, .dir (allEntries dir s.freeinode cur (s.freeinode + 1))⟩ :=
          ⟨hbytes₂, hhead.1.trans htype₁, hhead.2.trans hnlink₁, hsize₂⟩
        obtain ⟨B', hgood', hsized', hbytes', hgrew', hfi', hfb', hhas'⟩ :=
          added_entry ih hs hcur hgood₂ (m := dir.nodes + 1)
            (l := ⟨s.freeinode, .dir (allEntries dir s.freeinode cur (s.freeinode + 1))⟩ ::
              made dir s.freeinode (s.freeinode + 1))
            (fun i hi => (hkeeps₁ i hi).trans (hgrew₂.others i (by omega) (by omega)))
            (fun a ha => (hgrew₂.low a ha).trans (hlow₁ a ha))
            (by omega)
            (by rw [hfb₂, hfb₁, hbytes₂, blocksOf_dir, Nat.add_assoc, Nat.add_comm (blocksOf _)])
            (by omega)
            (by rw [List.map_cons, made_inums, List.range'_succ])
            (List.forall_mem_cons.mpr ⟨hdir₂, hhas₂⟩) happ hrest
        have hnext : s.freeinode + 1 + dir.nodes = s.freeinode + (dir.nodes + 1) := by omega
        refine ⟨B', hgood', hsized', ?_, hgrew', ?_, ?_, ?_⟩
        · rw [listing, if_neg hname, hbytes', hnext]
        · rw [Dir.nodes, if_neg hname, hfi']
        · rw [made, if_neg hname, hnext]
          exact hfb'
        · rw [made, if_neg hname, hnext]
          exact hhas'

end Cs537.Mkfs
