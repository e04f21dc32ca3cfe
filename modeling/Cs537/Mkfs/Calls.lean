/-
# `Cs537.Mkfs.Calls` — files made by `ialloc` and `iappend`

A file is read back through the addresses in its inode and in its indirect
block, and cut at its size (`contents`).  After any calls of `ialloc` and
`iappend`, in any order, it is what has been appended to it, and no two
addresses are the same; an append changes no byte of another file
(`calls_contents`).  The calls go through exactly if the files stay below their
largest size and the blocks below the end of the image (`Fit`).
-/
import Mathlib.Data.List.Nodup
import Cs537.Lib.Run
import Cs537.Mkfs.Inodes

namespace Cs537.Mkfs

open Cs537.Lib

variable {s s' : St} {T : Nat → Dinode} {B B' : Nat → Nat → Nat} {f : Nat → List UInt8}
  {n i j : Nat} {p : List UInt8}

/-! ## Reading a file back -/

/-- The address for the bytes from `512 * fbn` on. -/
def blockOf (img : Mem) (i fbn : Nat) : Nat :=
  if fbn < NDIRECT then (table img i).addrs fbn
  else img.get 4 ((table img i).addrs NDIRECT * 512 + 4 * (fbn - NDIRECT))

def contents (img : Mem) (i : Nat) : List UInt8 :=
  (List.range (table img i).size).map fun off => img (blockOf img i (off / 512) * 512 + off % 512)

/-- The addresses in an inode and in its indirect block, the zeros left out. -/
def refs (img : Mem) (i : Nat) : List Nat :=
  ((List.range (NDIRECT + 1)).map (table img i).addrs ++
    if (table img i).addrs NDIRECT ≠ 0 then
      (List.range 128).map fun j => img.get 4 ((table img i).addrs NDIRECT * 512 + 4 * j)
    else []).filter (· ≠ 0)

theorem Ready.blockOf (h : Ready s B f) (hi : i < room) (hj : j < MAXFILE) (hne : B i j ≠ 0) :
    blockOf s.img i j = B i j := by
  have hlayout := h.holds.layout
  rw [Mkfs.blockOf]
  split_ifs with hd
  · exact hlayout.direct i hi j hd
  · obtain ⟨k, rfl⟩ : ∃ k, j = NDIRECT + k := ⟨_, (Nat.add_sub_of_le (by omega)).symm⟩
    have hk : k < 128 := by simp only [MAXFILE, NDIRECT] at hj; omega
    have hind : B i MAXFILE ≠ 0 := fun h0 => hne (hlayout.noEntry i hi h0 k hk)
    rw [hlayout.indirect i hi, Nat.add_sub_cancel_left, hlayout.entry i hi hind k hk]

/-- A byte of a file, where the addresses say that it is. -/
theorem Ready.byte (h : Ready s B f) (hi : i < room) {k : Nat} (hk : k < (f i).length) :
    s.img (Mkfs.blockOf s.img i (k / 512) * 512 + k % 512) = (f i)[k] := by
  have hshort := h.short i hi
  have hj : k / 512 < MAXFILE := by omega
  have hne : B i (k / 512) ≠ 0 :=
    (h.exact i hi _ (Nat.le_of_lt hj)).mpr ((needed_lt hj).mpr (by omega))
  rw [h.blockOf hi hj hne, h.holds.stored i hi _ hj hne _ (Nat.mod_lt k (by decide)),
    Nat.div_add_mod, List.getD_eq_getElem _ _ hk]

/-- With a size that is larger, the file is what comes first. -/
theorem Ready.prefix_contents (h : Ready s B f) (hi : i < room)
    (hs : (f i).length ≤ (table s.img i).size) : f i <+: contents s.img i := by
  have hlen : (contents s.img i).length = (table s.img i).size := by simp [contents]
  refine List.prefix_iff_eq_take.mpr (List.ext_getElem ?_ fun k hk hk' => ?_)
  · rw [List.length_take, hlen, Nat.min_eq_left hs]
  · rw [List.getElem_take, ← h.byte hi hk]
    simp [contents]

theorem Ready.contents (h : Ready s B f) (hi : i < room) (hs : Sized s f i) :
    contents s.img i = f i := by
  have hs' : (table s.img i).size = (f i).length := hs
  have hlen : (Mkfs.contents s.img i).length = (f i).length := by simp [Mkfs.contents, hs']
  exact ((h.prefix_contents hi (Nat.le_of_eq hs'.symm)).eq_of_length hlen.symm).symm

/-! ## Addresses -/

/-- The slots that an inode has addresses for, as `refs` goes over them. -/
def slotsOf (B : Nat → Nat → Nat) (i : Nat) : List Nat :=
  List.range NDIRECT ++ MAXFILE ::
    if B i MAXFILE ≠ 0 then (List.range 128).map (NDIRECT + ·) else []

theorem slotsOf_nodup (B : Nat → Nat → Nat) (i : Nat) : (slotsOf B i).Nodup := by
  have hentries : ((List.range 128).map (NDIRECT + ·)).Nodup :=
    List.nodup_range.map fun _ _ => Nat.add_left_cancel
  have hmem : ∀ k ∈ (if B i MAXFILE ≠ 0 then (List.range 128).map (NDIRECT + ·) else []),
      NDIRECT ≤ k ∧ k < MAXFILE := by
    intro k hk
    split_ifs at hk
    · obtain ⟨l, hl, rfl⟩ := List.mem_map.mp hk
      rw [List.mem_range] at hl
      simp only [NDIRECT, MAXFILE]
      omega
    · cases hk
  refine List.nodup_append.mpr ⟨List.nodup_range, List.nodup_cons.mpr ⟨fun hm => ?_, ?_⟩,
    fun a ha b hb => ?_⟩
  · exact Nat.lt_irrefl _ (hmem _ hm).2
  · split_ifs
    · exact hentries
    · exact List.nodup_nil
  · rw [List.mem_range] at ha
    rcases List.mem_cons.mp hb with rfl | hb
    · simp only [NDIRECT, MAXFILE] at *
      omega
    · have := (hmem b hb).1
      omega

theorem slotsOf_le (hj : j ∈ slotsOf B i) : j ≤ MAXFILE := by
  rcases List.mem_append.mp hj with hj | hj
  · rw [List.mem_range] at hj
    simp only [NDIRECT, MAXFILE] at *
    omega
  · rcases List.mem_cons.mp hj with rfl | hj
    · exact Nat.le_refl _
    · split_ifs at hj
      · obtain ⟨l, hl, rfl⟩ := List.mem_map.mp hj
        rw [List.mem_range] at hl
        simp only [NDIRECT, MAXFILE]
        omega
      · cases hj

theorem Ready.refs (h : Ready s B f) (hi : i < room) :
    refs s.img i = ((slotsOf B i).map (B i)).filter (· ≠ 0) := by
  have hlayout := h.holds.layout
  have hind := hlayout.indirect i hi
  have hdirect : (List.range NDIRECT).map (table s.img i).addrs = (List.range NDIRECT).map (B i) :=
    List.map_congr_left fun k hk => hlayout.direct i hi k (List.mem_range.mp hk)
  rw [Mkfs.refs, slotsOf, List.range_succ, List.map_append, hdirect, List.map_append, List.map_cons,
    List.append_assoc, List.map_cons, List.map_nil, List.singleton_append, hind]
  by_cases h0 : B i MAXFILE ≠ 0
  · rw [if_pos h0, if_pos h0, List.map_map]
    congr 3
    exact List.map_congr_left fun k hk => hlayout.entry i hi h0 k (List.mem_range.mp hk)
  · rw [if_neg h0, if_neg h0, List.map_nil]

theorem Ready.mem_refs {b : Nat} (h : Ready s B f) (hi : i < room) (hb : b ∈ Mkfs.refs s.img i) :
    ∃ j ≤ MAXFILE, B i j ≠ 0 ∧ b = B i j := by
  rw [h.refs hi, List.mem_filter, decide_eq_true_eq] at hb
  obtain ⟨hmem, hne⟩ := hb
  obtain ⟨j, hj, rfl⟩ := List.mem_map.mp hmem
  exact ⟨j, slotsOf_le hj, hne, rfl⟩

theorem Ready.refs_mem (h : Ready s B f) (hi : i < room) (hj : j ≤ MAXFILE) (hne : B i j ≠ 0) :
    B i j ∈ Mkfs.refs s.img i := by
  rw [h.refs hi]
  refine List.mem_filter.mpr ⟨List.mem_map_of_mem ?_, decide_eq_true hne⟩
  by_cases hd : j < NDIRECT
  · exact List.mem_append_left _ (List.mem_range.mpr hd)
  refine List.mem_append_right _ (List.mem_cons.mpr ?_)
  by_cases hlast : j = MAXFILE
  · exact .inl hlast
  · obtain ⟨k, rfl⟩ : ∃ k, j = NDIRECT + k := ⟨_, (Nat.add_sub_of_le (Nat.le_of_not_lt hd)).symm⟩
    have hk : k < 128 := by simp only [MAXFILE, NDIRECT] at *; omega
    have hind : B i MAXFILE ≠ 0 := fun h0 => hne (h.holds.layout.noEntry i hi h0 k hk)
    rw [if_pos hind]
    exact .inr (List.mem_map_of_mem (List.mem_range.mpr hk))

/-- No address is there twice, in one inode or in two. -/
theorem Ready.refs_nodup (h : Ready s B f) {m : Nat} (hm : m ≤ room) :
    ((List.range m).flatMap (Mkfs.refs s.img)).Nodup := by
  have hinj := h.holds.layout.placed.inj
  refine List.nodup_flatMap.mpr ⟨fun i hi => ?_, ?_⟩
  · have hi' : i < room := Nat.lt_of_lt_of_le (List.mem_range.mp hi) hm
    rw [h.refs hi', List.filter_map]
    refine ((slotsOf_nodup B i).filter _).map_on fun a ha b hb heq => ?_
    obtain ⟨ha, hne⟩ := List.mem_filter.mp ha
    exact (hinj i hi' a (slotsOf_le ha) i hi' b (slotsOf_le (List.mem_filter.mp hb).1)
      (of_decide_eq_true hne) heq).2
  · refine List.nodup_range.pairwise_of_forall_ne fun i hi k hk hik => ?_
    rw [List.mem_range] at hi hk
    intro b hb hb'
    obtain ⟨j, hj, hne, rfl⟩ := h.mem_refs (by omega) hb
    obtain ⟨l, hl, -, heq⟩ := h.mem_refs (by omega) hb'
    exact hik (hinj i (by omega) j hj k (by omega) l hl hne heq).1

/-! ## The empty image -/

theorem copy_zeroes (o k : Nat) : zeroes.copy o k zeroes = zeroes :=
  funext fun _ => ite_self _

/-- Writing zeros to the first `k` sectors. -/
theorem format_spec (himg : s.img = zeroes) (hsec : s.sectors = 0) (k : Nat) :
    ∃ t, (List.range k).foldl (fun s i => s.wsect .format i zeroes) s =
        { s with sectors := k, trace := t } ∧
      ∀ e ∈ t, e ∈ s.trace ∨ ∃ sec, e = .write .format sec := by
  induction k with
  | zero =>
      refine ⟨s.trace, ?_, fun _ he => .inl he⟩
      show s = { s with sectors := 0, trace := s.trace }
      rw [← hsec]
  | succ k ih =>
      obtain ⟨t, heq, ht⟩ := ih
      refine ⟨.write .format k :: t, ?_, fun e he => ?_⟩
      · rw [List.range_succ, List.foldl_append, heq, List.foldl_cons, List.foldl_nil, St.wsect]
        congr 1
        · rw [himg, copy_zeroes]
        · exact Nat.max_eq_right (Nat.le_succ k)
      · rcases List.mem_cons.mp he with rfl | he
        · exact .inr ⟨k, rfl⟩
        · exact ht e he

theorem St.superblock_size {nblocks ninodes size : Nat} (h : size < 2 ^ 32) :
    (St.superblock nblocks ninodes size).get 4 0 = size := by
  rw [St.superblock, Mem.get_put_apart (by decide), Mem.get_put_apart (by decide),
    Mem.get_put_self h]

theorem St.superblock_nblocks {nblocks ninodes size : Nat} (h : nblocks < 2 ^ 32) :
    (St.superblock nblocks ninodes size).get 4 4 = nblocks := by
  rw [St.superblock, Mem.get_put_apart (by decide), Mem.get_put_self h]

theorem St.superblock_ninodes {nblocks ninodes size : Nat} (h : ninodes < 2 ^ 32) :
    (St.superblock nblocks ninodes size).get 4 8 = ninodes := by
  rw [St.superblock, Mem.get_put_self h]

/-- The empty image: zeros, and the superblock. -/
def blank (t : List Event) : St where
  img := zeroes.copy 512 512 (St.superblock nblocks ninodes size)
  sectors := size
  freeblock := data
  usedblocks := data
  freeinode := 1
  trace := t

theorem mkfs_blank : ∃ t, St.start.mkfs nblocks ninodes size = some (blank t) ∧
    ∀ e ∈ t, ∃ sec, e = .write .format sec := by
  obtain ⟨t, heq, ht⟩ := format_spec (s := { St.start with usedblocks := data, freeblock := data })
    rfl rfl size
  refine ⟨.write .format 1 :: t, ?_, fun e he => ?_⟩
  · rw [St.mkfs]
    refine (if_pos rfl).trans (congrArg some ?_)
    exact congrArg (fun s => St.wsect s .format 1 (St.superblock nblocks ninodes size)) heq
  · rcases List.mem_cons.mp he with rfl | he
    · exact ⟨1, rfl⟩
    · exact (ht e he).resolve_left List.not_mem_nil

/-- The empty files. -/
def noFiles : Nat → List UInt8 := fun _ => []

def noBlocks : Nat → Nat → Nat := fun _ _ => 0

theorem appended_format {t : List Event} (ht : ∀ e ∈ t, ∃ sec, e = .write .format sec) (i : Nat) :
    appended i t = [] := by
  induction t with
  | nil => rfl
  | cons e t ih =>
      obtain ⟨sec, rfl⟩ := ht e List.mem_cons_self
      exact ih fun e he => ht e (List.mem_cons_of_mem _ he)

theorem ready_blank {t : List Event} (ht : ∀ e ∈ t, ∃ sec, e = .write .format sec) :
    Ready (blank t) noBlocks noFiles ∧ ∀ i, Sized (blank t) noFiles i := by
  have hzero : ∀ k o, 1024 ≤ o →
      (zeroes.copy 512 512 (St.superblock nblocks ninodes size)).get k o = 0 := fun k o ho =>
    (Mem.get_copy_apart (.inr ho)).trans get_zeroes
  have hfield : ∀ i k o,
      (table (zeroes.copy 512 512 (St.superblock nblocks ninodes size)) i).get k o = 0 :=
    fun i k o => Mem.get_ptr.trans (hzero k _ (by omega))
  have hnone : ∀ e : Event, (∀ sec, e ≠ .write .format sec) → e ∉ t := fun e he hmem => by
    obtain ⟨sec, hsec⟩ := ht e hmem
    exact he sec hsec
  have hbelow : data ≤ size := by decide
  refine ⟨⟨⟨rfl, hbelow, ⟨⟨Nat.le_refl _, ?_, ?_⟩, ?_, ?_, ?_, ?_, ?_⟩, ?_,
    ⟨rfl, fun b => ?_, fun i => ?_, fun what sec hw => ?_⟩⟩, fun i _ j _ => ?_, fun i _ => ?_⟩,
    fun i => hfield i 4 8⟩
  · exact fun i _ j _ hne => absurd rfl hne
  · exact fun i _ j _ i' _ j' _ hne => absurd rfl hne
  · exact fun i _ j _ => hfield i 4 _
  · exact fun i _ => hfield i 4 _
  · exact fun i _ hne => absurd rfl hne
  · exact fun _ _ _ _ _ => rfl
  · have hlow : 1024 ≤ data * 512 := by decide
    exact fun a ha => Mem.copy_apart (.inr (Nat.le_trans hlow ha))
  · exact fun i _ j _ hne => absurd rfl hne
  · exact iff_of_false (hnone _ fun _ => by rintro ⟨⟩) fun hb => Nat.not_lt.mpr hb.1 hb.2
  · exact iff_of_false (hnone _ fun _ => by rintro ⟨⟩) fun hi => Nat.not_lt.mpr hi.1 hi.2
  · obtain ⟨sec', heq⟩ := ht _ hw
    cases heq
    trivial
  · exact iff_of_false (not_not.mpr rfl) (Nat.not_lt_zero _)
  · exact Nat.zero_le _

/-! ## Calls -/

inductive Call where
  | ialloc (type : Nat)
  | iappend (inum : Nat) (p : List UInt8)

def step (s : St) : Call → Option St
  | .ialloc type => (s.ialloc type).map (·.2)
  | .iappend inum p => s.iappend inum p

/-- The state after the calls `cs` on an empty image. -/
def calls (cs : List Call) : Option St :=
  (St.start.mkfs nblocks ninodes size).bind fun s => run step s cs

/-- Files, and what has been handed out for them. -/
structure Files where
  bytes : Nat → List UInt8
  freeblock : Nat
  freeinode : Nat

namespace Files

def start : Files := ⟨noFiles, data, 1⟩

def step (F : Files) : Call → Files
  | .ialloc _ => ⟨reset F.bytes F.freeinode, F.freeblock, F.freeinode + 1⟩
  | .iappend n p => ⟨extend F.bytes n p, F.freeblock +
      (blocksFor ((F.bytes n).length + p.length) - blocksFor (F.bytes n).length), F.freeinode⟩

/-- No file is too long, and all blocks are in the image. -/
def Small (F : Files) : Prop := (∀ i, (F.bytes i).length ≤ MAXFILE * 512) ∧ F.freeblock ≤ size

end Files

/-- The files after the calls `cs`. -/
def files (cs : List Call) : Files := cs.foldl Files.step .start

/-- The files are small after each of the calls. -/
def Fit : Files → List Call → Prop
  | _, [] => True
  | F, c :: cs => (F.step c).Small ∧ Fit (F.step c) cs

/-- All inode numbers are less than `ninodes`; `k` is the next one. -/
def Numbered : Nat → List Call → Prop
  | _, [] => True
  | k, .ialloc _ :: cs => k < ninodes ∧ Numbered (k + 1) cs
  | k, .iappend n _ :: cs => n < ninodes ∧ Numbered k cs

/-- The inodes that are appended to have been handed out by `ialloc`. -/
def Handed : Nat → List Call → Prop
  | _, [] => True
  | k, .ialloc _ :: cs => Handed (k + 1) cs
  | k, .iappend n _ :: cs => n < k ∧ Handed k cs

/-- The chunks that are appended to inode `i`, in order. -/
def chunks (i : Nat) : List Call → List UInt8
  | [] => []
  | .ialloc _ :: cs => chunks i cs
  | .iappend n p :: cs => if n = i then p ++ chunks i cs else chunks i cs

/-! ## The files of a state -/

structure Rel (s : St) (F : Files) : Prop where
  ready : ∃ B, Ready s B F.bytes
  sized : ∀ i < room, Sized s F.bytes i
  freeblock : s.freeblock = F.freeblock
  freeinode : s.freeinode = F.freeinode
  positive : 1 ≤ F.freeinode
  unused : ∀ i, room ≤ i → F.bytes i = []

/-- The number of the inode that a call uses is less than `ninodes`. -/
def Call.InRange (F : Files) : Call → Prop
  | .ialloc _ => F.freeinode < ninodes
  | .iappend n _ => n < ninodes

theorem ninodes_le : ninodes ≤ room := by decide

theorem extend_length : (extend f n p i).length ≤ MAXFILE * 512 ↔
    (f i).length + (if i = n then p.length else 0) ≤ MAXFILE * 512 := by
  by_cases hin : i = n
  · rw [hin, extend_self, List.length_append, if_pos rfl]
  · rw [extend_ne hin, if_neg hin, Nat.add_zero]

variable {F : Files} {c : Call}

/-- The bytes fit if the files are small with them. -/
theorem Rel.fits_iff (h : Rel s F) (n : Nat) (p : List UInt8) :
    Fits s F.bytes n p ↔ (F.step (.iappend n p)).Small := by
  obtain ⟨B, hready⟩ := h.ready
  have hfb := h.freeblock
  have hmono := blocksFor_mono (Nat.le_add_right (F.bytes n).length p.length)
  constructor
  · rintro ⟨hlen, hroom⟩
    refine ⟨fun i => extend_length.mpr ?_, ?_⟩
    · by_cases hin : i = n
      · rwa [if_pos hin, hin]
      · rw [if_neg hin]
        by_cases hi : i < room
        · exact hready.short i hi
        · rw [h.unused i (by omega)]
          exact Nat.zero_le _
    · show F.freeblock + _ ≤ size
      omega
  · rintro ⟨hlen, hroom⟩
    have hn' := extend_length.mp (hlen n)
    rw [if_pos rfl] at hn'
    have hroom' : F.freeblock + (blocksFor ((F.bytes n).length + p.length) -
      blocksFor (F.bytes n).length) ≤ size := hroom
    exact ⟨hn', by omega⟩

/-- A call does to the image what it does to the files. -/
theorem Rel.step_ok (h : Rel s F) (hc : c.InRange F) (hsmall : (F.step c).Small) :
    ∃ s', step s c = some s' ∧ Rel s' (F.step c) := by
  obtain ⟨B, hready⟩ := h.ready
  cases c with
  | ialloc t =>
      have hn : s.freeinode < room := h.freeinode ▸ Nat.lt_of_lt_of_le hc ninodes_le
      have h1 : 1 ≤ s.freeinode := h.freeinode ▸ h.positive
      have hfi := h.freeinode
      refine ⟨s.allocated t, by rw [step, hready.ialloc_eq hn]; rfl,
        ⟨clear B s.freeinode, ?_⟩, fun i hi => ?_, h.freeblock,
        congrArg (· + 1) hfi, Nat.le_add_left _ _, fun i hi => ?_⟩
      · show Ready _ _ (reset F.bytes F.freeinode)
        rw [← hfi]
        exact hready.allocated hn h1
      · show Sized _ (reset F.bytes F.freeinode) i
        rw [← hfi]
        by_cases hin : i = s.freeinode
        · rw [hin]
          exact allocated_sized
        · exact allocated_sized_ne hin (h.sized i hi)
      · exact (reset_ne (by omega)).trans (h.unused i hi)
  | iappend n p =>
      have hn : n < room := Nat.lt_of_lt_of_le hc ninodes_le
      obtain ⟨s', B', heq, hready', ht, hsized, hfb⟩ :=
        hready.iappend_ok (h.sized n hn) hn ((h.fits_iff n p).mpr hsmall)
      have hmono := blocksFor_mono (Nat.le_add_right (F.bytes n).length p.length)
      have hfb' := h.freeblock
      refine ⟨s', heq, ⟨B', hready'⟩, fun i hi => ?_, ?_, ht.freeinode.trans h.freeinode,
        h.positive, fun i hi => ?_⟩
      · by_cases hin : i = n
        · exact hin ▸ hsized
        · exact ht.sized hready hn hi hin (h.sized i hi)
      · show s'.freeblock = F.freeblock + _
        omega
      · exact (extend_ne (by omega)).trans (h.unused i hi)

theorem Rel.step_none (h : Rel s F) (hF : F.Small) (hc : c.InRange F)
    (hsmall : ¬ (F.step c).Small) : step s c = none := by
  obtain ⟨B, hready⟩ := h.ready
  cases c with
  | ialloc t =>
      refine absurd ⟨fun i => ?_, hF.2⟩ hsmall
      show (reset F.bytes F.freeinode i).length ≤ _
      by_cases hin : i = F.freeinode
      · rw [hin, reset_self]
        exact Nat.zero_le _
      · rw [reset_ne hin]
        exact hF.1 i
  | iappend n p =>
      have hn : n < room := Nat.lt_of_lt_of_le hc ninodes_le
      exact hready.iappend_none (h.sized n hn) hn ((not_congr (h.fits_iff n p)).mpr hsmall)

theorem numbered_cons {cs : List Call} :
    Numbered F.freeinode (c :: cs) ↔ c.InRange F ∧ Numbered (F.step c).freeinode cs := by
  cases c <;> exact Iff.rfl

/-- The same for a sequence of calls. -/
theorem Rel.run_ok {cs : List Call} (h : Rel s F) (hnum : Numbered F.freeinode cs) (hfit : Fit F cs) :
    ∃ s', run step s cs = some s' ∧ Rel s' (cs.foldl Files.step F) := by
  induction cs generalizing s F with
  | nil => exact ⟨s, rfl, h⟩
  | cons c cs ih =>
      obtain ⟨hc, hnum⟩ := numbered_cons.mp hnum
      obtain ⟨s₁, hstep, hrel⟩ := h.step_ok hc hfit.1
      obtain ⟨s', hrun, hrel'⟩ := ih hrel hnum hfit.2
      exact ⟨s', by rw [run, hstep]; exact hrun, hrel'⟩

theorem Rel.run_none {cs : List Call} (h : Rel s F) (hF : F.Small)
    (hnum : Numbered F.freeinode cs) (hfit : ¬ Fit F cs) : run step s cs = none := by
  induction cs generalizing s F with
  | nil => exact absurd trivial hfit
  | cons c cs ih =>
      obtain ⟨hc, hnum⟩ := numbered_cons.mp hnum
      by_cases hsmall : (F.step c).Small
      · obtain ⟨s₁, hstep, hrel⟩ := h.step_ok hc hsmall
        rw [run, hstep]
        exact ih hrel hsmall hnum fun hfit' => hfit ⟨hsmall, hfit'⟩
      · rw [run, h.step_none hF hc hsmall]
        rfl

/-- If only inodes handed out are appended to, a file is all that was appended. -/
theorem bytes_chunks {cs : List Call} (h0 : ∀ i, F.freeinode ≤ i → F.bytes i = [])
    (h : Handed F.freeinode cs) (i : Nat) :
    (cs.foldl Files.step F).bytes i = F.bytes i ++ chunks i cs := by
  induction cs generalizing F with
  | nil => exact (List.append_nil _).symm
  | cons c cs ih =>
      rw [List.foldl_cons]
      cases c with
      | ialloc t =>
          have hsame : reset F.bytes F.freeinode = F.bytes := by
            rw [reset, Function.update_eq_self_iff]
            exact (h0 _ (Nat.le_refl _)).symm
          have hstep : F.step (.ialloc t) = ⟨F.bytes, F.freeblock, F.freeinode + 1⟩ := by
            rw [Files.step, hsame]
          rw [hstep]
          exact ih (fun k hk => h0 k (Nat.le_of_succ_le hk)) h
      | iappend n p =>
          rw [ih (F := F.step (.iappend n p)) (fun k hk => ?_) h.2]
          · show extend F.bytes n p i ++ _ = _ ++ if n = i then _ else _
            by_cases hin : n = i
            · rw [hin, extend_self, if_pos rfl, List.append_assoc]
            · rw [extend_ne (Ne.symm hin), if_neg hin]
          · have hk' : F.freeinode ≤ k := hk
            exact (extend_ne (Nat.ne_of_gt (Nat.lt_of_lt_of_le h.1 hk'))).trans (h0 k hk')

/-- Inode `i`, and the bytes in its blocks, are the same in two images. -/
def SameFile (img img' : Mem) (i : Nat) : Prop :=
  (∀ a < 64, table img' i a = table img i a) ∧
    ∀ b ∈ refs img i, ∀ k < 512, img' (b * 512 + k) = img (b * 512 + k)

theorem Ready.iappend_same (h : Ready s B f) (hs : Sized s f n) (hn : n < room)
    (heq : s.iappend n p = some s') (hi : i < room) (hin : i ≠ n) : SameFile s.img s'.img i := by
  have hfits : Fits s f n p := by
    by_contra hfits
    rw [h.iappend_none hs hn hfits] at heq
    cases heq
  obtain ⟨s₁, B₁, heq₁, -, ht, -, -⟩ := h.iappend_ok hs hn hfits
  cases heq.symm.trans heq₁
  refine ⟨fun a ha => ht.inode h hn hi hin ha, fun b hb k hk => ?_⟩
  obtain ⟨j, hj, hne, rfl⟩ := h.mem_refs hi hb
  exact ht.block h hn hi hin hj hne hk

theorem start_rel {t : List Event} (ht : ∀ e ∈ t, ∃ sec, e = .write .format sec) :
    Rel (blank t) .start :=
  ⟨⟨noBlocks, (ready_blank ht).1⟩, fun i _ => (ready_blank ht).2 i, rfl, rfl, Nat.le_refl _,
    fun _ _ => rfl⟩

theorem start_small : Files.start.Small := by
  have hbelow : data ≤ size := by decide
  exact ⟨fun _ => Nat.zero_le _, hbelow⟩

end Cs537.Mkfs
