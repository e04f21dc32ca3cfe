/-
# `Cs537.Mkfs.Inodes` — `ialloc` and `iappend`

Between the calls the inodes are in the image: `Ready s B f` is `Holds` with the
inodes read from it, and every file has the blocks for its bytes and no others.
`iappend` reads an inode, has the loop append with it, and writes it back;
`ialloc` writes an empty one.  Both keep `Ready` and say what they leave alone.
-/
import Cs537.Mkfs.Append

namespace Cs537.Mkfs

open Cs537.Lib

/-- Inode `i` in the image. -/
def table (img : Mem) (i : Nat) : Dinode := img.ptr (1024 + 64 * i)

structure Ready (s : St) (B : Nat → Nat → Nat) (f : Nat → List UInt8) : Prop where
  holds : Holds s (table s.img) B f
  exact : ∀ i < room, Exact B f i
  short : ∀ i < room, (f i).length ≤ MAXFILE * 512

/-- `size` of inode `i` is the length of its file. -/
def Sized (s : St) (f : Nat → List UInt8) (i : Nat) : Prop := (table s.img i).size = (f i).length

variable {s s' : St} {T T' : Nat → Dinode} {B B' : Nat → Nat → Nat} {f : Nat → List UInt8}
  {n i j a : Nat} {p : List UInt8} {d d' : Dinode}

/-! ## An inode in its sector -/

theorem i2b_lt (hn : n < room) : St.i2b n < 28 := by
  simp only [St.i2b, IPB, room] at *
  omega

theorem i2b_place (n : Nat) : St.i2b n * 512 + 64 * (n % IPB) = 1024 + 64 * n := by
  simp only [St.i2b, IPB]
  omega

theorem Dinode.addrs_congr (h : ∀ a < 64, d a = d' a) (hj : j ≤ NDIRECT) : d.addrs j = d'.addrs j :=
  Mem.get_congr fun i hi => h _ (by simp only [NDIRECT] at hj; omega)

namespace Holds

theorem rinode (h : Holds s T B f) (hn : n < room) : s.rinode n = some (table s.img n) := by
  have hlt := i2b_lt hn
  rw [St.rinode, h.rsect (by simp only [size]; omega)]
  refine congrArg some (funext fun a => ?_)
  show s.img _ = s.img _
  rw [← i2b_place n, ← Nat.add_assoc]

/-- The state with inode `n` written. -/
def withInode (s : St) (n : Nat) (d : Dinode) : St :=
  { s with
    img := s.img.copy (1024 + 64 * n) 64 d
    trace := .write .inode (St.i2b n) :: s.trace }

theorem copy_copy (img : Mem) (n : Nat) (d : Dinode) :
    img.copy (St.i2b n * 512) 512 ((img.ptr (St.i2b n * 512)).copy (64 * (n % IPB)) 64 d) =
      img.copy (1024 + 64 * n) 64 d := by
  have hplace := i2b_place n
  have hmod : n % IPB < 8 := Nat.mod_lt n (by decide)
  funext a
  by_cases hin : St.i2b n * 512 ≤ a ∧ a < St.i2b n * 512 + 512
  · obtain ⟨k, rfl⟩ : ∃ k, a = St.i2b n * 512 + k := ⟨_, (Nat.add_sub_of_le hin.1).symm⟩
    rw [copy_block_self (by omega)]
    by_cases hk : 64 * (n % IPB) ≤ k ∧ k < 64 * (n % IPB) + 64
    · obtain ⟨l, rfl⟩ : ∃ l, k = 64 * (n % IPB) + l := ⟨_, (Nat.add_sub_of_le hk.1).symm⟩
      rw [Mem.copy_inside (by omega), ← Nat.add_assoc, hplace, Mem.copy_inside (by omega)]
    · rw [Mem.copy_apart (by omega), Mem.copy_apart (by omega), Mem.ptr]
  · rw [Mem.copy_apart (by omega), Mem.copy_apart (by omega)]

theorem winode (hs : s.sectors = size) (hn : n < room) (d : Dinode) :
    s.winode n d = some (withInode s n d) := by
  have hlt := i2b_lt hn
  rw [St.winode, St.rsect, if_pos (by rw [hs, size]; omega)]
  refine congrArg some ?_
  rw [St.wsect, withInode]
  congr 1
  · exact copy_copy s.img n d
  · rw [hs, size]
    omega

end Holds

theorem withInode_self (ha : a < 64) : (Holds.withInode s n d).img (1024 + 64 * n + a) = d a :=
  Mem.copy_inside ha

theorem withInode_apart (ha : a < 1024 + 64 * n ∨ 1024 + 64 * n + 64 ≤ a) :
    (Holds.withInode s n d).img a = s.img a := Mem.copy_apart ha

theorem data_le {b : Nat} (k : Nat) (hb : data ≤ b) : data * 512 ≤ b * 512 + k :=
  Nat.le_trans (Nat.mul_le_mul_right 512 hb) (Nat.le_add_right _ _)

/-- A layout is about the addresses in the inodes and about the blocks of data. -/
theorem Layout.congr {img img' : Mem} {fb : Nat} (h : Layout img T fb B)
    (hT : ∀ i < room, ∀ j ≤ NDIRECT, (T' i).addrs j = (T i).addrs j)
    (himg : ∀ a, data * 512 ≤ a → img' a = img a) : Layout img' T' fb B := by
  have hlow := h.placed.low
  refine ⟨h.placed, fun i hi j hj => ?_, fun i hi => ?_, fun i hi hne j hj => ?_, h.noEntry,
    fun a ha => ?_⟩
  · rw [hT i hi j (Nat.le_of_lt hj), h.direct i hi j hj]
  · rw [hT i hi NDIRECT (Nat.le_refl _), h.indirect i hi]
  · have hr := h.placed.range i hi MAXFILE (Nat.le_refl _) hne
    rw [← h.entry i hi hne j hj]
    exact Mem.get_congr fun k _ => himg _ (Nat.add_assoc _ _ _ ▸ data_le _ hr.1)
  · rw [himg a (Nat.le_trans (Nat.mul_le_mul_right 512 hlow) ha), h.fresh a ha]

theorem Stored.congr {img img' : Mem} {fb : Nat} (h : Stored img B f) (hp : Placed fb B)
    (himg : ∀ a, data * 512 ≤ a → img' a = img a) : Stored img' B f := by
  intro i hi j hj hne k hk
  have hr := hp.range i hi j (Nat.le_of_lt hj) hne
  rw [himg _ (data_le k hr.1), h i hi j hj hne k hk]

theorem withInode_data (hn : n < room) (ha : data * 512 ≤ a) :
    (Holds.withInode s n d).img a = s.img a :=
  withInode_apart (by simp only [room, data] at *; omega)

/-- The other inodes are not written. -/
theorem table_withInode (hi : i ≠ n) (ha : a < 64) :
    table (Holds.withInode s n d).img i a = table s.img i a :=
  withInode_apart (by omega)

/-! ## `iappend` -/

theorem Logged.withInode (h : Logged s) (hn : n < room) : Logged (Holds.withInode s n d) := by
  have hw : Logged (s.wsect .inode (St.i2b n) zeroes) := h.wsect ⟨Nat.le_add_left _ _, i2b_lt hn⟩
  exact ⟨hw.used, hw.blocks, hw.inodes, hw.writes⟩

/-- The state with the call in the trace. -/
def St.done (s : St) (inum : Nat) (p : List UInt8) : St :=
  { s with trace := .iappend inum p :: s.trace }

theorem Logged.done (h : Logged s) : Logged (s.done n p) := by
  refine ⟨h.used, fun b => ?_, fun i => ?_, fun w k hw => ?_⟩
  · show Event.block b ∈ .iappend n p :: s.trace ↔ _
    rw [List.mem_cons, h.blocks]
    exact or_iff_right (by rintro ⟨⟩)
  · show Event.ialloc i ∈ .iappend n p :: s.trace ↔ _
    rw [List.mem_cons, h.inodes]
    exact or_iff_right (by rintro ⟨⟩)
  · rcases List.mem_cons.mp hw with hw | hw
    · cases hw
    · exact h.writes w k hw

/-- What a call that appends to inode `n` leaves alone. -/
structure Touched (n : Nat) (s : St) (B : Nat → Nat → Nat) (s' : St) (B' : Nat → Nat → Nat) :
    Prop where
  head : ∀ a < 8, table s'.img n a = table s.img n a
  blocks : ∀ i, i ≠ n → B' i = B i
  kept : ∀ j, B n j ≠ 0 → B' n j = B n j
  onto : ∀ b ≠ 0, s.freeblock ≤ b → b < s'.freeblock → ∃ j ≤ MAXFILE, B' n j = b
  freeblock : s.freeblock ≤ s'.freeblock
  freeinode : s'.freeinode = s.freeinode
  appended : ∀ i, appended i s'.trace = if i = n then appended i s.trace ++ p else appended i s.trace
  img : ∀ a, a < s.freeblock * 512 → ¬ Own B n a → (a < 1024 + 64 * n ∨ 1024 + 64 * n + 64 ≤ a) →
    s'.img a = s.img a

/-- In front of the data there is no block of a file. -/
theorem Holds.not_own (h : Holds s T B f) (hn : n < room) (ha : a < data * 512) : ¬ Own B n a := by
  rintro ⟨j, hj, hne, hlo, -⟩
  have := Nat.mul_le_mul_right 512 (h.range hn hj hne).1
  omega

theorem Holds.inode_below (h : Holds s T B f) (ha : a < data * 512) : a < s.freeblock * 512 :=
  Nat.lt_of_lt_of_le ha (Nat.mul_le_mul_right 512 h.low)

theorem dinode_lt (hi : i < room) (ha : a < 64) : 1024 + 64 * i + a < data * 512 := by
  simp only [room, data] at *
  omega

theorem size_small {len : Nat} (h : len ≤ MAXFILE * 512) : len < 2 ^ 32 :=
  Nat.lt_of_le_of_lt h (by decide)

namespace Ready

/-- `iappend` puts bytes that fit at the end of the file. -/
theorem iappend_ok (h : Ready s B f) (hs : Sized s f n) (hn : n < room) (hfits : Fits s f n p) :
    ∃ s' B', s.iappend n p = some s' ∧ Ready s' B' (extend f n p) ∧ Touched n s B s' B' (p := p) ∧
      Sized s' (extend f n p) n ∧
      s'.freeblock + blocksFor (f n).length = s.freeblock + blocksFor ((f n).length + p.length) := by
  obtain ⟨s₁, T₁, B₁, hloop, hholds, hgrown, hexact, hfb⟩ :=
    iappendLoop_ok h.holds (h.exact n hn) hn hfits
  have hlow : ∀ a, a < data * 512 → s₁.img a = s.img a := fun a ha =>
    hgrown.img a (h.holds.inode_below ha) (h.holds.not_own hn ha)
  let d := (T₁ n).setSize ((f n).length + p.length)
  let s₂ := (Holds.withInode s₁ n d).done n p
  have hself : ∀ a < 64, table s₂.img n a = d a := fun a ha => withInode_self ha
  have hother : ∀ i < room, i ≠ n → ∀ a < 64, table s₂.img i a = T₁ i a := fun i hi hin a ha => by
    rw [hgrown.inodes i hin]
    exact (table_withInode (s := s₁) hin ha).trans (hlow _ (dinode_lt hi ha))
  have hdata : ∀ a, data * 512 ≤ a → s₂.img a = s₁.img a := fun a ha => withInode_data hn ha
  have hsize : (table s₂.img n).size = (f n).length + p.length := by
    rw [show (table s₂.img n).size = d.size from
      Mem.get_congr fun i hi => hself _ (by omega)]
    exact Dinode.size_setSize (size_small hfits.1)
  refine ⟨s₂, B₁, ?_, ⟨⟨hholds.sectors, hholds.below, ?_, ?_, ?_⟩, fun i hi => ?_, fun i hi => ?_⟩,
    ?_, ?_, hfb⟩
  · rw [St.iappend, h.holds.rinode hn]
    simp only [Option.bind_eq_bind, Option.bind_some]
    rw [hs, hloop]
    simp only [Option.bind_some, Holds.winode hholds.sectors hn]
    rfl
  · refine hholds.layout.congr (fun i hi j hj => ?_) hdata
    by_cases hin : i = n
    · rw [hin, Dinode.addrs_congr hself hj, Dinode.addrs_setSize]
    · exact Dinode.addrs_congr (hother i hi hin) hj
  · exact hholds.stored.congr hholds.layout.placed hdata
  · exact (hholds.logged.withInode hn).done
  · by_cases hin : i = n
    · rw [hin]
      exact hexact
    · rw [Exact, hgrown.blocks i hin, extend_ne hin]
      exact h.exact i hi
  · by_cases hin : i = n
    · rw [hin, extend_self, List.length_append]
      exact hfits.1
    · rw [extend_ne hin]
      exact h.short i hi
  · refine ⟨fun a ha => ?_, hgrown.blocks, hgrown.kept, hgrown.onto, hgrown.freeblock,
      hgrown.freeinode, fun i => ?_, fun a ha hown hin => ?_⟩
    · rw [hself a (by omega), ← hgrown.head a (by omega)]
      exact Mem.copy_apart (by omega)
    · show (if n = i then Mkfs.appended i s₁.trace ++ p else Mkfs.appended i s₁.trace) = _
      rw [hgrown.appended]
      exact if_congr eq_comm rfl rfl
    · exact (withInode_apart (s := s₁) hin).trans (hgrown.img a ha hown)
  · rw [Sized, extend_self, List.length_append, hsize]

/-- It exits if they do not fit. -/
theorem iappend_none (h : Ready s B f) (hs : Sized s f n) (hn : n < room)
    (hfits : ¬ Fits s f n p) : s.iappend n p = none := by
  rw [St.iappend, h.holds.rinode hn]
  simp only [Option.bind_eq_bind, Option.bind_some]
  rw [hs, iappendLoop_none h.holds (h.exact n hn) hn (h.short n hn) hfits, Option.bind_none]

end Ready

namespace Touched

/-- The other inodes, and the bytes of their files, are as they were. -/
theorem inode (ht : Touched n s B s' B' (p := p)) (h : Ready s B f) (hn : n < room)
    (hi : i < room) (hin : i ≠ n) (ha : a < 64) : table s'.img i a = table s.img i a := by
  have hlow := dinode_lt hi ha
  exact ht.img _ (h.holds.inode_below hlow) (h.holds.not_own hn hlow) (by omega)

theorem block (ht : Touched n s B s' B' (p := p)) (h : Ready s B f) (hn : n < room)
    (hi : i < room) (hin : i ≠ n) (hj : j ≤ MAXFILE) (hne : B i j ≠ 0) {k : Nat} (hk : k < 512) :
    s'.img (B i j * 512 + k) = s.img (B i j * 512 + k) := by
  have hr := h.holds.range hi hj hne
  have hhigh : (B i j + 1) * 512 ≤ s.freeblock * 512 := Nat.mul_le_mul_right 512 hr.2
  have hnode := dinode_lt hn (show 63 < 64 by decide)
  have hdata := data_le k hr.1
  refine ht.img _ (by omega) ?_ (by omega)
  rintro ⟨l, hl, hne', hlo, hhi⟩
  have heq : B i j = B n l := by omega
  exact hin (h.holds.layout.placed.inj i hi j hj n hn l hl hne heq).1

theorem sized (ht : Touched n s B s' B' (p := p)) (h : Ready s B f) (hn : n < room)
    (hi : i < room) (hin : i ≠ n) (hs : Sized s f i) : Sized s' (extend f n p) i := by
  rw [Sized, extend_ne hin, ← hs]
  exact Mem.get_congr fun k hk => ht.inode h hn hi hin (by omega)

end Touched

/-! ## `ialloc` -/

/-- Inode `n` has no blocks. -/
def clear (B : Nat → Nat → Nat) (n : Nat) : Nat → Nat → Nat := Function.update B n fun _ => 0

@[simp] theorem clear_self : clear B n n j = 0 := by rw [clear, Function.update_self]

theorem clear_ne (h : i ≠ n) : clear B n i = B i := Function.update_of_ne h _ _

theorem clear_eq (h : clear B n i j ≠ 0) : i ≠ n ∧ clear B n i j = B i j := by
  have hin : i ≠ n := fun hin => h (hin ▸ clear_self)
  exact ⟨hin, by rw [clear_ne hin]⟩

theorem Placed.clear {fb : Nat} (h : Placed fb B) : Placed fb (clear B n) := by
  refine ⟨h.low, fun i hi j hj hne => ?_, fun i hi j hj i' hi' j' hj' hne heq => ?_⟩
  · have hold := (clear_eq hne).2
    rw [hold] at hne ⊢
    exact h.range i hi j hj hne
  · have hold := (clear_eq hne).2
    have hold' := (clear_eq (heq ▸ hne)).2
    rw [hold, hold'] at heq
    exact h.inj i hi j hj i' hi' j' hj' (hold ▸ hne) heq

theorem Layout.clear {img : Mem} {fb : Nat} (h : Layout img T fb B)
    (hself : ∀ j ≤ NDIRECT, (T' n).addrs j = 0)
    (hother : ∀ i < room, i ≠ n → ∀ j ≤ NDIRECT, (T' i).addrs j = (T i).addrs j) :
    Layout img T' fb (clear B n) := by
  refine ⟨h.placed.clear, fun i hi j hj => ?_, fun i hi => ?_, fun i hi hne j hj => ?_,
    fun i hi h0 j hj => ?_, h.fresh⟩
  · by_cases hin : i = n
    · rw [hin, clear_self, hself j (Nat.le_of_lt hj)]
    · rw [clear_ne hin, hother i hi hin j (Nat.le_of_lt hj), h.direct i hi j hj]
  · by_cases hin : i = n
    · rw [hin, clear_self, hself NDIRECT (Nat.le_refl _)]
    · rw [clear_ne hin, hother i hi hin NDIRECT (Nat.le_refl _), h.indirect i hi]
  · have hin := (clear_eq hne).1
    rw [clear_ne hin] at hne ⊢
    exact h.entry i hi hne j hj
  · by_cases hin : i = n
    · rw [hin, clear_self]
    · rw [clear_ne hin] at h0 ⊢
      exact h.noEntry i hi h0 j hj

/-- `f` with file `n` empty. -/
def reset (f : Nat → List UInt8) (n : Nat) : Nat → List UInt8 := Function.update f n []

@[simp] theorem reset_self : reset f n n = [] := Function.update_self _ _ _

theorem reset_ne (h : i ≠ n) : reset f n i = f i := Function.update_of_ne h _ _

theorem Stored.clear {img : Mem} (h : Stored img B f) : Stored img (clear B n) (reset f n) := by
  intro i hi j hj hne k hk
  obtain ⟨hin, hold⟩ := clear_eq hne
  rw [hold] at hne ⊢
  rw [reset_ne hin]
  exact h i hi j hj hne k hk

def newInode (type : Nat) : Dinode := ((Dinode.setType zeroes type).setNlink 1).setSize 0

theorem get_zeroes {k o : Nat} : zeroes.get k o = 0 := Mem.get_zero fun _ _ => rfl

theorem newInode_addrs (t j : Nat) : (newInode t).addrs j = 0 := by
  refine (Mem.get_put_apart ?_).trans ((Mem.get_put_apart ?_).trans
    ((Mem.get_put_apart ?_).trans get_zeroes))
  all_goals omega

theorem newInode_size (t : Nat) : (newInode t).size = 0 := Mem.get_put_self (by decide)

theorem newInode_type {t : Nat} (ht : t < 2 ^ 16) : (newInode t).type = t :=
  ((Mem.get_put_apart (by omega)).trans (Mem.get_put_apart (by omega))).trans
    (Mem.get_put_self (by omega))

theorem newInode_nlink (t : Nat) : (newInode t).nlink = 1 :=
  (Mem.get_put_apart (by omega)).trans (Mem.get_put_self (by decide))

/-- The state after `ialloc`. -/
def St.allocated (s : St) (type : Nat) : St :=
  { s with
    img := s.img.copy (1024 + 64 * s.freeinode) 64 (newInode type)
    freeinode := s.freeinode + 1
    trace := .ialloc s.freeinode :: .write .inode (St.i2b s.freeinode) :: s.trace }

theorem Logged.allocated {t : Nat} (h : Logged s) (hn : s.freeinode < room) (h1 : 1 ≤ s.freeinode) :
    Logged (s.allocated t) := by
  refine ⟨h.used, fun b => ?_, fun i => ?_, fun w k hw => ?_⟩
  · show Event.block b ∈ _ :: _ :: s.trace ↔ _
    rw [List.mem_cons, List.mem_cons, h.blocks, or_iff_right (by rintro ⟨⟩),
      or_iff_right (by rintro ⟨⟩)]
    rfl
  · show Event.ialloc i ∈ .ialloc s.freeinode :: _ :: s.trace ↔ 1 ≤ i ∧ i < s.freeinode + 1
    rw [List.mem_cons, List.mem_cons, h.inodes, Event.ialloc.injEq,
      or_iff_right (b := _ ∧ _) (by rintro ⟨⟩)]
    omega
  · rcases List.mem_cons.mp hw with hw | hw
    · cases hw
    · rcases List.mem_cons.mp hw with hw | hw
      · cases hw
        exact ⟨Nat.le_add_left _ _, i2b_lt hn⟩
      · exact h.writes w k hw

namespace Ready

theorem ialloc_eq {t : Nat} (h : Ready s B f) (hn : s.freeinode < room) :
    s.ialloc t = some (s.freeinode, s.allocated t) := by
  rw [St.ialloc, Holds.winode (s := { s with freeinode := s.freeinode + 1 }) h.holds.sectors hn]
  rfl

/-- `ialloc` makes an empty file. -/
theorem allocated {t : Nat} (h : Ready s B f) (hn : s.freeinode < room) (h1 : 1 ≤ s.freeinode) :
    Ready (s.allocated t) (clear B s.freeinode) (reset f s.freeinode) := by
  have hself : ∀ a < 64, table (s.allocated t).img s.freeinode a = newInode t a := fun a ha =>
    withInode_self (s := s) ha
  have hother : ∀ i, i ≠ s.freeinode → ∀ a < 64, table (s.allocated t).img i a = table s.img i a :=
    fun i hi a ha => table_withInode (s := s) hi ha
  have hdata : ∀ a, data * 512 ≤ a → (s.allocated t).img a = s.img a := fun a ha =>
    withInode_data (s := s) hn ha
  have hlayout : Layout (s.allocated t).img (table s.img) s.freeblock B :=
    h.holds.layout.congr (fun _ _ _ _ => rfl) hdata
  refine ⟨⟨h.holds.sectors, h.holds.below, hlayout.clear (fun j hj => ?_) (fun i _ hin j hj => ?_),
    (h.holds.stored.congr h.holds.layout.placed hdata).clear, h.holds.logged.allocated hn h1⟩,
    fun i hi => ?_, fun i hi => ?_⟩
  · rw [Dinode.addrs_congr hself hj, newInode_addrs]
  · exact Dinode.addrs_congr (hother i hin) hj
  · by_cases hin : i = s.freeinode
    · intro j hj
      rw [hin, clear_self, reset_self]
      exact iff_of_false (not_not.mpr rfl) (Nat.not_lt_zero _)
    · rw [Exact, clear_ne hin, reset_ne hin]
      exact h.exact i hi
  · by_cases hin : i = s.freeinode
    · rw [hin, reset_self]
      exact Nat.zero_le _
    · rw [reset_ne hin]
      exact h.short i hi

end Ready

section

variable {t : Nat}

theorem allocated_self (ha : a < 64) :
    table (s.allocated t).img s.freeinode a = newInode t a := withInode_self (s := s) ha

theorem allocated_other (hi : i ≠ s.freeinode) (ha : a < 64) :
    table (s.allocated t).img i a = table s.img i a := table_withInode (s := s) hi ha

theorem allocated_sized : Sized (s.allocated t) (reset f s.freeinode) s.freeinode := by
  rw [Sized, reset_self]
  exact (Mem.get_congr fun k hk => allocated_self (by omega)).trans (newInode_size t)

theorem allocated_sized_ne (hi : i ≠ s.freeinode) (hs : Sized s f i) :
    Sized (s.allocated t) (reset f s.freeinode) i := by
  rw [Sized, reset_ne hi, ← hs]
  exact Mem.get_congr fun k hk => allocated_other hi (by omega)

end

end Cs537.Mkfs
