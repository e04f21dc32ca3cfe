/-
# `Cs537.Mkfs.Append` — appending to a file

`Holds s T B f`: the image of `s` is laid out as `B` says and has the bytes `f`,
with `T` for the inodes in it (inside `iappend`, one of them is in `din`).
`Grown n s T B s' T' B'`: only inode `n` got blocks, only its bytes changed.
Each step of the loop keeps the first and is the second; the loop has the bytes
at the file's end or, if they do not fit in the file or in the image, `none`
(`iappendLoop_spec`).
-/
import Cs537.Mkfs.Blocks

namespace Cs537.Mkfs

open Cs537.Lib

/-! ## The trace -/

/-- What has been appended to inode `i` since it was allocated. -/
def appended (i : Nat) : List Event → List UInt8
  | [] => []
  | .iappend n p :: t => if n = i then appended i t ++ p else appended i t
  | .ialloc n :: t => if n = i then [] else appended i t
  | .block _ :: t => appended i t
  | .write _ _ :: t => appended i t

/-- Where a sector may be written: inodes, bitmap and data have their own. -/
def Region : What → Nat → Prop
  | .format, _ => True
  | .inode, sec => 2 ≤ sec ∧ sec < 28
  | .bitmap, sec => sec = 28
  | .indirect, sec => data ≤ sec ∧ sec < size
  | .data, sec => data ≤ sec ∧ sec < size

/-- The trace has what the counters say. -/
structure Logged (s : St) : Prop where
  used : s.usedblocks = s.freeblock
  blocks : ∀ b, .block b ∈ s.trace ↔ data ≤ b ∧ b < s.freeblock
  inodes : ∀ i, .ialloc i ∈ s.trace ↔ 1 ≤ i ∧ i < s.freeinode
  writes : ∀ what sec, .write what sec ∈ s.trace → Region what sec

variable {s s' s'' : St} {T T' T'' : Nat → Dinode} {B B' B'' : Nat → Nat → Nat}
  {f : Nat → List UInt8} {n i j off : Nat} {p : List UInt8} {buf : Mem} {what : What} {sec : Nat}

theorem Logged.take (h : Logged s) (hlow : data ≤ s.freeblock) : Logged s.take := by
  refine ⟨congrArg (· + 1) h.used, fun b => ?_, fun i => ?_, fun what sec hw => ?_⟩
  · show Event.block b ∈ .block s.freeblock :: s.trace ↔ _ ∧ b < s.freeblock + 1
    rw [List.mem_cons, h.blocks, Event.block.injEq]
    omega
  · show Event.ialloc i ∈ .block s.freeblock :: s.trace ↔ _
    rw [List.mem_cons, h.inodes]
    exact or_iff_right (by rintro ⟨⟩)
  · rcases List.mem_cons.mp hw with hw | hw
    · cases hw
    · exact h.writes what sec hw

theorem Logged.wsect (h : Logged s) (hr : Region what sec) : Logged (s.wsect what sec buf) := by
  refine ⟨h.used, fun b => ?_, fun i => ?_, fun w k hw => ?_⟩
  · show Event.block b ∈ .write what sec :: s.trace ↔ _
    rw [List.mem_cons, h.blocks]
    exact or_iff_right (by rintro ⟨⟩)
  · show Event.ialloc i ∈ .write what sec :: s.trace ↔ _
    rw [List.mem_cons, h.inodes]
    exact or_iff_right (by rintro ⟨⟩)
  · rcases List.mem_cons.mp hw with hw | hw
    · cases hw
      exact hr
    · exact h.writes w k hw

/-! ## What holds between the steps -/

structure Holds (s : St) (T : Nat → Dinode) (B : Nat → Nat → Nat) (f : Nat → List UInt8) :
    Prop where
  sectors : s.sectors = size
  below : s.freeblock ≤ size
  layout : Layout s.img T s.freeblock B
  stored : Stored s.img B f
  logged : Logged s

/-- `a` is in a block of inode `n`. -/
def Own (B : Nat → Nat → Nat) (n a : Nat) : Prop :=
  ∃ j ≤ MAXFILE, B n j ≠ 0 ∧ B n j * 512 ≤ a ∧ a < B n j * 512 + 512

structure Grown (n : Nat) (s : St) (T : Nat → Dinode) (B : Nat → Nat → Nat) (s' : St)
    (T' : Nat → Dinode) (B' : Nat → Nat → Nat) : Prop where
  inodes : ∀ i, i ≠ n → T' i = T i
  head : ∀ a < 12, T' n a = T n a
  blocks : ∀ i, i ≠ n → B' i = B i
  kept : ∀ j, B n j ≠ 0 → B' n j = B n j
  new : ∀ j, B n j = 0 → B' n j ≠ 0 → s.freeblock ≤ B' n j
  onto : ∀ b ≠ 0, s.freeblock ≤ b → b < s'.freeblock → ∃ j ≤ MAXFILE, B' n j = b
  freeblock : s.freeblock ≤ s'.freeblock
  freeinode : s'.freeinode = s.freeinode
  appended : ∀ i, appended i s'.trace = appended i s.trace
  img : ∀ a, a < s.freeblock * 512 → ¬ Own B n a → s'.img a = s.img a

namespace Grown

theorem refl : Grown n s T B s T B :=
  ⟨fun _ _ => rfl, fun _ _ => rfl, fun _ _ => rfl, fun _ _ => rfl, fun _ h0 hne => absurd h0 hne,
    fun _ _ hlo hhi => absurd hhi (Nat.not_lt.mpr hlo), Nat.le_refl _, rfl, fun _ => rfl,
    fun _ _ _ => rfl⟩

theorem trans (h : Grown n s T B s' T' B') (h' : Grown n s' T' B' s'' T'' B'') :
    Grown n s T B s'' T'' B'' := by
  have hfb := h.freeblock
  refine ⟨fun i hi => (h'.inodes i hi).trans (h.inodes i hi),
    fun a ha => (h'.head a ha).trans (h.head a ha),
    fun i hi => (h'.blocks i hi).trans (h.blocks i hi), fun j hj => ?_, fun j h0 hne => ?_,
    fun b hb hlo hhi => ?_, Nat.le_trans hfb h'.freeblock, h'.freeinode.trans h.freeinode,
    fun i => (h'.appended i).trans (h.appended i), fun a ha hown => ?_⟩
  · have hk := h.kept j hj
    rw [h'.kept j (hk ▸ hj), hk]
  · by_cases hm : B' n j = 0
    · exact Nat.le_trans hfb (h'.new j hm hne)
    · rw [h'.kept j hm]
      exact h.new j h0 hm
  · by_cases hm : b < s'.freeblock
    · obtain ⟨j, hj, rfl⟩ := h.onto b hb hlo hm
      exact ⟨j, hj, h'.kept j hb⟩
    · exact h'.onto b hb (by omega) hhi
  · have hown' : ¬ Own B' n a := by
      rintro ⟨j, hj, hne, hlo, hhi⟩
      by_cases h0 : B n j = 0
      · -- a new block is not below the old `freeblock`
        have := h.new j h0 hne
        omega
      · rw [h.kept j h0] at hlo hhi
        exact hown ⟨j, hj, h0, hlo, hhi⟩
    rw [h'.img a (Nat.lt_of_lt_of_le ha (Nat.mul_le_mul_right 512 hfb)) hown', h.img a ha hown]

/-- A block is handed out, and at most the blocks of the inode are written. -/
theorem assign (hj : j ≤ MAXFILE) (h0 : B n j = 0) (hT : ∀ i, i ≠ n → T' i = T i)
    (hhead : ∀ a < 12, T' n a = T n a)
    (hfb : s'.freeblock = s.freeblock + 1) (hfi : s'.freeinode = s.freeinode)
    (ht : ∀ i, Mkfs.appended i s'.trace = Mkfs.appended i s.trace)
    (himg : ∀ a, ¬ Own B n a → s'.img a = s.img a) :
    Grown n s T B s' T' (Mkfs.assign B n j s.freeblock) := by
  refine ⟨hT, hhead, fun i hi => assign_inode hi, fun k hk => ?_, fun k hk hne => ?_,
    fun b _ hlo hhi => ⟨j, hj, ?_⟩, by omega, hfi, ht, fun a _ => himg a⟩
  · exact assign_ne fun hik => hk (hik.2 ▸ h0)
  · by_cases hkj : k = j
    · rw [hkj, assign_self]
    · rw [assign_ne fun hik => hkj hik.2] at hne
      exact absurd hk hne
  · rw [assign_self]
    omega

end Grown

namespace Holds

theorem rsect (h : Holds s T B f) (hsec : sec < size) :
    s.rsect sec = some (s.img.ptr (sec * 512)) := if_pos (h.sectors ▸ hsec)

theorem rsect_none (h : Holds s T B f) (hsec : size ≤ sec) : s.rsect sec = none :=
  if_neg (by rw [h.sectors]; omega)

theorem low (h : Holds s T B f) : data ≤ s.freeblock := h.layout.placed.low

/-- A block is one of the image, after the bitmap. -/
theorem range (h : Holds s T B f) (hn : n < room) (hj : j ≤ MAXFILE) (hne : B n j ≠ 0) :
    data ≤ B n j ∧ B n j < s.freeblock := h.layout.placed.range n hn j hj hne

theorem small (h : Holds s T B f) : s.freeblock < 2 ^ 32 :=
  Nat.lt_of_le_of_lt h.below (by decide)

theorem head_setAddrs (T : Nat → Dinode) (v : Nat) :
    ∀ a < 12, Function.update T n ((T n).setAddrs j v) n a = T n a := fun a ha => by
  rw [Function.update_self]
  exact Mem.copy_apart (by omega)

/-- `din.addrs[j] = freeblock++`. -/
theorem link_direct (h : Holds s T B f) (hfb : s.freeblock < size)
    (hj : j < NDIRECT) (h0 : B n j = 0) (hlen : (f n).length ≤ 512 * j) :
    Holds s.take (Function.update T n ((T n).setAddrs j s.freeblock)) (assign B n j s.freeblock) f ∧
      Grown n s T B s.take (Function.update T n ((T n).setAddrs j s.freeblock))
        (assign B n j s.freeblock) := by
  refine ⟨⟨h.sectors, hfb, h.layout.link_direct h.small hj h0, h.stored.link h.layout.fresh hlen,
    h.logged.take h.low⟩, ?_⟩
  exact .assign (by simp only [NDIRECT, MAXFILE] at *; omega) h0
    (fun i hi => Function.update_of_ne hi _ _) (head_setAddrs _ _) rfl rfl (fun _ => rfl)
    fun _ _ => rfl

theorem link_indirect (h : Holds s T B f) (hfb : s.freeblock < size) (h0 : B n MAXFILE = 0) :
    Holds s.take (Function.update T n ((T n).setAddrs NDIRECT s.freeblock))
        (assign B n MAXFILE s.freeblock) f ∧
      Grown n s T B s.take (Function.update T n ((T n).setAddrs NDIRECT s.freeblock))
        (assign B n MAXFILE s.freeblock) := by
  refine ⟨⟨h.sectors, hfb, h.layout.link_indirect h.small h0, h.stored.link_indirect,
    h.logged.take h.low⟩, ?_⟩
  exact .assign (Nat.le_refl _) h0 (fun i hi => Function.update_of_ne hi _ _) (head_setAddrs _ _)
    rfl rfl (fun _ => rfl) fun _ _ => rfl

/-- The state after an entry of the indirect block is written. -/
def entryState (s : St) (b j : Nat) : St :=
  s.take.wsect .indirect b ((s.img.ptr (b * 512)).put 4 (4 * j) s.freeblock)

theorem link_entry (h : Holds s T B f) (hn : n < room) (hfb : s.freeblock < size) (hj : j < 128)
    (hind : B n MAXFILE ≠ 0) (h0 : B n (NDIRECT + j) = 0)
    (hlen : (f n).length ≤ 512 * (NDIRECT + j)) :
    Holds (entryState s (B n MAXFILE) j) T (assign B n (NDIRECT + j) s.freeblock) f ∧
      Grown n s T B (entryState s (B n MAXFILE) j) T (assign B n (NDIRECT + j) s.freeblock) := by
  have hr := h.range hn (Nat.le_refl _) hind
  have hlayout := h.layout.link_entry h.small hn hj hind h0
  have hslot : assign B n (NDIRECT + j) s.freeblock n MAXFILE = B n MAXFILE :=
    assign_ne fun hik => by simp only [MAXFILE, NDIRECT] at hik; omega
  have hstored := (h.stored.link h.layout.fresh hlen).write_indirect
    ((s.img.ptr (B n MAXFILE * 512)).put 4 (4 * j) s.freeblock) (h.layout.placed.assign h0) hn
  rw [hslot] at hstored
  refine ⟨⟨?_, hfb, hlayout, hstored, (h.logged.take h.low).wsect ⟨hr.1, by omega⟩⟩, ?_⟩
  · show max s.sectors _ = size
    rw [h.sectors]
    omega
  · refine .assign (by simp only [NDIRECT, MAXFILE]; omega) h0 (fun _ _ => rfl) (fun _ _ => rfl) rfl
      rfl (fun _ => rfl) fun a ha => Mem.copy_apart ?_
    have : ¬ (B n MAXFILE * 512 ≤ a ∧ a < B n MAXFILE * 512 + 512) := fun hin =>
      ha ⟨MAXFILE, Nat.le_refl _, hind, hin⟩
    simp only [BSIZE]
    omega

/-- Bytes are written in a block of the inode. -/
theorem write (h : Holds s T B f) (hn : n < room) (hj : j < MAXFILE) (hne : B n j ≠ 0)
    (hlow : 512 * j ≤ (f n).length) (hhigh : (f n).length + p.length ≤ 512 * j + 512)
    (hnext : ∀ k < MAXFILE, j < k → B n k = 0)
    (hbuf : buf = (s.img.ptr (B n j * 512)).copy ((f n).length - 512 * j) p.length (St.bytesAt p)) :
    Holds (s.wsect .data (B n j) buf) T B (Function.update f n (f n ++ p)) ∧
      Grown n s T B (s.wsect .data (B n j) buf) T B := by
  subst hbuf
  have hr := h.range hn (Nat.le_of_lt hj) hne
  have hbelow := h.below
  refine ⟨⟨?_, hbelow, h.layout.write hn hj hne,
    h.stored.write h.layout.placed hn hj hne hlow hhigh hnext, h.logged.wsect ⟨hr.1, by omega⟩⟩, ?_⟩
  · show max s.sectors _ = size
    rw [h.sectors]
    omega
  · refine ⟨fun _ _ => rfl, fun _ _ => rfl, fun _ _ => rfl, fun _ _ => rfl,
      fun _ h0 hne => absurd h0 hne, fun _ _ hlo hhi => absurd hhi (Nat.not_lt.mpr hlo),
      Nat.le_refl _, rfl, fun _ => rfl, fun a _ ha => Mem.copy_apart ?_⟩
    have : ¬ (B n j * 512 ≤ a ∧ a < B n j * 512 + 512) := fun hin =>
      ha ⟨j, Nat.le_of_lt hj, hne, hin⟩
    simp only [BSIZE]
    omega

end Holds

/-! ## The block for the next bytes -/

theorem link_old {d : Dinode} (h : d.addrs j ≠ 0) : s.link d j = (s, d) := if_neg h

theorem link_new {d : Dinode} (h : d.addrs j = 0) :
    s.link d j = (s.take, d.setAddrs j s.freeblock) := if_pos h

theorem assign_ne_zero {k b : Nat} (hb : b ≠ 0) : assign B n j b n k ≠ 0 ↔ B n k ≠ 0 ∨ k = j := by
  by_cases hkj : k = j
  · rw [hkj, assign_self]
    exact iff_of_true hb (.inr rfl)
  · rw [assign_ne fun hik => hkj hik.2]
    exact (or_iff_left hkj).symm

/-- The blocks to hand out for slot `j`. -/
def cost (B : Nat → Nat → Nat) (n j : Nat) : Nat :=
  (if B n j = 0 then 1 else 0) + if NDIRECT ≤ j ∧ B n MAXFILE = 0 then 1 else 0

theorem cost_direct (hj : j < NDIRECT) : cost B n j = if B n j = 0 then 1 else 0 := by
  rw [cost, if_neg (fun hc : NDIRECT ≤ j ∧ B n MAXFILE = 0 => absurd hj (by omega)), Nat.add_zero]

theorem cost_indirect (hj : NDIRECT ≤ j) :
    cost B n j = (if B n j = 0 then 1 else 0) + if B n MAXFILE = 0 then 1 else 0 := by
  simp only [cost, hj, true_and]

theorem blockFor_lt {d : Dinode} (hj : j < NDIRECT) : s.blockFor d j =
    some ((s.link d j).1, (s.link d j).2, (s.link d j).2.addrs j) := by
  rw [St.blockFor, if_pos hj]

theorem blockFor_ge {d : Dinode} (hj : ¬ j < NDIRECT) : s.blockFor d j =
    (s.link d NDIRECT).1.entryBlock (s.link d NDIRECT).2 (j - NDIRECT) := by
  rw [St.blockFor, if_neg hj]

/-- Slot `j` and, for it, the indirect block have got their blocks. -/
def Opened (B B' : Nat → Nat → Nat) (n j : Nat) : Prop :=
  ∀ k ≤ MAXFILE, B' n k ≠ 0 ↔ B n k ≠ 0 ∨ k = j ∨ NDIRECT ≤ j ∧ k = MAXFILE

namespace Holds

theorem freeblock_ne (h : Holds s T B f) : s.freeblock ≠ 0 := by
  have := h.low
  simp only [data] at this
  omega

theorem get_entry (h : Holds s T B f) (hn : n < room) (hind : B n MAXFILE ≠ 0) (hj : j < 128) :
    (s.img.ptr (B n MAXFILE * 512)).get 4 (4 * j) = B n (NDIRECT + j) := by
  rw [Mem.get_ptr, h.layout.entry n hn hind j hj]

theorem entryBlock_eq (h : Holds s T B f) (hn : n < room) (hind : B n MAXFILE ≠ 0) :
    s.entryBlock (T n) j = some
      ((s.linkEntry (B n MAXFILE) (s.img.ptr (B n MAXFILE * 512)) j).1, T n,
        (s.linkEntry (B n MAXFILE) (s.img.ptr (B n MAXFILE * 512)) j).2.get 4 (4 * j)) := by
  have hr := h.range hn (Nat.le_refl _) hind
  have hbelow := h.below
  rw [St.entryBlock, h.layout.indirect n hn, h.rsect (by omega)]
  rfl

theorem entryBlock_spec (h : Holds s T B f) (hn : n < room) (hj : j < 128)
    (hind : B n MAXFILE ≠ 0) (hlen : B n (NDIRECT + j) = 0 → (f n).length ≤ 512 * (NDIRECT + j))
    (hroom : s.freeblock + (if B n (NDIRECT + j) = 0 then 1 else 0) ≤ size) :
    ∃ s' B', s.entryBlock (T n) j = some (s', T n, B' n (NDIRECT + j)) ∧ Holds s' T B' f ∧
      Grown n s T B s' T B' ∧ (∀ k, B' n k ≠ 0 ↔ B n k ≠ 0 ∨ k = NDIRECT + j) ∧
      s'.freeblock = s.freeblock + if B n (NDIRECT + j) = 0 then 1 else 0 := by
  have hget := h.get_entry hn hind hj
  rw [h.entryBlock_eq hn hind]
  by_cases h0 : B n (NDIRECT + j) = 0
  · rw [if_pos h0] at hroom ⊢
    obtain ⟨hholds, hgrown⟩ := h.link_entry hn (by omega) hj hind h0 (hlen h0)
    refine ⟨_, _, ?_, hholds, hgrown, fun k => assign_ne_zero h.freeblock_ne, rfl⟩
    rw [St.linkEntry, if_pos (hget.trans h0), assign_self, Mem.get_put_self h.small]
    rfl
  · rw [if_neg h0]
    refine ⟨s, B, ?_, h, .refl, fun k => ?_, rfl⟩
    · rw [St.linkEntry, if_neg (hget ▸ h0), hget]
    · exact (or_iff_left_of_imp fun hk => hk ▸ h0).symm

/-- With all blocks handed out, the next one is not in the file. -/
theorem entryBlock_full (h : Holds s T B f) (hn : n < room) (hj : j < 128)
    (hind : B n MAXFILE ≠ 0) (h0 : B n (NDIRECT + j) = 0) (hfull : s.freeblock = size) {d : Dinode}
    {x : Nat} (hx : s.entryBlock (T n) j = some (s', d, x)) : s'.rsect x = none := by
  have hr := h.range hn (Nat.le_refl _) hind
  have hget := h.get_entry hn hind hj
  rw [h.entryBlock_eq hn hind, St.linkEntry, if_pos (hget.trans h0), Mem.get_put_self h.small] at hx
  cases hx
  refine if_neg ?_
  show ¬ s.freeblock < max s.sectors _
  rw [h.sectors]
  omega

/-- `din` with a direct block for slot `j`. -/
theorem blockFor_direct (h : Holds s T B f) (hn : n < room) (hj : j < NDIRECT)
    (hlen : B n j = 0 → (f n).length ≤ 512 * j) (hroom : s.freeblock + cost B n j ≤ size) :
    ∃ s' T' B', s.blockFor (T n) j = some (s', T' n, B' n j) ∧ Holds s' T' B' f ∧
      Grown n s T B s' T' B' ∧ Opened B B' n j ∧ s'.freeblock = s.freeblock + cost B n j := by
  have haddr := h.layout.direct n hn j hj
  have hopen : ∀ k, B n k ≠ 0 ∨ k = j ↔ B n k ≠ 0 ∨ k = j ∨ NDIRECT ≤ j ∧ k = MAXFILE := fun k =>
    or_congr_right (or_iff_left fun hc => absurd hj (by omega)).symm
  rw [cost_direct hj] at hroom ⊢
  rw [blockFor_lt hj]
  by_cases h0 : B n j = 0
  · rw [if_pos h0] at hroom ⊢
    obtain ⟨hholds, hgrown⟩ := h.link_direct (by omega) hj h0 (hlen h0)
    refine ⟨_, _, _, ?_, hholds, hgrown, fun k _ => ?_, rfl⟩
    · rw [link_new (haddr.trans h0), Function.update_self, assign_self,
        Dinode.addrs_setAddrs_self h.small]
    · rw [assign_ne_zero h.freeblock_ne]
      exact hopen k
  · rw [if_neg h0]
    refine ⟨s, T, B, ?_, h, .refl, fun k _ => ?_, rfl⟩
    · rw [link_old (haddr ▸ h0), haddr]
    · rw [← hopen]
      exact (or_iff_left_of_imp fun hk => hk ▸ h0).symm

/-- `din` with an indirect block. -/
theorem link_NDIRECT (h : Holds s T B f) (hn : n < room)
    (hroom : s.freeblock + (if B n MAXFILE = 0 then 1 else 0) ≤ size) :
    ∃ s' T' B', s.link (T n) NDIRECT = (s', T' n) ∧ Holds s' T' B' f ∧ Grown n s T B s' T' B' ∧
      (∀ k, B' n k ≠ 0 ↔ B n k ≠ 0 ∨ k = MAXFILE) ∧
      s'.freeblock = s.freeblock + if B n MAXFILE = 0 then 1 else 0 := by
  have haddr := h.layout.indirect n hn
  by_cases h0 : B n MAXFILE = 0
  · rw [if_pos h0] at hroom ⊢
    obtain ⟨hholds, hgrown⟩ := h.link_indirect (by omega) h0
    refine ⟨_, _, _, ?_, hholds, hgrown, fun k => assign_ne_zero h.freeblock_ne, rfl⟩
    rw [link_new (haddr.trans h0), Function.update_self]
  · rw [if_neg h0]
    exact ⟨s, T, B, link_old (haddr ▸ h0), h, .refl,
      fun k => (or_iff_left_of_imp fun hk => hk ▸ h0).symm, rfl⟩

theorem blockFor_spec (h : Holds s T B f) (hn : n < room) (hj : j < MAXFILE)
    (hlen : B n j = 0 → (f n).length ≤ 512 * j) (hroom : s.freeblock + cost B n j ≤ size) :
    ∃ s' T' B', s.blockFor (T n) j = some (s', T' n, B' n j) ∧ Holds s' T' B' f ∧
      Grown n s T B s' T' B' ∧ Opened B B' n j ∧ s'.freeblock = s.freeblock + cost B n j := by
  by_cases hdirect : j < NDIRECT
  · exact h.blockFor_direct hn hdirect hlen hroom
  have hcost := cost_indirect (B := B) (n := n) (Nat.le_of_not_lt hdirect)
  have hMAX : j ≠ MAXFILE := Nat.ne_of_lt hj
  rw [hcost] at hroom
  obtain ⟨s₁, T₁, B₁, hlink, hholds₁, hgrown₁, hopen₁, hfb₁⟩ := h.link_NDIRECT hn (by omega)
  have hzero : B₁ n j = 0 ↔ B n j = 0 := by
    rw [← not_iff_not]
    exact (hopen₁ j).trans (or_iff_left hMAX)
  obtain ⟨k, rfl⟩ : ∃ k, j = NDIRECT + k := ⟨_, (Nat.add_sub_of_le (by omega)).symm⟩
  obtain ⟨s₂, B₂, hentry, hholds₂, hgrown₂, hopen₂, hfb₂⟩ := hholds₁.entryBlock_spec hn
    (j := k) (by simp only [MAXFILE, NDIRECT] at hj; omega) ((hopen₁ MAXFILE).mpr (.inr rfl))
    (fun h0 => hlen (hzero.mp h0)) (by simp only [hzero]; omega)
  refine ⟨s₂, T₁, B₂, ?_, hholds₂, hgrown₁.trans hgrown₂, fun l _ => ?_, ?_⟩
  · rw [blockFor_ge hdirect, hlink, Nat.add_sub_cancel_left]
    exact hentry
  · rw [hopen₂, hopen₁, and_iff_right (Nat.le_add_right _ _), or_assoc]
    exact or_congr_right or_comm
  · simp only [hzero] at hfb₂
    omega

/-- Without room for its blocks, `x` is not in the file. -/
theorem blockFor_full (h : Holds s T B f) (hn : n < room) (hj : j < MAXFILE)
    (hfull : size < s.freeblock + cost B n j) {d : Dinode} {x : Nat}
    (hx : s.blockFor (T n) j = some (s', d, x)) : s'.rsect x = none := by
  have hbelow := h.below
  by_cases hdirect : j < NDIRECT
  · rw [cost_direct hdirect] at hfull
    have h0 : B n j = 0 := by
      by_contra h0
      rw [if_neg h0] at hfull
      omega
    rw [if_pos h0] at hfull
    rw [blockFor_lt hdirect, link_new ((h.layout.direct n hn j hdirect).trans h0),
      Dinode.addrs_setAddrs_self h.small] at hx
    cases hx
    exact h.rsect_none (by omega)
  have hcost := cost_indirect (B := B) (n := n) (Nat.le_of_not_lt hdirect)
  have hMAX : j ≠ MAXFILE := Nat.ne_of_lt hj
  rw [hcost] at hfull
  rw [blockFor_ge hdirect] at hx
  by_cases hroom : s.freeblock + (if B n MAXFILE = 0 then 1 else 0) ≤ size
  · -- the indirect block is there, its entry is past the end
    obtain ⟨s₁, T₁, B₁, hlink, hholds₁, hgrown₁, hopen₁, hfb₁⟩ := h.link_NDIRECT hn hroom
    have hzero : B n j = 0 := by
      by_contra h0
      rw [if_neg h0] at hfull
      omega
    have hzero₁ : B₁ n j = 0 := by
      by_contra h0
      exact ((hopen₁ j).mp h0).elim (fun hne => hne hzero) hMAX
    rw [if_pos hzero] at hfull
    rw [hlink] at hx
    obtain ⟨k, rfl⟩ : ∃ k, j = NDIRECT + k := ⟨_, (Nat.add_sub_of_le (by omega)).symm⟩
    rw [Nat.add_sub_cancel_left] at hx
    exact hholds₁.entryBlock_full hn (by simp only [MAXFILE, NDIRECT] at hj; omega)
      ((hopen₁ MAXFILE).mpr (.inr rfl)) hzero₁ (by omega) hx
  · -- the indirect block is past the end
    have h0 : B n MAXFILE = 0 := by
      by_contra h0
      rw [if_neg h0] at hroom
      omega
    rw [if_pos h0] at hroom
    rw [link_new ((h.layout.indirect n hn).trans h0), St.entryBlock,
      Dinode.addrs_setAddrs_self h.small,
      show s.take.rsect s.freeblock = none from h.rsect_none (by omega)] at hx
    cases hx

end Holds

/-! ## The blocks of a file -/

/-- A file of `len` bytes has a block in slot `j`. -/
def Needed (len j : Nat) : Prop := (if j = MAXFILE then NDIRECT else j) * 512 < len

/-- Inode `n` has the blocks for its bytes, and no others. -/
def Exact (B : Nat → Nat → Nat) (f : Nat → List UInt8) (n : Nat) : Prop :=
  ∀ j ≤ MAXFILE, B n j ≠ 0 ↔ Needed (f n).length j

def blocksFor (len : Nat) : Nat := (len + 511) / 512 + if NDIRECT * 512 < len then 1 else 0

theorem blocksFor_mono {a b : Nat} (h : a ≤ b) : blocksFor a ≤ blocksFor b := by
  refine Nat.add_le_add (Nat.div_le_div_right (by omega)) ?_
  split_ifs <;> omega

theorem needed_lt (hj : j < MAXFILE) : Needed off j ↔ j * 512 < off := by
  rw [Needed, if_neg (Nat.ne_of_lt hj)]

theorem needed_MAXFILE : Needed off MAXFILE ↔ NDIRECT * 512 < off := by
  rw [Needed, if_pos rfl]

section

variable {m : Nat}

theorem split_blocks {len : Nat} (hm : 0 < m) (hm' : len % 512 + m ≤ 512) :
    ((if ¬ len / 512 * 512 < len then 1 else 0) +
      if NDIRECT ≤ len / 512 ∧ ¬ NDIRECT * 512 < len then 1 else 0) + blocksFor len =
    blocksFor (len + m) := by
  unfold blocksFor NDIRECT
  split_ifs <;> omega

/-- The bytes that go in one block take the blocks that `cost` says. -/
theorem cost_blocksFor (h : Exact B f n) (hlen : (f n).length < MAXFILE * 512) (hm : 0 < m)
    (hm' : (f n).length % 512 + m ≤ 512) :
    cost B n ((f n).length / 512) + blocksFor (f n).length = blocksFor ((f n).length + m) := by
  have hj : (f n).length / 512 < MAXFILE := by omega
  have hslot : B n ((f n).length / 512) = 0 ↔ ¬ (f n).length / 512 * 512 < (f n).length := by
    rw [← not_iff_not, not_not, ← needed_lt hj]
    exact h _ (Nat.le_of_lt hj)
  have hind : B n MAXFILE = 0 ↔ ¬ NDIRECT * 512 < (f n).length := by
    rw [← not_iff_not, not_not, ← needed_MAXFILE]
    exact h _ (Nat.le_refl _)
  rw [cost, if_congr hslot rfl rfl, if_congr (and_congr_right' hind) rfl rfl]
  exact split_blocks hm hm'

/-- The blocks that are opened are those for the bytes. -/
theorem Exact.opened (h : Exact B f n) (hlen : (f n).length < MAXFILE * 512) (hm : 0 < m)
    (hm' : (f n).length % 512 + m ≤ 512) (ho : Opened B B' n ((f n).length / 512)) (hj : j ≤ MAXFILE) :
    B' n j ≠ 0 ↔ Needed ((f n).length + m) j := by
  rw [ho j hj, h j hj]
  by_cases hmax : j = MAXFILE
  · subst hmax
    rw [needed_MAXFILE, needed_MAXFILE, and_iff_left rfl]
    simp only [MAXFILE, NDIRECT] at *
    omega
  · rw [needed_lt (by omega), needed_lt (by omega)]
    simp only [MAXFILE, NDIRECT] at *
    omega

end

/-! ## The loop -/

theorem copy_take {o k : Nat} (hk : k ≤ p.length) :
    buf.copy o k (St.bytesAt p) = buf.copy o (p.take k).length (St.bytesAt (p.take k)) := by
  have hlen : (p.take k).length = k := by rw [List.length_take]; omega
  rw [hlen]
  funext a
  by_cases ha : o ≤ a ∧ a < o + k
  · obtain ⟨i, rfl⟩ : ∃ i, a = o + i := ⟨_, (Nat.add_sub_of_le ha.1).symm⟩
    rw [Mem.copy_inside (by omega), Mem.copy_inside (by omega), St.bytesAt, St.bytesAt,
      List.getD_eq_getElem?_getD, List.getD_eq_getElem?_getD, List.getElem?_take_of_lt (by omega)]
  · rw [Mem.copy_apart (by omega), Mem.copy_apart (by omega)]

/-- `f` with the bytes `p` at the end of file `n`. -/
def extend (f : Nat → List UInt8) (n : Nat) (p : List UInt8) : Nat → List UInt8 :=
  Function.update f n (f n ++ p)

@[simp] theorem extend_self : extend f n p n = f n ++ p := Function.update_self _ _ _

theorem extend_ne (h : i ≠ n) : extend f n p i = f i := Function.update_of_ne h _ _

theorem extend_extend {q : List UInt8} : extend (extend f n p) n q = extend f n (p ++ q) := by
  rw [extend, extend_self, extend, Function.update_idem, List.append_assoc, extend]

/-- There are blocks for the bytes `p` of file `n`, and slots for the blocks. -/
def Fits (s : St) (f : Nat → List UInt8) (n : Nat) (p : List UInt8) : Prop :=
  (f n).length + p.length ≤ MAXFILE * 512 ∧
    s.freeblock + blocksFor ((f n).length + p.length) ≤ size + blocksFor (f n).length

/-- What `iappendLoop` does: the bytes are at the end of file `n`. -/
structure Appended (s s' : St) (T T' : Nat → Dinode) (B B' : Nat → Nat → Nat)
    (f : Nat → List UInt8) (n : Nat) (p : List UInt8) : Prop where
  holds : Holds s' T' B' (extend f n p)
  grown : Grown n s T B s' T' B'
  exact : Exact B' (extend f n p) n
  freeblock : s'.freeblock + blocksFor (f n).length =
    s.freeblock + blocksFor ((f n).length + p.length)

theorem chunk_le : St.chunk off p ≤ p.length := Nat.min_le_left _ _

theorem chunk_room : off % 512 + St.chunk off p ≤ 512 := by
  rw [St.chunk]
  omega

theorem turn_spec (h : Holds s T B f) (he : Exact B f n) (hn : n < room) (hp : p ≠ [])
    (hfits : Fits s f n (p.take (St.chunk (f n).length p))) :
    ∃ s' T' B', s.turn (T n) (f n).length p = some (s', T' n) ∧
      Appended s s' T T' B B' f n (p.take (St.chunk (f n).length p)) := by
  have hpos := St.chunk_pos (f n).length hp
  have hin : (f n).length % 512 + St.chunk (f n).length p ≤ 512 := chunk_room
  have hlen : (p.take (St.chunk (f n).length p)).length = St.chunk (f n).length p :=
    List.length_take_of_le chunk_le
  rw [Fits, hlen] at hfits
  obtain ⟨hshort, hroom⟩ := hfits
  have hlt : (f n).length < MAXFILE * 512 := by omega
  have hj : (f n).length / 512 < MAXFILE := by omega
  have hcost := cost_blocksFor he hlt hpos hin
  obtain ⟨s₁, T₁, B₁, hblock, hholds₁, hgrown₁, hopen₁, hfb₁⟩ := h.blockFor_spec hn hj
    (fun h0 => by
      have := (not_congr (he _ (Nat.le_of_lt hj))).mp (not_not.mpr h0)
      rw [needed_lt hj] at this
      omega)
    (by omega)
  have hne : B₁ n ((f n).length / 512) ≠ 0 := (hopen₁ _ (Nat.le_of_lt hj)).mpr (.inr (.inl rfl))
  have hr := hholds₁.range hn (Nat.le_of_lt hj) hne
  have hbelow := hholds₁.below
  have hoff : (f n).length - (f n).length / 512 * 512 = (f n).length - 512 * ((f n).length / 512) := by
    omega
  obtain ⟨hholds₂, hgrown₂⟩ := hholds₁.write (p := p.take (St.chunk (f n).length p)) hn hj hne
    (by omega) (by omega)
    (fun k hk hjk => by
      have := (not_congr (he.opened hlt hpos hin hopen₁ (Nat.le_of_lt hk))).mpr
        (by rw [needed_lt hk]; omega)
      exact not_not.mp this)
    rfl
  refine ⟨_, T₁, B₁, ?_, hholds₂, hgrown₁.trans hgrown₂, fun j hj' => ?_, ?_⟩
  · rw [St.turn, if_pos hj, hblock]
    simp only [Option.bind_eq_bind, Option.bind_some, hholds₁.rsect (Nat.lt_of_lt_of_le hr.2 hbelow),
      hoff, copy_take chunk_le]
    rfl
  · rw [extend_self, List.length_append, hlen]
    exact he.opened hlt hpos hin hopen₁ hj'
  · show s₁.freeblock + _ = _
    rw [hlen]
    omega

theorem turn_full (h : Holds s T B f) (he : Exact B f n) (hn : n < room) (hp : p ≠ [])
    (hfits : ¬ Fits s f n (p.take (St.chunk (f n).length p))) :
    s.turn (T n) (f n).length p = none := by
  have hpos := St.chunk_pos (f n).length hp
  have hin : (f n).length % 512 + St.chunk (f n).length p ≤ 512 := chunk_room
  rw [Fits, List.length_take_of_le chunk_le] at hfits
  rw [St.turn]
  by_cases hj : (f n).length / 512 < MAXFILE
  · have hcost := cost_blocksFor he (by omega) hpos hin
    rw [if_pos hj]
    rcases hblock : s.blockFor (T n) ((f n).length / 512) with _ | ⟨s₁, d, x⟩
    · rfl
    · have hx := h.blockFor_full hn hj (by omega) hblock
      simp only [Option.bind_eq_bind, Option.bind_some, hx, Option.bind_none]
  · rw [if_neg hj]

theorem Fits.take (h : Fits s f n p) (c : Nat) : Fits s f n (p.take c) := by
  obtain ⟨hlen, hroom⟩ := h
  have hle : (p.take c).length ≤ p.length := List.length_take_le' c p
  have := blocksFor_mono (Nat.add_le_add_left hle (f n).length)
  exact ⟨by omega, by omega⟩

/-- What is left fits if all did. -/
theorem Appended.fits_iff {c : Nat} (h : Appended s s' T T' B B' f n (p.take c)) :
    Fits s f n p ↔ Fits s' (extend f n (p.take c)) n (p.drop c) := by
  have hfb := h.freeblock
  have hlen : (p.take c).length + (p.drop c).length = p.length := by
    rw [← List.length_append, List.take_append_drop]
  rw [Fits, Fits, extend_self, List.length_append, Nat.add_assoc, hlen]
  refine and_congr_right fun _ => ?_
  omega

theorem Appended.trans {q : List UInt8} (h : Appended s s' T T' B B' f n p)
    (h' : Appended s' s'' T' T'' B' B'' (extend f n p) n q) :
    Appended s s'' T T'' B B'' f n (p ++ q) := by
  have hfb := h.freeblock
  have hfb' := h'.freeblock
  rw [extend_self, List.length_append] at hfb'
  refine ⟨extend_extend ▸ h'.holds, h.grown.trans h'.grown, extend_extend ▸ h'.exact, ?_⟩
  rw [List.length_append, ← Nat.add_assoc]
  omega

theorem iappendLoop_cons {d : Dinode} (hp : p ≠ []) : s.iappendLoop d off p =
    (s.turn d off p).bind fun r =>
      r.1.iappendLoop r.2 (off + St.chunk off p) (p.drop (St.chunk off p)) := by
  rw [St.iappendLoop, dif_neg hp]
  rfl

/-- The loop appends bytes that fit. -/
theorem iappendLoop_ok (h : Holds s T B f) (he : Exact B f n) (hn : n < room) (hfits : Fits s f n p) :
    ∃ s' T' B', s.iappendLoop (T n) (f n).length p = some (s', T' n, (f n).length + p.length) ∧
      Appended s s' T T' B B' f n p := by
  induction hl : p.length using Nat.strongRecOn generalizing s T B f p with
  | ind l ih =>
      by_cases hp : p = []
      · subst hp
        have hsame : extend f n [] = f := by
          rw [extend, List.append_nil, Function.update_eq_self]
        refine ⟨s, T, B, by rw [St.iappendLoop, dif_pos rfl, ← hl]; rfl,
          hsame.symm ▸ h, .refl, hsame.symm ▸ he, rfl⟩
      · obtain ⟨s₁, T₁, B₁, hturn, happ₁⟩ := turn_spec h he hn hp (hfits.take _)
        have hpos := St.chunk_pos (f n).length hp
        have hle : St.chunk (f n).length p ≤ p.length := chunk_le
        obtain ⟨s₂, T₂, B₂, hloop, happ₂⟩ := ih (p.drop (St.chunk (f n).length p)).length
          (by rw [List.length_drop]; omega) happ₁.holds happ₁.exact (happ₁.fits_iff.mp hfits) rfl
        rw [extend_self, List.length_append, List.length_take_of_le hle, List.length_drop] at hloop
        have happ := happ₁.trans happ₂
        rw [List.take_append_drop] at happ
        refine ⟨s₂, T₂, B₂, ?_, happ⟩
        rw [iappendLoop_cons hp, hturn, Option.bind_some, hloop]
        simp only [Option.some.injEq, Prod.mk.injEq, true_and]
        omega

/-- The loop exits on bytes that do not fit. -/
theorem iappendLoop_none (h : Holds s T B f) (he : Exact B f n) (hn : n < room)
    (hshort : (f n).length ≤ MAXFILE * 512) (hfits : ¬ Fits s f n p) :
    s.iappendLoop (T n) (f n).length p = none := by
  induction hl : p.length using Nat.strongRecOn generalizing s T B f p with
  | ind l ih =>
      have hp : p ≠ [] := by
        rintro rfl
        exact hfits ⟨hshort, Nat.add_le_add_right h.below _⟩
      rw [iappendLoop_cons hp]
      by_cases hturn : Fits s f n (p.take (St.chunk (f n).length p))
      · obtain ⟨s₁, T₁, B₁, hturn', happ₁⟩ := turn_spec h he hn hp hturn
        have hpos := St.chunk_pos (f n).length hp
        have hle : St.chunk (f n).length p ≤ p.length := chunk_le
        have hloop := ih (p.drop (St.chunk (f n).length p)).length
          (by rw [List.length_drop]; omega) happ₁.holds happ₁.exact
          (by rw [extend_self, List.length_append]; exact hturn.1)
          ((not_congr happ₁.fits_iff).mp hfits) rfl
        rw [extend_self, List.length_append, List.length_take_of_le hle] at hloop
        rw [hturn', Option.bind_some, hloop]
      · rw [turn_full h he hn hp hturn, Option.bind_none]

end Cs537.Mkfs
