/-
# `Cs537.CheckedFs.Evict` — a checked file that leaves the cache

A session is a `T_CHECKED` inode in the cache, written by `writei` and, between
the writes, dropped from the cache and read again from the disk.  As long as
it stays in the cache the checksums are right.  But `writei` writes the inode
back only when the file grows, so after an overwrite in place the checksums of
direct blocks are new in the cache and old on the disk; when the inode then
leaves the cache, the new ones are lost and `readi` refuses the block.
-/
import Cs537.Lib.Run
import Cs537.CheckedFs.Icache
import Cs537.CheckedFs.Agree

namespace Cs537.CheckedFs

open Cs537.Lib

/-! ## Sessions -/

/-- The slot of the inode, and the bytes written to the file so far. -/
structure Session where
  fs : Fs
  slot : Slot
  file : List Byte

def Session.ip (s : Session) : Inode := s.fs.icache s.slot

inductive Event where
  | write (off n : BitVec 32) (src : Nat → Byte)
  | evict

/-- `iput`, and later `iget` and `ilock` of the same inode. -/
def reload (s : Session) : Option (Slot × Fs) := do
  let fs ← iput s.fs s.slot
  let (i, fs) ← iget fs s.ip.inum
  let fs ← ilock fs i
  some (i, fs)

/-- The session with the inode and the file replaced. -/
def Session.put (s : Session) (d : Disk) (ip : Inode) (file : List Byte) : Session :=
  ⟨Fs.setInode { s.fs with disk := d } s.slot ip, s.slot, file⟩

def Session.step (dev : Devsw) (s : Session) : Event → Option Session
  | .write off n src =>
      (writei dev s.fs.disk s.ip src off n).map fun (_, d, ip) =>
        s.put d ip (serveCall s.file (.write off n src)).2
  | .evict => (reload s).map fun (i, fs) => { s with fs := fs, slot := i }

/-! ## Conditions and properties -/

/-- A write that succeeds finds the blocks that it needs. -/
def WriteRoom (s : Session) : Event → Prop
  | .write off n src => Room s.fs.disk s.file (.write off n src)
  | .evict => True

/-- When the inode leaves the cache, its pointers, with their checksums, are
those of the inode on the disk. -/
def Flushed (s : Session) : Event → Prop
  | .write _ _ _ => True
  | .evict => (dinode s.fs.disk s.ip.inum).addrs = s.ip.addrs

instance (s : Session) : (e : Event) → Decidable (WriteRoom s e)
  | .write off n src => inferInstanceAs (Decidable (Room s.fs.disk s.file (.write off n src)))
  | .evict => .isTrue trivial

instance (s : Session) : (e : Event) → Decidable (Flushed s e)
  | .write _ _ _ => .isTrue trivial
  | .evict => inferInstanceAs (Decidable ((dinode s.fs.disk s.ip.inum).addrs = s.ip.addrs))

/-- The checksums that `readi` consults are those of the blocks. -/
def TagsRight (s : Session) : Prop := Tagged s.fs.disk s.ip.toDinode (nblk s.ip.size.toNat)

/-- Every `readi` inside the file returns the bytes written. -/
def ReadsRight (dev : Devsw) (s : Session) : Prop :=
  ∀ off n : BitVec 32, off.toNat ≤ s.ip.size.toNat → off.toNat + n.toNat < 2 ^ 32 →
    readi dev s.fs.disk s.ip off n =
      some ((((s.file.drop off.toNat).take n.toNat).length : Int),
        (s.file.drop off.toNat).take n.toNat, s.fs.disk, s.ip)

structure Sound (dev : Devsw) (s : Session) : Prop where
  tags : TagsRight s
  reads : ReadsRight dev s

/-! ## The invariant -/

/-- The slot holds a checked inode with these bytes, and no other slot does. -/
structure Held (s : Session) : Prop where
  stores : Stores s.fs.disk s.ip s.file
  checked : s.ip.type = tChecked
  valid : s.ip.valid = true
  ref : s.ip.ref = 1
  nlink : s.ip.nlink ≠ 0
  alone : ∀ j, j ≠ s.slot → ¬ Caches s.fs j s.ip.inum

structure SessionInv (s : Session) : Prop extends Held s where
  shadow : Shadows (dinode s.fs.disk s.ip.inum) s.ip.toDinode

/-- A session starts with an inode just read from the disk. -/
structure Opened (s : Session) : Prop extends Held s where
  read : dinode s.fs.disk s.ip.inum = s.ip.toDinode

theorem Opened.inv {s : Session} (h : Opened s) : SessionInv s :=
  ⟨h.toHeld, h.read ▸ Shadows.refl _⟩

section

variable {s t : Session} {dev : Devsw}

theorem SessionInv.sound (h : SessionInv s) (dev : Devsw) : Sound dev s := by
  refine ⟨?_, fun off n hoff hn => ?_⟩
  · rw [TagsRight, h.stores.size]
    exact h.stores.tags h.checked
  · have hacc : Accepts (2 ^ 32) s.file (Call.read off n).abs := ⟨h.stores.size ▸ hoff, hn⟩
    have hread := h.stores.doRead dev hacc
    rw [serveCall, fileStep, if_pos hacc, Call.abs, serve, doCall, Option.map_eq_some_iff] at hread
    obtain ⟨⟨r, out, d, ip⟩, hr, heq⟩ := hread
    obtain ⟨⟨rfl, rfl⟩, rfl, rfl⟩ := by simpa only [Prod.mk.injEq] using heq
    exact hr

@[simp] theorem put_ip {d : Disk} {ip : Inode} {file : List Byte} :
    (s.put d ip file).ip = ip := setInode_self

theorem put_icache_of_ne {d : Disk} {ip : Inode} {file : List Byte} {j : Slot} (h : j ≠ s.slot) :
    (s.put d ip file).fs.icache j = s.fs.icache j := setInode_of_ne h

/-- A write keeps the invariant. -/
theorem SessionInv.write (h : SessionInv s) {off n : BitVec 32} {src : Nat → Byte}
    (hroom : Room s.fs.disk s.file (.write off n src))
    (ht : s.step dev (.write off n src) = some t) : SessionInv t := by
  obtain ⟨d', ip', hcall, hserved⟩ := h.stores.doCall dev _ hroom
  obtain ⟨⟨r, d₁, ip₁⟩, hwrite, heq⟩ := Option.map_eq_some_iff.mp hcall
  obtain ⟨-, rfl, rfl⟩ := by simpa only [Prod.mk.injEq] using heq
  obtain rfl : s.put d₁ ip₁ (serveCall s.file (.write off n src)).2 = t := by
    simpa only [Session.step, hwrite, Option.map_some, Option.some.injEq] using ht
  have hrest := hserved.rest
  refine ⟨⟨?_, ?_, ?_, ?_, ?_, fun j hj => ?_⟩, ?_⟩
  · rw [put_ip]
    exact hserved.stores
  · rw [put_ip, hrest]
    exact h.checked
  · rw [put_ip, hrest]
    exact h.valid
  · rw [put_ip, hrest]
    exact h.ref
  · rw [put_ip, hrest]
    exact h.nlink
  · rw [put_ip, Caches, put_icache_of_ne (s := s) hj, hrest]
    exact h.alone j hj
  · have hinum : ip₁.inum = s.ip.inum := by rw [hrest]
    rw [put_ip, hinum]
    exact hserved.shadow h.shadow

/-- The session after the inode went to slot `j`. -/
def Session.reloaded (s : Session) (j : Slot) : Session :=
  { s with
    slot := j
    fs := (s.fs.setInode s.slot { s.ip with ref := 0 }).setInode j
      ⟨dinode s.fs.disk s.ip.inum, s.ip.inum, 1, true⟩ }

theorem SessionInv.evict (h : SessionInv s) (dev : Devsw) :
    ∃ j, s.step dev .evict = some (s.reloaded j) := by
  have hput : iput s.fs s.slot = some (s.fs.setInode s.slot { s.ip with ref := 0 }) := by
    have hkeep := iput_keep s.fs s.slot fun hlast => h.nlink hlast.2.2
    rw [hkeep]
    have href : (s.fs.icache s.slot).ref = 1 := h.ref
    rw [href]
    rfl
  have hno : ∀ j, ¬ Caches (s.fs.setInode s.slot { s.ip with ref := 0 }) j s.ip.inum := fun j => by
    by_cases hj : j = s.slot
    · subst hj
      rw [Caches, setInode_self]
      exact fun hc => absurd hc.1 (lt_irrefl 0)
    · rw [Caches, setInode_of_ne hj]
      exact h.alone j hj
  obtain ⟨j, hget⟩ := iget_empty hno (j := s.slot) (by rw [setInode_self])
  have htype : (dinode s.fs.disk s.ip.inum).type ≠ 0 := by
    rw [h.shadow.type, h.checked]
    decide
  refine ⟨j, ?_⟩
  rw [Session.step, reload, hput]
  simp only [Option.bind_eq_bind, Option.bind_some, hget]
  rw [ilock_load (by rw [setInode_self]) (by rw [setInode_self]) (by rw [setInode_self]; exact htype)]
  simp only [Option.bind_some, Option.map_some, setInode_self, setInode_disk, setInode_setInode,
    Session.reloaded]

@[simp] theorem reloaded_ip {j : Slot} :
    (s.reloaded j).ip = ⟨dinode s.fs.disk s.ip.inum, s.ip.inum, 1, true⟩ := setInode_self

@[simp] theorem reloaded_disk {j : Slot} : (s.reloaded j).fs.disk = s.fs.disk := rfl

theorem reloaded_icache_of_ne {i j : Slot} (h : i ≠ j) :
    (s.reloaded j).fs.icache i = (s.fs.setInode s.slot { s.ip with ref := 0 }).icache i :=
  setInode_of_ne h

/-- An inode that was written back is the same after it was read again. -/
theorem SessionInv.reloaded (h : SessionInv s) (hflush : Flushed s .evict) (j : Slot) :
    SessionInv (s.reloaded j) := by
  have hdip : dinode s.fs.disk s.ip.inum = s.ip.toDinode := by
    rw [h.shadow.rest]
    exact congrArg (fun a => { s.ip.toDinode with addrs := a }) hflush
  have hst := h.stores
  refine ⟨⟨?_, ?_, ?_, ?_, ?_, fun i hi => ?_⟩, ?_⟩
  · rw [reloaded_ip, hdip]
    exact ⟨hst.image, hst.inum, hst.ordinary, hst.size, hst.blocks, hst.bytes, hst.tags⟩
  · rw [reloaded_ip, hdip]
    exact h.checked
  · rw [reloaded_ip]
  · rw [reloaded_ip]
  · rw [reloaded_ip, hdip]
    exact h.nlink
  · have hij : i ≠ j := hi
    rw [reloaded_ip, Caches, reloaded_icache_of_ne hij]
    by_cases hs : i = s.slot
    · subst hs
      rw [setInode_self]
      exact fun hc => absurd hc.1 (lt_irrefl 0)
    · rw [setInode_of_ne hs]
      exact h.alone i hs
  · rw [reloaded_ip, reloaded_disk]
    exact Shadows.refl _

/-- One that was not has lost a checksum. -/
theorem SessionInv.flushed (h : SessionInv s) {j : Slot} (htags : TagsRight (s.reloaded j)) :
    Flushed s .evict := by
  have hsh := h.shadow
  have hsize : (dinode s.fs.disk s.ip.inum).size = s.ip.size := by rw [hsh.rest]
  have hright : TagsRight s := (h.sound noDev).tags
  rw [TagsRight, reloaded_ip, reloaded_disk, hsize] at htags
  rw [TagsRight] at hright
  have hwf := h.stores.blocks.wf
  have haddr : ∀ i, i < 13 → (dinode s.fs.disk s.ip.inum).addr i = s.ip.addr i := fun i hi => by
    by_cases hd : i < ndirect
    · by_cases hk : i < nblk s.ip.size.toNat
      · -- the same block, and both checksums are its checksum
        have hno := hsh.blockno i hd
        rw [Dinode.blockno, Dinode.blockno, if_pos h.checked, if_pos h.checked] at hno
        have h1 := htags i hk
        have h2 := hright i hk
        rw [dataAt, if_pos hk] at h1 h2
        rw [hsh.blk, ← h2, sumWord_direct _ hd, sumWord_direct _ hd] at h1
        exact eq_of_mask24_tag hno h1
      · have hm : maxfile = 140 := rfl
        have h12 : ndirect = 12 := rfl
        have h0 := hwf.fresh i (by omega) (by omega) (.inl hd)
        rw [sumWord_direct _ hd] at h0
        rw [h0, (hsh.zero i hd).mpr h0]
    · obtain rfl : i = ndirect := by
        have h12 : ndirect = 12 := rfl
        omega
      exact hsh.ind
  funext i
  have hi := haddr i.val i.isLt
  rwa [addr_val, addr_val] at hi

/-- In the sessions whose writes find room, the checksums and the reads are
right all along just when the inode is on the disk as it is in the cache each
time that it leaves the cache. -/
theorem sound_session (dev : Devsw) {es : List Event} (h : Opened s)
    (hroom : AllSteps (Session.step dev) WriteRoom s es) :
    AllStates (Session.step dev) (Sound dev) s es ↔ AllSteps (Session.step dev) Flushed s es := by
  refine allStates_iff_allSteps (I := SessionInv) (fun _ hs => hs.sound dev) (fun s e t hs _ ht hP => ?_)
    (fun s e t hs hB hC ht => ?_) h.inv hroom
  · cases e with
    | write off n src => trivial
    | evict =>
        obtain ⟨j, hstep⟩ := hs.evict dev
        obtain rfl := Option.some.inj (hstep.symm.trans ht)
        exact hs.flushed hP.tags
  · cases e with
    | write off n src => exact hs.write hB ht
    | evict =>
        obtain ⟨j, hstep⟩ := hs.evict dev
        obtain rfl := Option.some.inj (hstep.symm.trans ht)
        exact hs.reloaded hC j

/-- A new checked file in the first slot, on the disk of `mkfs`. -/
def newSession : Session where
  fs :=
    { disk := setDinode smallDisk (newInode tChecked).inum (newInode tChecked).toDinode
      icache := fun i =>
        if i = firstSlot then newInode tChecked else ⟨⟨0, 0, 0, 0, 0, fun _ => 0⟩, 0, 0, false⟩ }
  slot := firstSlot
  file := []

theorem opened_newSession : Opened newSession := by
  have hnew := emptyInode_smallDisk tChecked
  have hhigh := sameHigh_setDinode hnew.inum (newInode tChecked).toDinode
  have hempty : EmptyInode newSession.fs.disk newSession.ip :=
    ⟨hhigh.image hnew.image, (sbNinodes_eq hhigh.sb).symm ▸ hnew.inum, rfl, rfl⟩
  refine ⟨⟨hempty.stores (by decide), rfl, rfl, rfl, by decide, fun j hj hc => ?_⟩, ?_⟩
  · have hslot : newSession.fs.icache j = ⟨⟨0, 0, 0, 0, 0, fun _ => 0⟩, 0, 0, false⟩ := if_neg hj
    rw [Caches, hslot] at hc
    exact absurd hc.1 (lt_irrefl 0)
  · exact (dinode_setDinode _ _ _ _).trans (if_pos rfl)

/-- Every write grows the file, so the inode is written back each time. -/
def growing : List Event :=
  [.write 0 1 (fun _ => 1), .write 0 600 (fun i => BitVec.ofNat 8 i), .evict, .write 0 601 (fun _ => 7), .evict]

theorem sound_session_growing : AllStates (Session.step noDev) (Sound noDev) newSession growing :=
  (sound_session noDev opened_newSession (by decide +kernel)).mpr (by decide +kernel)

/-- The second write does not grow the file. -/
def overwriting : List Event := [.write 0 1 (fun _ => 1), .write 0 1 (fun _ => 2), .evict]

theorem overwritten_tag_lost : Opened newSession ∧
    AllSteps (Session.step noDev) WriteRoom newSession overwriting ∧
    ¬ AllStates (Session.step noDev) (Sound noDev) newSession overwriting := by
  refine ⟨opened_newSession, by decide +kernel, fun h => ?_⟩
  have hrun : (run (Session.step noDev) newSession overwriting).map (fun t =>
      decide (t.ip.size = 1) && (readi noDev t.fs.disk t.ip 0 1).any fun r => r.1 == -1) = some true := by
    decide +kernel
  obtain ⟨t, ht, heq⟩ := Option.map_eq_some_iff.mp hrun
  rw [Bool.and_eq_true, decide_eq_true_eq] at heq
  have hread := (h.last ht).reads 0 1 (Nat.zero_le _) (by decide)
  rw [hread] at heq
  have hneg := heq.2
  simp only [Option.any_some, beq_iff_eq] at hneg
  omega

end

end Cs537.CheckedFs
