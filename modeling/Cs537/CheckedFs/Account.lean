/-
# `Cs537.CheckedFs.Account` — block accounting over whole runs

The file system as a state machine: inodes are made, looked up, read in,
written, given and deprived of links, and put back, in any order and over any
mix of types.  The last `iput` of an inode without links frees its blocks.

The bookkeeping of `Cs537.CheckedFs.FileSys` holds in every state as long as
the checked files that are freed have checksum bytes 0, for `itrunc` hands
those pointers to `bfree` with their checksums.
-/
import Cs537.Lib.Run
import Cs537.CheckedFs.FileSys
import Cs537.CheckedFs.Icache
import Cs537.CheckedFs.Mkfs
import Cs537.CheckedFs.Agree

namespace Cs537.CheckedFs

open Cs537.Lib

/-! ## The state machine -/

inductive Op where
  | get (inum : Nat)
  | lock (i : Slot)
  | put (i : Slot)
  | alloc (type : BitVec 16)
  | update (i : Slot) (major minor nlink : BitVec 16)
  | write (i : Slot) (off n : BitVec 32) (src : Nat → Byte)

/-- The slot is held by someone who has been through `ilock`. -/
def Locked (fs : Fs) (i : Slot) : Prop := 0 < (fs.icache i).ref ∧ (fs.icache i).valid = true

instance (fs : Fs) (i : Slot) : Decidable (Locked fs i) := inferInstanceAs (Decidable (_ ∧ _))

/-- The disk and one slot replaced. -/
def Fs.put (fs : Fs) (d : Disk) (i : Slot) (ip : Inode) : Fs :=
  Fs.setInode { fs with disk := d } i ip

/-- A step; `none` is a panic, or a call that the kernel does not make: `get`
of a number that is not an inode's, `alloc` of type 0, `put` without a
reference, `update` and `writei` of an inode that is not locked. -/
def Fs.step (dev : Devsw) (fs : Fs) : Op → Option Fs
  | .get inum => if inum < sbNinodes fs.disk then (iget fs inum).map Prod.snd else none
  | .lock i => ilock fs i
  | .put i => if 0 < (fs.icache i).ref then iput fs i else none
  | .alloc type => if type ≠ 0 then (ialloc fs type).map Prod.snd else none
  | .update i major minor nlink =>
      if Locked fs i then
        let ip := { fs.icache i with major := major, minor := minor, nlink := nlink }
        some (fs.put (iupdate fs.disk ip) i ip)
      else none
  | .write i off n src =>
      if Locked fs i then
        (writei dev fs.disk (fs.icache i) src off n).map fun (_, d, ip) => fs.put d i ip
      else none

/-- The empty cache. -/
def boot (d : Disk) : Fs := ⟨d, fun _ => ⟨⟨0, 0, 0, 0, 0, fun _ => 0⟩, 0, 0, false⟩⟩

/-! ## Conditions -/

/-- The disk has the blocks that the file gains. -/
def Fits (d : Disk) (ip : Inode) (off n : BitVec 32) : Prop :=
  ip.type ≠ tDev → off.toNat ≤ ip.size.toNat → off.toNat + n.toNat < 2 ^ 32 →
    blocksFor (nblk (max ip.size.toNat (off.toNat + min n.toNat (maxsize - off.toNat))))
      ≤ blocksFor (nblk ip.size.toNat) + freeCount d

instance (d : Disk) (ip : Inode) (off n : BitVec 32) : Decidable (Fits d ip off n) :=
  inferInstanceAs (Decidable (_ → _ → _ → _))

def WriteFits (fs : Fs) : Op → Prop
  | .write i off n _ => Fits fs.disk (fs.icache i) off n
  | _ => True

/-- `iput` will free the inode. -/
def Releases (fs : Fs) (i : Slot) : Prop :=
  (fs.icache i).ref = 1 ∧ (fs.icache i).valid = true ∧ (fs.icache i).nlink = 0

instance (fs : Fs) (i : Slot) : Decidable (Releases fs i) := inferInstanceAs (Decidable (_ ∧ _ ∧ _))

/-- Every `bfree` of the step is on a block below `sb.size` whose bit is set. -/
def CallsOk (fs : Fs) : Op → Prop
  | .put i => Releases fs i → TruncOk fs.disk (fs.icache i)
  | _ => True

/-- The checksum bytes in the pointers of `ip` are 0. -/
def Untagged (d : Disk) (ip : Dinode) : Prop :=
  ∀ bn, bn < nblk ip.size.toNat → tag (ip.sumWord d bn) = 0

instance (d : Disk) (ip : Dinode) : Decidable (Untagged d ip) := Nat.decidableBallLT _ _

/-- A checked file is freed only with checksum bytes 0. -/
def ReleaseOk (fs : Fs) : Op → Prop
  | .put i => Releases fs i → (fs.icache i).type = tChecked →
      Untagged fs.disk (fs.icache i).toDinode
  | _ => True

instance (fs : Fs) : (op : Op) → Decidable (WriteFits fs op)
  | .write i off n _ => inferInstanceAs (Decidable (Fits fs.disk (fs.icache i) off n))
  | .get _ | .lock _ | .put _ | .alloc _ | .update _ _ _ _ => .isTrue trivial

instance (fs : Fs) : (op : Op) → Decidable (ReleaseOk fs op)
  | .put i => inferInstanceAs (Decidable (Releases fs i → (fs.icache i).type = tChecked →
      Untagged fs.disk (fs.icache i).toDinode))
  | .get _ | .lock _ | .write _ _ _ _ | .alloc _ | .update _ _ _ _ => .isTrue trivial

/-! ## The invariant -/

/-- A slot in use caches an inode of the disk. -/
structure SlotOk (d : Disk) (ip : Inode) : Prop where
  inum : ip.inum < sbNinodes d
  used : ip.valid = true → (dinode d ip.inum).type ≠ 0
  shadow : ip.valid = true → Shadows (dinode d ip.inum) ip.toDinode

structure FsInv (fs : Fs) : Prop where
  files : FileSys fs.disk
  slots : ∀ i, 0 < (fs.icache i).ref → SlotOk fs.disk (fs.icache i)
  unique : ∀ i j inum, Caches fs i inum → Caches fs j inum → i = j

section

variable {fs t : Fs} {d : Disk} {i : Slot} {ip : Inode} {dev : Devsw}

theorem boot_inv (hd : Consistent d) : FsInv (boot d) where
  files := hd.fileSys
  slots _ href := absurd href (lt_irrefl 0)
  unique _ _ _ hc _ := absurd hc.1 (lt_irrefl 0)

theorem FsInv.alone (h : FsInv fs) (href : 0 < (fs.icache i).ref) {j : Slot} (hj : j ≠ i) :
    ¬ Caches fs j (fs.icache i).inum := fun hc =>
  hj (h.unique j i _ hc ⟨href, rfl⟩)

/-- The rule for a step that changes one slot, and on the disk the inode in it
at most. -/
theorem FsInv.put (h : FsInv fs) (hfiles : FileSys d) (hsb : d 1 = fs.disk 1)
    (hothers : ∀ j, j ≠ ip.inum → j < sbNinodes fs.disk → dinode d j = dinode fs.disk j)
    (hslot : 0 < ip.ref → SlotOk d ip) (halone : ∀ j, j ≠ i → ¬ Caches fs j ip.inum) :
    FsInv (fs.put d i ip) := by
  refine ⟨hfiles, fun j href => ?_, fun j l inum hj hl => ?_⟩
  · by_cases hji : j = i
    · subst hji
      rw [Fs.put, setInode_self] at href ⊢
      exact hslot href
    · rw [Fs.put, setInode_of_ne hji] at href ⊢
      have hs := h.slots j href
      have hne : (fs.icache j).inum ≠ ip.inum := fun he => halone j hji ⟨href, he⟩
      have hdin : dinode d (fs.icache j).inum = dinode fs.disk (fs.icache j).inum :=
        hothers _ hne hs.inum
      have hinum : (fs.icache j).inum < sbNinodes d := by
        rw [sbNinodes_eq hsb]
        exact hs.inum
      exact ⟨hinum, fun hv => hdin ▸ hs.used hv,
        fun hv => hdin ▸ hs.shadow hv⟩
  · have hother : ∀ l, l ≠ i → Caches (fs.put d i ip) l inum → Caches fs l inum := fun l hl hc => by
      rwa [Caches, Fs.put, setInode_of_ne hl] at hc
    have hself : Caches (fs.put d i ip) i inum → ip.inum = inum := fun hc => by
      rw [Caches, Fs.put, setInode_self] at hc
      exact hc.2
    by_cases hji : j = i
    · by_cases hli : l = i
      · rw [hji, hli]
      · subst hji
        exact absurd (hself hj ▸ hother l hli hl) (halone l hli)
    · by_cases hli : l = i
      · subst hli
        exact absurd (hself hl ▸ hother j hji hj) (halone j hji)
      · exact h.unique j l inum (hother j hji hj) (hother l hli hl)

/-- With the disk unchanged. -/
theorem FsInv.setInode (h : FsInv fs) (hslot : 0 < ip.ref → SlotOk fs.disk ip)
    (halone : ∀ j, j ≠ i → ¬ Caches fs j ip.inum) : FsInv (fs.setInode i ip) :=
  h.put h.files rfl (fun _ _ _ => rfl) hslot halone

/-! ## The steps that keep the disk -/

theorem FsInv.iget {inum : Nat} (h : FsInv fs) (hi : inum < sbNinodes fs.disk)
    (hget : iget fs inum = some (i, t)) : FsInv t := by
  rcases iget_cases hget with ⟨hc, rfl⟩ | ⟨hno, -, rfl⟩
  · have hs := h.slots i hc.1
    exact h.setInode (fun _ => ⟨hs.inum, hs.used, hs.shadow⟩) fun j hj => h.alone hc.1 hj
  · exact h.setInode (fun _ => ⟨hi, nofun, nofun⟩) fun j _ => hno j

theorem FsInv.ilock (h : FsInv fs) (hlock : ilock fs i = some t) : FsInv t := by
  obtain ⟨href, ⟨-, rfl⟩ | ⟨-, ht, rfl⟩⟩ := ilock_cases hlock
  · exact h
  · exact h.setInode (fun _ => ⟨(h.slots i href).inum, fun _ => ht, fun _ => Shadows.refl _⟩)
      fun j hj => h.alone href hj

theorem FsInv.iput_keep (h : FsInv fs) (href : 0 < (fs.icache i).ref) (hno : ¬ Releases fs i)
    (hput : iput fs i = some t) : FsInv t := by
  rw [CheckedFs.iput_keep fs i hno] at hput
  obtain rfl := Option.some.inj hput
  have hs := h.slots i href
  exact h.setInode (fun _ => ⟨hs.inum, hs.used, hs.shadow⟩) fun j hj => h.alone href hj

/-! ## The steps that change the disk -/

/-- What the slot of a locked inode says about the inode on the disk. -/
theorem FsInv.locked (h : FsInv fs) (hl : Locked fs i) :
    SlotOk fs.disk (fs.icache i) ∧ Blocks fs.disk (fs.icache i).toDinode ∧
      ∀ b, Refs fs.disk (dinode fs.disk (fs.icache i).inum) b ↔
        Refs fs.disk (fs.icache i).toDinode b := by
  have hs := h.slots i hl.1
  have hb := h.files.blocks _ hs.inum (hs.used hl.2)
  exact ⟨hs, (hs.shadow hl.2).symm.blocks hb, (hs.shadow hl.2).refs⟩

/-- Writing back an inode with the same blocks. -/
theorem FsInv.iupdate (h : FsInv fs) (i : Slot) (ip : Inode) (hinum : ip.inum < sbNinodes fs.disk)
    (halone : ∀ j, j ≠ i → ¬ Caches fs j ip.inum) (ht : ip.type ≠ 0)
    (hb : Blocks fs.disk ip.toDinode)
    (hrefs : ∀ b, Refs fs.disk ip.toDinode b ↔
      (dinode fs.disk ip.inum).type ≠ 0 ∧ Refs fs.disk (dinode fs.disk ip.inum) b) :
    FsInv (fs.put (CheckedFs.iupdate fs.disk ip) i ip) := by
  have hhigh : SameHigh fs.disk (CheckedFs.iupdate fs.disk ip) := sameHigh_setDinode hinum _
  have hself : dinode (CheckedFs.iupdate fs.disk ip) ip.inum = ip.toDinode := by
    rw [CheckedFs.iupdate, dinode_setDinode, if_pos rfl]
  have hfiles : FileSys (CheckedFs.iupdate fs.disk ip) :=
    h.files.setDinode hinum (fun _ => hb) fun b => by
      rw [← hrefs b]
      exact and_iff_right ht
  refine h.put hfiles hhigh.sb (fun j hj _ => ?_) (fun _ => ⟨?_, fun _ => ?_, fun _ => ?_⟩) halone
  · rw [CheckedFs.iupdate, dinode_setDinode, if_neg hj]
  · rw [sbNinodes_eq hhigh.sb]
    exact hinum
  · rw [hself]
    exact ht
  · rw [hself]
    exact Shadows.refl _

theorem FsInv.update {major minor nlink : BitVec 16} (h : FsInv fs)
    (ht : Fs.step dev fs (.update i major minor nlink) = some t) : FsInv t := by
  rw [Fs.step] at ht
  split at ht
  · rename_i hl
    obtain ⟨hs, hb, hrefs⟩ := h.locked hl
    obtain rfl := Option.some.inj ht
    have hsame : SameData fs.disk (fs.icache i).toDinode fs.disk
        { (fs.icache i).toDinode with major := major, minor := minor, nlink := nlink } :=
      ⟨⟨rfl, fun _ _ => rfl⟩, rfl, rfl⟩
    have htype : (fs.icache i).type ≠ 0 := by
      rw [← (hs.shadow hl.2).type]
      exact hs.used hl.2
    refine h.iupdate i { fs.icache i with major := major, minor := minor, nlink := nlink }
      hs.inum (fun j hj => h.alone hl.1 hj) htype ⟨hb.le, hsame.wf hb.wf⟩ fun b => ?_
    rw [and_iff_right (hs.used hl.2), hrefs b]
    exact hsame.isRef hb.wf
  · cases ht

/-- A free inode marked on the disk; no valid slot caches it. -/
theorem FsInv.mark {inum : Nat} (h : FsInv fs) (ip : Dinode) (hinum : inum < sbNinodes fs.disk)
    (hfree : (dinode fs.disk inum).type = 0) (hs : ip.size = 0) (ha : ip.addrs = fun _ => 0) :
    FsInv { fs with disk := setDinode fs.disk inum ip } := by
  have hhigh := sameHigh_setDinode hinum ip
  refine ⟨h.files.setDinode hinum (fun _ => blocks_empty hs ha) fun b => ?_, fun j href => ?_,
    h.unique⟩
  · exact iff_of_false (fun hr => not_refs_empty hs b hr.2) fun hr => hr.1 hfree
  · have hslot := h.slots j href
    have hne : (fs.icache j).valid = true → (fs.icache j).inum ≠ inum := fun hv he =>
      hslot.used hv (he ▸ hfree)
    refine ⟨?_, fun hv => ?_, fun hv => ?_⟩
    · exact (sbNinodes_eq hhigh.sb).symm ▸ hslot.inum
    · rw [dinode_setDinode, if_neg (hne hv)]
      exact hslot.used hv
    · rw [dinode_setDinode, if_neg (hne hv)]
      exact hslot.shadow hv

theorem FsInv.alloc {type : BitVec 16} (h : FsInv fs)
    (ht : Fs.step dev fs (.alloc type) = some t) : FsInv t := by
  rw [Fs.step] at ht
  split at ht
  · obtain ⟨⟨i, t'⟩, halloc, rfl⟩ := Option.map_eq_some_iff.mp ht
    obtain ⟨inum, hinum, hfree, hget⟩ := ialloc_cases halloc
    refine (h.mark ⟨type, 0, 0, 0, 0, fun _ => 0⟩ hinum hfree rfl rfl).iget
      ?_ hget
    exact (sbNinodes_eq (sameHigh_setDinode hinum _).sb).symm ▸ hinum
  · cases ht

/-- A call of `writei` that finds room: nothing happens, or it is accepted. -/
theorem writei_cases {r : Int} {d' : Disk} {ip' : Inode} {off n : BitVec 32} (dev : Devsw)
    (src : Nat → Byte) (hd : Image d) (h : Blocks d ip.toDinode) (hinum : ip.inum < sbNinodes d)
    (hfit : Fits d ip off n) (hw : writei dev d ip src off n = some (r, d', ip')) :
    (d' = d ∧ ip' = ip) ∨ Rewrote d ip off.toNat (min n.toNat (maxsize - off.toNat)) src d' ip' := by
  by_cases hdev : ip.type = tDev
  · rw [writei, if_pos hdev] at hw
    split at hw
    · cases hw
      exact .inl ⟨rfl, rfl⟩
    · cases hw
      exact .inl ⟨rfl, rfl⟩
  · by_cases hok : off.toNat ≤ ip.size.toNat ∧ off.toNat + n.toNat < 2 ^ 32
    · obtain ⟨d₁, ip₁, hwrite, heff⟩ := writei_effect dev src hd h hdev hinum hok.1 hok.2 rfl
        (hfit hdev hok.1 hok.2)
      rw [hwrite] at hw
      cases hw
      exact .inr heff
    · rw [writei_refused hdev hok] at hw
      cases hw
      exact .inl ⟨rfl, rfl⟩

/-- The bookkeeping after an accepted call. -/
theorem FsInv.rewrote {off m : Nat} {src : Nat → Byte} (h : FsInv fs) (hl : Locked fs i)
    (hw : Rewrote fs.disk (fs.icache i) off m src d ip) : FsInv (fs.put d i ip) := by
  obtain ⟨hs, hb, hrefs⟩ := h.locked hl
  have hinum : ip.inum = (fs.icache i).inum := by rw [hw.rest]
  have htype : ip.type = (fs.icache i).type := by rw [hw.rest]
  have hshadow := hw.shadow (hs.shadow hl.2)
  have hused : (dinode d (fs.icache i).inum).type ≠ 0 := by
    rw [hshadow.type, htype, ← (hs.shadow hl.2).type]
    exact hs.used hl.2
  have hblocks := hshadow.blocks hw.blocks
  have hmine : ∀ b, Refs d ip.toDinode b → b < sbSize fs.disk := fun b hb => by
    rw [← sbSize_eq hw.sb]
    exact (hw.blocks.wf.isRef_taken hb).1.2
  -- blocks of other files are not taken
  have hother : ∀ j b, j ≠ (fs.icache i).inum → j < sbNinodes fs.disk →
      (dinode fs.disk j).type ≠ 0 → Refs fs.disk (dinode fs.disk j) b →
      ¬ Refs d ip.toDinode b := fun j b hj hjn ht hr hmem => by
    rcases hw.fresh b (hmine b hmem) hmem with hold | hfree
    · exact hj (h.files.apart j _ b hjn hs.inum ht (hs.used hl.2) hr ((hrefs b).mpr hold))
    · rw [((h.files.blocks j hjn ht).wf.isRef_taken hr).2] at hfree
      cases hfree
  refine h.put (h.files.replace (i := (fs.icache i).inum) hw.image hw.sb hw.others
    (fun _ => hblocks) (fun j b hj hjn ht hr => ?_) fun b hbd hu => ?_) hw.sb ?_ (fun _ => ?_) ?_
  · have htaken := (h.files.blocks j hjn ht).wf.isRef_taken hr
    have hno := hother j b hj hjn ht hr
    refine ⟨hw.data b htaken.1.1 hno, (hw.used b htaken.1.2).mpr (.inl htaken.2), fun hown => ?_⟩
    exact hno ((hshadow.refs b).mp hown.2)
  · rcases (hw.used b hbd.2).mp hu with hu | hr
    · obtain ⟨j, hjn, ht, hr⟩ := h.files.used b hbd hu
      by_cases hj : j = (fs.icache i).inum
      · subst hj
        exact .inr ⟨hs.inum, hused, (hshadow.refs b).mpr (hw.keeps b ((hrefs b).mp hr))⟩
      · exact .inl ⟨j, hj, hjn, ht, hr⟩
    · exact .inr ⟨hs.inum, hused, (hshadow.refs b).mpr hr⟩
  · rw [hinum]
    exact hw.others
  · refine ⟨?_, fun _ => ?_, fun _ => ?_⟩
    · rw [hinum, sbNinodes_eq hw.sb]
      exact hs.inum
    · rw [hinum]
      exact hused
    · rw [hinum]
      exact hshadow
  · rw [hinum]
    exact fun j hj => h.alone hl.1 hj

theorem FsInv.write {off n : BitVec 32} {src : Nat → Byte} (h : FsInv fs)
    (hfit : Fits fs.disk (fs.icache i) off n)
    (ht : Fs.step dev fs (.write i off n src) = some t) : FsInv t := by
  rw [Fs.step] at ht
  split at ht
  · rename_i hl
    obtain ⟨⟨r, d, ip⟩, hwrite, rfl⟩ := Option.map_eq_some_iff.mp ht
    rcases writei_cases dev src h.files.image (h.locked hl).2.1 (h.locked hl).1.inum hfit hwrite with
      ⟨rfl, rfl⟩ | hw
    · exact h.put h.files rfl (fun _ _ _ => rfl) (h.slots i) fun j hj => h.alone hl.1 hj
    · exact h.rewrote hl hw
  · cases ht

/-- The calls of `bfree` that free a locked inode. -/
theorem FsInv.truncOk_iff (h : FsInv fs) (hl : Locked fs i) :
    TruncOk fs.disk (fs.icache i) ↔
      ((fs.icache i).type = tChecked → Untagged fs.disk (fs.icache i).toDinode) := by
  have hwf := (h.locked hl).2.1.wf
  have hsmall := h.files.image.small
  rw [Untagged, ← argsRight_iff hsmall hwf]
  exact ⟨fun hok => hok.argsRight hsmall hwf, fun ha => (itrunc_spec hwf ha).1⟩

theorem FsInv.release (h : FsInv fs) (hrel : Releases fs i)
    (hok : (fs.icache i).type = tChecked → Untagged fs.disk (fs.icache i).toDinode)
    (hput : iput fs i = some t) : FsInv t := by
  have hl : Locked fs i := ⟨by rw [hrel.1]; exact Nat.one_pos, hrel.2.1⟩
  obtain ⟨hs, hb, hrefs⟩ := h.locked hl
  obtain ⟨-, l, d, htrunc, hf, hmem⟩ := itrunc_spec hb.wf
    ((argsRight_iff h.files.image.small hb.wf).mpr hok)
  obtain ⟨hfiles, hsb, hothers⟩ := free_inode h.files (fs.icache i).cleared.toDinode
    { (fs.icache i).cleared.toDinode with type := 0 } hs.inum hf
    (fun b => (hmem b).trans (hrefs b).symm) (hs.used hl.2) rfl rfl
  rw [iput] at hput
  simp only [show (fs.icache i).ref = 1 ∧ (fs.icache i).valid = true ∧ (fs.icache i).nlink = 0 from hrel,
    if_true, and_self, htrunc, Option.map_some, Option.some.injEq] at hput
  rw [← hput]
  refine h.put hfiles hsb hothers (fun href => absurd href ?_) fun j hj => h.alone hl.1 hj
  simp [Inode.cleared, hrel.1]

/-! ## Runs -/

theorem step_inv {op : Op} (h : FsInv fs) (hfit : WriteFits fs op) (hok : ReleaseOk fs op)
    (ht : fs.step dev op = some t) : FsInv t := by
  cases op with
  | get inum =>
      rw [Fs.step] at ht
      split at ht
      · obtain ⟨⟨i, t'⟩, hget, rfl⟩ := Option.map_eq_some_iff.mp ht
        exact h.iget (by assumption) hget
      · cases ht
  | lock i => exact h.ilock ht
  | put i =>
      rw [Fs.step] at ht
      split at ht
      · rename_i href
        by_cases hrel : Releases fs i
        · exact h.release hrel (hok hrel) ht
        · exact h.iput_keep href hrel ht
      · cases ht
  | alloc type => exact h.alloc ht
  | update i major minor nlink => exact h.update ht
  | write i off n src => exact h.write hfit ht

/-- The calls of a step, in a state with the bookkeeping right. -/
theorem callsOk_iff {op : Op} (h : FsInv fs) : CallsOk fs op ↔ ReleaseOk fs op := by
  cases op with
  | put i =>
      refine forall_congr' fun hrel => h.truncOk_iff ⟨?_, hrel.2.1⟩
      rw [hrel.1]
      exact Nat.one_pos
  | get _ | lock _ | alloc _ | update _ _ _ _ | write _ _ _ _ => exact Iff.rfl

end

/-! ## A new image -/

theorem mkfs_type {nblocks ninodes size : Nat} {d : Disk} (h : mkfs nblocks ninodes size = some d)
    (hs : size ≤ 2 ^ 24) {i : Nat} (hi : i < sbNinodes d) : (dinode d i).type = 0 := by
  obtain ⟨hsum, hused, hd⟩ := mkfs_some h
  have hn : ninodes < 2 ^ 32 := by
    simp only [usedblocks, ipb, bpb] at hsum
    omega
  have h1 : d 1 = superblock nblocks ninodes size := by rw [hd]; rfl
  rw [sbNinodes, h1, (word_superblock nblocks hn (by omega)).2] at hi
  have hne : ¬ iblock i = 1 ∧ ¬ iblock i = ninodes / ipb + 3 := by
    simp only [iblock, ipb]
    omega
  have h0 : d (iblock i) = 0 := by
    rw [hd]
    simp only [if_neg hne.1, if_neg hne.2]
  rw [dinode, h0, getDinode]
  exact BitVec.eq_of_getLsbD_eq fun j _ => by simp [Lib.BitField.field]

/-- The image that `mkfs` makes has no files, and no data block in use. -/
theorem mkfs_consistent {nblocks ninodes size : Nat} {d : Disk}
    (h : mkfs nblocks ninodes size = some d) (hs : size ≤ 2 ^ 24) : Consistent d := by
  have himage := mkfs_image h hs
  refine FileSys.consistent ⟨himage, fun i hi ht => absurd (mkfs_type h hs hi) ht,
    fun i j b hi _ ht => absurd (mkfs_type h hs hi) ht, fun b hb hu => ?_⟩
  obtain ⟨hsum, hused, hd⟩ := mkfs_some h
  have hn : ninodes < 2 ^ 32 := by
    simp only [usedblocks, ipb, bpb] at hsum
    omega
  have h1 : d 1 = superblock nblocks ninodes size := by rw [hd]; rfl
  obtain ⟨hsize, hninodes⟩ := word_superblock nblocks hn (show size < 2 ^ 32 by omega)
  have hstart : dataStart d = usedblocks ninodes size := by
    rw [dataStart, bitmapStart, sbNinodes, sbSize, h1, hninodes, hsize, usedblocks]
  rw [mkfs_inUse h hn (by omega), decide_eq_true_eq] at hu
  have := hb.1
  omega

/-! ## Two runs -/

/-- A file and a checked file are written and freed; the two bytes of the
checked file have the XOR 0. -/
def plainRun : List Op :=
  [.alloc tFile, .lock firstSlot, .update firstSlot 0 0 1, .write firstSlot 0 1 fun _ => 7,
    .alloc tChecked, .lock secondSlot, .update secondSlot 0 0 1, .write secondSlot 0 2 fun _ => 7,
    .update firstSlot 0 0 0, .put firstSlot, .update secondSlot 0 0 0, .put secondSlot]

/-- A checked file with the byte 1 is written and freed. -/
def taggedRun : List Op :=
  [.alloc tChecked, .lock firstSlot, .update firstSlot 0 0 1, .write firstSlot 0 1 fun _ => 1,
    .update firstSlot 0 0 0, .put firstSlot]

instance decidableBfreesOk : (d : Disk) → (l : List Nat) → Decidable (BfreesOk d l)
  | _, [] => .isTrue trivial
  | d, b :: bs =>
      match h : bfree d b with
      | none => decidable_of_iff (b < sbSize d ∧ inUse d b = true)
          ⟨fun hb => ⟨hb, fun _ hd' => absurd (h.symm.trans hd') nofun⟩, fun hall => hall.1⟩
      | some d₁ =>
          have : Decidable (BfreesOk d₁ bs) := decidableBfreesOk d₁ bs
          decidable_of_iff ((b < sbSize d ∧ inUse d b = true) ∧ BfreesOk d₁ bs)
            ⟨fun hb => ⟨hb.1, fun _ hd' => Option.some.inj (h.symm.trans hd') ▸ hb.2⟩,
              fun hall => ⟨hall.1, hall.2 d₁ h⟩⟩

instance (d : Disk) (ip : Inode) : Decidable (TruncOk d ip) :=
  match h : bfreeEach (directCalls ip) d with
  | none => decidable_of_iff (BfreesOk d (directCalls ip))
      ⟨fun hb => ⟨hb, fun _ hd' => absurd (h.symm.trans hd') nofun⟩, fun hall => hall.1⟩
  | some d₁ => decidable_of_iff (BfreesOk d (directCalls ip) ∧ (ip.addr ndirect ≠ 0 →
        BfreesOk d₁ (indirectCalls ip (d₁ ip.ind) ++ [ip.ind])))
      ⟨fun hb => ⟨hb.1, fun _ hd' => Option.some.inj (h.symm.trans hd') ▸ hb.2⟩,
        fun hall => ⟨hall.1, hall.2 d₁ h⟩⟩

instance (fs : Fs) : (op : Op) → Decidable (CallsOk fs op)
  | .put i => inferInstanceAs (Decidable (Releases fs i → TruncOk fs.disk (fs.icache i)))
  | .get _ | .lock _ | .write _ _ _ _ | .alloc _ | .update _ _ _ _ => .isTrue trivial

/-- In runs whose writes find room, the blocks are accounted for and all calls
of `bfree` are in order just when checked files are freed without checksums. -/
theorem accounted_run (dev : Devsw) {d : Disk} {ops : List Op} (hd : Consistent d)
    (hfit : AllSteps (Fs.step dev) WriteFits (boot d) ops) :
    AllStates (Fs.step dev) (fun fs => Accounted fs.disk) (boot d) ops ∧
        AllTried (Fs.step dev) CallsOk (boot d) ops ↔
      AllTried (Fs.step dev) ReleaseOk (boot d) ops :=
  allStates_and_allTried_iff (I := FsInv) (fun _ h => h.files.consistent.accounted)
    (fun _ _ h hok _ => (callsOk_iff h).mp hok) (fun _ _ h => (callsOk_iff h).mpr)
    (fun _ _ _ h hfit hok ht => step_inv h hfit hok ht)
    (boot_inv hd) hfit

theorem accounted_run_plain :
    AllStates (Fs.step noDev) (fun fs => Accounted fs.disk) (boot smallDisk) plainRun ∧
      AllTried (Fs.step noDev) CallsOk (boot smallDisk) plainRun :=
  (accounted_run noDev (mkfs_consistent mkfs_smallDisk (by decide)) (by decide +kernel)).mpr
    (by decide +kernel)

/-- Without the condition: `bfree` is called on the block number with the
checksum in its top byte. -/
theorem tagged_release :
    Consistent smallDisk ∧ AllSteps (Fs.step noDev) WriteFits (boot smallDisk) taggedRun ∧
      ¬ AllTried (Fs.step noDev) CallsOk (boot smallDisk) taggedRun :=
  ⟨mkfs_consistent mkfs_smallDisk (by decide), by decide +kernel, by decide +kernel⟩

end Cs537.CheckedFs
