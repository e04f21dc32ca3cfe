/-
# `Cs537.CheckedFs.Writei` — what `writei` does to the disk

`writei` runs its loop, and then, when the file has grown, writes the inode
back (`writei_spec`, `grow`).  So the inode on the disk is either the one in
the cache, or it is as before: then no block was added, and the two lead to
the same blocks, but the checksums next to the direct pointers may differ
(`Shadows`).  `Rewrote` says all of this about an accepted call.
-/
import Cs537.CheckedFs.Dinodes
import Cs537.CheckedFs.Write

namespace Cs537.CheckedFs

/-! ## The size -/

/-- `MAXFILE*BSIZE`. -/
def maxsize : Nat := maxfile * bsize

/-- The blocks of the inode are those that its size asks for. -/
structure Blocks (d : Disk) (ip : Dinode) : Prop where
  le : ip.size.toNat ≤ maxsize
  wf : Wf d ip (nblk ip.size.toNat) (decide (ndirect < nblk ip.size.toNat))

theorem wf_empty {d : Disk} {ip : Dinode} (h : ip.addrs = fun _ => 0) : Wf d ip 0 false := by
  have haddr : ∀ j, ip.addr j = 0 := fun j => by rw [Dinode.addr, h]
  have hnone : ¬ false = true := Bool.false_ne_true
  have hno : ∀ bn, ¬ bn < 0 := Nat.not_lt_zero
  refine ⟨Nat.zero_le _, fun _ => Nat.zero_le _, fun _ hb => absurd hb (hno _),
    fun hb => absurd hb hnone, fun _ => haddr _, fun bn _ _ hb => ?_,
    fun _ _ hb => absurd hb (hno _), fun _ hb => absurd hb (hno _)⟩
  rw [sumWord_direct _ (hb.resolve_right (by decide)), haddr]

/-- The blocks of an empty inode. -/
theorem blocks_empty {d : Disk} {ip : Dinode} (hs : ip.size = 0) (ha : ip.addrs = fun _ => 0) : Blocks d ip := by
  have h0 : ip.size.toNat = 0 := by rw [hs]; rfl
  refine ⟨by rw [h0]; exact Nat.zero_le _, ?_⟩
  rw [h0]
  exact wf_empty ha

/-- The end of `writei`, with the offset at `off`. -/
def grow (d : Disk) (ip : Inode) (off : Nat) : Disk × Inode :=
  if ip.size.toNat < off then
    (iupdate d { ip with size := BitVec.ofNat 32 off }, { ip with size := BitVec.ofNat 32 off })
  else (d, ip)

section

variable {d : Disk} {ip : Inode} {off n : BitVec 32} {dev : Devsw} {src : Nat → Byte}

theorem range_of_accepted (hn : off.toNat + n.toNat < 2 ^ 32) :
    (off + n).toNat = off.toNat + n.toNat := by
  rw [BitVec.toNat_add, Nat.mod_eq_of_lt hn]

/-- The test at the start of `readi` and `writei`. -/
theorem refused_iff : ip.size < off ∨ off + n < off ↔
    ¬ (off.toNat ≤ ip.size.toNat ∧ off.toNat + n.toNat < 2 ^ 32) := by
  have h1 := off.isLt
  have h2 := n.isLt
  rw [BitVec.lt_def, BitVec.lt_def, BitVec.toNat_add]
  omega

theorem writei_refused (hdev : ip.type ≠ tDev)
    (h : ¬ (off.toNat ≤ ip.size.toNat ∧ off.toNat + n.toNat < 2 ^ 32)) :
    writei dev d ip src off n = some (-1, d, ip) := by
  rw [writei, if_neg hdev, if_pos (refused_iff.mpr h)]

theorem writei_spec (dev : Devsw) (src : Nat → Byte) (hd : Image d) (h : Blocks d ip.toDinode) (hdev : ip.type ≠ tDev)
    (hoff : off.toNat ≤ ip.size.toNat) (hn : off.toNat + n.toNat < 2 ^ 32) {m : Nat}
    (hm : m = min n.toNat (maxsize - off.toNat))
    (hroom : blocksFor (nblk (max ip.size.toNat (off.toNat + m)))
      ≤ blocksFor (nblk ip.size.toNat) + freeCount d) :
    ∃ d₁ ip₁, Written d ip (nblk ip.size.toNat) off.toNat m src d₁ ip₁
        (nblk (max ip.size.toNat (off.toNat + m))) ∧
      writei dev d ip src off n = some ((m : Int), grow d₁ ip₁ (off.toNat + m)) := by
  have hle := h.le
  have hms : maxsize = 71680 := rfl
  -- `n` cut off at the largest size
  obtain ⟨n', hn'⟩ : ∃ n', n' = if BitVec.ofNat 32 (maxfile * bsize) < off + n then
    BitVec.ofNat 32 (maxfile * bsize) - off else n := ⟨_, rfl⟩
  have hcap : (BitVec.ofNat 32 (maxfile * bsize)).toNat = maxsize := rfl
  have hn'm : n'.toNat = m := by
    rw [hn', hm]
    by_cases hlt : BitVec.ofNat 32 (maxfile * bsize) < off + n
    · rw [if_pos hlt, BitVec.toNat_sub_of_le (by rw [BitVec.le_def, hcap]; omega), hcap]
      rw [BitVec.lt_def, range_of_accepted hn, hcap] at hlt
      omega
    · rw [if_neg hlt]
      rw [BitVec.lt_def, range_of_accepted hn, hcap] at hlt
      omega
  have hmax : max (nblk ip.size.toNat) (nblk (off.toNat + (n'.toNat - 0)))
      = nblk (max ip.size.toNat (off.toNat + m)) := by
    rw [hn'm]
    simp only [nblk, bsize]
    omega
  obtain ⟨d₁, ip₁, hloop, hw⟩ := writeiLoop_spec n'.toNat src (maxfile + 1) 0 off.toNat
    hd h.wf (by simp only [nblk, bsize]; omega)
    (by rw [hn'm]; change _ ≤ maxsize; omega) (fun _ => Nat.le_add_left _ _) (by omega)
    (by rw [hmax]; exact hroom)
  rw [hmax] at hw
  simp only [hn'm, Nat.sub_zero, Nat.zero_add] at hw hloop
  refine ⟨d₁, ip₁, hw, ?_⟩
  rw [writei, if_neg hdev, if_neg (by rw [refused_iff]; exact fun hno => hno ⟨hoff, hn⟩)]
  simp only [← hn', hn'm, hloop, Option.map_some]
  have hsize : ip₁.size = ip.size := by rw [hw.ext.rest]
  have hoff' : (BitVec.ofNat 32 (off.toNat + m)).toNat = off.toNat + m := by
    rw [BitVec.toNat_ofNat, Nat.mod_eq_of_lt (by omega)]
  have hcond : (0 < n' ∧ ip₁.size < BitVec.ofNat 32 (off.toNat + m)) ↔
      ip₁.size.toNat < off.toNat + m := by
    have h0 : (0 : BitVec 32).toNat = 0 := rfl
    rw [BitVec.lt_def, BitVec.lt_def, hoff', hn'm, hsize, h0]
    omega
  rw [grow]
  by_cases hg : ip₁.size.toNat < off.toNat + m
  · rw [if_pos (hcond.mpr hg), if_pos hg]
  · rw [if_neg (hcond.not.mpr hg), if_neg hg]

end

/-! ## The same file -/

/-- Only low blocks of the disk, and in the inode no pointer, may differ. -/
structure SameData (d : Disk) (ip : Dinode) (d' : Disk) (ip' : Dinode) : Prop where
  high : SameHigh d d'
  type : ip'.type = ip.type
  addrs : ip'.addrs = ip.addrs

section

variable {d d' : Disk} {ip ip' : Dinode} {k : Nat} {ib : Bool}

theorem SameData.addr (h : SameData d ip d' ip') (j : Nat) : ip'.addr j = ip.addr j := by
  rw [Dinode.addr, h.addrs, Dinode.addr]

theorem SameData.ind (h : SameData d ip d' ip') : ip'.ind = ip.ind := by
  rw [Dinode.ind, h.addr, Dinode.ind]

theorem SameHigh.data (h : SameHigh d d') {b : Nat} (hb : IsData d b) : d' b = d b :=
  h.high b ((Nat.le_add_right _ _).trans hb.1)

theorem SameData.sumWord (h : SameData d ip d' ip') (hw : Wf d ip k ib) {bn : Nat}
    (hbn : bn < k ∨ bn < ndirect ∨ ib = true) : ip'.sumWord d' bn = ip.sumWord d bn := by
  have hframe : ip.sumWord d' bn = ip.sumWord d bn :=
    hw.sumWord_frame (fun hib => h.high.data (hw.ind hib).1) hbn
  rw [← hframe]
  by_cases hd : bn < ndirect
  · rw [sumWord_direct _ hd, sumWord_direct _ hd, h.addr]
  · rw [sumWord_indirect _ (by omega), sumWord_indirect _ (by omega), h.ind]

theorem SameData.blk (h : SameData d ip d' ip') (hw : Wf d ip k ib) {bn : Nat} (hbn : bn < k) :
    ip'.blk d' bn = ip.blk d bn :=
  blk_congr h.type (h.sumWord hw (.inl hbn))

theorem SameData.wf (h : SameData d ip d' ip') (hw : Wf d ip k ib) : Wf d' ip' k ib := by
  have htaken : ∀ c, Taken d c → Taken d' c := fun c hc =>
    hc.frame h.high.sb ((h.high.inUse c).trans hc.2)
  refine ⟨hw.bound, hw.direct, fun bn hbn => ?_, fun hib => ?_, fun hib => ?_, fun bn h1 h2 h3 => ?_,
    fun bn bn' h1 h2 he => ?_, fun bn hbn hib => ?_⟩
  · rw [h.blk hw hbn]
    exact htaken _ (hw.taken bn hbn)
  · rw [h.ind]
    exact htaken _ (hw.ind hib)
  · rw [h.addr]
    exact hw.noInd hib
  · rw [h.sumWord hw (.inr h3)]
    exact hw.fresh bn h1 h2 h3
  · rw [h.blk hw h1, h.blk hw h2] at he
    exact hw.inj bn bn' h1 h2 he
  · rw [h.blk hw hbn, h.ind]
    exact hw.apart bn hbn hib

theorem SameData.isRef (h : SameData d ip d' ip') (hw : Wf d ip k ib) {b : Nat} :
    IsRef d' ip' k ib b ↔ IsRef d ip k ib b :=
  or_congr (exists_congr fun bn => and_congr_right fun hbn => by rw [h.blk hw hbn])
    (and_congr_right fun _ => by rw [h.ind])

theorem SameData.dataAt (h : SameData d ip d' ip') (hw : Wf d ip k ib) (bn : Nat) :
    dataAt d' ip' k bn = dataAt d ip k bn := by
  rw [CheckedFs.dataAt, CheckedFs.dataAt]
  by_cases hbn : bn < k
  · rw [if_pos hbn, if_pos hbn, h.blk hw hbn]
    exact h.high.data (hw.taken bn hbn).1
  · rw [if_neg hbn, if_neg hbn]

theorem SameData.byteOf (h : SameData d ip d' ip') (hw : Wf d ip k ib) (p : Nat) :
    byteOf d' ip' k p = byteOf d ip k p := by
  rw [CheckedFs.byteOf, h.dataAt hw, CheckedFs.byteOf]

theorem SameData.tagged (h : SameData d ip d' ip') (hw : Wf d ip k ib) :
    Tagged d' ip' k ↔ Tagged d ip k :=
  forall_congr' fun bn => forall_congr' fun hbn => by
    rw [h.sumWord hw (.inl hbn), h.dataAt hw]

end

theorem grow_sameData {d : Disk} {ip : Inode} (hi : ip.inum < sbNinodes d) (off : Nat) :
    SameData d ip.toDinode (grow d ip off).1 (grow d ip off).2.toDinode := by
  rw [grow]
  by_cases hg : ip.size.toNat < off
  · rw [if_pos hg]
    exact ⟨sameHigh_setDinode hi _, rfl, rfl⟩
  · rw [if_neg hg]
    exact ⟨⟨rfl, fun _ _ => rfl⟩, rfl, rfl⟩

theorem grow_snd (d : Disk) (ip : Inode) (off : Nat) (hoff : off < 2 ^ 32) :
    (grow d ip off).2 = { ip with size := (grow d ip off).2.size } ∧
      (grow d ip off).2.size.toNat = max ip.size.toNat off := by
  rw [grow]
  by_cases hg : ip.size.toNat < off
  · rw [if_pos hg]
    refine ⟨rfl, ?_⟩
    simp only [BitVec.toNat_ofNat, Nat.mod_eq_of_lt hoff]
    omega
  · rw [if_neg hg]
    exact ⟨rfl, (Nat.max_eq_left (Nat.le_of_not_lt hg)).symm⟩

/-! ## The inode on the disk -/

/-- `dip` is `ip`, up to the checksums next to the direct pointers. -/
structure Shadows (dip ip : Dinode) : Prop where
  rest : dip = { ip with addrs := dip.addrs }
  blockno : ∀ j, j < ndirect → ip.blockno (dip.addr j) = ip.blockno (ip.addr j)
  zero : ∀ j, j < ndirect → (dip.addr j = 0 ↔ ip.addr j = 0)
  ind : dip.addr ndirect = ip.addr ndirect

theorem Shadows.refl (ip : Dinode) : Shadows ip ip := ⟨rfl, fun _ _ => rfl, fun _ _ => Iff.rfl, rfl⟩

theorem Shadows.type {dip ip : Dinode} (h : Shadows dip ip) : dip.type = ip.type := by rw [h.rest]

theorem Dinode.blockno_congr {ip ip' : Dinode} (h : ip'.type = ip.type) (w : BitVec 32) :
    ip'.blockno w = ip.blockno w := by
  rw [Dinode.blockno, h, Dinode.blockno]

theorem Shadows.trans {ip ip' ip'' : Dinode} (h : Shadows ip ip') (h' : Shadows ip' ip'') :
    Shadows ip ip'' where
  rest := by rw [h.rest, h'.rest]
  blockno j hj := by
    rw [← Dinode.blockno_congr h'.type, h.blockno j hj, Dinode.blockno_congr h'.type,
      h'.blockno j hj]
  zero j hj := (h.zero j hj).trans (h'.zero j hj)
  ind := h.ind.trans h'.ind

theorem Shadows.symm {dip ip : Dinode} (h : Shadows dip ip) : Shadows ip dip where
  rest := by rw [h.rest]
  blockno j hj := by
    rw [Dinode.blockno_congr h.type, Dinode.blockno_congr h.type, h.blockno j hj]
  zero j hj := (h.zero j hj).symm
  ind := h.ind.symm

section

variable {d : Disk} {dip ip : Dinode} {k : Nat} {ib : Bool}

theorem Shadows.blk (h : Shadows dip ip) (d : Disk) (bn : Nat) : dip.blk d bn = ip.blk d bn := by
  rw [Dinode.blk, Dinode.blk, Dinode.blockno_congr h.type]
  by_cases hd : bn < ndirect
  · rw [sumWord_direct _ hd, sumWord_direct _ hd, h.blockno bn hd]
  · rw [sumWord_indirect _ (by omega), sumWord_indirect _ (by omega), Dinode.ind, h.ind, Dinode.ind]

theorem Shadows.wf (h : Shadows dip ip) (hw : Wf d ip k ib) : Wf d dip k ib := by
  have hind : dip.ind = ip.ind := by rw [Dinode.ind, h.ind, Dinode.ind]
  refine ⟨hw.bound, hw.direct, fun bn hbn => ?_, fun hib => ?_, fun hib => ?_, fun bn h1 h2 h3 => ?_,
    fun bn bn' h1 h2 he => ?_, fun bn hbn hib => ?_⟩
  · rw [h.blk]
    exact hw.taken bn hbn
  · rw [hind]
    exact hw.ind hib
  · rw [h.ind]
    exact hw.noInd hib
  · have h0 := hw.fresh bn h1 h2 h3
    by_cases hd : bn < ndirect
    · rw [sumWord_direct _ hd] at h0 ⊢
      exact (h.zero bn hd).mpr h0
    · rw [sumWord_indirect _ (by omega)] at h0 ⊢
      rwa [hind]
  · rw [h.blk, h.blk] at he
    exact hw.inj bn bn' h1 h2 he
  · rw [h.blk, hind]
    exact hw.apart bn hbn hib

/-- A write that adds no block. -/
theorem Written.shadows {d' : Disk} {ip ip' : Inode} {off m : Nat} {src : Nat → Byte}
    (hw : Wf d ip.toDinode k (decide (ndirect < k))) (h : Written d ip k off m src d' ip' k) :
    Shadows ip.toDinode ip'.toDinode := by
  have hrest := h.ext.rest
  have htype : ip'.type = ip.type := by rw [hrest]
  have hm : maxfile = 140 := rfl
  have h12 : ndirect = 12 := rfl
  have hpast : ∀ j, j < ndirect → k ≤ j → ip.addr j = 0 ∧ ip'.addr j = 0 := fun j hj hk => by
    rw [← sumWord_direct d hj, ← sumWord_direct d' hj]
    exact ⟨hw.fresh j hk (by omega) (.inl hj), h.wf.fresh j hk (by omega) (.inl hj)⟩
  refine ⟨by rw [hrest], fun j hj => ?_, fun j hj => ?_, ?_⟩
  · by_cases hk : j < k
    · have hblk := h.ext.blk j hk
      rw [Dinode.blk, Dinode.blk, sumWord_direct _ hj, sumWord_direct _ hj] at hblk
      rw [Dinode.blockno_congr htype (ip.addr j)]
      exact (BitVec.eq_of_toNat_eq hblk).symm
    · obtain ⟨h1, h2⟩ := hpast j hj (by omega)
      rw [h1, h2]
  · by_cases hk : j < k
    · rw [← sumWord_direct d hj, ← sumWord_direct d' hj]
      exact iff_of_false (hw.sumWord_ne_zero hk) (h.wf.sumWord_ne_zero hk)
    · obtain ⟨h1, h2⟩ := hpast j hj (by omega)
      rw [h1, h2]
  · by_cases hk : ndirect < k
    · exact (BitVec.eq_of_toNat_eq (h.ext.ind (decide_eq_true hk))).symm
    · rw [hw.noInd (decide_eq_false hk), h.wf.noInd (decide_eq_false hk)]

end

/-! ## An accepted call -/

/-- The blocks of an inode with the blocks that its size asks for. -/
def Refs (d : Disk) (ip : Dinode) (b : Nat) : Prop :=
  IsRef d ip (nblk ip.size.toNat) (decide (ndirect < nblk ip.size.toNat)) b

theorem Shadows.blocks {d : Disk} {dip ip : Dinode} (h : Shadows dip ip) (hb : Blocks d ip) :
    Blocks d dip := by
  have hsize : dip.size = ip.size := by rw [h.rest]
  refine ⟨?_, ?_⟩
  · rw [hsize]
    exact hb.le
  · rw [hsize]
    exact h.wf hb.wf

theorem Shadows.refs {d : Disk} {dip ip : Dinode} (h : Shadows dip ip) (b : Nat) :
    Refs d dip b ↔ Refs d ip b := by
  have hsize : dip.size = ip.size := by rw [h.rest]
  have hind : dip.ind = ip.ind := by rw [Dinode.ind, h.ind, Dinode.ind]
  simp only [Refs, IsRef, hsize, hind, h.blk]

/-- `m` bytes written at `off`. -/
structure Rewrote (d : Disk) (ip : Inode) (off m : Nat) (src : Nat → Byte) (d' : Disk)
    (ip' : Inode) : Prop where
  image : Image d'
  sb : d' 1 = d 1
  blocks : Blocks d' ip'.toDinode
  rest : ip' = { ip with size := ip'.size, addrs := ip'.addrs }
  size : ip'.size.toNat = max ip.size.toNat (off + m)
  others : ∀ i, i ≠ ip.inum → i < sbNinodes d → dinode d' i = dinode d i
  own : dinode d' ip.inum = ip'.toDinode ∨
    dinode d' ip.inum = dinode d ip.inum ∧ Shadows ip.toDinode ip'.toDinode
  bytes : ∀ p, byteOf d' ip'.toDinode (nblk ip'.size.toNat) p =
    if off ≤ p ∧ p < off + m then src (p - off)
    else byteOf d ip.toDinode (nblk ip.size.toNat) p
  tags : ip.type = tChecked → Tagged d ip.toDinode (nblk ip.size.toNat) →
    Tagged d' ip'.toDinode (nblk ip'.size.toNat)
  free : freeCount d' + blocksFor (nblk ip'.size.toNat)
    = freeCount d + blocksFor (nblk ip.size.toNat)
  data : ∀ b, dataStart d ≤ b → ¬ Refs d' ip'.toDinode b → d' b = d b
  used : ∀ b, b < sbSize d → (inUse d' b = true ↔ inUse d b = true ∨ Refs d' ip'.toDinode b)
  keeps : ∀ b, Refs d ip.toDinode b → Refs d' ip'.toDinode b
  fresh : ∀ b, b < sbSize d → Refs d' ip'.toDinode b → Refs d ip.toDinode b ∨ inUse d b = false

theorem Rewrote.shadow {d d' : Disk} {ip ip' : Inode} {off m : Nat} {src : Nat → Byte}
    (h : Rewrote d ip off m src d' ip') (hs : Shadows (dinode d ip.inum) ip.toDinode) :
    Shadows (dinode d' ip.inum) ip'.toDinode := by
  rcases h.own with hown | ⟨hown, hsh⟩
  · rw [hown]
    exact Shadows.refl _
  · rw [hown]
    exact hs.trans hsh

theorem writei_effect {d : Disk} {ip : Inode} {off n : BitVec 32} (dev : Devsw)
    (src : Nat → Byte) (hd : Image d) (h : Blocks d ip.toDinode) (hdev : ip.type ≠ tDev)
    (hinum : ip.inum < sbNinodes d) (hoff : off.toNat ≤ ip.size.toNat)
    (hn : off.toNat + n.toNat < 2 ^ 32) {m : Nat} (hm : m = min n.toNat (maxsize - off.toNat))
    (hroom : blocksFor (nblk (max ip.size.toNat (off.toNat + m)))
      ≤ blocksFor (nblk ip.size.toNat) + freeCount d) :
    ∃ d' ip', writei dev d ip src off n = some ((m : Int), d', ip') ∧
      Rewrote d ip off.toNat m src d' ip' := by
  obtain ⟨d₁, ip₁, hw, hwrite⟩ := writei_spec dev src hd h hdev hoff hn hm hroom
  have hle := h.le
  have hms : maxsize = 71680 := rfl
  have hrest := hw.ext.rest
  have hinum₁ : ip₁.inum < sbNinodes d₁ := by
    rw [sbNinodes_eq hw.ext.same.sb, hrest]
    exact hinum
  have hsame := grow_sameData hinum₁ (off.toNat + m)
  obtain ⟨hgrow, hsize⟩ := grow_snd d₁ ip₁ (off.toNat + m) (by omega)
  have hsz : ip₁.size = ip.size := by rw [hrest]
  rw [hsz] at hsize
  have href : ∀ b, Refs (grow d₁ ip₁ (off.toNat + m)).1 (grow d₁ ip₁ (off.toNat + m)).2.toDinode b ↔
      IsRef d₁ ip₁.toDinode (nblk (max ip.size.toNat (off.toNat + m)))
        (decide (ndirect < nblk (max ip.size.toNat (off.toNat + m)))) b := fun b => by
    rw [Refs, hsize]
    exact hsame.isRef hw.wf
  refine ⟨(grow d₁ ip₁ (off.toNat + m)).1, (grow d₁ ip₁ (off.toNat + m)).2, hwrite,
    ⟨?_, ?_, ⟨?_, ?_⟩, ?_, hsize, fun i hne hi => ?_, ?_, fun p => ?_, fun hc ht => ?_, ?_,
      fun b hb hno => ?_, fun b hb => ?_, fun b hr => ?_, fun b hb hr => ?_⟩⟩
  · exact hsame.high.image (hw.ext.image hd)
  · rw [hsame.high.sb, hw.ext.same.sb]
  · rw [hsize]
    omega
  · rw [hsize]
    exact hsame.wf hw.wf
  · rw [hgrow, hrest]
  · have hne₁ : i ≠ ip₁.inum := by rwa [hrest]
    rw [← hw.ext.same.dinode hi, grow]
    split
    · rw [iupdate, dinode_setDinode, if_neg hne₁]
    · rfl
  · rw [grow]
    by_cases hg : ip₁.size.toNat < off.toNat + m
    · rw [if_pos hg]
      refine .inl ?_
      rw [iupdate, dinode_setDinode, if_pos (by rw [hrest])]
    · have hk : nblk (max ip.size.toNat (off.toNat + m)) = nblk ip.size.toNat := by
        rw [← hsz, Nat.max_eq_left (by omega)]
      rw [hk] at hw
      rw [if_neg hg]
      exact .inr ⟨hw.ext.same.dinode hinum, hw.shadows h.wf⟩
  · rw [hsize, hsame.byteOf hw.wf, hw.bytes]
  · rw [hsize, hsame.tagged hw.wf]
    exact hw.tags hc ht
  · rw [hsame.high.freeCount, hsize]
    exact hw.ext.freeCount_eq h.wf hw.wf
  · rw [href] at hno
    rw [hsame.high.high b, hw.ext.data b hb hno]
    rw [bitmapStart_eq hw.ext.same.sb]
    exact (Nat.le_add_right _ _).trans hb
  · rw [hsame.high.inUse, hw.ext.used b hb, href]
  · rw [href]
    exact hw.ext.isRef hr
  · rw [href] at hr
    exact hw.ext.fresh b hb hr

end Cs537.CheckedFs
