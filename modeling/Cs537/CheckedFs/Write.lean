/-
# `Cs537.CheckedFs.Write` — the loops of `writei` and `readi`

One turn of the loop of `writei` changes one block of the file, or adds the
next one (`writeBlock_spec`); the whole loop changes a range of bytes
(`writeiLoop_spec`).  The loop of `readi` changes nothing (`readiLoop_spec`).

The bytes of a file with `k` blocks are `byteOf d ip k p`, zero from the byte
`bsize * k` on.  `Tagged`: next to each pointer stands the checksum of its
block.
-/
import Cs537.CheckedFs.Tree

namespace Cs537.CheckedFs

open Cs537.Lib.BitField

/-! ## Writing a block -/

section Write

variable {d d' : Disk} {ip ip' : Inode} {k : Nat} {ib : Bool}

/-- The same blocks under other words. -/
theorem Wf.relabel (h : Wf d ip.toDinode k ib) (haddr : ip'.addr ndirect = ip.addr ndirect)
    (hsb : d' 1 = d 1) (huse : ∀ c, c < sbSize d → inUse d' c = inUse d c)
    (hblk : ∀ bn, bn < k → ip'.blk d' bn = ip.blk d bn)
    (hfresh : ∀ bn, k ≤ bn → bn < ndirect ∨ ib = true → ip'.sumWord d' bn = ip.sumWord d bn) :
    Wf d' ip'.toDinode k ib := by
  have hind : ip'.ind = ip.ind := by rw [Dinode.ind, haddr, Dinode.ind]
  have htaken : ∀ c, Taken d c → Taken d' c := fun c hc =>
    hc.frame hsb ((huse c hc.1.2).trans hc.2)
  refine ⟨h.bound, h.direct, fun bn hbn => ?_, fun hib => ?_, fun hib => ?_, fun bn h1 h2 h3 => ?_,
    fun bn bn' h1 h2 he => ?_, fun bn hbn hib => ?_⟩
  · rw [hblk bn hbn]
    exact htaken _ (h.taken bn hbn)
  · rw [hind]
    exact htaken _ (h.ind hib)
  · rw [haddr]
    exact h.noInd hib
  · rw [hfresh bn h1 h3]
    exact h.fresh bn h1 h2 h3
  · rw [hblk bn h1, hblk bn' h2] at he
    exact h.inj bn bn' h1 h2 he
  · rw [hblk bn hbn, hind]
    exact h.apart bn hbn hib

theorem Ext.relabel (h : Wf d ip.toDinode k ib) (hsame : SameLow d d')
    (hrest : ip' = { ip with addrs := ip'.addrs })
    (hind : ip'.ind = ip.ind) (huse : ∀ c, c < sbSize d → inUse d' c = inUse d c)
    (hblk : ∀ bn, bn < k → ip'.blk d' bn = ip.blk d bn)
    (hdata : ∀ c, dataStart d ≤ c → ¬ IsRef d ip.toDinode k ib c → d' c = d c) :
    Ext d ip k ib d' ip' k ib := by
  have href : ∀ c, IsRef d' ip'.toDinode k ib c ↔ IsRef d ip.toDinode k ib c := fun c =>
    or_congr (exists_congr fun bn => and_congr_right fun hbn => by rw [hblk bn hbn])
      (and_congr_right fun _ => by rw [hind])
  refine ⟨hsame, le_rfl, id, hrest, hblk, fun _ => hind, fun c hc hno => ?_, fun c hc => ?_,
    fun c _ hr => .inl ((href c).mp hr)⟩
  · exact hdata c hc ((href c).not.mp hno)
  · rw [huse c hc, href]
    exact ⟨.inl, fun hu => hu.elim id fun hr => (h.isRef_taken hr).2⟩

/-- Storing a checksum changes the tag of one pointer. -/
structure Retagged (d : Disk) (ip : Inode) (k : Nat) (ib : Bool) (bn : Nat) (sum : Byte)
    (d' : Disk) (ip' : Inode) : Prop where
  wf : Wf d' ip'.toDinode k ib
  ext : Ext d ip k ib d' ip' k ib
  words : ∀ j, j < k → ip'.sumWord d' j =
    if j = bn then retag (ip.sumWord d bn) sum else ip.sumWord d j
  data : ∀ c, dataStart d ≤ c → (ib = true → c ≠ ip.ind) → d' c = d c

theorem storeSum_spec (h : Wf d ip.toDinode k ib) (hc : ip.type = tChecked) {bn : Nat}
    (hbn : bn < k) (bp : Block) :
    Retagged d ip k ib bn (xorBytes bp) (storeSum d ip bn bp).1 (storeSum d ip bn bp).2 := by
  have hbound := h.bound
  have hm : maxfile = 140 := rfl
  by_cases hdir : bn < ndirect
  · have hdir' : bn < 12 := hdir
    have hst : storeSum d ip bn bp = (d, ip.setAddr bn (retag (ip.addr bn) (xorBytes bp))) :=
      if_pos hdir
    rw [hst]
    have hwords : ∀ j, (ip.setAddr bn (retag (ip.addr bn) (xorBytes bp))).sumWord d j =
        if j = bn then retag (ip.sumWord d bn) (xorBytes bp) else ip.sumWord d j := fun j => by
      rw [sumWord_setAddr hdir, sumWord_direct _ hdir]
    have haddr : (ip.setAddr bn (retag (ip.addr bn) (xorBytes bp))).addr ndirect
        = ip.addr ndirect :=
      setAddr_addr_ne ip _ (by omega) (show ndirect < 13 by decide) (show ndirect ≠ bn by omega)
    have hblk : ∀ j, j < k → (ip.setAddr bn (retag (ip.addr bn) (xorBytes bp))).blk d j
        = ip.blk d j := fun j _ => by
      have ht : (ip.setAddr bn (retag (ip.addr bn) (xorBytes bp))).type = tChecked := hc
      rw [Dinode.blk, Dinode.blk, Dinode.blockno, Dinode.blockno, if_pos ht, if_pos hc, hwords]
      split
      · rename_i he
        rw [he, mask24_retag]
      · rfl
    exact ⟨h.relabel haddr rfl (fun _ _ => rfl) hblk fun j h1 _ => by rw [hwords, if_neg (by omega)],
      Ext.relabel h (SameLow.refl d) rfl (by rw [Dinode.ind, haddr, Dinode.ind]) (fun _ _ => rfl)
        hblk fun _ _ _ => rfl,
      fun j _ => hwords j, fun _ _ _ => rfl⟩
  · have hib : ib = true := (h.low_or_ind hbn).resolve_left hdir
    have hindD := (h.ind hib).1
    have hst : storeSum d ip bn bp = (Function.update d ip.ind (setWord (d ip.ind) (bn - ndirect)
        (retag (ip.sumWord d bn) (xorBytes bp))), ip) := by
      rw [sumWord_indirect _ (by omega)]
      exact if_neg hdir
    rw [hst]
    have hwords : ∀ j, ip.sumWord (Function.update d ip.ind (setWord (d ip.ind) (bn - ndirect)
        (retag (ip.sumWord d bn) (xorBytes bp)))) j =
        if j = bn then retag (ip.sumWord d bn) (xorBytes bp) else ip.sumWord d j := fun j =>
      sumWord_setWord (by omega) (by omega) _ d j
    have hblk : ∀ j, j < k → ip.blk (Function.update d ip.ind (setWord (d ip.ind) (bn - ndirect)
        (retag (ip.sumWord d bn) (xorBytes bp)))) j = ip.blk d j := fun j _ => by
      rw [Dinode.blk, Dinode.blk, Dinode.blockno, Dinode.blockno, if_pos hc, hwords, if_pos hc]
      split
      · rename_i he
        rw [he, mask24_retag]
      · rfl
    have huse : ∀ c, c < sbSize d → inUse (Function.update d ip.ind (setWord (d ip.ind)
        (bn - ndirect) (retag (ip.sumWord d bn) (xorBytes bp)))) c = inUse d c := fun c hc =>
      inUse_update_data hindD _ hc
    refine ⟨h.relabel rfl (sameLow_update hindD _).sb huse hblk fun j h1 _ => by
        rw [hwords, if_neg (by omega)],
      Ext.relabel h (sameLow_update hindD _) rfl rfl huse hblk fun c _ hno => ?_,
      fun j _ => hwords j, fun c _ hne => ?_⟩
    · exact Function.update_of_ne (fun he => hno (.inr ⟨hib, he⟩)) _ _
    · exact Function.update_of_ne (hne hib) _ _

/-- Writing a data block of the file. -/
theorem putData_spec (h : Wf d ip.toDinode k ib) {bn : Nat} (hbn : bn < k) (bp : Block) :
    Wf (Function.update d (ip.blk d bn) bp) ip.toDinode k ib ∧
      Ext d ip k ib (Function.update d (ip.blk d bn) bp) ip k ib ∧
      ∀ j, j < k → ip.sumWord (Function.update d (ip.blk d bn) bp) j = ip.sumWord d j := by
  have hbD := (h.taken bn hbn).1
  have hind : ib = true → Function.update d (ip.blk d bn) bp ip.ind = d ip.ind := fun hib =>
    Function.update_of_ne (h.apart bn hbn hib).symm _ _
  have huse : ∀ c, c < sbSize d → inUse (Function.update d (ip.blk d bn) bp) c = inUse d c :=
    fun c hc => inUse_update_data hbD _ hc
  have hwords : ∀ j, j < k → ip.sumWord (Function.update d (ip.blk d bn) bp) j = ip.sumWord d j :=
    fun j hj => h.sumWord_frame hind (.inl hj)
  refine ⟨h.frame (sameLow_update hbD _).sb hind fun c hc =>
      (huse c (h.isRef_taken hc).1.2).trans (h.isRef_taken hc).2,
    Ext.relabel h (sameLow_update hbD _) rfl rfl huse (fun j hj => blk_congr rfl (hwords j hj))
      fun c _ hno => ?_, hwords⟩
  exact Function.update_of_ne (fun he => hno (.inl ⟨bn, hbn, he⟩)) _ _

/-- The data of block `bn`, zero past the end. -/
def dataAt (d : Disk) (ip : Dinode) (k bn : Nat) : Block := if bn < k then d (ip.blk d bn) else 0

/-- What `writeBlock` does to the file. -/
structure Wrote (d : Disk) (ip : Inode) (k bn : Nat) (bp : Block) (d' : Disk) (ip' : Inode)
    (k' : Nat) : Prop where
  wf : Wf d' ip'.toDinode k' (decide (ndirect < k'))
  ext : Ext d ip k (decide (ndirect < k)) d' ip' k' (decide (ndirect < k'))
  data : ∀ j, dataAt d' ip'.toDinode k' j = if j = bn then bp else dataAt d ip.toDinode k j
  words : ∀ j, j < k → (j = bn → ip.type ≠ tChecked) → ip'.sumWord d' j = ip.sumWord d j
  tag : ip.type = tChecked → tag (ip'.sumWord d' bn) = xorBytes bp

/-- After `bmap`: the checksum, then the data. -/
theorem finish_block (h : Wf d ip.toDinode k ib) {bn : Nat} (hbn : bn < k) (bp : Block)
    {r : Disk × Inode}
    (hr : r = if ip.type = tChecked then storeSum d ip bn bp else (d, ip)) :
    Wf (Function.update r.1 (ip.blk d bn) bp) r.2.toDinode k ib ∧
      Ext d ip k ib (Function.update r.1 (ip.blk d bn) bp) r.2 k ib ∧
      (∀ j, dataAt (Function.update r.1 (ip.blk d bn) bp) r.2.toDinode k j
        = if j = bn then bp else dataAt d ip.toDinode k j) ∧
      (∀ j, j < k → (j = bn → ip.type ≠ tChecked) →
        r.2.sumWord (Function.update r.1 (ip.blk d bn) bp) j = ip.sumWord d j) ∧
      (ip.type = tChecked →
        tag (r.2.sumWord (Function.update r.1 (ip.blk d bn) bp) bn) = xorBytes bp) := by
  -- the state between the two writes
  have hmid : Wf r.1 r.2.toDinode k ib ∧ Ext d ip k ib r.1 r.2 k ib ∧
      (∀ j, j < k → (j = bn → ip.type ≠ tChecked) → r.2.sumWord r.1 j = ip.sumWord d j) ∧
      (ip.type = tChecked → tag (r.2.sumWord r.1 bn) = xorBytes bp) ∧
      ∀ c, dataStart d ≤ c → (ib = true → c ≠ ip.ind) → r.1 c = d c := by
    by_cases hc : ip.type = tChecked
    · rw [if_pos hc] at hr
      obtain ⟨h1, h2, h3, h4⟩ := storeSum_spec h hc hbn bp
      rw [← hr] at h1 h2 h3 h4
      refine ⟨h1, h2, fun j hj hne => ?_, fun _ => ?_, h4⟩
      · rw [h3 j hj, if_neg fun he => hne he hc]
      · rw [h3 bn hbn, if_pos rfl, tag_retag]
    · rw [if_neg hc] at hr
      subst hr
      exact ⟨h, Ext.refl h, fun _ _ _ => rfl, fun he => absurd he hc, fun _ _ _ => rfl⟩
  obtain ⟨hwf, hext, hwords, htag, hdata⟩ := hmid
  have hblk : ∀ j, j < k → r.2.blk r.1 j = ip.blk d j := hext.blk
  obtain ⟨h1, h2, h3⟩ := putData_spec hwf hbn bp
  rw [hblk bn hbn] at h1 h2 h3
  refine ⟨h1, hext.trans h2, fun j => ?_, fun j hj hne => (h3 j hj).trans (hwords j hj hne),
    fun hc => by rw [h3 bn hbn, htag hc]⟩
  by_cases hj : j < k
  · have hblk' : r.2.blk (Function.update r.1 (ip.blk d bn) bp) j = ip.blk d j :=
      (h2.blk j hj).trans (hblk j hj)
    rw [dataAt, if_pos hj, hblk', dataAt, if_pos hj]
    by_cases he : j = bn
    · subst he
      rw [Function.update_self, if_pos rfl]
    · have hne : ip.blk d j ≠ ip.blk d bn := fun heq => he (h.inj j bn hj hbn heq)
      rw [Function.update_of_ne hne, if_neg he]
      exact hdata _ (h.taken j hj).1.1 fun hib => h.apart j hj hib
  · rw [dataAt, if_neg hj, dataAt, if_neg hj, if_neg (by omega)]

theorem writeBlock_spec (hd : Image d) (h : Wf d ip.toDinode k (decide (ndirect < k))) {bn : Nat}
    (hbn : bn ≤ k) (hmax : bn < maxfile)
    (hfree : bn = k → (if k = ndirect then 2 else 1) ≤ freeCount d) (change : Block → Block) :
    ∃ d' ip', writeBlock d ip bn change = some (d', ip') ∧
      Wrote d ip k bn (change (dataAt d ip.toDinode k bn)) d' ip' (max k (bn + 1)) := by
  rcases Nat.eq_or_lt_of_le hbn with rfl | hlt
  · obtain ⟨d₁, ip₁, hbmap, hg⟩ := bmap_next hd h hmax (hfree rfl)
    have htype : ip₁.type = ip.type := by rw [hg.ext.rest]
    obtain ⟨r, hr⟩ : ∃ r, r = if ip₁.type = tChecked then storeSum d₁ ip₁ bn (change 0)
      else (d₁, ip₁) := ⟨_, rfl⟩
    obtain ⟨h1, h2, h3, h4, h5⟩ := finish_block hg.wf (Nat.lt_succ_self bn) (change 0) hr
    have hdata : ∀ j, dataAt d₁ ip₁.toDinode (bn + 1) j = dataAt d ip.toDinode bn j := fun j => by
      by_cases hj : j < bn
      · have hj' : j < bn + 1 := by omega
        have hne : decide (ndirect < bn + 1) = true → ip.blk d j ≠ ip₁.ind := fun hib => by
          rw [← hg.ext.blk j hj]
          exact hg.wf.apart j hj' hib
        rw [dataAt, if_pos hj', dataAt, if_pos hj, hg.ext.blk j hj]
        exact hg.data _ (h.taken j hj).1.1 hne
      · by_cases he : j = bn
        · subst he
          rw [dataAt, if_pos (Nat.lt_succ_self j), dataAt, if_neg hj]
          exact hg.zero
        · rw [dataAt, if_neg (by omega), dataAt, if_neg hj]
    have h0 : dataAt d ip.toDinode bn bn = 0 := if_neg (lt_irrefl bn)
    have hwrite : writeBlock d ip bn change
        = some (Function.update r.1 (ip₁.blk d₁ bn) (change 0), r.2) := by
      rw [writeBlock, hbmap, Option.map_some]
      simp only [hg.zero, hr]
    refine ⟨_, _, hwrite, ?_⟩
    rw [Nat.max_eq_right (Nat.le_succ bn), h0]
    refine ⟨h1, hg.ext.trans h2, fun j => ?_, fun j hj hne => ?_, fun hc => h5 (htype.trans hc)⟩
    · rw [h3 j, hdata j]
    · rw [h4 j (by omega) fun he => htype ▸ hne he, hg.words j hj]
  · obtain ⟨r, hr⟩ : ∃ r, r = if ip.type = tChecked then
      storeSum d ip bn (change (d (ip.blk d bn))) else (d, ip) := ⟨_, rfl⟩
    obtain ⟨h1, h2, h3, h4, h5⟩ := finish_block h hlt (change (d (ip.blk d bn))) hr
    have hwrite : writeBlock d ip bn change
        = some (Function.update r.1 (ip.blk d bn) (change (d (ip.blk d bn))), r.2) := by
      rw [writeBlock, bmap_old h hlt, Option.map_some]
      simp only [hr]
    refine ⟨_, _, hwrite, ?_⟩
    rw [Nat.max_eq_left hlt, dataAt, if_pos hlt]
    exact ⟨h1, h2, h3, h4, h5⟩

/-! ## The loop of `writei` -/

/-- The number of data blocks of a file of this size. -/
def nblk (size : Nat) : Nat := (size + (bsize - 1)) / bsize

/-- The blocks that `k` data blocks take on the disk. -/
def blocksFor (k : Nat) : Nat := k + (decide (ndirect < k)).toNat

def byteOf (d : Disk) (ip : Dinode) (k p : Nat) : Byte := byteAt (dataAt d ip k (p / bsize)) (p % bsize)

def Tagged (d : Disk) (ip : Dinode) (k : Nat) : Prop :=
  ∀ j, j < k → tag (ip.sumWord d j) = xorBytes (dataAt d ip k j)

/-- What the loop does to the file: `m` bytes written at `off`. -/
structure Written (d : Disk) (ip : Inode) (k off m : Nat) (src : Nat → Byte) (d' : Disk)
    (ip' : Inode) (k' : Nat) : Prop where
  wf : Wf d' ip'.toDinode k' (decide (ndirect < k'))
  ext : Ext d ip k (decide (ndirect < k)) d' ip' k' (decide (ndirect < k'))
  bytes : ∀ p, byteOf d' ip'.toDinode k' p =
    if off ≤ p ∧ p < off + m then src (p - off) else byteOf d ip.toDinode k p
  tags : ip.type = tChecked → Tagged d ip.toDinode k → Tagged d' ip'.toDinode k'

theorem Written.nil (h : Wf d ip.toDinode k (decide (ndirect < k))) (off : Nat)
    (src : Nat → Byte) : Written d ip k off 0 src d ip k where
  wf := h
  ext := Ext.refl h
  bytes p := by rw [if_neg (by omega)]
  tags _ := id

theorem Written.trans {d'' : Disk} {ip'' : Inode} {k' k'' off m m' : Nat} {src src' : Nat → Byte}
    (h : Written d ip k off m src d' ip' k')
    (h' : Written d' ip' k' (off + m) m' src' d'' ip'' k'') (hsrc : ∀ i, src' i = src (m + i)) :
    Written d ip k off (m + m') src d'' ip'' k'' where
  wf := h'.wf
  ext := h.ext.trans h'.ext
  bytes p := by
    rw [h'.bytes, h.bytes, hsrc]
    by_cases h1 : off ≤ p ∧ p < off + m
    · rw [if_neg (by omega), if_pos h1, if_pos (by omega)]
    · rw [if_neg h1]
      by_cases h2 : off + m ≤ p ∧ p < off + m + m'
      · rw [if_pos h2, if_pos (by omega)]
        congr 1
        omega
      · rw [if_neg h2, if_neg (by omega)]
  tags hc ht := h'.tags (by rw [h.ext.rest]; exact hc) (h.tags hc ht)

theorem same_block {p off : Nat} (hp : p / bsize = off / bsize) (m : Nat) :
    (off % bsize ≤ p % bsize ∧ p % bsize < off % bsize + m ↔ off ≤ p ∧ p < off + m) ∧
      p % bsize - off % bsize = p - off := by
  simp only [bsize] at *
  omega

/-- One turn: the part of the range that lies in one block. -/
theorem Wrote.written {off m : Nat} {src : Nat → Byte} {k' : Nat}
    (hm : off % bsize + m ≤ bsize)
    (h : Wrote d ip k (off / bsize) (copyIn (dataAt d ip.toDinode k (off / bsize)) (off % bsize) src m)
      d' ip' k') (hk' : ∀ j, j < k' → j < k ∨ j = off / bsize) :
    Written d ip k off m src d' ip' k' where
  wf := h.wf
  ext := h.ext
  bytes p := by
    rw [byteOf, h.data, byteOf]
    by_cases hp : p / bsize = off / bsize
    · obtain ⟨hin, hsub⟩ := same_block hp m
      rw [if_pos hp, byteAt_copyIn _ _ _ hm, hp, hsub]
      simp only [hin]
    · have hout : ¬ (off ≤ p ∧ p < off + m) := by
        simp only [bsize] at hp hm
        omega
      rw [if_neg hp, if_neg hout]
  tags hc ht j hj := by
    rw [h.data j]
    by_cases he : j = off / bsize
    · rw [if_pos he, he, h.tag hc]
    · have hlt : j < k := (hk' j hj).resolve_right he
      rw [if_neg he, h.words j hlt fun he' => absurd he' he, ht j hlt]

theorem blocksFor_mono {k k' : Nat} (h : k ≤ k') : blocksFor k ≤ blocksFor k' := by
  simp only [blocksFor]
  by_cases h1 : ndirect < k
  · simp only [h1, show ndirect < k' by omega, decide_true, Bool.toNat_true]
    omega
  · simp only [h1, decide_false, Bool.toNat_false]
    omega

theorem nblk_mono {s s' : Nat} (h : s ≤ s') : nblk s ≤ nblk s' :=
  Nat.div_le_div_right (by omega)

theorem writeiLoop_spec (n : Nat) (src : Nat → Byte) :
    ∀ (fuel : Nat) {d : Disk} {ip : Inode} {k : Nat} (tot off : Nat), Image d →
      Wf d ip.toDinode k (decide (ndirect < k)) → off ≤ bsize * k →
      off + (n - tot) ≤ maxfile * bsize → (tot < n → maxfile + 1 ≤ off / bsize + fuel) → 1 ≤ fuel →
      blocksFor (max k (nblk (off + (n - tot)))) ≤ blocksFor k + freeCount d →
      ∃ d' ip', writeiLoop n src fuel d ip tot off = some (off + (n - tot), d', ip') ∧
        Written d ip k off (n - tot) (fun i => src (tot + i)) d' ip'
          (max k (nblk (off + (n - tot)))) := by
  intro fuel
  induction fuel with
  | zero =>
      intro d ip k tot off _ _ _ _ _ h1
      omega
  | succ fuel ih =>
      intro d ip k tot off hd h hoff hmax hfuel _ hroom
      rw [writeiLoop]
      by_cases htot : tot < n
      · rw [if_pos htot]
        obtain ⟨m, hm⟩ : ∃ m, m = min (n - tot) (bsize - off % bsize) := ⟨_, rfl⟩
        have hk1 : max k (off / bsize + 1) ≤ max k (nblk (off + (n - tot))) := by
          simp only [nblk, bsize] at *
          omega
        have hroom1 : off / bsize = k → (if k = ndirect then 2 else 1) ≤ freeCount d := fun he => by
          have hmono := blocksFor_mono hk1
          have h12 : ndirect = 12 := rfl
          rw [he, Nat.max_eq_right (Nat.le_succ k)] at hmono
          simp only [blocksFor] at hmono hroom
          by_cases hk : k = ndirect
          · rw [if_pos hk]
            simp only [hk, lt_irrefl, decide_false, Bool.toNat_false, Nat.lt_succ_self, decide_true,
              Bool.toNat_true] at hmono hroom
            omega
          · rw [if_neg hk]
            have heq : decide (ndirect < k + 1) = decide (ndirect < k) := by
              simp only [decide_eq_decide]
              omega
            rw [heq] at hmono
            omega
        obtain ⟨d₁, ip₁, hwrite, hwrote⟩ := writeBlock_spec hd h
          (by simp only [bsize] at *; omega) (by simp only [maxfile, ndirect, nindirect, bsize] at *; omega)
          hroom1 fun data => copyIn data (off % bsize) (fun i => src (tot + i)) m
        have hk : ∀ j, j < max k (off / bsize + 1) → j < k ∨ j = off / bsize := fun j hj => by
          simp only [bsize] at *
          omega
        have hturn : Written d ip k off m (fun i => src (tot + i)) d₁ ip₁
            (max k (off / bsize + 1)) := by
          refine Wrote.written ?_ hwrote hk
          simp only [bsize] at *
          omega
        have hcount := hwrote.ext.freeCount_eq h hwrote.wf
        have hend : off + m + (n - (tot + m)) = off + (n - tot) := by omega
        have hmax' : max (max k (off / bsize + 1)) (nblk (off + m + (n - (tot + m))))
            = max k (nblk (off + (n - tot))) := by
          rw [hend, Nat.max_assoc]
          simp only [nblk, bsize] at *
          omega
        obtain ⟨d', ip', hloop, hw⟩ := ih (tot + m) (off + m) (hwrote.ext.image hd)
          hwrote.wf (by simp only [bsize] at *; omega) (by omega)
          (fun _ => by simp only [bsize] at *; omega)
          (by simp only [maxfile, ndirect, nindirect, bsize] at *; omega)
          (by rw [hmax']; simp only [blocksFor] at hroom ⊢; omega)
        rw [hmax'] at hw
        rw [hend] at hloop
        refine ⟨d', ip', ?_, ?_⟩
        · simp only [← hm, hwrite, Option.bind_some]
          exact hloop
        · have hall := hturn.trans hw fun i => by rw [Nat.add_assoc]
          rwa [show m + (n - (tot + m)) = n - tot by omega] at hall
      · rw [if_neg htot, Nat.sub_eq_zero_of_le (by omega), Nat.add_zero]
        have hk : max k (nblk off) = k := by
          simp only [nblk, bsize] at *
          omega
        rw [hk]
        exact ⟨d, ip, rfl, Written.nil h off _⟩

/-! ## The loop of `readi` -/

/-- The block of byte `p` has the checksum next to its pointer. -/
def Fine (d : Disk) (ip : Dinode) (p : Nat) : Prop :=
  ip.type = tChecked → xorBytes (d (ip.blk d (p / bsize))) = tag (ip.sumWord d (p / bsize))

/-- A turn of the loop inside the blocks of the file. -/
theorem readiLoop_turn {n tot off : Nat} (fuel : Nat) (out : List Byte) (h : Mapped d ip.toDinode k)
    (htot : tot < n) (hbn : off / bsize < k) :
    ∃ out', (Fine d ip.toDinode off → out' = out ++ (List.range (min (n - tot) (bsize - off % bsize))).map
        fun i => byteOf d ip.toDinode k (off + i)) ∧
      (Fine d ip.toDinode off → readiLoop n (fuel + 1) d ip tot off out =
        readiLoop n fuel d ip (tot + min (n - tot) (bsize - off % bsize))
          (off + min (n - tot) (bsize - off % bsize)) out') ∧
      (¬ Fine d ip.toDinode off → readiLoop n (fuel + 1) d ip tot off out = some (-1, out', d, ip)) := by
  have hdata : d (ip.blk d (off / bsize)) = dataAt d ip.toDinode k (off / bsize) := by
    rw [dataAt, if_pos hbn]
  have hbytes : (List.range (min (n - tot) (bsize - off % bsize))).map
      (fun i => byteAt (d (ip.blk d (off / bsize))) (off % bsize + i))
      = (List.range (min (n - tot) (bsize - off % bsize))).map
        fun i => byteOf d ip.toDinode k (off + i) := by
    refine List.map_congr_left fun i hi => ?_
    rw [List.mem_range] at hi
    have hq : (off + i) / bsize = off / bsize := by
      simp only [bsize] at *
      omega
    have hr : (off + i) % bsize = off % bsize + i := by
      simp only [bsize] at *
      omega
    rw [byteOf, hq, hr, hdata]
  refine ⟨out ++ _, fun _ => congrArg (out ++ ·) hbytes, fun hok => ?_, fun hbad => ?_⟩
  · have hcond : ¬ (ip.type = tChecked ∧ xorBytes (d (ip.blk d (off / bsize)))
        ≠ tag (ip.sumWord d (off / bsize))) := fun hc => hc.2 (hok hc.1)
    rw [readiLoop]
    simp only [if_pos htot, h.bmap hbn, Option.bind_some, if_neg hcond]
  · have hcond : ip.type = tChecked ∧ xorBytes (d (ip.blk d (off / bsize)))
        ≠ tag (ip.sumWord d (off / bsize)) := Classical.not_imp.mp hbad
    rw [readiLoop]
    simp only [if_pos htot, h.bmap hbn, Option.bind_some, if_pos hcond]

/-- Inside the blocks of the file every turn finds its block there; with the
checksums next to their pointers the loop delivers the bytes. -/
theorem readiLoop_fine {n : Nat} (h : Mapped d ip.toDinode k) :
    ∀ {fuel tot off : Nat} {out : List Byte}, tot ≤ n → off + (n - tot) ≤ bsize * k →
      (tot < n → maxfile + 1 ≤ off / bsize + fuel) → 1 ≤ fuel →
      (∀ p, off ≤ p → p < off + (n - tot) → Fine d ip.toDinode p) →
      readiLoop n fuel d ip tot off out =
        some ((n : Int), out ++ (List.range (n - tot)).map fun i => byteOf d ip.toDinode k (off + i), d, ip) := by
  intro fuel
  induction fuel with
  | zero =>
      intro tot off out _ _ _ h1
      omega
  | succ fuel ih =>
      intro tot off out hle hmax hfuel _ hfine
      have hbound := h.bound
      by_cases htot : tot < n
      · have hbn : off / bsize < k := by
          simp only [bsize] at *
          omega
        have hok : Fine d ip.toDinode off := hfine off (Nat.le_refl _) (by omega)
        obtain ⟨out', hout, hturn, -⟩ := readiLoop_turn fuel out h htot hbn
        have hpos : 0 < bsize - off % bsize := Nat.sub_pos_of_lt (Nat.mod_lt _ (by decide))
        obtain ⟨m, hm⟩ : ∃ m, m = min (n - tot) (bsize - off % bsize) := ⟨_, rfl⟩
        have hsplit : List.range (n - tot)
            = List.range m ++ (List.range (n - (tot + m))).map (m + ·) := by
          rw [← List.range_add]
          congr 1
          omega
        rw [hturn hok, hout hok, ← hm]
        rw [ih (by omega) (by omega) (fun _ => by simp only [bsize] at *; omega)
          (by simp only [maxfile, ndirect, nindirect, bsize] at *; omega)
          (fun p h1 h2 => hfine p (by omega) (by omega)), hsplit, List.map_append, List.map_map,
          List.append_assoc]
        simp only [Function.comp_def, Nat.add_assoc]
      · rw [readiLoop, if_neg htot, Nat.sub_eq_zero_of_le (by omega)]
        simp

/-- A block without its checksum stops the loop. -/
theorem readiLoop_caught {n : Nat} (h : Mapped d ip.toDinode k) :
    ∀ {fuel tot off : Nat} {out : List Byte}, off + (n - tot) ≤ bsize * k →
      maxfile + 1 ≤ off / bsize + fuel →
      (∃ p, off ≤ p ∧ p < off + (n - tot) ∧ ¬ Fine d ip.toDinode p) →
      ∃ out', readiLoop n fuel d ip tot off out = some (-1, out', d, ip) := by
  intro fuel
  induction fuel with
  | zero =>
      intro tot off out hmax hfuel hex
      obtain ⟨p, h1, h2, -⟩ := hex
      have hbound := h.bound
      simp only [bsize] at *
      omega
  | succ fuel ih =>
      intro tot off out hmax hfuel hex
      obtain ⟨p, h1, h2, hbad⟩ := hex
      have htot : tot < n := by omega
      have hbn : off / bsize < k := by
        simp only [bsize] at *
        omega
      obtain ⟨out', -, hturn, hcaught⟩ := readiLoop_turn fuel out h htot hbn
      by_cases hok : Fine d ip.toDinode off
      · have hpos : 0 < bsize - off % bsize := Nat.sub_pos_of_lt (Nat.mod_lt _ (by decide))
        -- the byte is in a later block
        have hlater : off + (bsize - off % bsize) ≤ p := by
          by_contra hlt
          have hq : p / bsize = off / bsize := by
            simp only [bsize] at *
            omega
          refine hbad ?_
          rw [Fine, hq]
          exact hok
        obtain ⟨m, hm⟩ : ∃ m, m = min (n - tot) (bsize - off % bsize) := ⟨_, rfl⟩
        have hm' : m = bsize - off % bsize := by omega
        rw [hturn hok, ← hm]
        have hnext : (off + m) / bsize = off / bsize + 1 := by
          rw [hm']
          simp only [bsize]
          omega
        exact ih (by omega) (by omega) ⟨p, by omega, by omega, hbad⟩
      · exact ⟨out', hcaught hok⟩

theorem readiLoop_spec {n : Nat} (h : Wf d ip.toDinode k ib)
    (htag : ip.type = tChecked → Tagged d ip.toDinode k)
    {fuel tot off : Nat} {out : List Byte} (hle : tot ≤ n) (hmax : off + (n - tot) ≤ bsize * k)
    (hfuel : tot < n → maxfile + 1 ≤ off / bsize + fuel) (hpos : 1 ≤ fuel) :
    readiLoop n fuel d ip tot off out =
      some ((n : Int), out ++ (List.range (n - tot)).map fun i => byteOf d ip.toDinode k (off + i), d, ip) := by
  refine readiLoop_fine h.mapped hle hmax hfuel hpos fun p h1 h2 hc => ?_
  have hbn : p / bsize < k := by
    simp only [bsize] at *
    omega
  rw [htag hc _ hbn, dataAt, if_pos hbn]

end Write

end Cs537.CheckedFs
