/-
# `Cs537.CheckedFs.Truncate` — `itrunc` and the block numbers it frees

`itrunc` passes each pointer of the inode to `bfree`.  When the numbers passed
are those of the blocks of the file, every call finds its bit set and all
blocks of the file become free (`itrunc_spec`).  That depends on `truncArg`:
for a file without checksums it is the block number; for a checked file it is
the pointer with its checksum byte, and so the block number just when that
byte is 0 (`truncArg_right`).
-/
import Cs537.CheckedFs.Writei

namespace Cs537.CheckedFs

/-! ## Several calls of `bfree` -/

/-- Every call is on a block below `sb.size` whose bit is set. -/
def BfreesOk : Disk → List Nat → Prop
  | _, [] => True
  | d, b :: bs => (b < sbSize d ∧ inUse d b = true) ∧ ∀ d', bfree d b = some d' → BfreesOk d' bs

/-- What freeing the data blocks `l` does. -/
structure Freed (d : Disk) (l : List Nat) (d' : Disk) : Prop where
  same : SameLow d d'
  isData : ∀ b, b ∈ l → IsData d b
  zero : ∀ b, b ∈ l → d' b = 0
  data : ∀ c, dataStart d ≤ c → c ∉ l → d' c = d c
  bits : ∀ c, c < sbSize d → (inUse d' c = true ↔ inUse d c = true ∧ c ∉ l)

section

variable {d d' d'' : Disk} {l l' : List Nat}

theorem Freed.nil (d : Disk) : Freed d [] d :=
  ⟨SameLow.refl d, nofun, nofun, fun _ _ _ => rfl, fun c _ => by simp⟩

theorem Freed.append (h : Freed d l d') (h' : Freed d' l' d'') : Freed d (l ++ l') d'' where
  same := h.same.trans h'.same
  isData b hb := by
    rcases List.mem_append.mp hb with hb | hb
    · exact h.isData b hb
    · exact (isData_eq h.same.sb b).mp (h'.isData b hb)
  zero b hb := by
    by_cases hb' : b ∈ l'
    · exact h'.zero b hb'
    · have hbl : b ∈ l := (List.mem_append.mp hb).resolve_right hb'
      rw [h'.data b (by rw [dataStart_eq h.same.sb]; exact (h.isData b hbl).1) hb']
      exact h.zero b hbl
  data c hc hno := by
    rw [List.mem_append, not_or] at hno
    rw [h'.data c (by rwa [dataStart_eq h.same.sb]) hno.2, h.data c hc hno.1]
  bits c hc := by
    rw [h'.bits c (by rwa [sbSize_eq h.same.sb]), h.bits c hc, List.mem_append, not_or, and_assoc]

/-- `bfree` of a data block in use. -/
theorem bfree_freed {b : Nat} (hb : Taken d b) : ∃ d', bfree d b = some d' ∧ Freed d [b] d' := by
  obtain ⟨d', hfree, hsame, hzero, hdata, hbits⟩ := bfree_spec hb.1 hb.2
  refine ⟨d', hfree, hsame, fun c hc => ?_, fun c hc => ?_, fun c hc hno => ?_, fun c hc => ?_⟩
  · rw [List.mem_singleton.mp hc]
    exact hb.1
  · rw [List.mem_singleton.mp hc]
    exact hzero
  · exact hdata c hc fun he => hno (List.mem_singleton.mpr he)
  · rw [hbits c hc, List.mem_singleton]
    by_cases he : c = b
    · simp [he]
    · simp [he]

/-- A consistent image stays one. -/
theorem Freed.image (h : Freed d l d') (hd : Image d) : Image d' where
  small := by
    rw [sbSize_eq h.same.sb]
    exact hd.small
  reserved b hb hsz := by
    rw [dataStart_eq h.same.sb] at hb
    rw [sbSize_eq h.same.sb] at hsz
    refine (h.bits b hsz).mpr ⟨hd.reserved b hb hsz, fun hmem => ?_⟩
    have := (h.isData b hmem).1
    omega
  zero b hb hsz hu := by
    rw [dataStart_eq h.same.sb] at hb
    rw [sbSize_eq h.same.sb] at hsz
    by_cases hmem : b ∈ l
    · exact h.zero b hmem
    · rw [h.data b hb hmem]
      refine hd.zero b hb hsz (Bool.eq_false_iff.mpr fun hu' => ?_)
      have := (h.bits b hsz).mpr ⟨hu', hmem⟩
      simp [hu] at this

theorem Freed.taken (h : Freed d l d') {b : Nat} (hb : Taken d b) (hno : b ∉ l) : Taken d' b :=
  ⟨(isData_eq h.same.sb b).mpr hb.1, (h.bits b hb.1.2).mpr ⟨hb.2, hno⟩⟩

/-- Different data blocks in use. -/
theorem bfreeEach_spec : ∀ {l : List Nat} {d : Disk}, l.Nodup → (∀ b, b ∈ l → Taken d b) →
    ∃ d', bfreeEach l d = some d' ∧ Freed d l d' ∧ BfreesOk d l
  | [], d, _, _ => ⟨d, rfl, Freed.nil d, trivial⟩
  | b :: l, d, hnd, htaken => by
      obtain ⟨hb, hnd'⟩ := List.nodup_cons.mp hnd
      have hbt := htaken b List.mem_cons_self
      obtain ⟨d₁, hfree, h₁⟩ := bfree_freed hbt
      obtain ⟨d', hall, h', hok⟩ := bfreeEach_spec (l := l) (d := d₁) hnd' fun c hc =>
        h₁.taken (htaken c (List.mem_cons_of_mem b hc))
          fun he => hb (List.mem_singleton.mp he ▸ hc)
      refine ⟨d', ?_, h₁.append h', ⟨hbt.1.2, hbt.2⟩, fun e he => ?_⟩
      · rw [bfreeEach, hfree, Option.bind_some, hall]
      · obtain rfl := Option.some.inj (hfree.symm.trans he)
        exact hok

theorem BfreesOk.left : ∀ {l l' : List Nat} {d : Disk}, BfreesOk d (l ++ l') → BfreesOk d l
  | [], _, _, _ => trivial
  | _ :: _, _, _, h => ⟨h.1, fun d' hd' => (h.2 d' hd').left⟩

end

/-! ## The argument -/

section

variable {d : Disk} {ip : Inode} {k : Nat} {ib : Bool} {w : BitVec 32}

/-- `truncArg` of a pointer to a block of a small disk. -/
theorem truncArg_right (hw : (ip.blockno w).toNat < 2 ^ 24) :
    truncArg ip w = (ip.blockno w).toNat ↔ (ip.type = tChecked → tag w = 0) := by
  rw [truncArg, Dinode.blockno] at *
  by_cases hc : ip.type = tChecked
  · rw [if_pos hc, if_pos hc]
    constructor
    · intro he _
      rw [tag_eq_zero_iff, he]
      exact mask24_toNat_lt w
    · intro ht
      rw [mask24_of_lt ((tag_eq_zero_iff w).mp (ht hc))]
  · rw [if_neg hc] at hw
    rw [if_neg hc, if_neg hc, mask24_of_lt hw]
    exact iff_of_true rfl fun he => absurd he hc

/-- An argument below `2 ^ 24` is right. -/
theorem truncArg_of_lt (hw : (ip.blockno w).toNat < 2 ^ 24) (ha : truncArg ip w < 2 ^ 24) :
    truncArg ip w = (ip.blockno w).toNat := by
  rw [truncArg_right hw]
  intro hc
  rw [truncArg, if_pos hc] at ha
  exact (tag_eq_zero_iff w).mpr ha

/-- If all calls are in order, they free the right blocks. -/
theorem truncArg_of_bfreesOk {f : Nat → BitVec 32} :
    ∀ {l : List Nat} {d : Disk}, sbSize d ≤ 2 ^ 24 →
      (l.map fun j => (ip.blockno (f j)).toNat).Nodup →
      (∀ j, j ∈ l → Taken d (ip.blockno (f j)).toNat) →
      BfreesOk d (l.map fun j => truncArg ip (f j)) →
      ∀ j, j ∈ l → truncArg ip (f j) = (ip.blockno (f j)).toNat
  | [], _, _, _, _, _ => nofun
  | j :: l, d, hd, hnd, htaken, hok => by
      obtain ⟨hj, hnd'⟩ := List.nodup_cons.mp hnd
      have hjt := htaken j List.mem_cons_self
      have harg : truncArg ip (f j) = (ip.blockno (f j)).toNat :=
        truncArg_of_lt (hjt.1.2.trans_le hd) (hok.1.1.trans_le hd)
      obtain ⟨d₁, hfree, h₁⟩ := bfree_freed hjt
      have hrest := truncArg_of_bfreesOk (l := l) (d := d₁) (by rwa [sbSize_eq h₁.same.sb]) hnd'
        (fun i hi => h₁.taken (htaken i (List.mem_cons_of_mem j hi)) fun he =>
          hj (List.mem_map.mpr ⟨i, hi, List.mem_singleton.mp he⟩))
        (hok.2 d₁ (by rw [← harg] at hfree; exact hfree))
      intro i hi
      rcases List.mem_cons.mp hi with rfl | hi
      · exact harg
      · exact hrest i hi

end

/-! ## Pointers that are not 0 -/

section

variable {d : Disk} {ip : Dinode} {k : Nat} {ib : Bool}

theorem Wf.addr_ne_zero (h : Wf d ip k ib) {i : Nat} (hi : i < ndirect) :
    ip.addr i ≠ 0 ↔ i < k := by
  have hm : maxfile = ndirect + nindirect := rfl
  rw [← sumWord_direct d hi]
  constructor
  · intro hne
    by_contra hk
    exact hne (h.fresh i (by omega) (by omega) (.inl hi))
  · exact h.sumWord_ne_zero

theorem Wf.word_ne_zero (h : Wf d ip k true) {j : Nat} (hj : j < nindirect) :
    word (d ip.ind) j ≠ 0 ↔ ndirect + j < k := by
  have hm : maxfile = ndirect + nindirect := rfl
  have hw : word (d ip.ind) j = ip.sumWord d (ndirect + j) := by
    rw [sumWord_indirect _ (Nat.le_add_right _ _), Nat.add_sub_cancel_left]
  rw [hw]
  constructor
  · intro hne
    by_contra hk
    exact hne (h.fresh _ (by omega) (by omega) (.inr rfl))
  · exact h.sumWord_ne_zero

/-- The block numbers in the direct pointers, and in the indirect block. -/
theorem Wf.direct_blk (h : Wf d ip k ib) {i : Nat} (hi : i < ndirect) (hne : ip.addr i ≠ 0) :
    i < k ∧ ip.sumWord d i = ip.addr i ∧ (ip.blockno (ip.addr i)).toNat = ip.blk d i := by
  have hs : ip.sumWord d i = ip.addr i := sumWord_direct d hi
  exact ⟨(h.addr_ne_zero hi).mp hne, hs, by rw [Dinode.blk, hs]⟩

theorem Wf.indirect_blk (h : Wf d ip k true) {j : Nat} (hj : j < nindirect)
    (hne : word (d ip.ind) j ≠ 0) :
    ndirect + j < k ∧ ip.sumWord d (ndirect + j) = word (d ip.ind) j ∧
      (ip.blockno (word (d ip.ind) j)).toNat = ip.blk d (ndirect + j) := by
  have hs : ip.sumWord d (ndirect + j) = word (d ip.ind) j := by
    rw [sumWord_indirect _ (Nat.le_add_right _ _), Nat.add_sub_cancel_left]
  exact ⟨(h.word_ne_zero hj).mp hne, hs, by rw [Dinode.blk, hs]⟩

theorem nodup_directBlocks (h : Wf d ip k ib) :
    (((List.range ndirect).filter fun i => ip.addr i ≠ 0).map fun i =>
      (ip.blockno (ip.addr i)).toNat).Nodup := by
  refine (List.nodup_range.filter _).map_on fun i hi j hj he => ?_
  simp only [List.mem_filter, List.mem_range, decide_eq_true_eq] at hi hj
  obtain ⟨hik, -, hib⟩ := h.direct_blk hi.1 hi.2
  obtain ⟨hjk, -, hjb⟩ := h.direct_blk hj.1 hj.2
  exact h.inj i j hik hjk (by rw [← hib, ← hjb, he])

theorem nodup_indirectBlocks (h : Wf d ip k true) :
    (((List.range nindirect).filter fun j => word (d ip.ind) j ≠ 0).map fun j =>
      (ip.blockno (word (d ip.ind) j)).toNat).Nodup := by
  refine (List.nodup_range.filter _).map_on fun i hi j hj he => ?_
  simp only [List.mem_filter, List.mem_range, decide_eq_true_eq] at hi hj
  obtain ⟨hik, -, hib⟩ := h.indirect_blk hi.1 hi.2
  obtain ⟨hjk, -, hjb⟩ := h.indirect_blk hj.1 hj.2
  have := h.inj _ _ hik hjk (by rw [← hib, ← hjb, he])
  omega

end

/-! ## `itrunc` -/

/-- The calls of `itrunc`, those of the first loop and then the others. -/
def TruncOk (d : Disk) (ip : Inode) : Prop :=
  BfreesOk d (directCalls ip) ∧ ∀ d', bfreeEach (directCalls ip) d = some d' →
    ip.addr ndirect ≠ 0 → BfreesOk d' (indirectCalls ip (d' ip.ind) ++ [ip.ind])

/-- Every pointer is passed on as the number of its block. -/
def ArgsRight (d : Disk) (ip : Inode) (k : Nat) : Prop :=
  ∀ bn, bn < k → truncArg ip (ip.sumWord d bn) = ip.blk d bn

section

variable {d : Disk} {ip : Inode} {k : Nat} {ib : Bool}

theorem mem_directCalls {b : Nat} : b ∈ directCalls ip ↔
    ∃ i, i < ndirect ∧ ip.addr i ≠ 0 ∧ truncArg ip (ip.addr i) = b := by
  simp [directCalls, and_assoc]

theorem mem_indirectCalls {a : Block} {b : Nat} : b ∈ indirectCalls ip a ↔
    ∃ j, j < nindirect ∧ word a j ≠ 0 ∧ truncArg ip (word a j) = b := by
  simp [indirectCalls, and_assoc]

theorem ArgsRight.direct (ha : ArgsRight d ip k) : ArgsRight d ip (min k ndirect) :=
  fun bn hbn => ha bn (by omega)

/-- With right arguments these are the blocks freed. -/
theorem ArgsRight.directCalls (ha : ArgsRight d ip (min k ndirect)) (h : Wf d ip.toDinode k ib) :
    directCalls ip = ((List.range ndirect).filter fun i => ip.addr i ≠ 0).map fun i =>
      (ip.blockno (ip.addr i)).toNat := by
  refine List.map_congr_left fun i hi => ?_
  simp only [List.mem_filter, List.mem_range, decide_eq_true_eq] at hi
  obtain ⟨hik, hs, hib⟩ := h.direct_blk hi.1 hi.2
  rw [hib, ← ha i (by omega), hs]

theorem ArgsRight.indirectCalls (ha : ArgsRight d ip k) (h : Wf d ip.toDinode k true) :
    indirectCalls ip (d ip.ind) =
      ((List.range nindirect).filter fun j => word (d ip.ind) j ≠ 0).map fun j =>
        (ip.blockno (word (d ip.ind) j)).toNat := by
  refine List.map_congr_left fun j hj => ?_
  simp only [List.mem_filter, List.mem_range, decide_eq_true_eq] at hj
  obtain ⟨hjk, hs, hjb⟩ := h.indirect_blk hj.1 hj.2
  rw [hjb, ← ha _ hjk, hs]

theorem ArgsRight.mem_direct (ha : ArgsRight d ip (min k ndirect)) (h : Wf d ip.toDinode k ib) {b : Nat} :
    b ∈ CheckedFs.directCalls ip ↔ ∃ bn, bn < k ∧ bn < ndirect ∧ b = ip.blk d bn := by
  rw [mem_directCalls]
  constructor
  · rintro ⟨i, hi, hne, rfl⟩
    obtain ⟨hik, hs, -⟩ := h.direct_blk hi hne
    exact ⟨i, hik, hi, by rw [← ha i (by omega), hs]⟩
  · rintro ⟨bn, hk, hbn, rfl⟩
    exact ⟨bn, hbn, (h.addr_ne_zero hbn).mpr hk, by rw [← ha bn (by omega), sumWord_direct _ hbn]⟩

theorem ArgsRight.mem_indirect (ha : ArgsRight d ip k) (h : Wf d ip.toDinode k true) {b : Nat} :
    b ∈ CheckedFs.indirectCalls ip (d ip.ind) ↔
      ∃ bn, bn < k ∧ ndirect ≤ bn ∧ b = ip.blk d bn := by
  have hbound := h.bound
  have hm : maxfile = ndirect + nindirect := rfl
  rw [mem_indirectCalls]
  constructor
  · rintro ⟨j, hj, hne, rfl⟩
    obtain ⟨hjk, hs, -⟩ := h.indirect_blk hj hne
    exact ⟨ndirect + j, hjk, Nat.le_add_right _ _, by rw [← ha _ hjk, hs]⟩
  · rintro ⟨bn, hk, hbn, rfl⟩
    have hj : ndirect + (bn - ndirect) = bn := by omega
    refine ⟨bn - ndirect, by omega, (h.word_ne_zero (by omega)).mpr (by omega), ?_⟩
    rw [← ha bn hk, sumWord_indirect _ hbn]

/-- The first loop. -/
theorem free_direct (h : Wf d ip.toDinode k ib) (ha : ArgsRight d ip (min k ndirect)) :
    ∃ d', bfreeEach (directCalls ip) d = some d' ∧ Freed d (directCalls ip) d' ∧
      BfreesOk d (directCalls ip) := by
  refine bfreeEach_spec ?_ fun b hb => ?_
  · rw [ha.directCalls h]
    exact nodup_directBlocks h
  · obtain ⟨bn, hk, -, rfl⟩ := (ha.mem_direct h).mp hb
    exact h.taken bn hk

theorem ind_notMem_direct (h : Wf d ip.toDinode k true) (ha : ArgsRight d ip (min k ndirect)) :
    ip.ind ∉ directCalls ip := by
  rw [ha.mem_direct h]
  rintro ⟨bn, hk, -, he⟩
  exact h.apart bn hk rfl he.symm

/-- The second loop, and the indirect block after it. -/
theorem free_indirect {d' : Disk} (h : Wf d ip.toDinode k true) (ha : ArgsRight d ip k)
    (hf : Freed d (directCalls ip) d') :
    ∃ d'', bfreeEach (indirectCalls ip (d ip.ind) ++ [ip.ind]) d' = some d'' ∧
      Freed d' (indirectCalls ip (d ip.ind) ++ [ip.ind]) d'' ∧
      BfreesOk d' (indirectCalls ip (d ip.ind) ++ [ip.ind]) := by
  refine bfreeEach_spec ?_ fun b hb => ?_
  · rw [List.nodup_append']
    refine ⟨?_, List.nodup_singleton _, ?_⟩
    · rw [ha.indirectCalls h]
      exact nodup_indirectBlocks h
    · rw [List.disjoint_singleton]
      intro hmem
      obtain ⟨bn, hk, -, he⟩ := (ha.mem_indirect h).mp hmem
      exact h.apart bn hk rfl he.symm
  · rcases List.mem_append.mp hb with hb | hb
    · obtain ⟨bn, hk, hbn, rfl⟩ := (ha.mem_indirect h).mp hb
      refine hf.taken (h.taken bn hk) fun hmem => ?_
      obtain ⟨bn', hk', hbn', he⟩ := (ha.direct.mem_direct h).mp hmem
      have := h.inj bn bn' hk hk' he
      omega
    · rw [List.mem_singleton.mp hb]
      exact hf.taken (h.ind rfl) (ind_notMem_direct h ha.direct)

/-- The inode that `itrunc` leaves. -/
def Inode.cleared (ip : Inode) : Inode := { ip with addrs := fun _ => 0, size := 0 }

/-- With right arguments `itrunc` frees the blocks of the file. -/
theorem itrunc_spec (h : Wf d ip.toDinode k ib) (ha : ArgsRight d ip k) :
    TruncOk d ip ∧ ∃ l d', itrunc d ip = some (iupdate d' ip.cleared, ip.cleared) ∧
      Freed d l d' ∧ ∀ b, b ∈ l ↔ IsRef d ip.toDinode k ib b := by
  obtain ⟨d₁, hfree₁, h₁, hok₁⟩ := free_direct h ha.direct
  cases hib : ib with
  | false =>
      rw [hib] at h
      have h0 : ip.addr ndirect = 0 := h.noInd rfl
      refine ⟨⟨hok₁, fun _ _ hne => absurd h0 hne⟩, directCalls ip, d₁, ?_, h₁, fun b => ?_⟩
      · simp only [itrunc, hfree₁, h0, Option.bind_eq_bind, Option.bind_some, ne_eq, not_true_eq_false,
          if_false]
        rfl
      · have hle := h.direct rfl
        rw [ha.direct.mem_direct h]
        constructor
        · rintro ⟨bn, hk, -, he⟩
          exact .inl ⟨bn, hk, he⟩
        · rintro (⟨bn, hk, he⟩ | ⟨hf, -⟩)
          · exact ⟨bn, hk, by omega, he⟩
          · cases hf
  | true =>
      rw [hib] at h
      have hne := h.ind_ne_zero
      have hind : d₁ ip.ind = d ip.ind :=
        h₁.data _ (h.ind rfl).1.1 (ind_notMem_direct h ha.direct)
      obtain ⟨d₂, hfree₂, h₂, hok₂⟩ := free_indirect h ha h₁
      refine ⟨⟨hok₁, fun e he _ => ?_⟩, _, d₂, ?_, h₁.append h₂, fun b => ?_⟩
      · obtain rfl := Option.some.inj (hfree₁.symm.trans he)
        rw [hind]
        exact hok₂
      · have hind' : d₁ (ip.addr ndirect).toNat = d ip.ind := hind
        simp only [itrunc, hfree₁, Option.bind_eq_bind, Option.bind_some, if_pos hne, hind']
        rw [← Dinode.ind, hfree₂]
        rfl
      · rw [List.mem_append, List.mem_append, List.mem_singleton, ha.direct.mem_direct h,
          ha.mem_indirect h]
        constructor
        · rintro (⟨bn, hk, -, he⟩ | ⟨bn, hk, -, he⟩ | he)
          · exact .inl ⟨bn, hk, he⟩
          · exact .inl ⟨bn, hk, he⟩
          · exact .inr ⟨rfl, he⟩
        · rintro (⟨bn, hk, he⟩ | ⟨-, he⟩)
          · rcases Nat.lt_or_ge bn ndirect with hlt | hge
            · exact .inl ⟨bn, hk, hlt, he⟩
            · exact .inr (.inl ⟨bn, hk, hge, he⟩)
          · exact .inr (.inr he)

/-- If the calls are in order, the arguments are right. -/
theorem TruncOk.argsRight (hok : TruncOk d ip) (hd : sbSize d ≤ 2 ^ 24)
    (h : Wf d ip.toDinode k ib) : ArgsRight d ip k := by
  have hbound := h.bound
  have hm : maxfile = ndirect + nindirect := rfl
  -- the first loop
  have hdir : ArgsRight d ip (min k ndirect) := fun bn hbn => by
    have hbn' : bn < ndirect := by omega
    have hmem : bn ∈ (List.range ndirect).filter fun i => ip.addr i ≠ 0 := by
      simpa [hbn'] using (h.addr_ne_zero hbn').mpr (by omega)
    have harg := truncArg_of_bfreesOk hd (nodup_directBlocks h) (fun i hi => ?_) hok.1 bn hmem
    · rw [Dinode.blk, sumWord_direct _ hbn']
      exact harg
    · simp only [List.mem_filter, List.mem_range, decide_eq_true_eq] at hi
      obtain ⟨hik, -, hib⟩ := h.direct_blk hi.1 hi.2
      rw [hib]
      exact h.taken i hik
  intro bn hbn
  rcases Nat.lt_or_ge bn ndirect with hlt | hge
  · exact hdir bn (by omega)
  · -- the second, after it
    have hib : ib = true := (h.low_or_ind hbn).resolve_left (by omega)
    subst hib
    obtain ⟨d₁, hfree, h₁, -⟩ := free_direct h hdir
    have hind : d₁ ip.ind = d ip.ind := h₁.data _ (h.ind rfl).1.1 (ind_notMem_direct h hdir)
    have hok' := (hok.2 d₁ hfree h.ind_ne_zero).left
    rw [hind] at hok'
    have hj : ndirect + (bn - ndirect) = bn := by omega
    have hmem : bn - ndirect ∈ (List.range nindirect).filter fun j => word (d ip.ind) j ≠ 0 := by
      simpa [show bn - ndirect < nindirect by omega] using
        (h.word_ne_zero (show bn - ndirect < nindirect by omega)).mpr (by omega)
    have harg := truncArg_of_bfreesOk (by rwa [sbSize_eq h₁.same.sb]) (nodup_indirectBlocks h)
      (fun i hi => ?_) hok' _ hmem
    · rw [Dinode.blk, sumWord_indirect _ hge]
      exact harg
    · simp only [List.mem_filter, List.mem_range, decide_eq_true_eq] at hi
      obtain ⟨hik, -, hib⟩ := h.indirect_blk hi.1 hi.2
      rw [hib]
      refine h₁.taken (h.taken _ hik) fun hmem' => ?_
      obtain ⟨bn', hk', hbn', he⟩ := (hdir.mem_direct h).mp hmem'
      have := h.inj _ bn' hik hk' he
      omega

/-- The arguments of a checked file are right when its checksum bytes are 0. -/
theorem argsRight_iff (hd : sbSize d ≤ 2 ^ 24) (h : Wf d ip.toDinode k ib) :
    ArgsRight d ip k ↔ (ip.type = tChecked → ∀ bn, bn < k → tag (ip.sumWord d bn) = 0) := by
  have hlt : ∀ bn, bn < k → (ip.blockno (ip.sumWord d bn)).toNat < 2 ^ 24 := fun bn hbn =>
    (h.taken bn hbn).1.2.trans_le hd
  constructor
  · intro ha hc bn hbn
    exact (truncArg_right (hlt bn hbn)).mp (ha bn hbn) hc
  · intro ht bn hbn
    exact (truncArg_right (hlt bn hbn)).mpr fun hc => ht hc bn hbn

end

end Cs537.CheckedFs
