/-
# `Cs537.Mkfs.Entries` — a directory as the checker reads it

The checker goes over the blocks of a directory, 32 entries in each.  In the
image of `mkfs` these are the entries that were appended and then empty ones
(`inums_dirents`), as long as the directory has no indirect block.
-/
import Cs537.Fscheck.Blocks
import Cs537.Fscheck.Counts
import Cs537.Lib.Ranges
import Cs537.Mkfs.Named

namespace Cs537.Mkfs

open Cs537.Lib

variable {s : St} {B : Nat → Nat → Nat} {f : Nat → List UInt8} {i j k n e : Nat} {img : Mem}
  {es : List (Nat × List UInt8)} {name : List UInt8}

/-! ## Fields of an inode -/

theorem fscheck_type (img : Mem) (i : Nat) : Fscheck.type img i = (table img i).type :=
  Mem.get_ptr.symm

theorem fscheck_nlink (img : Mem) (i : Nat) : Fscheck.nlink img i = (table img i).nlink :=
  Mem.get_ptr.symm

theorem fscheck_addrs (img : Mem) (i j : Nat) : Fscheck.addrs img i j = (table img i).addrs j := by
  rw [Fscheck.addrs, Nat.add_assoc]
  exact Mem.get_ptr.symm

theorem fscheck_place (hk : k < size) : Fscheck.place k = k * 512 :=
  Nat.mod_eq_of_lt (by simp only [size, Fscheck.BSIZE] at *; omega)

/-! ## The bytes of the entries -/

theorem dirent_two : (dirent k name).getD 2 0 = name.headD 0 := by
  cases name with
  | nil => rfl
  | cons c name => rfl

theorem getD_left {l l' : List UInt8} (h : n < l.length) : (l ++ l').getD n 0 = l.getD n 0 :=
  List.getD_append _ _ _ _ h

/-- Byte `t` of entry `e`; past the last one there are zeros. -/
theorem entryBytes_getD {t : Nat} (ht : t < 16) : (entryBytes es).getD (16 * e + t) 0 =
    (dirent (es.getD e (0, [])).1 (es.getD e (0, [])).2).getD t 0 := by
  induction es generalizing e with
  | nil =>
      have hzero : (List.replicate 16 (0 : UInt8)).getD t 0 = 0 := by
        rw [List.getD_eq_getElem _ _ (by rwa [List.length_replicate]), List.getElem_replicate]
      rw [List.getD_nil, show dirent (0, []).1 (0, []).2 = List.replicate 16 0 from rfl, hzero]
      exact List.getD_nil
  | cons x es ih =>
      have hlen : (dirent x.1 x.2).length = 16 := length_dirent x.1 x.2
      rw [entryBytes, List.flatMap_cons]
      cases e with
      | zero =>
          rw [Nat.mul_zero, Nat.zero_add, getD_left (by omega), List.getD_cons_zero]
      | succ e =>
          rw [List.getD_append_right _ _ _ _ (by omega), hlen, List.getD_cons_succ, ← ih, entryBytes,
            show 16 * (e + 1) + t - 16 = 16 * e + t by omega]

/-- The number in the bytes of an entry. -/
theorem get_dirent (name : List UInt8) (hk : k < 2 ^ 16) :
    (St.bytesAt (dirent k name)).get 2 0 = k := by
  have hbytes : (List.range 2).map (fun i => St.bytesAt (dirent k name) (0 + i)) = le 2 k := rfl
  rw [Mem.get, hbytes, ofLe_le_of_lt hk]

/-! ## The blocks of a directory -/

/-- A file that needs no indirect block. -/
theorem Ready.no_indirect (h : Ready s B f) (hi : i < room) (hlen : (f i).length ≤ NDIRECT * 512) :
    Fscheck.addrs s.img i Fscheck.NDIRECT = 0 := by
  have hind : B i MAXFILE = 0 := by
    by_contra hne
    have := needed_MAXFILE.mp ((h.exact i hi _ (Nat.le_refl _)).mp hne)
    omega
  exact (fscheck_addrs _ _ _).trans ((h.holds.layout.indirect i hi).trans hind)

theorem Ready.refs_direct (h : Ready s B f) (hi : i < room) (hlen : (f i).length ≤ NDIRECT * 512) :
    Fscheck.nonzero (Fscheck.refs s.img i) =
      (List.range (((f i).length + 511) / 512)).map (B i) := by
  have hlast := h.no_indirect hi hlen
  have hblocks : ((f i).length + 511) / 512 ≤ NDIRECT := by
    simp only [NDIRECT] at *
    omega
  have hmap : (List.range Fscheck.NDIRECT).map (Fscheck.addrs s.img i) =
      (List.range Fscheck.NDIRECT).map (B i) := List.map_congr_left fun j hj =>
    (fscheck_addrs _ _ _).trans (h.holds.layout.direct i hi j (List.mem_range.mp hj))
  have hfilter : (List.range NDIRECT).filter ((fun a => decide (a ≠ 0)) ∘ B i) =
      (List.range NDIRECT).filter (· < ((f i).length + 511) / 512) := by
    refine List.filter_congr fun j hj => decide_eq_decide.mpr ?_
    have hj' : j < MAXFILE := Nat.lt_trans (List.mem_range.mp hj) (by decide)
    rw [h.exact i hi j (Nat.le_of_lt hj'), needed_lt hj']
    omega
  rw [Fscheck.refs, if_neg (not_not.mpr hlast), List.append_nil, Fscheck.direct, List.range_succ,
    List.map_append, List.map_cons, List.map_nil, hlast, hmap, Fscheck.nonzero_append,
    Fscheck.nonzero, List.filter_map]
  exact (List.append_nil _).trans (congrArg (List.map (B i)) (hfilter.trans (filter_range hblocks)))

/-! ## The entries -/

/-- Where entry `e` of directory `i` is. -/
def entryPlace (B : Nat → Nat → Nat) (i e : Nat) : Nat := B i (e / 32) * 512 + 16 * (e % 32)

theorem entryPlace_zero : entryPlace B i 0 = B i 0 * 512 := by
  rw [entryPlace, Nat.zero_div, Nat.zero_mod, Nat.mul_zero, Nat.add_zero]

theorem entryPlace_one : entryPlace B i 1 = B i 0 * 512 + 16 := by
  have hdiv : 1 / 32 = 0 := rfl
  have hmod : 1 % 32 = 1 := rfl
  rw [entryPlace, hdiv, hmod, Nat.mul_one]

/-- The places of entries in the blocks of `len` entries. -/
def places (len : Nat) : Nat := 32 * ((16 * len + 511) / 512)

/-- Directory `i` has the entries `es`, without an indirect block. -/
structure Lists (f : Nat → List UInt8) (i : Nat) (es : List (Nat × List UInt8)) : Prop where
  inode : i < room
  bytes : f i = entryBytes es
  few : es.length ≤ 384
  small : ∀ e ∈ es, e.1 < 2 ^ 16

theorem Lists.length (h : Lists f i es) : (f i).length = 16 * es.length := by
  rw [h.bytes, length_entryBytes]

theorem Lists.direct (h : Lists f i es) : (f i).length ≤ NDIRECT * 512 := by
  have := h.few
  rw [h.length, NDIRECT]
  omega

/-- The number of an entry, or 0 past the last one. -/
theorem Lists.number (h : Lists f i es) (e : Nat) : (es.getD e (0, [])).1 < 2 ^ 16 := by
  by_cases he : e < es.length
  · rw [List.getD_eq_getElem _ _ he]
    exact h.small _ (List.getElem_mem he)
  · rw [List.getD_eq_default _ _ (Nat.le_of_not_lt he)]
    decide

theorem Lists.block (h : Lists f i es) (hr : Ready s B f) (he : e < places es.length) :
    B i (e / 32) ≠ 0 ∧ e / 32 < MAXFILE ∧ B i (e / 32) < size := by
  have hfew := h.few
  have hlt : e / 32 < MAXFILE := by
    simp only [places, MAXFILE] at *
    omega
  have hne : B i (e / 32) ≠ 0 := by
    refine (hr.exact i h.inode _ (Nat.le_of_lt hlt)).mpr ((needed_lt hlt).mpr ?_)
    rw [h.length]
    simp only [places] at he
    omega
  have hrange := hr.holds.layout.placed.range i h.inode _ (Nat.le_of_lt hlt) hne
  exact ⟨hne, hlt, Nat.lt_of_lt_of_le hrange.2 hr.holds.below⟩

/-- The bytes of an entry. -/
theorem Lists.byte (h : Lists f i es) (hr : Ready s B f) (he : e < places es.length) {t : Nat}
    (ht : t < 16) : s.img (entryPlace B i e + t) =
      (dirent (es.getD e (0, [])).1 (es.getD e (0, [])).2).getD t 0 := by
  obtain ⟨hne, hlt, -⟩ := h.block hr he
  have hk : 16 * (e % 32) + t < 512 := by omega
  have hplace : 512 * (e / 32) + (16 * (e % 32) + t) = 16 * e + t := by omega
  rw [entryPlace, Nat.add_assoc, hr.holds.stored i h.inode _ hlt hne _ hk, hplace, h.bytes,
    entryBytes_getD ht]

theorem Lists.inum (h : Lists f i es) (hr : Ready s B f) (he : e < places es.length) :
    Fscheck.inum s.img (entryPlace B i e) = (es.getD e (0, [])).1 := by
  rw [← get_dirent (es.getD e (0, [])).2 (h.number e)]
  refine Mem.get_congr fun t ht => ?_
  rw [h.byte hr he (by omega), Nat.zero_add, St.bytesAt]

theorem Lists.isDot (h : Lists f i es) (hr : Ready s B f) (he : e < places es.length) :
    Fscheck.isDot s.img (entryPlace B i e) ↔ DotName (es.getD e (0, [])).2 := by
  rw [Fscheck.isDot, h.byte hr he (by decide), dirent_two, DotName]
  cases (es.getD e (0, [])).2 with
  | nil => exact iff_of_false (by decide) nofun
  | cons c name => exact ⟨congrArg some, Option.some.inj⟩

/-- The places that the checker goes over. -/
theorem Lists.dirents (h : Lists f i es) (hr : Ready s B f) :
    Fscheck.dirents s.img i = (List.range (places es.length)).map (entryPlace B i) := by
  have hblocks : (Fscheck.nonzero (Fscheck.refs s.img i)).flatMap Fscheck.slots =
      (List.range ((16 * es.length + 511) / 512)).flatMap fun j =>
        (List.range 32).map fun n => B i j * 512 + 16 * n := by
    rw [hr.refs_direct h.inode h.direct, h.length, List.flatMap_map]
    refine List.flatMap_congr fun j hj => ?_
    have he : 32 * j < places es.length := by
      rw [List.mem_range] at hj
      simp only [places]
      omega
    obtain ⟨-, -, hlt⟩ := h.block hr he
    rw [Nat.mul_div_cancel_left j (by decide)] at hlt
    rw [Fscheck.slots, fscheck_place hlt]
    rfl
  exact hblocks.trans (range_blocks (by decide) (fun j n => B i j * 512 + 16 * n) _)

/-- Reading on past the entries finds zeros. -/
theorem refsOf_append_zeros (es : List (Nat × List UInt8)) (n : Nat) :
    refsOf (es ++ List.replicate n (0, [])) = refsOf es ++ List.replicate n 0 := by
  rw [refsOf, List.filter_append, List.map_append, List.filter_replicate_of_pos (by decide),
    List.map_replicate]
  rfl

/-- The numbers that the checker counts in a directory. -/
theorem Lists.inums (h : Lists f i es) (hr : Ready s B f) (hn : 0 < Fscheck.ninodes s.img) :
    Fscheck.inums s.img (Fscheck.dirents s.img i) =
      refsOf es ++ List.replicate (places es.length - es.length) 0 := by
  have hskip : (List.range (places es.length)).filter
        ((fun o => decide (¬ Fscheck.Skipped s.img o)) ∘ entryPlace B i) =
      (List.range (places es.length)).filter
        ((fun e => decide (¬ DotName e.2)) ∘ (es.getD · (0, []))) :=
    List.filter_congr fun e he => decide_eq_decide.mpr
      (not_congr ((Fscheck.skipped_iff hn).trans (h.isDot hr (List.mem_range.mp he))))
  have hlen : es.length ≤ places es.length := by
    simp only [places]
    omega
  rw [← refsOf_append_zeros, ← range_getD es _ hlen, refsOf, Fscheck.inums, h.dirents hr,
    List.filter_map, List.filter_map, List.map_map, List.map_map, hskip]
  exact List.map_congr_left fun e he => h.inum hr (List.mem_range.mp (List.mem_filter.mp he).1)

end Cs537.Mkfs
