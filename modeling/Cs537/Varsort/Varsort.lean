/-
# `Cs537.Varsort.Varsort` — sorting records of variable length (p1/linux)

A record file is a count and, for each record, its key, the number of words of
its payload, and the words; all are 32-bit numbers in little-endian bytes.
`genvar` writes such files and `dumpvar` reads them.  `varsort` reads one into
an array of keys, lengths and pointers, has `qsort` sort the array, and writes
the payloads behind their keys.

A file is the list of its bytes; `read` returns all the bytes it is asked for,
or less only at the end of the file.  Memory does not run out, but a request
for a negative size is one for more than there is.  `none` is an exit with an
error message.
-/
import Mathlib.Data.List.Perm.Basic
import Cs537.Lib.Bytes

namespace Cs537.Varsort

open Cs537.Lib

/-! ## Record files -/

structure Record where
  key : UInt32
  data : List UInt32

def Record.encode (r : Record) : List UInt8 :=
  le32 r.key ++ le32 (UInt32.ofNat r.data.length) ++ r.data.flatMap le32

/-- The file that `genvar` writes. -/
def encode (recs : List Record) : List UInt8 :=
  le32 (UInt32.ofNat recs.length) ++ recs.flatMap Record.encode

/-- `read` of `n` bytes, and what is left of the file; `none` if there are less. -/
def read (n : Nat) (file : List UInt8) : Option (List UInt8 × List UInt8) :=
  if n ≤ file.length then some (file.take n, file.drop n) else none

def read32 (file : List UInt8) : Option (UInt32 × List UInt8) :=
  (read 4 file).map fun (bs, file) => (ofLe32 bs, file)

/-- The loop of `dumpvar`; `max` is `MAX_DATA_INTS`. -/
def dumpLoop (max : Nat) : (recordsLeft : Nat) → List UInt8 → Option (List Record × List UInt8)
  | 0, file => some ([], file)
  | n + 1, file => do
      let (key, file) ← read32 file
      let (data_ints, file) ← read32 file
      if data_ints.toNat ≤ max then
        let (data, file) ← read (data_ints.toNat * 4) file
        let (recs, file) ← dumpLoop max n file
        some (⟨key, words data⟩ :: recs, file)
      else none

/-- `dumpvar`: the number of records, the records, and what it does not read. -/
def dumpvar (max : Nat) (file : List UInt8) : Option (UInt32 × List Record × List UInt8) := do
  let (recordsLeft, file) ← read32 file
  let (recs, file) ← dumpLoop max recordsLeft.toNat file
  some (recordsLeft, recs, file)

/-! ## `varsort` -/

/-- `rec_dataptr_t`; a pointer is the number of its `malloc`. -/
structure RecDataptr where
  key : UInt32
  data_ints : UInt32
  data_ptr : Nat

def compare (f1 f2 : RecDataptr) : Int :=
  if f1.key < f2.key then -1 else if f1.key = f2.key then 0 else 1

/-- The memory from `malloc`: the blocks handed out so far, `none` when freed. -/
abbrev Heap := List (Option (List UInt8))

/-- A number of type `size_t` put into an `int`. -/
def toInt (n : Nat) : Int :=
  if n % 2 ^ 32 < 2 ^ 31 then (n % 2 ^ 32 : Nat) else (n % 2 ^ 32 : Nat) - 2 ^ 32

/-- The loop that reads the records. -/
def readLoop : (n : Nat) → Heap → List UInt8 → Option (List RecDataptr × Heap × List UInt8)
  | 0, heap, file => some ([], heap, file)
  | n + 1, heap, file => do
      let (key, file) ← read32 file
      let (data_ints, file) ← read32 file
      let ptr_size := toInt (data_ints.toNat * 4)
      if ptr_size < 0 then none
      else
        let (data, file) ← read ptr_size.toNat file
        if ptr_size = (data_ints.toNat * 4 : Nat) then
          let (array, heap', file) ← readLoop n (heap ++ [some data]) file
          some (⟨key, data_ints, heap.length⟩ :: array, heap', file)
        else none

/-- The loop that writes the records, and frees the payloads. -/
def writeLoop : List RecDataptr → Heap → Option (List UInt8)
  | [], _ => some []
  | r :: array, heap => do
      let data_size := toInt (r.data_ints.toNat * 4)
      let block ← heap[r.data_ptr]?
      let data ← block
      if data_size < 0 ∨ data.length < data_size then none
      else
        let out ← writeLoop array (heap.set r.data_ptr none)
        some (le32 r.key ++ le32 r.data_ints ++ data.take data_size.toNat ++ out)

/-- `main`: the output file. -/
def varsort (qsort : (RecDataptr → RecDataptr → Int) → List RecDataptr → List RecDataptr)
    (file : List UInt8) : Option (List UInt8) := do
  let (header, file) ← read32 file
  let nrecords := toInt header.toNat
  if nrecords < 0 then none
  else
    let (array, heap, _) ← readLoop nrecords.toNat [] file
    let out ← writeLoop (qsort compare array) heap
    some (le32 header ++ out)

/-! ## Reading what was written -/

variable {file : List UInt8} {n : Nat}

theorem read_append {bs : List UInt8} (h : bs.length = n) :
    read n (bs ++ file) = some (bs, file) := by
  subst h
  simp [read]

theorem read32_append (w : UInt32) : read32 (le32 w ++ file) = some (w, file) := by
  rw [read32, read_append (length_le32 w)]
  simp

theorem toInt_of_lt {m : Nat} (h : m < 2 ^ 31) : toInt m = m := by
  rw [toInt, Nat.mod_eq_of_lt (by omega), if_pos h]

/-- The payload is of a size that an `int` holds. -/
def Record.Fits (r : Record) : Prop := r.data.length * 4 < 2 ^ 31

instance (r : Record) : Decidable r.Fits := inferInstanceAs (Decidable (_ < _))

theorem data_ints_toNat {r : Record} (h : r.Fits) :
    (UInt32.ofNat r.data.length).toNat = r.data.length := by
  rw [Record.Fits] at h
  rw [UInt32.toNat_ofNat', Nat.mod_eq_of_lt (by omega)]

theorem dumpLoop_encode {max : Nat} {recs : List Record}
    (h : ∀ r ∈ recs, r.Fits ∧ r.data.length ≤ max) (file : List UInt8) :
    dumpLoop max recs.length (recs.flatMap Record.encode ++ file) = some (recs, file) := by
  induction recs with
  | nil => rfl
  | cons r recs ih =>
      obtain ⟨hfits, hmax⟩ := h r (List.mem_cons_self ..)
      have ih := ih fun r hr => h r (List.mem_cons_of_mem _ hr)
      have hread : read (r.data.length * 4)
          (r.data.flatMap le32 ++ (recs.flatMap Record.encode ++ file)) =
            some (r.data.flatMap le32, recs.flatMap Record.encode ++ file) :=
        read_append (by rw [length_flatMap_le32, Nat.mul_comm])
      simp only [List.length_cons, dumpLoop, List.flatMap_cons, Record.encode, List.append_assoc,
        read32_append, Option.bind_eq_bind, Option.bind_some, data_ints_toNat hfits, if_pos hmax,
        hread, ih, words_flatMap_le32]

theorem dumpvar_encode {max : Nat} {recs : List Record} (hcount : recs.length < 2 ^ 31)
    (h : ∀ r ∈ recs, r.Fits ∧ r.data.length ≤ max) :
    dumpvar max (encode recs) = some (UInt32.ofNat recs.length, recs, []) := by
  have hloop := dumpLoop_encode h []
  rw [List.append_nil] at hloop
  have hn : (UInt32.ofNat recs.length).toNat = recs.length := by
    rw [UInt32.toNat_ofNat', Nat.mod_eq_of_lt (by omega)]
  simp only [dumpvar, encode, read32_append, Option.bind_eq_bind, Option.bind_some, hn, hloop]

/-! ## The array -/

/-- The array after the records are read, the first payload at the pointer `p`. -/
def load : (p : Nat) → List Record → List RecDataptr
  | _, [] => []
  | p, r :: recs => ⟨r.key, UInt32.ofNat r.data.length, p⟩ :: load (p + 1) recs

def payloads (recs : List Record) : Heap := recs.map fun r => some (r.data.flatMap le32)

theorem readLoop_encode {recs : List Record} (h : ∀ r ∈ recs, r.Fits) (heap : Heap)
    (file : List UInt8) :
    readLoop recs.length heap (recs.flatMap Record.encode ++ file) =
      some (load heap.length recs, heap ++ payloads recs, file) := by
  induction recs generalizing heap with
  | nil => simp [readLoop, load, payloads]
  | cons r recs ih =>
      have hfits : r.Fits := h r (List.mem_cons_self ..)
      have ih := ih (fun r hr => h r (List.mem_cons_of_mem _ hr)) (heap ++ [some (r.data.flatMap le32)])
      have hint : toInt (r.data.length * 4) = (r.data.length * 4 : Nat) := toInt_of_lt hfits
      have hread : read (r.data.length * 4)
          (r.data.flatMap le32 ++ (recs.flatMap Record.encode ++ file)) =
            some (r.data.flatMap le32, recs.flatMap Record.encode ++ file) :=
        read_append (by rw [length_flatMap_le32, Nat.mul_comm])
      have hnot : ¬ ((r.data.length * 4 : Nat) : Int) < 0 := by omega
      simp only [List.length_cons, readLoop, List.flatMap_cons, Record.encode, List.append_assoc,
        read32_append, Option.bind_eq_bind, Option.bind_some, data_ints_toNat hfits, hint,
        if_neg hnot, Int.toNat_natCast, hread, if_true, ih,
        List.length_append, List.length_nil, Nat.zero_add, load, payloads, List.map_cons,
        List.singleton_append]

/-- The record that an element of the array stands for. -/
def recOf (heap : Heap) (a : RecDataptr) : Record := ⟨a.key, words (heap[a.data_ptr]?.join.getD [])⟩

/-- The payload is where the pointer says, and as long. -/
def Good (heap : Heap) (a : RecDataptr) : Prop :=
  (recOf heap a).Fits ∧ a.data_ints = UInt32.ofNat (recOf heap a).data.length ∧
    heap[a.data_ptr]? = some (some ((recOf heap a).data.flatMap le32))

theorem load_ptr {p : Nat} {recs : List Record} {a : RecDataptr} (h : a ∈ load p recs) :
    p ≤ a.data_ptr := by
  induction recs generalizing p with
  | nil => cases h
  | cons r recs ih =>
      rcases List.mem_cons.mp h with rfl | h
      · exact Nat.le_refl p
      · exact Nat.le_of_succ_le (ih h)

theorem nodup_load (p : Nat) (recs : List Record) : ((load p recs).map RecDataptr.data_ptr).Nodup := by
  induction recs generalizing p with
  | nil => exact List.nodup_nil
  | cons r recs ih =>
      refine List.nodup_cons.mpr ⟨fun hp => ?_, ih (p + 1)⟩
      obtain ⟨a, ha, hap⟩ := List.mem_map.mp hp
      have := load_ptr ha
      simp only at hap
      omega

theorem recOf_load {recs : List Record} (h : ∀ r ∈ recs, r.Fits) (pre : Heap) :
    (load pre.length recs).map (recOf (pre ++ payloads recs)) = recs ∧
      ∀ a ∈ load pre.length recs, Good (pre ++ payloads recs) a := by
  induction recs generalizing pre with
  | nil => exact ⟨rfl, fun a ha => absurd ha List.not_mem_nil⟩
  | cons r recs ih =>
      have ih := ih (fun r hr => h r (List.mem_cons_of_mem _ hr)) (pre ++ [some (r.data.flatMap le32)])
      rw [List.length_append, List.length_singleton, List.append_assoc, List.singleton_append] at ih
      have hblock : (pre ++ payloads (r :: recs))[pre.length]? = some (some (r.data.flatMap le32)) := by
        simp [payloads]
      have hrec : recOf (pre ++ payloads (r :: recs))
          ⟨r.key, UInt32.ofNat r.data.length, pre.length⟩ = r := by
        rw [recOf, hblock, Option.join_some, Option.getD_some, words_flatMap_le32]
      constructor
      · rw [load, List.map_cons, hrec]
        exact congrArg _ ih.1
      · intro a ha
        rcases List.mem_cons.mp ha with rfl | ha
        · rw [Good, hrec]
          exact ⟨h r (List.mem_cons_self ..), rfl, hblock⟩
        · exact ih.2 a ha

theorem recOf_set {heap : Heap} {a : RecDataptr} {p : Nat} (h : a.data_ptr ≠ p) :
    recOf (heap.set p none) a = recOf heap a := by
  rw [recOf, recOf, List.getElem?_set_ne h.symm]

theorem Good.set {heap : Heap} {a : RecDataptr} {p : Nat} (hg : Good heap a) (h : a.data_ptr ≠ p) :
    Good (heap.set p none) a := by
  rw [Good, recOf_set h, List.getElem?_set_ne h.symm]
  exact hg

/-- The records go out in the order of the array, each with its own payload. -/
theorem writeLoop_good {array : List RecDataptr} {heap : Heap} (hgood : ∀ a ∈ array, Good heap a)
    (hnodup : (array.map RecDataptr.data_ptr).Nodup) :
    writeLoop array heap = some ((array.map (recOf heap)).flatMap Record.encode) := by
  induction array generalizing heap with
  | nil => rfl
  | cons a array ih =>
      obtain ⟨hfits, hints, hblock⟩ := hgood a (List.mem_cons_self ..)
      obtain ⟨hnotin, hnodup⟩ := List.nodup_cons.mp hnodup
      have hne : ∀ b ∈ array, b.data_ptr ≠ a.data_ptr := fun b hb he =>
        hnotin (he ▸ List.mem_map_of_mem hb)
      have hrest := @ih (heap.set a.data_ptr none)
        (fun b hb => (hgood b (List.mem_cons_of_mem _ hb)).set (hne b hb)) hnodup
      rw [List.map_congr_left fun b hb => recOf_set (hne b hb)] at hrest
      have hint : toInt (a.data_ints.toNat * 4) = ((recOf heap a).data.length * 4 : Nat) := by
        rw [hints, data_ints_toNat hfits]
        exact toInt_of_lt hfits
      have hlen : ((recOf heap a).data.flatMap le32).length = (recOf heap a).data.length * 4 := by
        rw [length_flatMap_le32, Nat.mul_comm]
      have hnot : ¬ (((recOf heap a).data.length * 4 : Nat) < (0 : Int) ∨
          ((((recOf heap a).data.flatMap le32).length : Nat) : Int) <
            ((recOf heap a).data.length * 4 : Nat)) := by
        rw [hlen]
        omega
      have htake : ((recOf heap a).data.flatMap le32).take ((recOf heap a).data.length * 4) =
          (recOf heap a).data.flatMap le32 := List.take_of_length_le (Nat.le_of_eq hlen)
      simp only [writeLoop, hint, hblock, Option.bind_eq_bind, Option.bind_some, if_neg hnot, hrest,
        Int.toNat_natCast, List.map_cons, List.flatMap_cons, Record.encode, htake, ← hints]
      rfl

/-! ## Sorting -/

/-- What `qsort` asks of the function it is given. -/
structure Consistent (cmp : RecDataptr → RecDataptr → Int) : Prop where
  antisymm : ∀ a b, 0 < cmp a b ↔ cmp b a < 0
  trans : ∀ a b c, cmp a b ≤ 0 → cmp b c ≤ 0 → cmp a c ≤ 0

/-- What `qsort` promises. -/
def Sorts (qsort : (RecDataptr → RecDataptr → Int) → List RecDataptr → List RecDataptr) : Prop :=
  ∀ cmp, Consistent cmp → ∀ l, (qsort cmp l).Perm l ∧ (qsort cmp l).Pairwise fun a b => cmp a b ≤ 0

theorem compare_nonpos {a b : RecDataptr} : compare a b ≤ 0 ↔ a.key ≤ b.key := by
  simp only [compare, UInt32.lt_iff_toNat_lt, UInt32.le_iff_toNat_le, ← UInt32.toNat_inj]
  split
  · omega
  · split <;> omega

theorem compare_consistent : Consistent compare where
  antisymm a b := by
    simp only [compare, UInt32.lt_iff_toNat_lt, ← UInt32.toNat_inj]
    split <;> split <;> (try split) <;> (try split) <;> omega
  trans a b c hab hbc := by
    rw [compare_nonpos] at hab hbc ⊢
    exact UInt32.le_trans hab hbc

/-- `varsort` sorts: its output has the same records, in the order of their
keys, and `dumpvar` reads all of it. -/
theorem varsort_sorts
    {qsort : (RecDataptr → RecDataptr → Int) → List RecDataptr → List RecDataptr}
    (hqsort : Sorts qsort) {recs : List Record} (hcount : recs.length < 2 ^ 31)
    (hfits : ∀ r ∈ recs, r.Fits) {max : Nat} (hmax : ∀ r ∈ recs, r.data.length ≤ max) :
    ∃ out recs', varsort qsort (encode recs) = some out ∧
      dumpvar max out = some (UInt32.ofNat recs.length, recs', []) ∧
      recs'.Perm recs ∧ recs'.Pairwise fun r r' => r.key ≤ r'.key := by
  obtain ⟨hperm, hsorted⟩ := hqsort compare compare_consistent (load 0 recs)
  obtain ⟨hload, hgood⟩ := recOf_load hfits []
  rw [List.nil_append] at hload hgood
  have hwrite : writeLoop (qsort compare (load 0 recs)) (payloads recs) =
      some (((qsort compare (load 0 recs)).map (recOf (payloads recs))).flatMap Record.encode) :=
    writeLoop_good (fun a ha => hgood a (hperm.mem_iff.mp ha))
      ((hperm.map _).nodup_iff.mpr (nodup_load 0 recs))
  generalize hr : (qsort compare (load 0 recs)).map (recOf (payloads recs)) = recs' at hwrite
  have hperm' : recs'.Perm recs := by
    rw [← hr]
    exact (hperm.map _).trans (.of_eq hload)
  have hlen := hperm'.length_eq
  have hread := readLoop_encode hfits [] []
  rw [List.append_nil] at hread
  have hn : (UInt32.ofNat recs.length).toNat = recs.length := by
    rw [UInt32.toNat_ofNat', Nat.mod_eq_of_lt (by omega)]
  have hint : toInt recs.length = recs.length := toInt_of_lt hcount
  refine ⟨encode recs', recs', ?_, ?_, hperm', ?_⟩
  · have hnot : ¬ (recs.length : Int) < 0 := by omega
    simp only [varsort, encode, read32_append, Option.bind_eq_bind, Option.bind_some, hn, hint,
      if_neg hnot, Int.toNat_natCast, hread, List.length_nil, List.nil_append, hwrite, hlen]
  · rw [← hlen]
    refine dumpvar_encode (hlen ▸ hcount) fun r hr => ?_
    have hmem := hperm'.mem_iff.mp hr
    exact ⟨hfits r hmem, hmax r hmem⟩
  · rw [← hr, List.pairwise_map]
    exact hsorted.imp fun hab => compare_nonpos.mp hab

/-- A `qsort`. -/
def mergeQsort (cmp : RecDataptr → RecDataptr → Int) (l : List RecDataptr) : List RecDataptr :=
  l.mergeSort fun a b => decide (cmp a b ≤ 0)

theorem mergeQsort_sorts : Sorts mergeQsort := by
  intro cmp hcmp l
  refine ⟨List.mergeSort_perm l _, ?_⟩
  have hsorted := @List.pairwise_mergeSort _ (fun a b => decide (cmp a b ≤ 0))
    (fun a b c hab hbc => by
      simp only [decide_eq_true_eq] at hab hbc ⊢
      exact hcmp.trans a b c hab hbc)
    (fun a b => by
      simp only [Bool.or_eq_true, decide_eq_true_eq]
      have := hcmp.antisymm a b
      omega) l
  exact hsorted.imp fun hab => of_decide_eq_true hab

def threeRecords : List Record := [⟨0xFFFFFFFF, [7, 8]⟩, ⟨3, []⟩, ⟨0xFFFFFFFF, [9]⟩]

theorem varsort_sorts_three : (∀ r ∈ threeRecords, r.Fits ∧ r.data.length ≤ 10) ∧
    ∃ out recs', varsort mergeQsort (encode threeRecords) = some out ∧
      dumpvar 10 out = some (3, recs', []) ∧
      recs'.Perm threeRecords ∧ recs'.Pairwise fun r r' => r.key ≤ r'.key :=
  ⟨by decide, varsort_sorts mergeQsort_sorts (by decide) (by decide) (by decide)⟩

end Cs537.Varsort
