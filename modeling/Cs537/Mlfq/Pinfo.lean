/-
# `Cs537.Mlfq.Pinfo` — what `getpinfo` writes (p2/xv6)

`sys_getpinfo` writes the processes of the table to the first entries of the
caller's `struct pstat`, one after the other, and leaves the entries behind them
as they are.  With `inuse` still at 1 there, from an earlier call, a process is
shown that is no longer in the table.
-/
import Cs537.Mlfq.System
import Mathlib.Algebra.Order.Group.Multiset

namespace Cs537.Mlfq

/-! ## `struct pstat` -/

/-- The number of an `enum procstate`. -/
def PState.code : PState → BitVec 32
  | unused => 0
  | embryo => 1
  | sleeping => 2
  | runnable => 3
  | running => 4
  | zombie => 5

/-- The arrays of `struct pstat`, of `int`s. -/
structure Pstat where
  inuse : Nat → BitVec 32
  pid : Nat → BitVec 32
  priority : Nat → BitVec 32
  state : Nat → BitVec 32
  ticks : Nat → Fin 4 → BitVec 32

/-- `sizeof(struct pstat)` -/
def sizeofPstat : Nat := nproc * (4 * 4 + 4 * 4)

/-- Entry `i` for the process `p`. -/
def Pstat.put (ps : Pstat) (i : Nat) (p : Proc) : Pstat where
  inuse := Function.update ps.inuse i 1
  pid := Function.update ps.pid i (BitVec.ofInt 32 p.pid)
  priority := Function.update ps.priority i (BitVec.ofNat 32 p.priority)
  state := Function.update ps.state i p.state.code
  ticks := Function.update ps.ticks i fun j => p.ticks j.val

/-- The loop of `sys_getpinfo` over the slots `l`, from entry `i` on. -/
def fill (T : Table) : List Slot → Nat → Pstat → Pstat
  | [], _, ps => ps
  | p :: l, i, ps =>
      if (T p).state = .unused then fill T l i ps else fill T l (i + 1) (ps.put i (T p))

/-- `sys_getpinfo` with the argument `addr`, in a process of `sz` bytes with `ps`
at this address. -/
def sysGetpinfo (sz addr : Nat) (T : Table) (ps : Pstat) : Int × Pstat :=
  if addr ≥ sz ∨ addr + sizeofPstat > sz then (-1, ps)
  else (0, fill T (List.finRange nproc) 0 ps)

/-! ## What it shows -/

/-- What is told of a process. -/
structure Info where
  pid : BitVec 32
  priority : BitVec 32
  state : BitVec 32
  ticks : Fin 4 → BitVec 32
  deriving DecidableEq

def Proc.info (p : Proc) : Info where
  pid := BitVec.ofInt 32 p.pid
  priority := BitVec.ofNat 32 p.priority
  state := p.state.code
  ticks j := p.ticks j.val

def Pstat.info (ps : Pstat) (i : Nat) : Info where
  pid := ps.pid i
  priority := ps.priority i
  state := ps.state i
  ticks := ps.ticks i

/-- The processes that are not `UNUSED`. -/
def Table.used (T : Table) (l : List Slot) : List Info :=
  (l.filter fun p => (T p).state ≠ .unused).map fun p => (T p).info

def Table.present (T : Table) : Multiset Info := T.used (List.finRange nproc)

/-- The entries with `inuse == 1`. -/
def Pstat.shown (ps : Pstat) : Multiset Info :=
  ((List.range nproc).filter fun i => ps.inuse i = 1).map ps.info

section

variable {T : Table} {ps' : Pstat} {l : List Slot} {p : Slot} {i k : Nat} {sz addr : Nat}

theorem put_self (ps : Pstat) : (ps.put i (T p)).inuse i = 1 ∧ (ps.put i (T p)).info i = (T p).info := by
  simp [Pstat.put, Pstat.info, Proc.info]

theorem put_other (ps : Pstat) (h : k ≠ i) :
    (ps.put i (T p)).inuse k = ps.inuse k ∧ (ps.put i (T p)).info k = ps.info k := by
  simp [Pstat.put, Pstat.info, Function.update_of_ne h]

theorem used_unused (h : (T p).state = .unused) : T.used (p :: l) = T.used l := by
  simp [Table.used, h]

theorem used_cons (h : (T p).state ≠ .unused) : T.used (p :: l) = (T p).info :: T.used l := by
  simp [Table.used, h]

theorem used_length_le (T : Table) (l : List Slot) : (T.used l).length ≤ l.length := by
  rw [Table.used, List.length_map]
  exact List.length_filter_le _ l

/-- The entries that are not written. -/
theorem fill_apart (ps : Pstat) (h : k < i ∨ i + (T.used l).length ≤ k) :
    (fill T l i ps).inuse k = ps.inuse k ∧ (fill T l i ps).info k = ps.info k := by
  induction l generalizing i ps with
  | nil => exact ⟨rfl, rfl⟩
  | cons p l ih =>
      rw [fill]
      by_cases hp : (T p).state = .unused
      · rw [if_pos hp]
        rw [used_unused hp] at h
        exact ih ps h
      · rw [if_neg hp]
        rw [used_cons hp, List.length_cons] at h
        obtain ⟨hin, hinfo⟩ := ih (i := i + 1) (ps.put i (T p)) (by omega)
        obtain ⟨hin', hinfo'⟩ := put_other (T := T) (p := p) ps (show k ≠ i by omega)
        exact ⟨hin.trans hin', hinfo.trans hinfo'⟩

/-- The entries that are: the processes in slot order. -/
theorem fill_written (ps : Pstat) (h : k < (T.used l).length) :
    (fill T l i ps).inuse (i + k) = 1 ∧ (T.used l)[k]? = some ((fill T l i ps).info (i + k)) := by
  induction l generalizing i k ps with
  | nil => exact absurd h (Nat.not_lt_zero k)
  | cons p l ih =>
      rw [fill]
      by_cases hp : (T p).state = .unused
      · rw [if_pos hp, used_unused hp]
        rw [used_unused hp] at h
        exact ih ps h
      · rw [if_neg hp, used_cons hp]
        rw [used_cons hp, List.length_cons] at h
        cases k with
        | zero =>
            obtain ⟨hin, hinfo⟩ := fill_apart (T := T) (l := l) (ps.put i (T p))
              (.inl (show i < i + 1 by omega))
            obtain ⟨hin', hinfo'⟩ := put_self (T := T) (p := p) (i := i) ps
            exact ⟨hin.trans hin', congrArg some (hinfo.trans hinfo').symm⟩
        | succ k =>
            have hnext : i + (k + 1) = i + 1 + k := by omega
            rw [List.getElem?_cons_succ, hnext]
            exact ih _ (Nat.lt_of_succ_lt_succ h)

/-- What a call shows: the processes, and what the entries behind them have
shown before. -/
theorem shown_fill {m : Nat} (ps : Pstat) (hm : (T.used (List.finRange nproc)).length = m) :
    (fill T (List.finRange nproc) 0 ps).shown =
      T.present + ((List.range' m (nproc - m)).filter fun i => ps.inuse i = 1).map ps.info := by
  have hle := used_length_le T (List.finRange nproc)
  rw [hm, List.length_finRange] at hle
  have hsplit : List.range nproc = List.range m ++ List.range' m (nproc - m) := by
    have happ := List.range'_append_1 (s := 0) (m := m) (n := nproc - m)
    rw [Nat.zero_add, Nat.add_sub_cancel' hle] at happ
    rw [List.range_eq_range', List.range_eq_range', happ]
  have hwritten : ∀ i < m, (fill T (List.finRange nproc) 0 ps).inuse i = 1 ∧
      (T.used (List.finRange nproc))[i]? = some ((fill T (List.finRange nproc) 0 ps).info i) :=
    fun i hi => by
      have hfill := fill_written (T := T) (l := List.finRange nproc) (i := 0) ps (hm ▸ hi)
      rwa [Nat.zero_add] at hfill
  have hfirst : ((List.range m).filter fun i =>
      (fill T (List.finRange nproc) 0 ps).inuse i = 1).map (fill T (List.finRange nproc) 0 ps).info =
      T.used (List.finRange nproc) := by
    rw [List.filter_eq_self.mpr fun i hi =>
      decide_eq_true (hwritten i (List.mem_range.mp hi)).1]
    refine List.ext_getElem? fun i => ?_
    by_cases hi : i < m
    · rw [List.getElem?_map, List.getElem?_range hi, (hwritten i hi).2]
      rfl
    · rw [List.getElem?_eq_none (by simpa using hi), List.getElem?_eq_none (by omega)]
  have hlast : ((List.range' m (nproc - m)).filter fun i =>
      (fill T (List.finRange nproc) 0 ps).inuse i = 1).map (fill T (List.finRange nproc) 0 ps).info =
      ((List.range' m (nproc - m)).filter fun i => ps.inuse i = 1).map ps.info := by
    have hsame : ∀ i ∈ List.range' m (nproc - m),
        (fill T (List.finRange nproc) 0 ps).inuse i = ps.inuse i ∧
          (fill T (List.finRange nproc) 0 ps).info i = ps.info i := fun i hi =>
      fill_apart ps (.inr (by rw [Nat.zero_add, hm]; exact (List.mem_range'_1.mp hi).1))
    rw [List.filter_congr fun i hi => by rw [(hsame i hi).1]]
    exact List.map_congr_left fun i hi => (hsame i (List.mem_filter.mp hi).1).2
  rw [Pstat.shown, hsplit, List.filter_append, List.map_append, hfirst, hlast]
  rfl

theorem sysGetpinfo_fill {ps : Pstat} (h : sysGetpinfo sz addr T ps = (0, ps')) :
    fill T (List.finRange nproc) 0 ps = ps' := by
  rw [sysGetpinfo] at h
  split at h
  · cases h
  · exact congrArg Prod.snd h

/-- A call shows the processes of the table just if the buffer had no entry with
`inuse == 1` behind the last one that it writes. -/
theorem getpinfo_iff {ps : Pstat} (h : sysGetpinfo sz addr T ps = (0, ps')) : ps'.shown = T.present ↔
    ∀ i, T.present.card ≤ i → i < nproc → ps.inuse i ≠ 1 := by
  obtain rfl := sysGetpinfo_fill h
  have hle := used_length_le T (List.finRange nproc)
  rw [List.length_finRange] at hle
  have hcard : T.present.card = (T.used (List.finRange nproc)).length := rfl
  rw [shown_fill ps rfl, add_eq_left, Multiset.coe_eq_zero, List.map_eq_nil_iff,
    List.filter_eq_nil_iff, hcard]
  constructor
  · intro hnone i hi hlt hin
    exact hnone i (List.mem_range'_1.mpr ⟨hi, by omega⟩) (decide_eq_true hin)
  · intro hnone i hi hin
    obtain ⟨hge, hlt⟩ := List.mem_range'_1.mp hi
    exact hnone i hge (by omega) (of_decide_eq_true hin)

end

/-! ## Two calls -/

/-- A `struct pstat` of zeros. -/
def emptyPstat : Pstat := ⟨fun _ => 0, fun _ => 0, fun _ => 0, fun _ => 0, fun _ _ => 0⟩

/-- `init` and a child of it. -/
def withChild : Table := Function.update (boot 1).ptable ⟨1, by decide⟩
  { (boot 1).ptable initproc with pid := 2, parent := some initproc }

theorem getpinfo_empty : ∃ ps', sysGetpinfo 4096 0 withChild emptyPstat = (0, ps') ∧
    ps'.shown = withChild.present := by
  have hcall : sysGetpinfo 4096 0 withChild emptyPstat =
    (0, fill withChild (List.finRange nproc) 0 emptyPstat) := rfl
  exact ⟨_, hcall, (getpinfo_iff hcall).mpr fun _ _ _ => (by decide : (0 : BitVec 32) ≠ 1)⟩

/-- The child has exited and has been waited for between two calls with the same
buffer: the second shows it still. -/
theorem stale_entry : ¬ ∀ (sz addr : Nat) (T : Table) (ps ps' : Pstat),
    sysGetpinfo sz addr T ps = (0, ps') → ps'.shown = T.present := by
  intro h
  have hshown := h 4096 0 (boot 1).ptable (sysGetpinfo 4096 0 withChild emptyPstat).2 _ rfl
  have hcard : (fill (boot 1).ptable (List.finRange nproc) 0
      (sysGetpinfo 4096 0 withChild emptyPstat).2).shown.card ≠ (boot 1).ptable.present.card := by
    decide +kernel
  exact hcard (congrArg Multiset.card hshown)

end Cs537.Mlfq
