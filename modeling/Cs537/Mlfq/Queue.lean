/-
# `Cs537.Mlfq.Queue` — when `p3q` is a queue of the level-3 processes

`addq` is called for every `RUNNABLE` process at level 3 that `scheduler` looks at,
whether its pid is in the queue already or not, and `remq` once in 20 dispatches
of the process that comes back, whatever the queue holds.  A pid in the queue
may be that of a process which `wait` has reaped, or whose priority `fork` sets
to 0 after it has been made `RUNNABLE`.

`Represents` says what the queue should be, in the state between two critical
sections: `size` in the range of the ring, `rear` where it has to be, no pid
twice, and each pid that of a process at level 3.  It holds in all states of a
run just when no step does one of the four things (`Orderly`): `queue_run`.
The steps are those of `Cs537.Mlfq.Fork`, with each assignment of `fork` on its own.
-/
import Cs537.Lib.Ring
import Cs537.Mlfq.Conserve
import Cs537.Mlfq.Fork
import Cs537.Mlfq.Pids

namespace Cs537.Mlfq

open Cs537.Lib

/-! ## The ring -/

/-- The ring, for indices that are integers. -/
def Queue.cell (Q : Queue) (i : Int) : Int :=
  if h : i.toNat < qlen then Q.p3q ⟨i.toNat, h⟩ else 0

/-- The `size` entries from `front` on. -/
def Queue.entries (Q : Queue) : List Int := ring qlen Q.cell Q.front.val Q.size.toInt.toNat

structure Queue.Formed (Q : Queue) : Prop where
  nonneg : 0 ≤ Q.size.toInt
  le : Q.size.toInt ≤ qlen
  rear : (Q.rear.val : Int) = (Q.front.val + Q.size.toInt - 1) % qlen

instance (Q : Queue) : Decidable Q.Formed :=
  decidable_of_iff (0 ≤ Q.size.toInt ∧ Q.size.toInt ≤ qlen ∧
      (Q.rear.val : Int) = (Q.front.val + Q.size.toInt - 1) % qlen)
    ⟨fun h => ⟨h.1, h.2.1, h.2.2⟩, fun h => ⟨h.nonneg, h.le, h.rear⟩⟩

section

variable {Q : Queue} {pid : Int} {l : List Int}

theorem cell_val (Q : Queue) (i : Fin qlen) : Q.cell i.val = Q.p3q i := dif_pos i.isLt

theorem toInt_add_ofNat {x : BitVec 32} {k : Nat} (h : -1 ≤ x.toInt) (hk : x.toInt + k ≤ 1000)
    (hk' : k ≤ 1000) : (x + BitVec.ofNat 32 k).toInt = x.toInt + k := by
  have hofNat : (BitVec.ofNat 32 k).toInt = k := by
    rw [BitVec.toInt_ofNat', Int.bmod_eq_of_le (by omega) (by omega)]
  rw [BitVec.toInt_add, hofNat, Int.bmod_eq_of_le (by omega) (by omega)]

theorem toInt_sub_one {x : BitVec 32} (h : 0 ≤ x.toInt) : (x - 1).toInt = x.toInt - 1 := by
  have hlt : x.toInt < 2 ^ 31 := BitVec.toInt_lt
  have hone : (1 : BitVec 32).toInt = 1 := by decide
  rw [BitVec.toInt_sub, hone, Int.bmod_eq_of_le (by omega) (by omega)]

theorem entries_length (Q : Queue) : Q.entries.length = Q.size.toInt.toNat := by
  rw [Queue.entries, ring, List.length_map, List.length_range]

theorem Queue.Formed.length (h : Q.Formed) : (Q.entries.length : Int) = Q.size.toInt := by
  rw [entries_length, Int.toNat_of_nonneg h.nonneg]

theorem entries_nil (h : Q.size.toInt ≤ 0) : Q.entries = [] :=
  List.length_eq_zero_iff.mp (by rw [entries_length]; omega)

/-- `addq`, with room in the ring. -/
theorem Queue.Formed.addq (h : Q.Formed) (hlt : Q.size.toInt < qlen) (pid : Int) :
    (Q.addq pid).Formed ∧ (Q.addq pid).entries = Q.entries ++ [pid] := by
  have hnonneg := h.nonneg
  have hrear := h.rear
  have hsize : (Q.addq pid).size.toInt = Q.size.toInt + 1 :=
    toInt_add_ofNat (k := 1) (by omega) (by simp only [qlen] at hlt; omega) (by decide)
  obtain ⟨k, hk⟩ := Int.eq_ofNat_of_zero_le hnonneg
  have hnext : ((next Q.rear).val : Int) = (Q.front.val + k) % qlen := by
    rw [hk] at hrear
    rw [next_val, Int.natCast_emod, Int.natCast_add, hrear, Int.emod_add_emod]
    congr 1
    omega
  refine ⟨⟨by omega, by omega, ?_⟩, ?_⟩
  · rw [hsize, addq_rear, hnext, addq_front, hk]
    congr 1
    omega
  · have hcell : ∀ i : Int, 0 ≤ i → i < qlen →
        (Q.addq pid).cell i = Function.update Q.cell ((Q.front.val + k) % qlen) pid i := by
      intro i hi hlen
      obtain ⟨j, rfl⟩ := Int.eq_ofNat_of_zero_le hi
      have hj : j < qlen := by omega
      rw [cell_val (Q.addq pid) ⟨j, hj⟩, addq_p3q, ← hnext]
      by_cases hje : (⟨j, hj⟩ : Fin qlen) = next Q.rear
      · rw [hje, Function.update_self, ← hje, Function.update_self]
      · have hne : (j : Int) ≠ (next Q.rear).val := fun he => hje (Fin.ext (Int.ofNat_inj.mp he))
        rw [Function.update_of_ne hje, Function.update_of_ne hne]
        exact (cell_val Q ⟨j, hj⟩).symm
    have htoNat : (Q.addq pid).size.toInt.toNat = k + 1 := by omega
    have htoNat' : Q.size.toInt.toNat = k := by omega
    rw [Queue.entries, htoNat, ring_congr (by decide) hcell, addq_front, ring_put pid (by omega),
      Queue.entries, htoNat']

/-- Several calls. -/
theorem Queue.Formed.addAll (h : Q.Formed) (hle : Q.size.toInt + l.length ≤ qlen) :
    (Q.addAll l).Formed ∧ (Q.addAll l).entries = Q.entries ++ l := by
  induction l generalizing Q with
  | nil => exact ⟨h, (List.append_nil _).symm⟩
  | cons x l ih =>
      rw [List.length_cons] at hle
      obtain ⟨hformed, hentries⟩ := h.addq (by omega) x
      have hlen := hformed.length
      rw [hentries, List.length_append, List.length_singleton] at hlen
      have hlen' := h.length
      obtain ⟨hall, happ⟩ := ih hformed (by omega)
      refine ⟨hall, happ.trans ?_⟩
      rw [hentries, List.append_assoc, List.singleton_append]

/-- Too many calls. -/
theorem Queue.Formed.overflow (h : Q.Formed) (hl : l.length ≤ qlen)
    (hgt : qlen < Q.size.toInt + l.length) : ¬ (Q.addAll l).Formed := fun hall => by
  have hle := h.le
  have hnonneg := h.nonneg
  have hle' := hall.le
  rw [addAll_size, toInt_add_ofNat (by omega) (by simp only [qlen] at hle hl; omega)
    (by simp only [qlen] at hl; omega)] at hle'
  omega

/-- `remq`, with an entry to take. -/
theorem Queue.Formed.remq (h : Q.Formed) (hne : Q.size ≠ 0) :
    Q.remq.Formed ∧ ∃ x, Q.entries = x :: Q.remq.entries := by
  have hnonneg := h.nonneg
  have hle := h.le
  have hrear := h.rear
  have hsize : Q.remq.size.toInt = Q.size.toInt - 1 := toInt_sub_one hnonneg
  have hpos : Q.size.toInt ≠ 0 := fun h0 => hne (BitVec.toInt_inj.mp (h0.trans (by decide)))
  obtain ⟨k, hk⟩ : ∃ k : Nat, Q.size.toInt = k + 1 := ⟨(Q.size.toInt - 1).toNat, by omega⟩
  have hfront : (Q.remq.front.val : Int) = (Q.front.val + 1) % qlen := by
    show ((next Q.front).val : Int) = _
    rw [next_val, Int.natCast_emod, Int.natCast_add]
    rfl
  refine ⟨⟨by omega, by omega, ?_⟩, Q.cell (Q.front.val % qlen), ?_⟩
  · have hmod : ((Q.front.val + 1) % qlen + (Q.size.toInt - 1) - 1 : Int) % qlen =
        (Q.front.val + Q.size.toInt - 1) % qlen := by
      rw [Int.add_sub_assoc, Int.emod_add_emod]
      congr 1
      omega
    rw [hfront, hsize, hmod]
    exact hrear
  · have htoNat : Q.size.toInt.toNat = k + 1 := by omega
    have htoNat' : Q.remq.size.toInt.toNat = k := by omega
    rw [Queue.entries, htoNat, ring_take, Queue.entries, htoNat', hfront]
    rfl

/-- `remq` of an empty queue leaves one of size -1, which the next `addq` mends. -/
theorem Queue.Formed.remq_empty (h : Q.Formed) (h0 : Q.size = 0) :
    Q.remq.size.toInt = -1 ∧ ∀ pid, (Q.remq.addq pid).Formed ∧ (Q.remq.addq pid).entries = [] := by
  have hzero : Q.size.toInt = 0 := by
    rw [h0]
    decide
  have hsize : Q.remq.size.toInt = -1 := by
    show (Q.size - 1).toInt = -1
    rw [toInt_sub_one (by omega), hzero]
    rfl
  refine ⟨hsize, fun pid => ?_⟩
  have hadd : (Q.remq.addq pid).size.toInt = 0 := by
    show (Q.remq.size + 1).toInt = 0
    refine (toInt_add_ofNat (k := 1) (by omega) (by omega) (by decide)).trans ?_
    omega
  refine ⟨⟨by omega, by rw [hadd]; decide, ?_⟩, entries_nil (by omega)⟩
  have hrear := h.rear
  have hr := Q.rear.isLt
  have hf := Q.front.isLt
  rw [hadd]
  show (((Q.rear.val + 1) % qlen : Nat) : Int) =
    (((Q.front.val + 1) % qlen : Nat) + 0 - 1 : Int) % qlen
  rw [hzero] at hrear
  simp only [qlen] at hrear hr hf ⊢
  omega

theorem formed_reset (Q : Queue) : Q.reset.Formed ∧ Q.reset.entries = [] := by
  have hsize : Q.reset.size.toInt = 0 := rfl
  refine ⟨⟨by omega, by rw [hsize]; decide, ?_⟩, entries_nil (by omega)⟩
  rw [hsize]
  rfl

end

/-! ## The processes in it -/

/-- The pid of a process at level 3. -/
def AtLast (T : Table) (pid : Int) : Prop :=
  ∃ p, (T p).state ≠ .unused ∧ (T p).pid = pid ∧ (T p).priority = 3

structure Represents (T : Table) (Q : Queue) : Prop where
  formed : Q.Formed
  nodup : Q.entries.Nodup
  last : ∀ pid ∈ Q.entries, AtLast T pid

instance (T : Table) (Q : Queue) : Decidable (Represents T Q) :=
  decidable_of_iff (Q.Formed ∧ Q.entries.Nodup ∧ ∀ pid ∈ Q.entries,
      ∃ p, (T p).state ≠ .unused ∧ (T p).pid = pid ∧ (T p).priority = 3)
    ⟨fun h => ⟨h.1, h.2.1, h.2.2⟩, fun h => ⟨h.formed, h.nodup, h.last⟩⟩

section

variable {T T' : Table} {Q : Queue} {pid : Int} {w : List Int}

theorem Represents.mono (h : Represents T Q)
    (hT : ∀ pid ∈ Q.entries, AtLast T pid → AtLast T' pid) : Represents T' Q :=
  ⟨h.formed, h.nodup, fun pid hpid => hT pid hpid (h.last pid hpid)⟩

theorem AtLast.same (h : AtLast T pid) (hT : Same T T') : AtLast T' pid := by
  obtain ⟨p, hp, hpid, h3⟩ := h
  exact ⟨p, fun hu => hp ((hT p).used.mp hu), (hT p).pid.trans hpid, (hT p).priority.trans h3⟩

/-- There are no more pids of processes than slots. -/
theorem length_le_nproc (hnd : w.Nodup) (hw : ∀ pid ∈ w, AtLast T pid) : w.length ≤ nproc := by
  have hsub : w ⊆ (List.finRange nproc).map fun p => (T p).pid := fun pid hpid => by
    obtain ⟨p, -, hp, -⟩ := hw pid hpid
    exact List.mem_map.mpr ⟨p, List.mem_finRange p, hp⟩
  have hle := (hnd.subperm hsub).length_le
  rwa [List.length_map, List.length_finRange] at hle

/-- Calls of `addq` for processes at level 3. -/
theorem Represents.addAll (h : Represents T Q) (hnd : w.Nodup) (hw : ∀ pid ∈ w, AtLast T pid) :
    ((Q.addAll w).Formed ∧ (Q.addAll w).entries.Nodup ↔ ∀ pid ∈ w, pid ∉ Q.entries) ∧
      ((∀ pid ∈ w, pid ∉ Q.entries) → (Q.addAll w).entries = Q.entries ++ w) := by
  have hlen := h.formed.length
  have hw' := length_le_nproc hnd hw
  have hnodup : (Q.entries ++ w).Nodup ↔ ∀ pid ∈ w, pid ∉ Q.entries := by
    rw [List.nodup_append]
    constructor
    · rintro ⟨-, -, hne⟩ pid hpid hmem
      exact hne pid hmem pid hpid rfl
    · exact fun hout => ⟨h.nodup, hnd, fun a ha b hb hab => hout b hb (hab ▸ ha)⟩
  by_cases hroom : Q.size.toInt + w.length ≤ qlen
  · obtain ⟨hformed, hentries⟩ := h.formed.addAll hroom
    rw [hentries, and_iff_right hformed]
    exact ⟨hnodup, fun _ => rfl⟩
  · -- all of them are distinct pids of slots
    have hno : ¬ ∀ pid ∈ w, pid ∉ Q.entries := fun hout => by
      have hall : ∀ pid ∈ Q.entries ++ w, AtLast T pid := fun pid hpid =>
        (List.mem_append.mp hpid).elim (h.last pid) (hw pid)
      have hle := length_le_nproc (hnodup.mpr hout) hall
      rw [List.length_append] at hle
      simp only [nproc] at hle
      simp only [qlen] at hroom
      omega
    have hover := h.formed.overflow (l := w) (hw'.trans (by decide)) (by omega)
    exact ⟨iff_of_false (fun hf => hover hf.1) hno, fun hout => absurd hout hno⟩

/-- The same after a `remq`, if `b` says so. -/
theorem Represents.turn (h : Represents T Q) (hnd : w.Nodup) (hw : ∀ pid ∈ w, AtLast T pid)
    {b : Bool} {Q' : Queue} (hQ' : Q' = if b then Q.remq else Q) :
    ((Q'.addAll w).Formed ∧ (Q'.addAll w).entries.Nodup ↔
        (b = true → Q.size = 0 → w ≠ []) ∧ ∀ pid ∈ w, pid ∉ Q'.entries) ∧
      ((Q'.addAll w).Formed ∧ (Q'.addAll w).entries.Nodup →
        (Q'.addAll w).entries ⊆ Q.entries ++ w) := by
  cases b with
  | false =>
      obtain rfl : Q' = Q := hQ'
      obtain ⟨hiff, hentries⟩ := h.addAll hnd hw
      exact ⟨hiff.trans (and_iff_right fun hb => by cases hb).symm,
        fun hf => (hentries (hiff.mp hf)) ▸ List.Subset.refl _⟩
  | true =>
      obtain rfl : Q' = Q.remq := hQ'
      by_cases h0 : Q.size = 0
      · obtain ⟨hsize, hadd⟩ := h.formed.remq_empty h0
        have hnil : Q.remq.entries = [] := entries_nil (by omega)
        cases w with
        | nil =>
            refine ⟨iff_of_false (fun hf => ?_) fun hC => hC.1 rfl h0 rfl, fun hf => ?_⟩
            · have hneg := hf.1.nonneg
              rw [Queue.addAll, List.foldl_nil] at hneg
              omega
            · rw [Queue.addAll, List.foldl_nil, hnil]
              exact List.nil_subset _
        | cons x l =>
            obtain ⟨hformed, hempty⟩ := hadd x
            have hmended : Represents T (Q.remq.addq x) := by
              refine ⟨hformed, hempty ▸ List.nodup_nil, fun pid hpid => ?_⟩
              rw [hempty] at hpid
              cases hpid
            have hout : ∀ pid ∈ l, pid ∉ (Q.remq.addq x).entries := fun pid _ => by
              rw [hempty]
              exact List.not_mem_nil
            obtain ⟨hiff, hentries⟩ := hmended.addAll (List.nodup_cons.mp hnd).2
              fun pid hpid => hw pid (List.mem_cons_of_mem x hpid)
            refine ⟨iff_of_true (hiff.mpr hout) ⟨fun _ _ => List.cons_ne_nil x l, ?_⟩,
              fun _ => ?_⟩
            · rw [hnil]
              exact fun pid _ => List.not_mem_nil
            · show ((Q.remq.addq x).addAll l).entries ⊆ _
              rw [hentries hout, hempty]
              exact fun pid hpid => List.mem_append_right _ (List.mem_cons_of_mem x hpid)
      · obtain ⟨hformed, x, hx⟩ := h.formed.remq h0
        have hnd' := h.nodup
        rw [hx] at hnd'
        have htaken : Represents T Q.remq := ⟨hformed, (List.nodup_cons.mp hnd').2, fun pid hpid =>
          h.last pid (hx ▸ List.mem_cons_of_mem x hpid)⟩
        obtain ⟨hiff, hentries⟩ := htaken.addAll hnd hw
        refine ⟨hiff.trans (and_iff_right fun _ hz => absurd hz h0).symm, fun hf => ?_⟩
        rw [hentries (hiff.mp hf), hx]
        exact List.subset_cons_self x _

end

/-! ## The condition -/

section

variable {n : Nat}

/-- The pids that the loop puts into the queue. -/
def added (t : Sys n) (l : List Slot) : List Int :=
  waiting t.ptable (seen t.ticks l t.ptable t.queue)

/-- What does not go wrong in a step: `remq` of an empty queue, without an `addq`
in the loop that follows; `addq` of a pid that is in the queue; the end of a
process with its pid in the queue. -/
structure Sys.Orderly (s : Sys n) (e : Event n) : Prop where
  take : InLoop (fun t l => s.twentieth e.cpu = true → s.queue.size = 0 → added t l ≠ []) (s.act e)
  put : InLoop (fun t l => ∀ pid ∈ added t l, pid ∉ t.queue.entries) (s.act e)
  free : ∀ t, s.step e = some t → ∀ q, (s.ptable q).state ≠ .unused →
    (t.ptable q).state = .unused → (s.ptable q).pid ∉ s.queue.entries

/-- And `fork` does not set the priority of a process whose pid is in the queue. -/
def Fine.Orderly (x : Fine n) : FineEvent n → Prop
  | .coarse e => x.sys.Orderly e
  | .assign c => ∀ p np rest, x.pending c = some (p, np, .priority, rest) →
      (x.sys.ptable np).pid ∉ x.sys.queue.entries

/-! ## The steps -/

structure QueueInv (x : Fine n) : Prop where
  sound : Sound x.sys
  pids : Pids x.sys
  named : 0 ∉ x.sys.queue.entries
  queue : Represents x.sys.ptable x.sys.queue

variable {s t : Sys n} {p q : Slot} {e : Event n} {l : List Slot} {pid : Int}

theorem loop_queue {c : Fin n} (hnd : l.Nodup) : (t.loop c l).queue = t.queue.addAll (added t l) := by
  have hscan := scan_queue t.ticks hnd t.ptable t.queue
  rw [afterAll_eq] at hscan
  rw [added, ← hscan]
  rcases h : scan t.ticks l t.ptable t.queue with ⟨r, T, Q⟩
  cases r with
  | none => rw [loop_none h]
  | some p => rw [loop_some h]

/-- A pid that the loop adds. -/
theorem mem_added (h : pid ∈ added t l) :
    ∃ p, (t.ptable p).state = .runnable ∧ (t.ptable p).pid = pid ∧ (t.ptable p).priority = 3 := by
  obtain ⟨p, hp, hpid⟩ := List.mem_map.mp h
  have hlast := of_decide_eq_true (List.mem_filter.mp hp).2
  exact ⟨p, hlast.1, hpid, hlast.2⟩

/-- It adds each once. -/
theorem added_nodup (hpids : ∀ p q, (t.ptable p).pid = (t.ptable q).pid →
    (t.ptable p).state = .runnable → p = q) (hnd : l.Nodup) : (added t l).Nodup := by
  have hseen := (hnd.sublist (seen_sublist t.ticks l t.ptable t.queue)).filter
    fun p => (t.ptable p).Last
  refine List.Nodup.map_on (fun p hp q _ hpq => ?_) hseen
  have hlast := of_decide_eq_true (List.mem_filter.mp hp).2
  exact hpids p q hpq hlast.1

/-- The other slots, when one is written. -/
theorem AtLast.other {T T' : Table} {x : Proc} (h : AtLast T pid) (hq : (T q).pid ≠ pid)
    (hT : Same (Function.update T q x) T') : AtLast T' pid := by
  obtain ⟨p, hp, hpid, h3⟩ := h
  have hne : p ≠ q := fun he => hq (he ▸ hpid)
  have hover : AtLast (Function.update T q x) pid := ⟨p, by rwa [Function.update_of_ne hne],
    by rwa [Function.update_of_ne hne], by rwa [Function.update_of_ne hne]⟩
  exact hover.same hT

/-- A pid in the queue is that of one slot. -/
theorem QueueInv.only {x : Fine n} (h : QueueInv x) (hpid : pid ∈ x.sys.queue.entries)
    (hp : (x.sys.ptable p).pid = pid) (hq : (x.sys.ptable q).pid = pid) : p = q :=
  h.pids.apart p q (hp.trans hq.symm) fun h0 => h.named (h0 ▸ hp ▸ hpid)

/-- The queue is not touched, and slot `q` is written. -/
theorem QueueInv.written {x : Fine n} {y : Proc} (h : QueueInv x)
    (hT : Same (Function.update x.sys.ptable q y) t.ptable)
    (hbad : ¬ (y.state ≠ .unused ∧ y.priority = 3)) :
    Represents t.ptable x.sys.queue ↔ (x.sys.ptable q).pid ∉ x.sys.queue.entries := by
  constructor
  · intro hrep hmem
    obtain ⟨p, hp, hppid, h3⟩ := hrep.last _ hmem
    have hkept := hT p
    by_cases hpq : p = q
    · subst hpq
      rw [Function.update_self] at hkept
      exact hbad ⟨fun hu => hp (hkept.used.mpr hu), hkept.priority.symm.trans h3⟩
    · rw [Function.update_of_ne hpq] at hkept
      exact hpq (h.only hmem (hkept.pid.symm.trans hppid) rfl)
  · intro hout
    exact h.queue.mono fun pid hmem hlast => hlast.other (fun he => hout (he ▸ hmem)) hT

/-- Where no process ends, and the loop is not entered. -/
theorem orderly_stay (ha : s.act e = some (.stay t))
    (hused : ∀ q, (s.ptable q).state ≠ .unused → (t.ptable q).state ≠ .unused) :
    s.Orderly e where
  take := by
    rw [ha]
    trivial
  put := by
    rw [ha]
    trivial
  free u hu q hq hfree := by
    obtain rfl : t = u := by
      rw [Sys.step, ha] at hu
      exact Option.some.inj hu
    exact absurd hfree (hused q hq)

theorem bump_last {T : Table} {Q : Queue} (h : Represents T Q) :
    Represents (bumpPriority T Q).1 (bumpPriority T Q).2 := by
  rw [bumpPriority]
  simp only
  split
  · obtain ⟨hformed, hempty⟩ := formed_reset Q
    refine ⟨hformed, ?_, fun pid hpid => ?_⟩
    · rw [hempty]
      exact List.nodup_nil
    · rw [hempty] at hpid
      exact absurd hpid List.not_mem_nil
  · -- nobody leaves level 3
    rename_i hnone
    refine h.mono fun pid _ hlast => ?_
    obtain ⟨p, hp, hpid, h3⟩ := hlast
    obtain ⟨hsame, hstate⟩ := bump_same (T p)
    refine ⟨p, by rw [hstate]; exact hp, hsame.trans hpid, ?_⟩
    have hno : (bump (T p)).2 = false := by
      by_contra ht
      exact hnone (List.any_eq_true.mpr ⟨p, List.mem_finRange p, Bool.not_eq_false _ ▸ ht⟩)
    show (bump (T p)).1.priority = 3
    rw [bump] at hno ⊢
    split
    · exact h3
    · rename_i hr
      rw [if_neg hr] at hno
      split
      · rename_i hst
        rw [if_pos hst, if_pos (.inr (.inr h3)), h3] at hno
        cases hno
      · exact h3

/-- A loop, from where it is entered. -/
theorem QueueInv.loop {x : Fine n} (h : QueueInv x) (ha : x.sys.act e = some (.loop t e.cpu l))
    (hT : Same x.sys.ptable t.ptable) (hQ : t.queue = x.sys.behind e.cpu) :
    (Represents (t.loop e.cpu l).ptable (t.loop e.cpu l).queue ↔ x.sys.Orderly e) ∧
      (Represents (t.loop e.cpu l).ptable (t.loop e.cpu l).queue →
        0 ∉ (t.loop e.cpu l).queue.entries) := by
  have hnd : l.Nodup := act_once ha
  have hlive : ¬ Stuck x.sys := fun hs => by
    obtain ⟨u, hu, -⟩ := hs.act ha
    cases hu
  have hnamed : ∀ p, (t.ptable p).state = .runnable → (t.ptable p).pid ≠ 0 := fun p hp => by
    rw [(hT p).pid]
    refine h.pids.named.resolve_left hlive p fun hu => ?_
    rw [(hT p).used.mpr hu] at hp
    cases hp
  have hadded : (added t l).Nodup := by
    refine added_nodup (fun p q hpq hp => ?_) hnd
    have hne := hnamed p hp
    rw [(hT p).pid] at hpq hne
    rw [(hT q).pid] at hpq
    exact h.pids.apart p q hpq hne
  have hlast : ∀ pid ∈ added t l, AtLast t.ptable pid := fun pid hpid => by
    obtain ⟨p, hp, hppid, h3⟩ := mem_added hpid
    exact ⟨p, by rw [hp]; decide, hppid, h3⟩
  have hentry : Represents t.ptable x.sys.queue := h.queue.mono fun pid _ hl => hl.same hT
  obtain ⟨hturn, hsub⟩ := hentry.turn hadded hlast hQ
  have hscan : ∀ pid, AtLast t.ptable pid → AtLast (t.loop e.cpu l).ptable pid := fun pid hl => by
    obtain ⟨p, hp, hpid, h3⟩ := hl
    rw [loop_ptable]
    have hstays := scan_stays t.ticks l t.ptable t.queue p
    exact ⟨p, fun hu => hp (hstays.used.mp hu), hstays.pid.trans hpid, hstays.last h3⟩
  have hfree : ∀ u, x.sys.step e = some u → ∀ q, (x.sys.ptable q).state ≠ .unused →
      (u.ptable q).state = .unused → (x.sys.ptable q).pid ∉ x.sys.queue.entries := by
    intro u hu q hq hgone
    rw [Sys.step, ha] at hu
    obtain rfl := Option.some.inj hu
    have hloop : ((t.loop e.cpu l).ptable q).state = .unused := hgone
    rw [loop_ptable] at hloop
    exact absurd ((hT q).used.mp ((scan_stays t.ticks l t.ptable t.queue q).used.mp hloop)) hq
  rw [loop_queue hnd]
  refine ⟨⟨fun hrep => ?_, fun hC => ?_⟩, fun hrep hzero => ?_⟩
  · obtain ⟨htake, hput⟩ := hturn.mp ⟨hrep.formed, hrep.nodup⟩
    exact ⟨by rw [ha]; exact htake, by rw [ha]; exact hput, hfree⟩
  · have htake := hC.take
    have hput := hC.put
    rw [ha] at htake hput
    have hproper := hturn.mpr ⟨htake, hput⟩
    refine ⟨hproper.1, hproper.2, fun pid hpid => ?_⟩
    rcases List.mem_append.mp (hsub hproper hpid) with hold | hnew
    · exact hscan pid (hentry.last pid hold)
    · exact hscan pid (hlast pid hnew)
  · rcases List.mem_append.mp (hsub ⟨hrep.formed, hrep.nodup⟩ hzero) with hold | hnew
    · exact h.named hold
    · obtain ⟨p, hp, hpid, -⟩ := mem_added hnew
      exact hnamed p hp hpid

/-- What a step of a CPU does to the queue. -/
theorem QueueInv.coarse {x : Fine n} (h : QueueInv x) (ht : x.sys.step e = some t)
    (he : ∀ c, e ≠ .reset c) : (Represents t.ptable t.queue ↔ x.sys.Orderly e) ∧
      (Represents t.ptable t.queue → 0 ∉ t.queue.entries) := by
  obtain ⟨a, ha, rfl⟩ := Option.map_eq_some_iff.mp ht
  cases act_change h.sound ha he with
  | @keep t hT hQ hnext =>
      have hC := orderly_stay ha fun q hq hu => hq ((hT q).used.mp hu)
      rw [Act.finish, hQ]
      exact ⟨iff_of_true (h.queue.mono fun pid _ hl => hl.same hT) hC, fun _ => h.named⟩
  | @alloc t q y hT hfree hy hQ hnext =>
      have hne : ∀ r, (x.sys.ptable r).state ≠ .unused → r ≠ q := fun r hr hrq => hr (hrq ▸ hfree)
      have hC := orderly_stay ha fun r hr hu => by
        have hkept := hT r
        rw [Function.update_of_ne (hne r hr)] at hkept
        exact hr (hkept.used.mp hu)
      rw [Act.finish, hQ]
      refine ⟨iff_of_true (h.queue.mono fun pid hpid hl => ?_) hC, fun _ => h.named⟩
      obtain ⟨p, hp, hppid, h3⟩ := hl
      have hkept := hT p
      rw [Function.update_of_ne (hne p hp)] at hkept
      exact ⟨p, fun hu => hp (hkept.used.mp hu), hkept.pid.trans hppid, hkept.priority.trans h3⟩
  | @gone t q y hT hy hpid hQ hnext =>
      have hwritten := h.written hT fun hbad => hbad.1 hy
      have hgone : (t.ptable q).state = .unused := by
        have hkept := hT q
        rw [Function.update_self] at hkept
        exact hkept.used.mpr hy
      rw [Act.finish, hQ]
      refine ⟨hwritten.trans ⟨fun hout => ?_, fun hC hmem => ?_⟩, fun _ => h.named⟩
      · refine ⟨by rw [ha]; trivial, by rw [ha]; trivial, fun u hu r hr hfree => ?_⟩
        obtain rfl : t = u := by
          rw [ht] at hu
          exact Option.some.inj hu
        by_cases hrq : r = q
        · rw [hrq]
          exact hout
        · have hkept := hT r
          rw [Function.update_of_ne hrq] at hkept
          exact absurd (hkept.used.mp hfree) hr
      · obtain ⟨p, hp, hppid, -⟩ := h.queue.last _ hmem
        have hpq : p = q := h.only hmem hppid rfl
        exact hC.free t ht q (hpq ▸ hp) hgone hmem
  | @runs t q y hT hpid hy hprio hsafe hQ hnext =>
      have hself := hT q
      rw [Function.update_self] at hself
      have hC := orderly_stay ha fun r hr hu => by
        by_cases hrq : r = q
        · subst hrq
          exact hy (hself.used.mp hu)
        · have hkept := hT r
          rw [Function.update_of_ne hrq] at hkept
          exact hr (hkept.used.mp hu)
      rw [Act.finish, hQ]
      refine ⟨iff_of_true (h.queue.mono fun pid _ hl => ?_) hC, fun _ => h.named⟩
      obtain ⟨p, hp, hppid, h3⟩ := hl
      by_cases hpq : p = q
      · subst hpq
        exact ⟨p, fun hu => hy (hself.used.mp hu), (hself.pid.trans hpid).trans hppid,
          (hself.priority.trans hprio).trans h3⟩
      · have hkept := hT p
        rw [Function.update_of_ne hpq] at hkept
        exact ⟨p, fun hu => hp (hkept.used.mp hu), hkept.pid.trans hppid, hkept.priority.trans h3⟩
  | @bump t hT hQ hnext =>
      have hC := orderly_stay ha fun q hq hu =>
        hq ((bump_same _).2.symm.trans ((hT q).used.mp hu))
      rw [Act.finish, hQ]
      refine ⟨iff_of_true ((bump_last h.queue).mono fun pid _ hl => hl.same hT) hC, fun _ => ?_⟩
      rw [bumpPriority]
      simp only
      split
      · rw [(formed_reset _).2]
        exact List.not_mem_nil
      · exact h.named
  | @loop t l hT hQ hnext => exact h.loop ha hT hQ

/-- An assignment of `fork` to the child `np`. -/
theorem QueueInv.assign {x : Fine n} (h : QueueInv x) (p q : Slot) (a : Assignment)
    (rest : List Assignment) :
    (Represents (x.assign p q a rest).sys.ptable (x.assign p q a rest).sys.queue ↔
        (a = .priority → (x.sys.ptable q).pid ∉ x.sys.queue.entries)) ∧
      Pids (x.assign p q a rest).sys ∧ (x.assign p q a rest).sys.queue = x.sys.queue := by
  have hT : Same (Function.update x.sys.ptable q ((x.sys.ptable q).assign a))
      (x.assign p q a rest).sys.ptable := by
    rw [Fine.assign]
    simp only
    split
    · exact .update (.of_eq rfl rfl rfl)
    · exact .refl _
  have hrest : (x.assign p q a rest).sys.queue = x.sys.queue ∧
      (x.assign p q a rest).sys.nextpid = x.sys.nextpid := by
    rw [Fine.assign]
    simp only
    split
    · exact ⟨rfl, rfl⟩
    · exact ⟨rfl, rfl⟩
  have hid : ((x.sys.ptable q).assign a).pid = (x.sys.ptable q).pid ∧
      ((x.sys.ptable q).assign a).state = (x.sys.ptable q).state := by
    cases a with
    | priority | ticks | slice | starved | p3ticks => exact ⟨rfl, rfl⟩
  refine ⟨?_, h.pids.keep (assign_assigned x p q a rest).stuck (fun r => .inl ?_)
    (fun r hr => .inl fun hu => hr ?_) hrest.2, hrest.1⟩
  · rw [hrest.1]
    cases a with
    | priority =>
        rw [h.written hT fun hbad => absurd hbad.2 (show (0 : Nat) ≠ 3 by decide)]
        exact ⟨fun hout _ => hout, fun hout => hout rfl⟩
    | ticks | slice | starved | p3ticks =>
        refine iff_of_true (h.queue.mono fun pid _ hl => hl.same (Same.trans (.update ?_) hT))
          fun ha => by cases ha
        exact .of_eq rfl rfl rfl
  · have hkept := hT r
    by_cases hrq : r = q
    · subst hrq
      rw [Function.update_self] at hkept
      exact hkept.pid.trans hid.1
    · rw [Function.update_of_ne hrq] at hkept
      exact hkept.pid
  · have hkept := hT r
    by_cases hrq : r = q
    · subst hrq
      rw [Function.update_self] at hkept
      exact hkept.used.mpr (hid.2.trans hu)
    · rw [Function.update_of_ne hrq] at hkept
      exact hkept.used.mpr hu

/-- In every step the queue stays what it should be just when the step is orderly. -/
theorem QueueInv.step {x y : Fine n} {e : FineEvent n} (h : QueueInv x) (hy : x.step e = some y) :
    (Represents y.sys.ptable y.sys.queue ↔ x.Orderly e) ∧
      (Represents y.sys.ptable y.sys.queue → QueueInv y) := by
  cases e with
  | coarse e =>
      obtain ⟨t, ht, rfl⟩ := Option.map_eq_some_iff.mp hy
      obtain ⟨hstep, hreset⟩ := outside_step ht
      obtain ⟨hiff, hzero⟩ := h.coarse hstep hreset
      exact ⟨hiff, fun hrep =>
        ⟨h.sound.step hstep, h.pids.step h.sound hstep hreset, hzero hrep, hrep⟩⟩
  | assign c =>
      obtain ⟨⟨p, np, a, rest⟩, hp, rfl⟩ := Option.map_eq_some_iff.mp hy
      obtain ⟨hiff, hpids, hqueue⟩ := h.assign p np a rest
      refine ⟨hiff.trans ⟨fun hC p' np' rest' hp' => ?_, fun hC ha => ?_⟩, fun hrep =>
        ⟨(assign_assigned x p np a rest).sound h.sound, hpids, hqueue ▸ h.named, hrep⟩⟩
      · rw [hp] at hp'
        cases hp'
        exact hC rfl
      · exact hC p np rest (ha ▸ hp)

/-! ## Runs -/

/-- The start, with `init` alone. -/
def fine (n : Nat) : Fine n := ⟨boot n, fun _ => []⟩

theorem fine_queueInv (n : Nat) : QueueInv (fine n) := by
  have hsize : (fine n).sys.queue.size.toInt = 0 := rfl
  have hempty : (fine n).sys.queue.entries = [] := entries_nil (by omega)
  refine ⟨boot_sound n, boot_pids n, ?_, ⟨by omega, by rw [hsize]; decide, rfl⟩, ?_,
    fun pid hpid => ?_⟩
  · rw [hempty]
    exact List.not_mem_nil
  · rw [hempty]
    exact List.nodup_nil
  · rw [hempty] at hpid
    cases hpid

/-- In every run, with any number of CPUs, the ring holds in every state what it
should just when every step is orderly. -/
theorem queue_run (n : Nat) (es : List (FineEvent n)) :
    AllStates Fine.step (fun x => Represents x.sys.ptable x.sys.queue) (fine n) es ↔
      AllSteps Fine.step Fine.Orderly (fine n) es :=
  allStates_iff_allSteps (I := QueueInv) (B := fun _ _ => True) (fun _ h => h.queue)
    (fun _ _ _ h _ hy hrep => (h.step hy).1.mp hrep)
    (fun _ _ _ h _ hC hy => (h.step hy).2 ((h.step hy).1.mpr hC)) (fine_queueInv n) allSteps_true

end

/-- `init` alone comes down to level 3, and `scheduler` finds it there twice. -/
def queuedRun : List (FineEvent 1) :=
  (ticksOn 172 (boot 1)).map .coarse

/-- Its pid is in the queue twice. -/
theorem pid_twice : ¬ AllStates Fine.step (fun x => Represents x.sys.ptable x.sys.queue) (fine 1)
    queuedRun := by
  decide +kernel

end Cs537.Mlfq
