/-
# `Cs537.Files.Pipe` — the buffer of a pipe (p5/xv6)

A pipe keeps its bytes in a ring, and counts in `nread` and `nwrite` all bytes
that have gone out and in.  The counters are `uint` and wrap around; PIPESIZE
divides 2 ^ 32, so the slots go on in order.  `content` is what the pipe holds:

    p.fill src     content ++ the bytes of `src` that there is room for
    p.drain n      the first `n` bytes of the content, if there are so many

`fill` is the loop of `pipewrite` up to the point where the pipe is full, and
`drain` the last loop of `piperead`.
-/
import Cs537.Lib.Ring
import Mathlib.Algebra.Order.Ring.Nat
import Mathlib.Data.Nat.ModEq

namespace Cs537.Files

open Cs537.Lib

def PIPESIZE : Nat := 512

/-- `struct pipe` without its lock. -/
structure Pipe where
  data : Int → UInt8
  nread : BitVec 32
  nwrite : BitVec 32
  readopen : Bool
  writeopen : Bool

/-- What `pipealloc` makes of a page. -/
def Pipe.fresh (data : Int → UInt8) : Pipe := ⟨data, 0, 0, true, true⟩

/-- `p->nwrite == p->nread + PIPESIZE` -/
def Pipe.Full (p : Pipe) : Prop := p.nwrite = p.nread + BitVec.ofNat 32 PIPESIZE

/-- `p->nread == p->nwrite` -/
def Pipe.Empty (p : Pipe) : Prop := p.nread = p.nwrite

instance (p : Pipe) : Decidable p.Full := inferInstanceAs (Decidable (_ = _))

instance (p : Pipe) : Decidable p.Empty := inferInstanceAs (Decidable (_ = _))

/-- `p->data[p->nwrite++ % PIPESIZE] = c` -/
def Pipe.put (p : Pipe) (c : UInt8) : Pipe :=
  { p with
    data := Function.update p.data ((p.nwrite.toNat : Int) % PIPESIZE) c
    nwrite := p.nwrite + 1#32 }

/-- `p->data[p->nread++ % PIPESIZE]` -/
def Pipe.get (p : Pipe) : UInt8 × Pipe :=
  (p.data ((p.nread.toNat : Int) % PIPESIZE), { p with nread := p.nread + 1#32 })

/-- The loop of `pipewrite`, until the pipe is full: the pipe and the bytes that are
left. -/
def Pipe.fill (p : Pipe) : List UInt8 → Pipe × List UInt8
  | [] => (p, [])
  | c :: src => if p.Full then (p, c :: src) else (p.put c).fill src

/-- The loop of `piperead` that copies. -/
def Pipe.drain (p : Pipe) : Nat → List UInt8 × Pipe
  | 0 => ([], p)
  | n + 1 =>
      if p.Empty then ([], p)
      else
        let r := p.get.2.drain n
        (p.get.1 :: r.1, r.2)

/-- `pipeclose` of one end. -/
def Pipe.close (p : Pipe) (writable : Bool) : Pipe :=
  if writable then { p with writeopen := false } else { p with readopen := false }

/-! ## The content -/

/-- The number of bytes in the pipe. -/
def Pipe.count (p : Pipe) : Nat := (p.nwrite - p.nread).toNat

/-- The bytes in the pipe, in the order in which they were written. -/
def Pipe.content (p : Pipe) : List UInt8 := ring PIPESIZE p.data p.nread.toNat p.count

/-- The counters are not too far apart. -/
def Pipe.Sound (p : Pipe) : Prop := p.count ≤ PIPESIZE

variable {p q : Pipe} {c : UInt8} {n : Nat} {src : List UInt8}

@[simp] theorem close_count (p : Pipe) (w : Bool) : (p.close w).count = p.count := by
  cases w <;> rfl

@[simp] theorem close_content (p : Pipe) (w : Bool) : (p.close w).content = p.content := by
  cases w <;> rfl

theorem fresh_count (data : Int → UInt8) : (Pipe.fresh data).count = 0 := by
  simp [Pipe.count, Pipe.fresh]

theorem length_content : p.content.length = p.count := length_ring

theorem count_eq (p : Pipe) : p.count = (2 ^ 32 - p.nread.toNat + p.nwrite.toNat) % 2 ^ 32 :=
  BitVec.toNat_sub ..

theorem full_iff (h : p.Sound) : p.Full ↔ p.count = PIPESIZE := by
  have hr := p.nread.isLt
  have hw := p.nwrite.isLt
  rw [Pipe.Sound] at h
  rw [Pipe.Full, ← BitVec.toNat_inj, BitVec.toNat_add, BitVec.toNat_ofNat]
  rw [count_eq] at h ⊢
  unfold PIPESIZE at h ⊢
  omega

theorem empty_iff : p.Empty ↔ p.count = 0 := by
  have hr := p.nread.isLt
  have hw := p.nwrite.isLt
  rw [Pipe.Empty, ← BitVec.toNat_inj, count_eq]
  omega

theorem empty_content : p.Empty ↔ p.content = [] := by
  rw [empty_iff, ← length_content, List.length_eq_zero_iff]

theorem count_put (h : p.count < PIPESIZE) : (p.put c).count = p.count + 1 := by
  have hr := p.nread.isLt
  have hw := p.nwrite.isLt
  have hput : (p.put c).nwrite.toNat = (p.nwrite.toNat + 1) % 2 ^ 32 := BitVec.toNat_add ..
  have hread : (p.put c).nread = p.nread := rfl
  rw [count_eq] at h
  rw [count_eq, count_eq, hput, hread]
  unfold PIPESIZE at h
  omega

/-- The slot behind the content is the one that `nwrite` names. -/
theorem slot_nwrite :
    (p.nwrite.toNat : Int) % PIPESIZE = (p.nread.toNat + p.count : Int) % PIPESIZE := by
  have hr := p.nread.isLt
  have hw := p.nwrite.isLt
  rw [count_eq]
  unfold PIPESIZE
  omega

/-- A byte goes in behind the others. -/
theorem put_content (h : p.count < PIPESIZE) : (p.put c).content = p.content ++ [c] := by
  have hlt : (p.count : Int) < PIPESIZE := Int.ofNat_lt.mpr h
  rw [Pipe.content, count_put h]
  show ring PIPESIZE (Function.update p.data ((p.nwrite.toNat : Int) % PIPESIZE) c) p.nread.toNat
    (p.count + 1) = _
  rw [slot_nwrite]
  exact ring_put c hlt

theorem count_get (h : ¬ p.Empty) : p.count = p.get.2.count + 1 := by
  have hr := p.nread.isLt
  have hw := p.nwrite.isLt
  have hget : p.get.2.nread.toNat = (p.nread.toNat + 1) % 2 ^ 32 := BitVec.toNat_add ..
  have hwrite : p.get.2.nwrite = p.nwrite := rfl
  rw [empty_iff, count_eq] at h
  rw [count_eq, count_eq, hget, hwrite]
  omega

/-- The first byte comes out. -/
theorem get_content (h : ¬ p.Empty) : p.content = p.get.1 :: p.get.2.content := by
  rw [Pipe.content, count_get h, ring_take]
  refine congrArg₂ List.cons rfl (ring_mod ?_)
  have hget : p.get.2.nread.toNat = (p.nread.toNat + 1) % 2 ^ 32 := BitVec.toNat_add ..
  rw [Int.emod_emod, hget]
  unfold PIPESIZE
  omega

/-! ## The loops -/

theorem fill_open (p : Pipe) (src : List UInt8) :
    (p.fill src).1.readopen = p.readopen ∧ (p.fill src).1.writeopen = p.writeopen := by
  induction src generalizing p with
  | nil => exact ⟨rfl, rfl⟩
  | cons c src ih =>
      rw [Pipe.fill]
      split
      · exact ⟨rfl, rfl⟩
      · exact ih (p.put c)

/-- Bytes are left only if the pipe is full. -/
theorem fill_spec (h : p.Sound) (src : List UInt8) : ∃ put, src = put ++ (p.fill src).2 ∧
    (p.fill src).1.content = p.content ++ put ∧ (p.fill src).1.Sound ∧
      ((p.fill src).2 ≠ [] → (p.fill src).1.Full) := by
  induction src generalizing p with
  | nil => exact ⟨[], rfl, (List.append_nil _).symm, h, fun hne => absurd rfl hne⟩
  | cons c src ih =>
      rw [Pipe.fill]
      split
      · rename_i hfull
        exact ⟨[], rfl, (List.append_nil _).symm, h, fun _ => hfull⟩
      · rename_i hfull
        have hlt : p.count < PIPESIZE := lt_of_le_of_ne h fun he => hfull ((full_iff h).mpr he)
        have hsound : (p.put c).Sound := by
          rw [Pipe.Sound, count_put hlt]
          exact hlt
        obtain ⟨put, hsrc, hcontent, hs, hleft⟩ := ih hsound
        refine ⟨c :: put, ?_, ?_, hs, hleft⟩
        · exact congrArg (List.cons c) hsrc
        · rw [hcontent, put_content hlt, List.append_assoc]
          rfl

theorem fill_full (h : p.Full) (src : List UInt8) : p.fill src = (p, src) := by
  cases src with
  | nil => rfl
  | cons c src => rw [Pipe.fill, if_pos h]

/-- An empty pipe takes PIPESIZE bytes. -/
theorem fill_empty (h : p.Empty) : (p.fill src).2 ≠ [] ↔ PIPESIZE < src.length := by
  have hnil := empty_content.mp h
  have hs : p.Sound := (empty_iff.mp h).trans_le (Nat.zero_le _)
  obtain ⟨put, hsrc, hcontent, hsound, hfull⟩ := fill_spec hs src
  have hput : (p.fill src).1.count = put.length := by
    rw [← length_content, hcontent, hnil, List.nil_append]
  have hlen := congrArg List.length hsrc
  rw [List.length_append] at hlen
  constructor
  · intro hleft
    have hsize : put.length = PIPESIZE := hput.symm.trans ((full_iff hsound).mp (hfull hleft))
    have hpos := List.length_pos_iff.mpr hleft
    omega
  · intro hlt hleft
    have hle : put.length ≤ PIPESIZE := hput.symm.trans_le hsound
    rw [hleft, List.length_nil] at hlen
    omega

theorem drain_open (p : Pipe) (n : Nat) :
    (p.drain n).2.readopen = p.readopen ∧ (p.drain n).2.writeopen = p.writeopen := by
  induction n generalizing p with
  | zero => exact ⟨rfl, rfl⟩
  | succ n ih =>
      rw [Pipe.drain]
      split
      · exact ⟨rfl, rfl⟩
      · exact ih p.get.2

theorem drain_spec (h : p.Sound) : p.content = (p.drain n).1 ++ (p.drain n).2.content ∧
    (p.drain n).2.Sound ∧ (p.drain n).1.length = min n p.content.length := by
  induction n generalizing p with
  | zero => exact ⟨rfl, h, (Nat.zero_min _).symm⟩
  | succ n ih =>
      rw [Pipe.drain]
      split
      · rename_i hempty
        rw [empty_content.mp hempty]
        exact ⟨rfl, h, rfl⟩
      · rename_i hempty
        have hget := get_content hempty
        have hsound : p.get.2.Sound := by
          have hcount := count_get hempty
          rw [Pipe.Sound] at h ⊢
          omega
        obtain ⟨hcontent, hs, hlen⟩ := ih hsound
        refine ⟨?_, hs, ?_⟩
        · rw [hget]
          exact congrArg (List.cons p.get.1) hcontent
        · rw [hget, List.length_cons, List.length_cons, Nat.succ_min_succ]
          exact congrArg Nat.succ hlen

end Cs537.Files
