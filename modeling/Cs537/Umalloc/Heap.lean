/-
# `Cs537.Umalloc.Heap` — `malloc` and `free` (xv6, `user/umalloc.c`)

The allocator of the user programs: a ring of free chunks that starts at `base`, each with
a header of eight bytes, the address of the next chunk and the size in units of eight
bytes.  `freep` is where a search starts.

    free       finds the place of the chunk, joins it with its neighbours
    morecore   asks `sbrk` for at least 4096 units, and frees them
    malloc     the first chunk that is large enough, or its tail

The headers are in the memory of the program, which is bytes.  The program calls `malloc`
and `free`, writes to the blocks that it has, and takes memory from `sbrk` for itself.
The kernel's part is `sys_sbrk` with `growproc`; `grows` is whether it finds the pages.

A search that goes around for ever would be `none`.
-/
import Cs537.Lib.Memory
import Mathlib.Data.Nat.Notation
import Mathlib.Logic.Function.Basic

namespace Cs537.Umalloc

open Cs537.Lib

def PGSIZE : Nat := 4096

def USERTOP : Nat := 0xA0000

/-- `p + n`, for a pointer to headers. -/
def plus (p n : Nat) : Nat := (p + 8 * n) % 2 ^ 32

/-! ## Headers -/

def next (m : Mem) (p : Nat) : Nat := m.get 4 p

def size (m : Mem) (p : Nat) : Nat := m.get 4 (p + 4)

def setNext (m : Mem) (p q : Nat) : Mem := m.put 4 p q

def setSize (m : Mem) (p n : Nat) : Mem := m.put 4 (p + 4) n

/-! ## The program -/

structure Prog where
  mem : Mem
  /-- the address of `base` -/
  base : Nat
  freep : Nat
  /-- `proc->sz` -/
  sz : Nat
  /-- the blocks that the program has, and how many bytes it asked for -/
  live : List (Nat × Nat)

def Prog.initBase (s : Prog) : Prog :=
  { s with mem := setSize (setNext s.mem s.base s.base) s.base 0, freep := s.base }

/-! ## `free` -/

/-- The loop of `free(ap)`. -/
def freeLoop (m : Mem) (bp : Nat) : Nat → Nat → Option Nat
  | 0, _ => none
  | n + 1, p =>
      if bp > p ∧ bp < next m p then some p
      else if p ≥ next m p ∧ (bp > p ∨ bp < next m p) then some p
      else freeLoop m bp n (next m p)

/-- `bp` and what follows `p`. -/
def joinUpper (m : Mem) (bp p : Nat) : Mem :=
  if plus bp (size m bp) = next m p then
    let m := setSize m bp (size m bp + size m (next m p))
    setNext m bp (next m (next m p))
  else setNext m bp (next m p)

/-- `p` and `bp`. -/
def joinLower (m : Mem) (bp p : Nat) : Mem :=
  if plus p (size m p) = bp then
    let m := setSize m p (size m p + size m bp)
    setNext m p (next m bp)
  else setNext m p bp

def Prog.free (s : Prog) (ap : Nat) : Option Prog :=
  let bp := ap - 8
  (freeLoop s.mem bp s.sz s.freep).map fun p =>
    { s with mem := joinLower (joinUpper s.mem bp p) bp p, freep := p }

/-! ## `sbrk` -/

def pgroundup (n : Nat) : Nat := (n + PGSIZE - 1) / PGSIZE * PGSIZE

/-- `allocuvm` fills the new pages with zeros. -/
def Prog.allocuvm (s : Prog) (sz : Nat) (grows : Bool) : Option Prog :=
  if sz > USERTOP then none
  else if sz < s.sz then some s
  else if grows then
    let a := pgroundup s.sz
    some { s with mem := s.mem.copy a (pgroundup sz - a) fun _ => 0, sz := sz }
  else none

def Prog.deallocuvm (s : Prog) (sz : Nat) : Option Prog :=
  if sz ≥ s.sz then some s else if sz = 0 then none else some { s with sz := sz }

def Prog.growproc (s : Prog) (n : BitVec 32) (grows : Bool) : Option Prog :=
  let sz := (s.sz + n.toNat) % 2 ^ 32
  if 0 < n.toInt then s.allocuvm sz grows
  else if n.toInt < 0 then s.deallocuvm sz
  else some s

/-- `sbrk(n)`: the old size, or nothing for -1. -/
def Prog.sbrk (s : Prog) (n : BitVec 32) (grows : Bool) : Option (Nat × Prog) :=
  (s.growproc n grows).map fun t => (s.sz, t)

/-! ## `malloc` -/

/-- `morecore(nu)`, 0 for a null pointer. -/
def Prog.morecore (s : Prog) (nu : Nat) (grows : Bool) : Option (Nat × Prog) :=
  let nu := if nu < 4096 then 4096 else nu
  match s.sbrk (BitVec.ofNat 32 (nu * 8)) grows with
  | none => some (0, s)
  | some (hp, t) =>
      (Prog.free { t with mem := setSize t.mem hp nu } (hp + 8)).map fun t => (t.freep, t)

/-- `malloc` has found the chunk `p`, which follows `prevp`. -/
def Prog.carve (s : Prog) (nunits prevp p : Nat) : Nat × Prog :=
  if size s.mem p = nunits then
    (p + 8, { s with mem := setNext s.mem prevp (next s.mem p), freep := prevp })
  else
    let m := setSize s.mem p (size s.mem p - nunits)
    let q := plus p (size m p)
    (q + 8, { s with mem := setSize m q nunits, freep := prevp })

/-- The loop of `malloc`. -/
def Prog.mallocLoop (nunits : Nat) (grows : Bool) : Nat → Nat → Nat → Prog → Option (Nat × Prog)
  | 0, _, _, _ => none
  | n + 1, prevp, p, s =>
      if size s.mem p ≥ nunits then some (s.carve nunits prevp p)
      else if p = s.freep then
        (s.morecore nunits grows).bind fun (q, t) =>
          if q = 0 then some (0, t) else t.mallocLoop nunits grows n q (next t.mem q)
      else s.mallocLoop nunits grows n p (next s.mem p)

def nunits (nbytes : Nat) : Nat := (nbytes + 8 - 1) % 2 ^ 32 / 8 + 1

def Prog.malloc (s : Prog) (nbytes : Nat) (grows : Bool) : Option (Nat × Prog) :=
  let s := if s.freep = 0 then s.initBase else s
  s.mallocLoop (nunits nbytes) grows s.sz s.freep (next s.mem s.freep)

/-! ## Runs -/

inductive Event where
  | malloc (nbytes : Nat) (grows : Bool)
  | free (p : Nat)
  /-- the program writes to a block that it has -/
  | store (a : Nat) (v : UInt8)
  /-- the program calls `sbrk` itself -/
  | sbrk (n : BitVec 32) (grows : Bool)

def Prog.Owns (s : Prog) (a : Nat) : Prop := ∃ b ∈ s.live, b.1 ≤ a ∧ a < b.1 + b.2

instance (s : Prog) (a : Nat) : Decidable (s.Owns a) :=
  inferInstanceAs (Decidable (∃ b ∈ s.live, b.1 ≤ a ∧ a < b.1 + b.2))

/-- `malloc` has returned `p`. -/
def Prog.got (s : Prog) (p nbytes : Nat) : Prog :=
  if p = 0 then s else { s with live := (p, nbytes) :: s.live }

/-- A step; `none` is an event that cannot happen, or a search without an end. -/
def Prog.step (s : Prog) (e : Event) : Option Prog :=
  match e with
  | .malloc nbytes grows => (s.malloc nbytes grows).map fun r => r.2.got r.1 nbytes
  | .free p =>
      if p ∈ s.live.map Prod.fst then
        (s.free p).map fun t => { t with live := t.live.filter (·.1 ≠ p) }
      else none
  | .store a v =>
      if s.Owns a then some { s with mem := Function.update s.mem a v } else none
  | .sbrk n grows =>
      if 0 < n.toInt then some ((s.sbrk n grows).elim s Prod.snd) else none

/-- A program that starts: `base` is below the heap. -/
def boot (mem : Mem) (base sz : Nat) : Prog := ⟨mem, base, 0, sz, []⟩

end Cs537.Umalloc
