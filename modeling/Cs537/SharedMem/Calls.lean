/-
# `Cs537.SharedMem.Calls` — the system calls that touch shared memory (p3/xv6)

`shmgetat` and `shm_refcount` of `vm.c`, `allocproc`, `userinit`, `fork`,
`exit` and `wait` of `proc.c`, and `exec.c`, over the machine of
`Cs537.SharedMem.Machine`; then the system whose events are these calls, each
made by some process that can run.

Open files and the current directory are left out: none of the calls moves a
page through them.  The contents of a page are left out too; what `exec`
reads from the file is given to it as an `ExecFile`.
-/
import Cs537.SharedMem.Machine

namespace Cs537.SharedMem

/-! ## `shmgetat` -/

/-- `va - PGSIZE` in 32-bit arithmetic. -/
def prevPage (va : Nat) : Nat := (va + 2 ^ 32 - pgsize) % 2 ^ 32

/-- Steps enough for one turn around the 32-bit address space. -/
def turn : Nat := 2 ^ 20

/-- `while((*pte & PTE_P) != 0)` of `shmgetat`: the next page downwards from
`va` that is not mapped; `none` when a page table is missing first. -/
def findFree (pd : Pgdir) : Nat → Nat → Option Nat
  | 0, _ => none
  | fuel + 1, va =>
      match walkpgdir pd va with
      | none => none
      | some none => some va
      | some (some _) => findFree pd fuel (prevPage va)

/-- The mapping loop of `shmgetat` over the physical pages still to map.
Returns the directory, and the last address mapped unless the loop met a
missing page table (`return -1`). -/
def shmMap : List Nat → Pgdir → Nat → Option Nat × Pgdir
  | [], pd, vaddr => (some vaddr, pd)
  | mempt :: rest, pd, vaddr =>
      match findFree pd turn vaddr with
      | none => (none, pd)
      | some vaddr =>
          match mappages pd vaddr mempt with
          | some pd => shmMap rest pd vaddr
          | none => shmMap rest pd vaddr

/-- The allocation loop of `shmgetat`: `page_ptr[i] = kalloc()` for `i` from
`i` on, `n` times; `none` is the panic on an empty free list. -/
def shmAlloc (key : Key) : Nat → Nat → Kernel → Option Kernel
  | 0, _, k => some k
  | n + 1, i, k =>
      match kalloc k with
      | (none, _) => none
      | (some pg, k) =>
          let m := k.shmPa key
          let m := { m with pagePtr := fun j => if j.val = i then pg else m.pagePtr j }
          shmAlloc key n (i + 1) { k with shmPa := Function.update k.shmPa key m }

/-- `page_ptr[0 .. n)`. -/
def pagePtrs (m : ShPhyMem) (n : Nat) : List Nat :=
  ((List.finRange 4).filter fun j => j.val < n).map m.pagePtr

def setProc (k : Kernel) (p : Slot) (q : Proc) : Kernel :=
  { k with proc := Function.update k.proc p q }

/-- `shmgetat` once the key has its pages: count, map, store the address. -/
def shmEnter (k : Kernel) (p : Slot) (pd : Pgdir) (key : Key) (n : Nat) : Int × Kernel :=
  let m := k.shmPa key
  let m := { m with refCount := m.refCount + 1, numPages := n }
  let k := { k with shmPa := Function.update k.shmPa key m }
  let q := k.proc p
  match shmMap (pagePtrs m n) pd (usertop - pgsize) with
  | (none, pd) => (-1, setProc k p { q with pgdir := some pd })
  | (some vaddr, pd) =>
      let q := { q with
        pgdir := some pd
        shmVa := Function.update q.shmVa key vaddr
        shmSz := if vaddr < q.shmSz then vaddr else q.shmSz }
      (vaddr, setProc k p q)

/-- `shmgetat` for legal arguments, by a process not attached to `key`. -/
def shmAttach (k : Kernel) (p : Slot) (pd : Pgdir) (key : Key) (n : Nat) :
    Option (Int × Kernel) :=
  (if (k.shmPa key).refCount = 0 then shmAlloc key n 0 k else some k).map fun k =>
    shmEnter k p pd key n

/-- The argument check of `shmgetat`: a key and a page count. -/
def shmArgs (key numPages : Int) : Option (Key × Nat) :=
  if h : 0 ≤ key ∧ key ≤ 7 ∧ 1 ≤ numPages ∧ numPages ≤ 4 then
    some (⟨key.toNat, by omega⟩, numPages.toNat)
  else none

def shmgetat (k : Kernel) (p : Slot) (key numPages : Int) : Option (Int × Kernel) :=
  match shmArgs key numPages with
  | none => some (-1, k)
  | some (i, n) =>
      if (k.proc p).shmVa i ≠ usertop then some ((k.proc p).shmVa i, k)
      else
        match (k.proc p).pgdir with
        | none => none
        | some pd => shmAttach k p pd i n

def shmRefcount (k : Kernel) (key : Int) : Int :=
  if h : 0 ≤ key ∧ key ≤ 7 then (k.shmPa ⟨key.toNat, by omega⟩).refCount else -1

/-! ## `proc.c` -/

/-- The slot that `allocproc` finds. -/
def freeSlot (k : Kernel) : Option Slot :=
  (List.finRange nproc).find? fun p => (k.proc p).state = .unused

/-- `allocproc`; `none` is the null pointer. -/
def allocproc (k : Kernel) : Option Slot × Kernel :=
  match freeSlot k with
  | none => (none, k)
  | some p =>
      let q := { k.proc p with state := .embryo, pid := k.nextpid }
      let k := { setProc k p q with nextpid := k.nextpid + 1 }
      match kalloc k with
      | (none, k) => (none, setProc k p { q with state := .unused, kstack := none })
      | (some stack, k) =>
          (some p, setProc k p
            { q with kstack := some stack, shmSz := usertop, shmVa := fun _ => usertop })

/-- The copy loop of `fork`: from `vaddr` downwards while the parent's page
is present, map it in the child (a failed `mappages` is ignored).  `none`
when a page table is missing first (`return -1`). -/
def forkCopy (src : Pgdir) : Nat → Nat → Pgdir → Option Pgdir × Pgdir
  | 0, _, d => (none, d)
  | fuel + 1, vaddr, d =>
      match walkpgdir src vaddr with
      | none => (none, d)
      | some none => (some d, d)
      | some (some pa) =>
          forkCopy src fuel (prevPage vaddr) ((mappages d vaddr pa).getD d)

/-- `ref_count += 1` for every key the child is attached to. -/
def forkRefs (shmVa : Key → Nat) (shm : Key → ShPhyMem) : Key → ShPhyMem := fun j =>
  if shmVa j ≠ usertop then { shm j with refCount := (shm j).refCount + 1 } else shm j

/-- `fork`, with its return value (the child's pid, or `-1`). -/
def fork (k : Kernel) (p : Slot) : Option (Int × Kernel) :=
  match allocproc k with
  | (none, k) => some (-1, k)
  | (some np, k) => do
      let pd ← (k.proc p).pgdir
      match ← copyuvm k pd (k.proc p).sz with
      | (none, k) =>
          let stack ← (k.proc np).kstack
          let k ← kfree k stack
          some (-1, setProc k np
            { k.proc np with pgdir := none, kstack := none, state := .unused })
      | (some d, k) =>
          match forkCopy pd turn (usertop - pgsize) d with
          | (none, d) => some (-1, setProc k np { k.proc np with pgdir := some d })
          | (some d, _) =>
              let q := k.proc p
              let child := { k.proc np with
                pgdir := some d
                shmVa := q.shmVa
                shmSz := q.shmSz
                sz := q.sz
                parent := some p
                state := .runnable }
              some ((child.pid : Int),
                setProc { k with shmPa := forkRefs q.shmVa k.shmPa } np child)

/-- The slot of the first process (`initproc`). -/
def initproc : Slot := 0

/-- `exit`: the children go to `initproc`, the process becomes a zombie;
`none` is the panic `init exiting`. -/
def exit (k : Kernel) (p : Slot) : Option Kernel :=
  if p = initproc then none
  else
    let orphan := fun q => if (k.proc q).parent = some p
      then { k.proc q with parent := some initproc } else k.proc q
    some { k with proc := Function.update orphan p { orphan p with state := .zombie } }

/-- `wait`, when the scan of the table finds a zombie child: reap it and
return its pid.  Without one nothing changes (`-1`, or the caller sleeps). -/
def wait (k : Kernel) (p : Slot) : Option (Int × Kernel) :=
  match (List.finRange nproc).find? fun q =>
      (k.proc q).parent = some p ∧ (k.proc q).state = .zombie with
  | none => some (-1, k)
  | some q => do
      let stack ← (k.proc q).kstack
      let k ← kfree k stack
      let pd ← (k.proc q).pgdir
      let k ← freevm k pd (k.proc q).sz
      let z := k.proc q
      some ((z.pid : Int), setProc k q
        { z with
          kstack := none
          shmVa := fun _ => usertop
          shmSz := usertop
          state := .unused
          pid := 0
          parent := none })

/-! ## `exec.c` -/

/-- What `exec` reads of one program header. -/
structure Phdr where
  /-- the header could be read whole -/
  readOk : Bool
  /-- `ph.type == ELF_PROG_LOAD` -/
  load : Bool
  filesz : Nat
  memsz : Nat
  va : Nat
  /-- `loaduvm` could read the whole segment -/
  loadOk : Bool

/-- What `exec` meets in the file and in its arguments. -/
structure ExecFile where
  /-- the path resolves and the ELF header is good -/
  header : Bool
  phdrs : List Phdr
  /-- at most `MAXARG` arguments, and every `copyout` succeeds -/
  args : Bool

/-- The load loop of `exec`.  The flag is `false` for `goto bad`; `none` is
the panic of `loaduvm` on an address that is not page-aligned. -/
def execLoad : List Phdr → Kernel → Pgdir → Nat → Option (Bool × Kernel × Pgdir × Nat)
  | [], k, pd, sz => some (true, k, pd, sz)
  | ph :: phs, k, pd, sz =>
      if !ph.readOk then some (false, k, pd, sz)
      else if !ph.load then execLoad phs k pd sz
      else if ph.memsz < ph.filesz then some (false, k, pd, sz)
      else
        match allocuvm k pd sz ((ph.va + ph.memsz) % 2 ^ 32) with
        | none => none
        | some (sz, k, pd) =>
            if sz = 0 then some (false, k, pd, sz)
            else if ph.va % pgsize ≠ 0 then none
            else if !ph.loadOk then some (false, k, pd, sz)
            else execLoad phs k pd sz

/-- `exec` up to the commit: load the segments, then the stack page, then
the arguments. -/
def execBuild (f : ExecFile) (k : Kernel) (pd : Pgdir) : Option (Bool × Kernel × Pgdir × Nat) :=
  match execLoad f.phdrs k pd 0 with
  | none => none
  | some (false, k, pd, sz) => some (false, k, pd, sz)
  | some (true, k, pd, sz) =>
      let sz := npages sz * pgsize
      match allocuvm k pd sz (sz + pgsize) with
      | none => none
      | some (sz, k, pd) =>
          if sz = 0 then some (false, k, pd, sz)
          else some (f.args, k, pd, sz)

/-- `exec` of the file `f` by process `p`, with its return value. -/
def exec (k : Kernel) (p : Slot) (f : ExecFile) : Option (Int × Kernel) :=
  if !f.header then some (-1, k)
  else
    match setupkvm k with
    | (none, k) => some (-1, k)
    | (some pd, k) =>
        match execBuild f k pd with
        | none => none
        | some (false, k, pd, sz) => (freevm k pd sz).map fun k => (-1, k)
        | some (true, k, pd, sz) => do
            let q := k.proc p
            let old ← q.pgdir
            let k := setProc k p
              { q with pgdir := some pd, sz := sz, shmVa := fun _ => usertop, shmSz := usertop }
            let k ← freevm k old q.sz
            some (0, k)

/-! ## The system -/

/-- One system call of process `p`. -/
inductive Call where
  | shmgetat (key numPages : Int)
  | fork
  | exec (f : ExecFile)
  | exit
  | wait

/-- The kernel after one call, with the value it returns (`0` for `exit`,
which does not). -/
def call (k : Kernel) (p : Slot) : Call → Option (Int × Kernel)
  | .shmgetat key n => shmgetat k p key n
  | .fork => fork k p
  | .exec f => exec k p f
  | .exit => (exit k p).map fun k => (0, k)
  | .wait => wait k p

/-- Before the first process: nothing allocated, `shm_pa` all zero. -/
def bootKernel (kend : Nat) (freelist : List Nat) : Kernel where
  kend := kend
  freelist := freelist
  shmPa := fun _ => ⟨0, 0, fun _ => 0⟩
  proc := fun _ => ⟨0, none, none, .unused, 0, none, fun _ => 0, 0⟩
  nextpid := 1

/-- The pages that `kinit` frees, in order. -/
def kinitPages (kend : Nat) : List Nat :=
  (List.range' (npages kend) (phystop / pgsize - npages kend)).map (· * pgsize)

/-- `kinit`, on an empty free list. -/
def kinit (kend : Nat) : Option Kernel := kfreeAll (kinitPages kend) (bootKernel kend [])

/-- `userinit`: the first process, one page of user memory (`inituvm`). -/
def userinit (k : Kernel) : Option Kernel :=
  match allocproc k with
  | (none, _) => none
  | (some p, k) =>
      match setupkvm k with
      | (none, _) => none
      | (some pd, k) =>
          match kalloc k with
          | (none, _) => none
          | (some mem, k) => do
              let pd ← mappages pd 0 mem
              some (setProc k p
                { k.proc p with pgdir := some pd, sz := pgsize, state := .runnable })

end Cs537.SharedMem
