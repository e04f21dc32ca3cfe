/-
# `Cs537.SharedMem.Machine` — pages, page tables and user memory (p3/xv6)

The bottom of the shared-memory kernel: `kalloc.c`, and the functions of
`vm.c` that build, grow, copy and tear down a page table, together with
`checkifshared` and `deallocshm`, which `freevm` calls.

Physical pages are their addresses.  A page directory keeps the pages it is
made of (`dir` and the twelve page tables `setupkvm` fills) and, for each of
the 160 user pages below `USERTOP`, the physical page mapped there.  Every
kernel virtual address that `walkpgdir` can meet is either mapped one to one
(`USERTOP` to `PHYSTOP`, and the devices from `0xFE000000`) or has no page
table at all, so nothing else of the directory needs to be stored.

A call that panics is `none`; a call whose C value reports a failure returns
that value.
-/
import Mathlib.Algebra.Order.Ring.Nat
import Mathlib.Logic.Function.Basic
import Mathlib.Data.Fintype.Basic

namespace Cs537.SharedMem

/-! ## Constants of `param.h` and `mmu.h` -/

abbrev nproc : Nat := 64
def usertop : Nat := 0xA0000
def phystop : Nat := 0x1000000
def pgsize : Nat := 4096

/-- Start of the device mappings in `kmap`. -/
def devspace : Nat := 0xFE000000

/-- `PGROUNDUP(sz) / PGSIZE`, the number of pages of `sz` bytes. -/
def npages (sz : Nat) : Nat := (sz + pgsize - 1) / pgsize

/-- `USERTOP / PGSIZE`. -/
def userPages : Nat := 160

/-! ## State -/

/-- A page directory, with the pages that hold it. -/
structure Pgdir where
  /-- the page of the directory itself -/
  dir : Nat
  /-- the pages of its page tables, in directory order -/
  tables : List Nat
  /-- the physical page mapped at each user page (`PTE_P | PTE_W | PTE_U`) -/
  upte : Nat → Option Nat

inductive ProcState where
  | unused | embryo | sleeping | runnable | running | zombie
deriving DecidableEq

instance : NeZero nproc := ⟨by decide⟩

abbrev Slot := Fin nproc
abbrev Key := Fin 8

/-- `struct proc`, the fields the memory code reads or writes. -/
structure Proc where
  sz : Nat
  pgdir : Option Pgdir
  kstack : Option Nat
  state : ProcState
  pid : Nat
  parent : Option Slot
  shmVa : Key → Nat
  shmSz : Nat

/-- `struct sh_phy_mem`. -/
structure ShPhyMem where
  refCount : Int
  numPages : Nat
  pagePtr : Fin 4 → Nat

structure Kernel where
  /-- `end`, the first address after the kernel image -/
  kend : Nat
  /-- `kmem.freelist`, most recently freed first -/
  freelist : List Nat
  shmPa : Key → ShPhyMem
  proc : Slot → Proc
  nextpid : Nat

/-! ## `kalloc.c` -/

/-- Allocate one page; `none` is the null pointer. -/
def kalloc (k : Kernel) : Option Nat × Kernel :=
  match k.freelist with
  | [] => (none, k)
  | r :: next => (some r, { k with freelist := next })

def kfree (k : Kernel) (v : Nat) : Option Kernel :=
  if v % pgsize ≠ 0 ∨ v < k.kend ∨ phystop ≤ v then none
  else some { k with freelist := v :: k.freelist }

/-! ## Walking and mapping -/

/-- `walkpgdir(pgdir, va, 0)`: `none` where the directory has no page table,
otherwise what the entry maps (`none` when it is not present). -/
def walkpgdir (pd : Pgdir) (va : Nat) : Option (Option Nat) :=
  if va < usertop then some (pd.upte (va / pgsize))
  else if va < phystop ∨ devspace ≤ va then some (some (va / pgsize * pgsize))
  else none

/-- `mappages(pgdir, va, PGSIZE, pa, PTE_W|PTE_U)`; `none` is the return
value `-1`.  The page table of every address it is called on exists. -/
def mappages (pd : Pgdir) (va pa : Nat) : Option Pgdir :=
  match walkpgdir pd va with
  | some none => some { pd with upte := Function.update pd.upte (va / pgsize) (some pa) }
  | _ => none

/-- The page tables that the four ranges of `kmap` need: four for
`USERTOP` to `PHYSTOP`, eight for the devices. -/
def kmapTables : Nat := 12

/-- The page-table pages that `mappages` allocates inside `setupkvm`. -/
def kmapPages : Nat → Kernel → Option (List Nat) × Kernel
  | 0, k => (some [], k)
  | n + 1, k =>
      match kalloc k with
      | (none, k) => (none, k)
      | (some pg, k) =>
          match kmapPages n k with
          | (none, k) => (none, k)
          | (some pgs, k) => (some (pg :: pgs), k)

/-- `setupkvm`; `none` is the null pointer (the pages taken so far stay
taken, as in the source). -/
def setupkvm (k : Kernel) : Option Pgdir × Kernel :=
  match kalloc k with
  | (none, k) => (none, k)
  | (some dir, k) =>
      match kmapPages kmapTables k with
      | (none, k) => (none, k)
      | (some tables, k) => (some ⟨dir, tables, fun _ => none⟩, k)

/-! ## Freeing user memory -/

/-- The loop of `deallocuvm` over the user pages `vs`. -/
def deallocuvmLoop : List Nat → Kernel → Pgdir → Option (Kernel × Pgdir)
  | [], k, pd => some (k, pd)
  | v :: vs, k, pd =>
      match walkpgdir pd (v * pgsize) with
      | some (some pa) =>
          if pa = 0 then none
          else (kfree k pa).bind fun k =>
            deallocuvmLoop vs k { pd with upte := Function.update pd.upte v none }
      | _ => deallocuvmLoop vs k pd

/-- The page numbers `a / PGSIZE` for `a = PGROUNDUP(lo); a < hi; a += PGSIZE`. -/
def pageRange (lo hi : Nat) : List Nat :=
  List.range' (npages lo) (npages hi - npages lo)

/-- `deallocuvm`: the new size, and the state. -/
def deallocuvm (k : Kernel) (pd : Pgdir) (oldsz newsz : Nat) : Option (Nat × Kernel × Pgdir) :=
  if oldsz ≤ newsz then some (oldsz, k, pd)
  else (deallocuvmLoop (pageRange newsz oldsz) k pd).map fun r => (newsz, r.1, r.2)

/-- The search of `checkifshared`: the first key, and its first index below
`num_pages`, whose `page_ptr` is the page. -/
def findShared (shm : Key → ShPhyMem) (pa : Nat) : Option (Key × Fin 4) :=
  (List.finRange 8).findSome? fun i =>
    ((List.finRange 4).find? fun j =>
      decide (j.val < (shm i).numPages ∧ pa = (shm i).pagePtr j)).map fun j => (i, j)

/-- `checkifshared` on the present entry of user page `v`, which maps `pa`. -/
def checkifshared (k : Kernel) (pd : Pgdir) (v pa : Nat) : Option (Kernel × Pgdir) :=
  match findShared k.shmPa pa with
  | none => some (k, pd)
  | some (i, j) =>
      let freed :=
        if (k.shmPa i).refCount = 1 then
          if pa = 0 then none
          else (kfree k pa).map fun k =>
            (k, { pd with upte := Function.update pd.upte v none })
        else some (k, pd)
      freed.map fun (k, pd) =>
        if j.val = 0 then
          let m := k.shmPa i
          ({ k with shmPa :=
              Function.update k.shmPa i { m with refCount := m.refCount - 1 } }, pd)
        else (k, pd)

/-- The loop of `deallocshm` over the user pages `vs`. -/
def deallocshmLoop : List Nat → Kernel → Pgdir → Option (Kernel × Pgdir)
  | [], k, pd => some (k, pd)
  | v :: vs, k, pd =>
      match walkpgdir pd (v * pgsize) with
      | some (some pa) =>
          (checkifshared k pd v pa).bind fun (k, pd) => deallocshmLoop vs k pd
      | _ => deallocshmLoop vs k pd

/-- `deallocshm`; its result value is not used by any caller. -/
def deallocshm (k : Kernel) (pd : Pgdir) (oldsz newsz : Nat) : Option (Kernel × Pgdir) :=
  if oldsz ≤ newsz then some (k, pd) else deallocshmLoop (pageRange newsz oldsz) k pd

/-- `kfree` on each page of a list, in order. -/
def kfreeAll : List Nat → Kernel → Option Kernel
  | [], k => some k
  | v :: vs, k => (kfree k v).bind fun k => kfreeAll vs k

/-- `freevm`: user pages, shared pages, page tables, directory. -/
def freevm (k : Kernel) (pd : Pgdir) (sz : Nat) : Option Kernel := do
  let (_, k, pd) ← deallocuvm k pd sz 0
  let (k, pd) ← deallocshm k pd usertop sz
  let k ← kfreeAll pd.tables k
  kfree k pd.dir

/-! ## Growing and copying user memory -/

/-- How the loop of `allocuvm` ends: it ran through, or `kalloc` failed, or
`mappages` did. -/
inductive AllocEnd where
  | done | noMemory | remap
deriving DecidableEq

/-- The loop of `allocuvm` over the user pages `vs`. -/
def allocuvmLoop : List Nat → Kernel → Pgdir → AllocEnd × Kernel × Pgdir
  | [], k, pd => (.done, k, pd)
  | v :: vs, k, pd =>
      match kalloc k with
      | (none, k) => (.noMemory, k, pd)
      | (some mem, k) =>
          match mappages pd (v * pgsize) mem with
          | none => (.remap, k, pd)
          | some pd => allocuvmLoop vs k pd

/-- `allocuvm`: the new size, or `0` on error. -/
def allocuvm (k : Kernel) (pd : Pgdir) (oldsz newsz : Nat) : Option (Nat × Kernel × Pgdir) :=
  if usertop < newsz then some (0, k, pd)
  else if newsz < oldsz then some (oldsz, k, pd)
  else
    match allocuvmLoop (pageRange oldsz newsz) k pd with
    | (.done, k, pd) => some (newsz, k, pd)
    | (.noMemory, k, pd) => (deallocuvm k pd newsz oldsz).map fun r => (0, r.2)
    | (.remap, k, pd) => some (0, k, pd)

/-- How the loop of `copyuvm` ends: copied, or `goto bad`. -/
inductive CopyEnd where
  | copied | bad
deriving DecidableEq

/-- The loop of `copyuvm` over the user pages `vs` of the parent `src`. -/
def copyuvmLoop (src : Pgdir) : List Nat → Kernel → Pgdir → Option (CopyEnd × Kernel × Pgdir)
  | [], k, d => some (.copied, k, d)
  | v :: vs, k, d =>
      match walkpgdir src (v * pgsize) with
      | some (some _) =>
          match kalloc k with
          | (none, k) => some (.bad, k, d)
          | (some mem, k) =>
              match mappages d (v * pgsize) mem with
              | none => some (.bad, k, d)
              | some d => copyuvmLoop src vs k d
      | _ => none

/-- `copyuvm`; the inner `none` is the null pointer. -/
def copyuvm (k : Kernel) (src : Pgdir) (sz : Nat) : Option (Option Pgdir × Kernel) :=
  match setupkvm k with
  | (none, k) => some (none, k)
  | (some d, k) =>
      match copyuvmLoop src (pageRange 0 sz) k d with
      | none => none
      | some (.copied, k, d) => some (some d, k)
      | some (.bad, k, d) => (freevm k d sz).map fun k => (none, k)

end Cs537.SharedMem
