/-
# `Cs537.SharedMem.System` — runs of the shared-memory calls

The system whose events are the calls of `Cs537.SharedMem.Calls`, each made by
some process that can run, and what is asked of its states.

The kernel does not record everything that one has to say about it, so the
state carries three history variables, which no call reads:

* `asked p i`  — the page count with which `p` attached to the key `i`, or
  inherited from its parent;
* `gen i`      — the pages that `shmgetat` took from `kalloc` when it last
  allocated the key `i`;
* `taken i`    — every page it ever took for the key `i` that was not passed
  to `kfree` since.

The four properties are `Counted`, `Isolated`, `Coherent` and `Returned`.
None of them holds of every run; `StepOk` is the discipline under which the
first two do, and the other two each need one clause more, `SameCount` and
`FullDetach`.
-/
import Cs537.SharedMem.Layout
import Cs537.Lib.Run

namespace Cs537.SharedMem

/-- The kernel with its history. -/
structure Sys where
  k : Kernel
  asked : Slot → Key → Nat
  gen : Key → List Nat
  taken : Key → List Nat

/-- `p` is a process, reaped or not, with `shm_va[i] != USERTOP`. -/
def Attached (k : Kernel) (p : Slot) (i : Key) : Prop :=
  (k.proc p).state ≠ .unused ∧ (k.proc p).shmVa i ≠ usertop

instance (k : Kernel) (p : Slot) (i : Key) : Decidable (Attached k p i) :=
  inferInstanceAs (Decidable (_ ∧ _))

/-- A process that has not exited. -/
def Live (k : Kernel) (p : Slot) : Prop :=
  (k.proc p).state = .runnable ∨ (k.proc p).state = .running ∨ (k.proc p).state = .sleeping

instance (k : Kernel) (p : Slot) : Decidable (Live k p) :=
  inferInstanceAs (Decidable (_ ∨ _))

/-! ## Events -/

/-- The key and the count, when the call is a legal `shmgetat` by a process
not yet attached to that key. -/
def attachEvent (k : Kernel) (p : Slot) : Call → Option (Key × Nat)
  | .shmgetat key n => (shmArgs key n).filter fun a => (k.proc p).shmVa a.1 = usertop
  | _ => none

/-- The same, when `shmgetat` will allocate the key. -/
def allocEvent (k : Kernel) (p : Slot) (c : Call) : Option (Key × Nat) :=
  (attachEvent k p c).filter fun a => (k.shmPa a.1).refCount = 0

/-- The history after a call that returned `r` and left the kernel `k`. -/
def record (s : Sys) (p : Slot) (c : Call) (r : Int) (k : Kernel) : Sys where
  k := k
  asked :=
    match attachEvent s.k p c, c, freeSlot s.k with
    | some (i, n), _, _ => Function.update s.asked p (Function.update (s.asked p) i n)
    | none, .fork, some np => if r = -1 then s.asked else Function.update s.asked np (s.asked p)
    | _, _, _ => s.asked
  gen :=
    match allocEvent s.k p c with
    | some (i, n) => Function.update s.gen i (pagePtrs (k.shmPa i) n)
    | none => s.gen
  taken := fun i =>
    (match allocEvent s.k p c with
      | some (i', n) => if i = i' then pagePtrs (k.shmPa i) n ++ s.taken i else s.taken i
      | none => s.taken i).filter fun pa => pa ∉ k.freelist

/-- One event: process `e.1`, which can run, makes the call `e.2`. -/
def step (s : Sys) (e : Slot × Call) : Option Sys :=
  if (s.k.proc e.1).state = .runnable then
    (call s.k e.1 e.2).map fun r => record s e.1 e.2 r.1 r.2
  else none

/-- The state after boot: the first process, nothing shared yet. -/
def bootSys (kend : Nat) (freelist : List Nat) : Option Sys :=
  (userinit (bootKernel kend freelist)).map fun k => ⟨k, fun _ _ => 0, fun _ => [], fun _ => []⟩

/-! ## What is asked of a state -/

/-- `shm_refcount` counts the attached processes. -/
def Counted (s : Sys) : Prop :=
  ∀ i, shmRefcount s.k i.val = (Finset.univ.filter fun p => Attached s.k p i).card

/-- `pa` is a kernel stack, a page-table page or private user memory. -/
def InPrivateUse (k : Kernel) (pa : Nat) : Prop :=
  ∃ q, (k.proc q).state ≠ .unused ∧
    ((k.proc q).kstack = some pa ∨
      ∃ pd, (k.proc q).pgdir = some pd ∧
        (pa = pd.dir ∨ pa ∈ pd.tables ∨
          ((k.proc q).state ≠ .embryo ∧ pa ∈ privPages pd (k.proc q).sz)))

/-- Every page that a live process maps above its own memory is a page of
some key, neither page 0 nor free nor in private use. -/
def Isolated (s : Sys) : Prop :=
  ∀ p, Live s.k p → ∀ pd, (s.k.proc p).pgdir = some pd →
    ∀ pa ∈ sharedPages pd (s.k.proc p).sz,
      (∃ i, pa ∈ s.taken i) ∧ pa ≠ 0 ∧ pa ∉ s.k.freelist ∧ ¬ InPrivateUse s.k pa

/-- The physical address of the user address `va`. -/
def translate (pd : Pgdir) (va : Nat) : Option Nat :=
  (pd.upte (va / pgsize)).map fun pa => pa + va % pgsize

/-- Two live processes attached to one key see the same memory at every
offset that both asked for. -/
def Coherent (s : Sys) : Prop :=
  ∀ p q i, Live s.k p → Live s.k q → Attached s.k p i → Attached s.k q i →
    ∀ pdp pdq, (s.k.proc p).pgdir = some pdp → (s.k.proc q).pgdir = some pdq →
      ∀ off, off < min (s.asked p i) (s.asked q i) * pgsize →
        translate pdp ((s.k.proc p).shmVa i + off) = translate pdq ((s.k.proc q).shmVa i + off)

/-- No page is free twice; while a process is attached to a key none of the
key's pages was returned; once none is, all were. -/
def Returned (s : Sys) : Prop :=
  s.k.freelist.Nodup ∧
    ∀ i, ((∃ p, Attached s.k p i) → ∀ pa ∈ s.gen i, pa ∈ s.taken i ∧ pa ∉ s.k.freelist) ∧
      ((¬ ∃ p, Attached s.k p i) → s.taken i = [])

/-! ## What is asked of a step -/

/-- The pages that a legal attach to a key out of use will allocate are not
still listed by another key. -/
def Fresh (s : Sys) (e : Slot × Call) : Prop :=
  ∀ a ∈ attachEvent s.k e.1 e.2, (s.k.shmPa a.1).refCount = 0 →
    ∀ pa ∈ s.k.freelist.take a.2, ∀ i', i' ≠ a.1 → ∀ j : Fin 4,
      j.val < (s.k.shmPa i').numPages → (s.k.shmPa i').pagePtr j ≠ pa

/-- An attach to a key in use asks for no more pages than the key has. -/
def Enough (s : Sys) (e : Slot × Call) : Prop :=
  ∀ a ∈ attachEvent s.k e.1 e.2, (s.k.shmPa a.1).refCount ≠ 0 → a.2 ≤ (s.gen a.1).length

/-- An attach finds room in the address space. -/
def Room (s : Sys) (e : Slot × Call) : Prop :=
  ∀ a ∈ attachEvent s.k e.1 e.2, ∀ pd ∈ (s.k.proc e.1).pgdir, a.2 ≤ userRoom pd

/-- The image that `exec` abandons with `sz = 0`, after a failed `allocuvm`. -/
def abandoned (k : Kernel) : Call → Option Pgdir
  | .exec f =>
      match setupkvm k with
      | (none, _) => none
      | (some pd, k) =>
          match execBuild f k pd with
          | some (false, _, pd, 0) => some pd
          | _ => none
  | _ => none

local instance neZero_four : NeZero 4 := ⟨by decide⟩

/-- No page of an abandoned image is still listed as the first page of a key. -/
def Abandons (s : Sys) (e : Slot × Call) : Prop :=
  ∀ pd ∈ abandoned s.k e.2, ∀ v < userPages, ∀ pa ∈ pd.upte v, ∀ i,
    findShared s.k.shmPa pa ≠ some (i, 0)

/-- The discipline that keeps the counts and the page ownership right. -/
structure StepOk (s : Sys) (e : Slot × Call) : Prop where
  fresh : Fresh s e
  enough : Enough s e
  room : Room s e
  exec : Abandons s e

instance (s : Sys) (e : Slot × Call) : Decidable (Fresh s e) :=
  inferInstanceAs (Decidable (∀ a ∈ attachEvent s.k e.1 e.2, _))

instance (s : Sys) (e : Slot × Call) : Decidable (Enough s e) :=
  inferInstanceAs (Decidable (∀ a ∈ attachEvent s.k e.1 e.2, _))

instance (s : Sys) (e : Slot × Call) : Decidable (Room s e) :=
  inferInstanceAs (Decidable (∀ a ∈ attachEvent s.k e.1 e.2, _))

instance (s : Sys) (e : Slot × Call) : Decidable (Abandons s e) :=
  inferInstanceAs (Decidable (∀ pd ∈ abandoned s.k e.2, _))

instance (s : Sys) (e : Slot × Call) : Decidable (StepOk s e) :=
  decidable_of_iff (Fresh s e ∧ Enough s e ∧ Room s e ∧ Abandons s e)
    ⟨fun ⟨h1, h2, h3, h4⟩ => ⟨h1, h2, h3, h4⟩, fun h => ⟨h.fresh, h.enough, h.room, h.exec⟩⟩

/-- An attach asks for the count that every live attached process asked for. -/
def SameCount (s : Sys) (e : Slot × Call) : Prop :=
  ∀ a ∈ attachEvent s.k e.1 e.2, ∀ q, Live s.k q → Attached s.k q a.1 → s.asked q a.1 = a.2

instance (s : Sys) (e : Slot × Call) : Decidable (SameCount s e) :=
  inferInstanceAs (Decidable (∀ a ∈ attachEvent s.k e.1 e.2, _))

/-- The process whose address space the call tears down: the child that
`wait` reaps, or the caller of an `exec` that succeeds. -/
def detachEvent (k : Kernel) (p : Slot) : Call → Option Slot
  | .wait => (List.finRange nproc).find? fun q =>
      (k.proc q).parent = some p ∧ (k.proc q).state = .zombie
  | .exec f =>
      match exec k p f with
      | some (0, _) => some p
      | _ => none
  | _ => none

/-- The last process to leave a key had asked for all of the key's pages, and
so had the last caller of `shmgetat` for the key. -/
def FullDetach (s : Sys) (e : Slot × Call) : Prop :=
  ∀ d ∈ detachEvent s.k e.1 e.2, ∀ i, Attached s.k d i → (s.k.shmPa i).refCount = 1 →
    s.asked d i = (s.gen i).length ∧ (s.k.shmPa i).numPages = (s.gen i).length

instance (s : Sys) (e : Slot × Call) : Decidable (FullDetach s e) :=
  inferInstanceAs (Decidable (∀ d ∈ detachEvent s.k e.1 e.2, _))

end Cs537.SharedMem
