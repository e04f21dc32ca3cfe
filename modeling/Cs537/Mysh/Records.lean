/-
# `Cs537.Mysh.Records` — the argument arrays of the jobs

A job node points to the array `myargv` of its command and has in `narg` the
number of its slots but one; `free_m` at the exit of the shell goes by `narg`.
`j` and `myw` take a node out by copying the next one over it: `jid`, `pid`,
`myargv` and `next`, but not `narg`.

The fields `myargv` and `narg` of the nodes are kept here beside the list of
`Cs537.Mysh.Jobs`, which sees the words that `myargv` points to.  The array of
a command that is not for the background is freed before the next line is read,
or lost when `fork` fails, and is left out; so is the block that `j` and `myw`
allocate and lose at once.

**Proved here.**  Every node has the array of its own job in any case; `narg`
fits it, and `free_m` frees each slot once and nothing else, just when a
deleted job has as many arguments as the one behind it (`records_run`).
-/
import Cs537.Mysh.Jobs

namespace Cs537.Mysh

open Cs537.Lib

/-! ## Arrays -/

/-- The array `myargv` of the words of a line, with `&` at its end taken off.
It is as long as at `malloc`. -/
def slots (myargv : List Word) : List (Option Word) :=
  match myargv.getLast? with
  | none => [none]
  | some w =>
      if w.getLast? = some ampersand then
        if w.length > 1 then (myargv.dropLast ++ [w.dropLast]).map some ++ [none]
        else myargv.dropLast.map some ++ [none, none]
      else myargv.map some ++ [none]

theorem slots_length (myargv : List Word) : (slots myargv).length = myargv.length + 1 := by
  rw [slots]
  cases h : myargv.getLast? with
  | none =>
      obtain rfl := List.getLast?_eq_none_iff.mp h
      rfl
  | some w =>
      have hpos : 0 < myargv.length := List.length_pos_iff.mpr fun he => by
        rw [he] at h
        cases h
      dsimp only
      split
      · split
        · simp
          omega
        · simp
          omega
      · simp

theorem takeWhile_some (argv : List Word) (l : List (Option Word)) :
    (argv.map some ++ none :: l).takeWhile Option.isSome = argv.map some := by
  induction argv with
  | nil => rfl
  | cons w argv ih =>
      rw [List.map_cons, List.cons_append, List.takeWhile_cons_of_pos rfl, ih]

/-- Up to the first null pointer, the array holds the command's arguments. -/
theorem slots_command {myargv : List Word} {c : Command} (h : command myargv = some c) :
    (slots myargv).takeWhile Option.isSome = c.argv.map some := by
  rw [command] at h
  rw [slots]
  cases hl : myargv.getLast? with
  | none =>
      rw [hl] at h
      cases h
  | some w =>
      rw [hl] at h
      dsimp only at h ⊢
      split at h
      · rename_i hamp
        rw [if_pos hamp]
        split at h
        · rename_i hlen
          rw [if_pos hlen]
          split at h
          · cases h
          · cases h
            exact takeWhile_some _ []
        · rename_i hlen
          rw [if_neg hlen]
          split at h
          · cases h
          · cases h
            exact takeWhile_some _ [none]
      · rename_i hamp
        rw [if_neg hamp]
        cases h
        exact takeWhile_some _ []

/-! ## State and steps -/

/-- The shell, with the fields `myargv` and `narg` of the node at each address
and the arrays allocated.  `own` is not in the shell: the array allocated for
the job with each jid. -/
structure Records where
  shell : Sys
  myargv : Ptr → Option Ptr
  narg : Ptr → Int
  arrays : Ptr → Option (List (Option Word))
  own : Int → Option Ptr

inductive Deed where
  /-- a background command of the words `myargv`; `fork` returns `pid`, and
  `malloc` the array `arr` and the node `addr` -/
  | launch (myargv : List Word) (pid : Int) (addr arr : Ptr)
  | other (e : Event)

def Event.isLaunch : Event → Bool
  | .launch .. => true
  | _ => false

/-- The node that an iteration of `j` or `myw` deletes. -/
def Sys.deletes (s : Sys) (e : Event) : Option Ptr :=
  match e, s.mode with
  | .scan, .scan jtemp => (s.heap jtemp).bind fun node =>
      if node.val.jid = -1 ∨ (s.waitpid node.val.pid).1 = 0 then none else some jtemp
  | .find, .find jtemp jid_req => (s.heap jtemp).bind fun node =>
      if node.val.jid = -1 ∨ node.val.jid ≠ jid_req ∨ (s.waitpid node.val.pid).1 = 0 then none
      else some jtemp
  | _, _ => none

/-- The array of the job at `jtemp` is freed, and that of the next job copied;
the list is that of `t`. -/
def Records.delete (x : Records) (jtemp : Ptr) (t : Sys) : Records :=
  match (x.shell.heap jtemp).bind Cell.next with
  | none => { x with shell := t }
  | some temp =>
      { x with
        shell := t
        arrays := match x.myargv jtemp with
          | some a => Function.update x.arrays a none
          | none => x.arrays
        myargv := Function.update x.myargv jtemp (x.myargv temp) }

def Records.launch (x : Records) (myargv : List Word) (addr arr : Ptr) (t : Sys) : Records where
  shell := t
  myargv := Function.update (Function.update x.myargv x.shell.job (some arr)) addr none
  narg := Function.update (Function.update x.narg x.shell.job myargv.length) addr (-1)
  arrays := Function.update x.arrays arr (some (slots myargv))
  own := Function.update x.own t.jid (some arr)

def Records.step (x : Records) : Deed → Option Records
  | .launch myargv pid addr arr =>
      match command myargv with
      | some ⟨argv, true⟩ =>
          if x.arrays arr = none then
            (x.shell.step (.launch argv pid addr)).map (x.launch myargv addr arr)
          else none
      | _ => none
  | .other e =>
      if e.isLaunch then none
      else (x.shell.step e).map fun t =>
        match x.shell.deletes e with
        | some jtemp => x.delete jtemp t
        | none => { x with shell := t }

/-- The first prompt, with the first node at `a`. -/
def Records.start (a : Ptr) : Records where
  shell := Mysh.start a
  myargv _ := none
  narg _ := -1
  arrays _ := none
  own _ := none

/-- `free_mm` for a node: the slots that it passes to `free`. -/
def Records.free_mm (x : Records) (temp : Ptr) : List (Ptr × Nat) :=
  match x.myargv temp with
  | none => []
  | some a => (List.range (x.narg temp + 1).toNat).map fun p => (a, p)

/-- `free_m`, with a bound on the nodes; `none` is a pointer to no node. -/
def Records.free_m (x : Records) : Nat → Heap Ptr JOB → Option Ptr → Option (List (Ptr × Nat))
  | _, _, none => some []
  | 0, _, some _ => none
  | n + 1, h, some temp =>
      match h temp with
      | none => none
      | some node =>
          (x.free_m n (Function.update h temp none) node.next).map fun out => x.free_mm temp ++ out

/-! ## What should hold -/

/-- The node at `p` is reached from `start`. -/
def Records.Reached (x : Records) (p : Ptr) : Prop := ∃ l, Chain x.shell.heap x.shell.start l p

structure Consistent (x : Records) : Prop where
  /-- a node has the array of its own job, and `narg` fits -/
  node : ∀ p cell a, x.Reached p → x.shell.heap p = some cell → x.myargv p = some a →
    x.own cell.val.jid = some a ∧
      ∃ array, x.arrays a = some array ∧ x.narg p = (array.length : Int) - 1
  /-- `free_m` frees the slots of the nodes' arrays, each once, and nothing else -/
  freed : ∃ n out, x.free_m n x.shell.heap (some x.shell.start) = some out ∧ out.Nodup ∧
    ∀ a i, (a, i) ∈ out ↔ (∃ p, x.Reached p ∧ x.myargv p = some a) ∧
      ∃ array, x.arrays a = some array ∧ i < array.length

/-- A job that is deleted has as many arguments as the next one, if that is a job. -/
def SameNarg (x : Records) (d : Deed) : Prop :=
  ∀ e jtemp temp, d = .other e → x.shell.deletes e = some jtemp →
    (x.shell.heap jtemp).bind Cell.next = some temp → x.myargv temp ≠ none →
      x.narg temp = x.narg jtemp

/-! ## The invariant -/

variable {x y : Records} {l l₁ l₂ : List (Ptr × JOB)} {c : Ptr × JOB} {p a : Ptr}

/-- A job's node has the job's array, which holds the words that the list says. -/
def Records.NodeOk (x : Records) (c : Ptr × JOB) : Prop :=
  ∃ a array, x.myargv c.1 = some a ∧ x.own c.2.jid = some a ∧ x.arrays a = some array ∧
    c.2.myargv.map (List.map some) = some (array.takeWhile Option.isSome)

def Records.NargOk (x : Records) (p : Ptr) : Prop :=
  ∀ a array, x.myargv p = some a → x.arrays a = some array → x.narg p = (array.length : Int) - 1

/-- The nodes are those of `l`, with an array each. -/
structure Owned (x : Records) (l : List (Ptr × JOB)) : Prop where
  list : Listed x.shell.heap x.shell.start l x.shell.job sentinel
  nodes : ∀ c ∈ l, x.NodeOk c
  apart : ∀ c ∈ l, ∀ c' ∈ l, x.myargv c.1 = x.myargv c'.1 → c.1 = c'.1
  last : x.myargv x.shell.job = none

structure RecInv (x : Records) : Prop where
  shell : Inv x.shell
  holds : ∃ l, Owned x l
  narg : ∀ l, Owned x l → ∀ c ∈ l, x.NargOk c.1

theorem Owned.reached (h : Owned x l) : x.Reached p ↔ p ∈ l.map Prod.fst ++ [x.shell.job] :=
  h.list.chain.reached h.list.last rfl

theorem Owned.unique (h : Owned x l) (h₁ : Owned x l₁) : l = l₁ := h.list.unique h₁.list

/-- The node of a job with an array. -/
theorem Owned.node (h : Owned x l) (hp : x.Reached p) (ha : x.myargv p = some a) :
    ∃ c ∈ l, c.1 = p := by
  rcases List.mem_append.mp (h.reached.mp hp) with hm | hm
  · exact List.mem_map.mp hm
  · rw [List.mem_singleton.mp hm, h.last] at ha
    cases ha

/-! ## `free_m` -/

/-- `free_m` comes to every node of a list. -/
theorem free_m_list {h : Heap Ptr JOB} {q : Ptr} (hl : Listed h p l q sentinel) :
    x.free_m (l.length + 1) h (some p) =
      some (l.flatMap (fun c => x.free_mm c.1) ++ x.free_mm q) := by
  induction l generalizing h p with
  | nil =>
      obtain rfl : p = q := hl.chain
      rw [List.length_nil, Records.free_m, hl.last]
      simp [Records.free_m, sentinel]
  | cons c l ih =>
      obtain ⟨b, v⟩ := c
      obtain ⟨rfl, n, hb, hc⟩ := hl.chain
      have hnodup := hl.nodup
      rw [List.map_cons, List.cons_append, List.nodup_cons] at hnodup
      -- the rest of the list is not touched by `free` of the node
      have hrest : Listed (Function.update h b none) n l q sentinel := by
        refine ⟨hc.congr fun r hr => Function.update_of_ne ?_ .., hnodup.2, ?_⟩
        · rintro rfl
          exact hnodup.1 (List.mem_append_left _ hr)
        · rw [Function.update_of_ne, hl.last]
          rintro rfl
          exact hnodup.1 (List.mem_append_right _ (List.mem_singleton_self _))
      rw [List.length_cons, Records.free_m, hb]
      simp only [ih hrest, Option.map_some, List.flatMap_cons, List.append_assoc]

theorem mem_free_mm {i : Nat} :
    (a, i) ∈ x.free_mm p ↔ x.myargv p = some a ∧ (i : Int) < x.narg p + 1 := by
  rw [Records.free_mm]
  cases hp : x.myargv p with
  | none => simp
  | some b =>
      simp only [List.mem_map, List.mem_range, Prod.mk.injEq, exists_eq_right_right,
        Option.some.injEq]
      constructor
      · rintro ⟨hi, rfl⟩
        exact ⟨rfl, by omega⟩
      · rintro ⟨rfl, hi⟩
        exact ⟨by omega, rfl⟩

theorem nodup_free_mm : (x.free_mm p).Nodup := by
  rw [Records.free_mm]
  split
  · exact List.nodup_nil
  · exact List.nodup_range.map fun i j hij => (Prod.mk.inj hij).2

theorem RecInv.consistent (h : RecInv x) : Consistent x := by
  obtain ⟨l, hl⟩ := h.holds
  refine ⟨fun p cell a hp hcell ha => ?_, ?_⟩
  · obtain ⟨c, hc, rfl⟩ := hl.node hp ha
    obtain ⟨n, hn⟩ := hl.list.chain.cell hc
    obtain ⟨b, array, hb, hown, harray, -⟩ := hl.nodes c hc
    obtain rfl := Option.some.inj (hb.symm.trans ha)
    obtain rfl := Option.some.inj (hn.symm.trans hcell)
    exact ⟨hown, array, harray, h.narg l hl c hc b array hb harray⟩
  · refine ⟨_, _, free_m_list hl.list, ?_, fun a i => ?_⟩
    · have hlast : x.free_mm x.shell.job = [] := by rw [Records.free_mm, hl.last]
      rw [hlast, List.append_nil, List.nodup_flatMap]
      refine ⟨fun c _ => nodup_free_mm, ?_⟩
      have hfst := (List.nodup_append.mp hl.list.nodup).1
      refine (List.pairwise_map.mp hfst).imp_of_mem fun {c c'} hc hc' hne => ?_
      rintro ⟨a, i⟩ hm hm'
      have hs := (mem_free_mm.mp hm).1
      exact hne (hl.apart c hc c' hc' (hs.trans (mem_free_mm.mp hm').1.symm))
    · rw [List.mem_append, List.mem_flatMap]
      constructor
      · rintro (⟨c, hc, hm⟩ | hm)
        · obtain ⟨ha, hi⟩ := mem_free_mm.mp hm
          obtain ⟨b, array, hb, -, harray, -⟩ := hl.nodes c hc
          obtain rfl := Option.some.inj (hb.symm.trans ha)
          have hnarg := h.narg l hl c hc b array hb harray
          have hreached := hl.reached.mpr (List.mem_append_left _ (List.mem_map_of_mem hc))
          exact ⟨⟨c.1, hreached, hb⟩, array, harray, by omega⟩
        · cases hl.last.symm.trans (mem_free_mm.mp hm).1
      · rintro ⟨⟨p, hp, ha⟩, array, harray, hi⟩
        obtain ⟨c, hc, rfl⟩ := hl.node hp ha
        have hnarg := h.narg l hl c hc a array ha harray
        exact .inl ⟨c, hc, mem_free_mm.mpr ⟨ha, by omega⟩⟩

/-- What `narg` is, back from what is seen of it. -/
theorem Consistent.nargOk (h : Consistent x) (hl : Owned x l) (hc : c ∈ l) : x.NargOk c.1 := by
  intro a array ha harray
  obtain ⟨n, hn⟩ := hl.list.chain.cell hc
  have hreached := hl.reached.mpr (List.mem_append_left _ (List.mem_map_of_mem hc))
  obtain ⟨-, array', harray', hnarg⟩ := h.node c.1 _ a hreached hn ha
  obtain rfl := Option.some.inj (harray.symm.trans harray')
  exact hnarg

/-! ## The list in a step of the shell -/

section

variable {s t : Sys} {e : Event}

/-- The nodes and the two ends of the list are the same. -/
def SameList (s t : Sys) : Prop := t.heap = s.heap ∧ t.start = s.start ∧ t.job = s.job

theorem SameList.refl (s : Sys) : SameList s s := ⟨rfl, rfl, rfl⟩

theorem block_sameList {pid : Int} (ht : s.block pid = some t) : SameList s t := by
  rw [Sys.block] at ht
  dsimp only at ht
  split at ht
  · cases ht
  · cases ht
    exact ⟨rfl, rfl, rfl⟩

theorem scan_sameList {jtemp : Ptr} (hm : s.mode = .scan jtemp) (hd : s.deletes .scan = none) :
    SameList s (s.scan jtemp) := by
  simp only [Sys.deletes, hm] at hd
  rw [Sys.scan]
  split
  · exact ⟨rfl, rfl, rfl⟩
  · rename_i node hnode
    rw [hnode, Option.bind_some] at hd
    split
    · exact ⟨rfl, rfl, rfl⟩
    · rename_i hjid
      dsimp only
      split
      · split
        · exact ⟨rfl, rfl, rfl⟩
        · exact ⟨rfl, rfl, rfl⟩
      · rename_i hwait
        rw [if_neg (not_or.mpr ⟨hjid, hwait⟩)] at hd
        cases hd

theorem find_sameList {jtemp : Ptr} {req : Int} (hm : s.mode = .find jtemp req)
    (hd : s.deletes .find = none) : SameList s (s.find jtemp req) := by
  simp only [Sys.deletes, hm] at hd
  rw [Sys.find]
  split
  · exact ⟨rfl, rfl, rfl⟩
  · rename_i node hnode
    rw [hnode, Option.bind_some] at hd
    split
    · exact ⟨rfl, rfl, rfl⟩
    · rename_i hjid
      split
      · rename_i hreq
        dsimp only
        split
        · exact ⟨rfl, rfl, rfl⟩
        · rename_i hwait
          rw [if_neg (not_or.mpr ⟨hjid, not_or.mpr ⟨not_not.mpr hreq, hwait⟩⟩)] at hd
          cases hd
      · split
        · exact ⟨rfl, rfl, rfl⟩
        · exact ⟨rfl, rfl, rfl⟩

/-- A step that launches no job and deletes none leaves the list alone. -/
theorem step_sameList (hl : e.isLaunch = false) (hd : s.deletes e = none) (ht : s.step e = some t) :
    SameList s t := by
  unfold Sys.step at ht
  split at ht
  · -- blank
    cases ht
    exact .refl _
  · -- ampersand
    cases ht
    exact ⟨rfl, rfl, rfl⟩
  · -- launch
    cases hl
  · -- fg
    obtain ⟨u, hu, rfl⟩ := Option.map_eq_some_iff.mp ht
    obtain ⟨-, rfl⟩ := fork_some hu
    exact ⟨rfl, rfl, rfl⟩
  · -- forkFail
    cases ht
    exact ⟨rfl, rfl, rfl⟩
  · -- j
    cases ht
    exact ⟨rfl, rfl, rfl⟩
  · -- myw
    split at ht
    · cases ht
      exact .refl _
    · cases ht
      exact ⟨rfl, rfl, rfl⟩
  · -- scan
    next hm =>
      cases ht
      exact scan_sameList hm hd
  · -- find
    next hm =>
      cases ht
      exact find_sameList hm hd
  · -- wake, of a foreground child
    exact block_sameList ht
  · -- wake, of `myw`
    split at ht
    · cases ht
      exact ⟨rfl, rfl, rfl⟩
    · exact block_sameList ht
  · -- term
    split at ht
    · cases ht
    · split at ht
      · cases ht
        exact ⟨rfl, rfl, rfl⟩
      · cases ht
  · cases ht

theorem delete_eq {v : JOB} {n : Ptr} {cell : Cell Ptr JOB} (hp : s.heap p = some ⟨v, some n⟩)
    (hn : s.heap n = some cell) : s.delete p = { s with
      heap := s.heap.copyNext p n cell
      job := if n = s.job then p else s.job } := by
  rw [Sys.delete, hp]
  dsimp only [Option.bind_some]
  rw [hn]

/-- A step that deletes takes out the node of a job, which is in the list. -/
theorem step_deletes (h : Inv s) (hd : s.deletes e = some p) (ht : s.step e = some t) :
    ∃ v n cell, s.heap p = some ⟨v, some n⟩ ∧ s.heap n = some cell ∧
      (∃ l, Chain s.heap s.start l p) ∧ t.heap = s.heap.copyNext p n cell ∧ t.start = s.start ∧
      t.job = if n = s.job then p else s.job := by
  have hcur : ∀ (hp : s.cursor = p) (hjob : ∃ node, s.heap p = some node ∧ node.val.jid ≠ -1),
      ∃ v n cell, s.heap p = some ⟨v, some n⟩ ∧ s.heap n = some cell ∧
        ∃ l, Chain s.heap s.start l p := by
    rintro rfl ⟨node, hnode, hjid⟩
    obtain ⟨j₁, j₂, -, hw, -⟩ := h.walk
    obtain ⟨l₁, -, -, hc, -⟩ := id hw
    cases j₂ with
    | nil =>
        obtain rfl := Option.some.inj (hnode.symm.trans hw.at_end)
        exact absurd rfl hjid
    | cons x j₃ =>
        obtain ⟨n, hp, -⟩ := hw.advance
        obtain ⟨cell, hn, -⟩ := hw.delete hp
        exact ⟨x.node, n, cell, hp, hn, l₁, hc⟩
  unfold Sys.deletes at hd
  split at hd
  · rename_i jtemp hm
    obtain ⟨node, hnode, hd⟩ := Option.bind_eq_some_iff.mp hd
    split at hd
    · cases hd
    · rename_i hno
      obtain rfl := Option.some.inj hd
      obtain ⟨hjid, hwait⟩ := not_or.mp hno
      obtain ⟨v, n, cell, hp, hn, hl⟩ := hcur (by rw [Sys.cursor, hm]) ⟨node, hnode, hjid⟩
      obtain rfl := Option.some.inj (hnode.symm.trans hp)
      have hscan : s.step .scan = some (s.scan jtemp) := by simp only [Sys.step, hm]
      rw [hscan, Sys.scan, hp] at ht
      dsimp only at ht
      rw [if_neg hjid, if_neg hwait, delete_eq (s := { s with
        children := (s.waitpid v.pid).2, seen := v.jid :: s.seen }) hp hn] at ht
      cases ht
      exact ⟨v, n, cell, hp, hn, hl, rfl, rfl, rfl⟩
  · rename_i jtemp req hm
    obtain ⟨node, hnode, hd⟩ := Option.bind_eq_some_iff.mp hd
    split at hd
    · cases hd
    · rename_i hno
      obtain rfl := Option.some.inj hd
      obtain ⟨hjid, hno⟩ := not_or.mp hno
      obtain ⟨hreq, hwait⟩ := not_or.mp hno
      obtain ⟨v, n, cell, hp, hn, hl⟩ := hcur (by rw [Sys.cursor, hm]) ⟨node, hnode, hjid⟩
      obtain rfl := Option.some.inj (hnode.symm.trans hp)
      have hfind : s.step .find = some (s.find jtemp req) := by simp only [Sys.step, hm]
      rw [hfind, Sys.find, hp] at ht
      dsimp only at ht
      rw [if_neg hjid, if_pos (not_not.mp hreq), if_neg hwait, delete_eq (s := { s with
        children := (s.waitpid v.pid).2, seen := v.jid :: s.seen, mode := .prompt }) hp hn] at ht
      cases ht
      exact ⟨v, n, cell, hp, hn, hl, rfl, rfl, rfl⟩
  · cases hd

/-- A launch fills the last node and puts a new one behind it. -/
theorem step_launch {argv : Argv} {pid : Int} {addr : Ptr} (hlast : s.heap s.job = some sentinel)
    (ht : s.step (.launch argv pid addr) = some t) : s.heap addr = none ∧ t.jid = s.jid + 1 ∧
      t.heap = Function.update
        (Function.update s.heap s.job (some ⟨⟨s.jid + 1, pid, some argv⟩, some addr⟩)) addr
        (some sentinel) ∧ t.start = s.start ∧ t.job = addr := by
  cases hm : s.mode with
  | prompt =>
      simp only [Sys.step, hm] at ht
      split at ht
      · rename_i hfree
        obtain ⟨u, hu, rfl⟩ := Option.map_eq_some_iff.mp ht
        obtain ⟨-, rfl⟩ := fork_some hu
        rw [Sys.append]
        dsimp only
        rw [hlast]
        exact ⟨hfree, rfl, rfl, rfl, rfl⟩
      · cases ht
  | foreground | scan | find | wait | crashed =>
      simp only [Sys.step, hm] at ht
      cases ht

end

/-! ## The arrays in a step -/

section

variable {t : Sys} {v : JOB} {n : Ptr} {cell : Cell Ptr JOB} {e : Event}

/-- A step that leaves the list alone. -/
theorem Owned.same (h : Owned x l) (ht : SameList x.shell t) : Owned { x with shell := t } l := by
  refine ⟨?_, h.nodes, h.apart, ?_⟩
  · show Listed t.heap t.start l t.job sentinel
    rw [ht.1, ht.2.1, ht.2.2]
    exact h.list
  · show x.myargv t.job = none
    rw [ht.2.2]
    exact h.last

theorem delete_fields (hp : x.shell.heap p = some ⟨v, some n⟩) (ha : x.myargv p = some a) :
    x.delete p t = { x with
      shell := t
      arrays := Function.update x.arrays a none
      myargv := Function.update x.myargv p (x.myargv n) } := by
  rw [Records.delete, hp]
  dsimp only [Option.bind_some]
  rw [ha]

/-- An array that is left was there before. -/
theorem arrays_update {array : List (Option Word)} {b : Ptr}
    (h : Function.update x.arrays a none b = some array) : x.arrays b = some array := by
  by_cases hb : b = a
  · rw [hb, Function.update_self] at h
    cases h
  · rwa [Function.update_of_ne hb] at h

theorem delete_self (hp : x.shell.heap p = some ⟨v, some n⟩) (ha : x.myargv p = some a) :
    (x.delete p t).myargv p = x.myargv n := by
  rw [delete_fields hp ha]
  exact Function.update_self ..

theorem delete_of_ne (hp : x.shell.heap p = some ⟨v, some n⟩) (ha : x.myargv p = some a) {q : Ptr}
    (hq : q ≠ p) : (x.delete p t).myargv q = x.myargv q := by
  rw [delete_fields hp ha]
  exact Function.update_of_ne hq ..

/-- Another node keeps its array when that of `p` is freed. -/
theorem Owned.keep (h : Owned x l) (hp : x.shell.heap p = some ⟨v, some n⟩)
    (ha : x.myargv p = some a) (hc : c ∈ l) (hpl : (p, v) ∈ l) (hcp : c.1 ≠ p) {q : Ptr}
    (hq : (x.delete p t).myargv q = x.myargv c.1) : (x.delete p t).NodeOk (q, c.2) := by
  obtain ⟨b, array, hb, hown, harray, hwords⟩ := h.nodes c hc
  have hba : b ≠ a := by
    rintro rfl
    exact hcp (h.apart c hc (p, v) hpl (hb.trans ha.symm))
  refine ⟨b, array, hq.trans hb, ?_, ?_, hwords⟩
  · rw [delete_fields hp ha]
    exact hown
  · rw [delete_fields hp ha]
    exact (Function.update_of_ne hba ..).trans harray

/-- The node at `p` is deleted, and the last node moves there. -/
theorem Owned.delete_last (h : Owned x (l₁ ++ (p, v) :: l₂))
    (hp : x.shell.heap p = some ⟨v, some x.shell.job⟩) (hjob : t.job = p)
    (hl : Listed t.heap t.start l₁ t.job sentinel) : Owned (x.delete p t) l₁ := by
  have hpl : (p, v) ∈ l₁ ++ (p, v) :: l₂ := List.mem_append_right _ (List.mem_cons_self ..)
  obtain ⟨a, array, ha, -⟩ := h.nodes _ hpl
  have hshell : (x.delete p t).shell = t := by rw [delete_fields hp ha]
  have hold : ∀ c ∈ l₁, c ∈ l₁ ++ (p, v) :: l₂ := fun c hc => List.mem_append_left _ hc
  have hne : ∀ c ∈ l₁, c.1 ≠ p := fun c hc => h.list.ne_of_split (List.mem_append_left _ hc)
  refine ⟨by rwa [hshell], fun c hc => ?_, fun c hc c' hc' he => ?_, ?_⟩
  · exact h.keep hp ha (hold c hc) hpl (hne c hc) (delete_of_ne hp ha (hne c hc))
  · rw [delete_of_ne hp ha (hne c hc), delete_of_ne hp ha (hne c' hc')] at he
    exact h.apart c (hold c hc) c' (hold c' hc') he
  · rw [hshell, hjob, delete_self hp ha]
    exact h.last

/-- The node at `p` is deleted, and that of the next job moves there with its array. -/
theorem Owned.delete_next {w : JOB} (h : Owned x (l₁ ++ (p, v) :: (n, w) :: l₂))
    (hp : x.shell.heap p = some ⟨v, some n⟩) (hjob : t.job = x.shell.job)
    (hl : Listed t.heap t.start (l₁ ++ (p, w) :: l₂) t.job sentinel) :
    Owned (x.delete p t) (l₁ ++ (p, w) :: l₂) := by
  have hpl : (p, v) ∈ l₁ ++ (p, v) :: (n, w) :: l₂ := List.mem_append_right _ (List.mem_cons_self ..)
  obtain ⟨a, array, ha, -⟩ := h.nodes _ hpl
  have hshell : (x.delete p t).shell = t := by rw [delete_fields hp ha]
  have hlist : Listed x.shell.heap x.shell.start ((l₁ ++ [(p, v)]) ++ (n, w) :: l₂) x.shell.job
      sentinel := by
    rw [List.append_assoc]
    exact h.list
  -- where a node of the new list was, with the array that it has now
  have hfrom : ∀ c ∈ l₁ ++ (p, w) :: l₂, ∃ c₀ ∈ l₁ ++ (p, v) :: (n, w) :: l₂,
      c₀.1 ≠ p ∧ c₀.2 = c.2 ∧ (x.delete p t).myargv c.1 = x.myargv c₀.1 ∧
        c.1 = if c₀.1 = n then p else c₀.1 := by
    have hstay : ∀ c ∈ l₁ ++ l₂, c ∈ l₁ ++ (p, v) :: (n, w) :: l₂ ∧ c.1 ≠ p ∧ c.1 ≠ n := by
      intro c hc
      rcases List.mem_append.mp hc with hc | hc
      · exact ⟨List.mem_append_left _ hc, h.list.ne_of_split (List.mem_append_left _ hc),
          hlist.ne_of_split (List.mem_append_left _ (List.mem_append_left _ hc))⟩
      · have hm : c ∈ (n, w) :: l₂ := List.mem_cons_of_mem _ hc
        exact ⟨List.mem_append_right _ (List.mem_cons_of_mem _ hm),
          h.list.ne_of_split (List.mem_append_right _ hm),
          hlist.ne_of_split (List.mem_append_right _ hc)⟩
    intro c hc
    by_cases hcp : c = (p, w)
    · subst hcp
      have hnl : (n, w) ∈ l₁ ++ (n, w) :: l₂ := List.mem_append_right _ (List.mem_cons_self ..)
      exact ⟨(n, w), List.mem_append_right _ (List.mem_cons_of_mem _ (List.mem_cons_self ..)),
        h.list.ne_of_split hnl, rfl, delete_self hp ha, (if_pos rfl).symm⟩
    · have hm : c ∈ l₁ ++ l₂ := by
        rcases List.mem_append.mp hc with hc | hc
        · exact List.mem_append_left _ hc
        · exact List.mem_append_right _ ((List.mem_cons.mp hc).resolve_left hcp)
      obtain ⟨hold, hne, hnn⟩ := hstay c hm
      exact ⟨c, hold, hne, rfl, delete_of_ne hp ha hne, (if_neg hnn).symm⟩
  refine ⟨by rwa [hshell], fun c hc => ?_, fun c hc c' hc' he => ?_, ?_⟩
  · obtain ⟨c₀, hc₀, hne, hv, hm, -⟩ := hfrom c hc
    have hok := h.keep (t := t) hp ha hc₀ hpl hne hm
    rwa [hv] at hok
  · obtain ⟨c₀, hc₀, -, -, hm, hat⟩ := hfrom c hc
    obtain ⟨c₀', hc₀', -, -, hm', hat'⟩ := hfrom c' hc'
    rw [hm, hm'] at he
    rw [hat, hat', h.apart c₀ hc₀ c₀' hc₀' he]
  · have hjobp : x.shell.job ≠ p := by
      intro he
      rw [← he, h.list.last] at hp
      cases hp
    rw [hshell, hjob, delete_of_ne hp ha hjobp]
    exact h.last

/-- The node at `p` is deleted: the last node moves there, or that of the next
job with its array. -/
theorem Owned.delete (h : Owned x (l₁ ++ (p, v) :: l₂)) (hp : x.shell.heap p = some ⟨v, some n⟩)
    (hn : x.shell.heap n = some cell) (hheap : t.heap = x.shell.heap.copyNext p n cell)
    (hstart : t.start = x.shell.start) (hjob : t.job = if n = x.shell.job then p else x.shell.job) :
    (n = x.shell.job ∧ Owned (x.delete p t) l₁) ∨
      ∃ l₃, l₂ = (n, cell.val) :: l₃ ∧ Owned (x.delete p t) (l₁ ++ (p, cell.val) :: l₃) := by
  rcases h.list.copyNext_cases hp hn with ⟨rfl, rfl, hl⟩ | ⟨hnq, l₃, rfl, hl⟩
  · rw [if_pos rfl] at hjob
    refine .inl ⟨rfl, h.delete_last hp hjob ?_⟩
    rw [hheap, hstart, hjob]
    exact hl
  · rw [if_neg hnq] at hjob
    refine .inr ⟨l₃, rfl, h.delete_next hp hjob ?_⟩
    rw [hheap, hstart, hjob]
    exact hl

/-- Another node's `narg` fits as before. -/
theorem NargOk.keep (hp : x.shell.heap p = some ⟨v, some n⟩) (ha : x.myargv p = some a) {q : Ptr}
    (hq : q ≠ p) (h : x.NargOk q) : (x.delete p t).NargOk q := by
  intro b array hb harray
  rw [delete_fields hp ha] at hb harray ⊢
  have hb' : x.myargv q = some b := (Function.update_of_ne hq ..).symm.trans hb
  exact h b array hb' (arrays_update harray)

/-- The `narg` that stays at `p`, against the array of the next job. -/
theorem nargOk_delete (h : Owned x (l₁ ++ (p, v) :: (n, cell.val) :: l₂))
    (hp : x.shell.heap p = some ⟨v, some n⟩) (hn : x.NargOk n) :
    (x.delete p t).NargOk p ↔ x.narg n = x.narg p := by
  have hpl : (p, v) ∈ l₁ ++ (p, v) :: (n, cell.val) :: l₂ :=
    List.mem_append_right _ (List.mem_cons_self ..)
  have hnl : (n, cell.val) ∈ l₁ ++ (p, v) :: (n, cell.val) :: l₂ :=
    List.mem_append_right _ (List.mem_cons_of_mem _ (List.mem_cons_self ..))
  have hnp : n ≠ p := h.list.ne_of_split (c := (n, cell.val))
    (List.mem_append_right _ (List.mem_cons_self ..))
  obtain ⟨a, -, ha, -⟩ := h.nodes _ hpl
  obtain ⟨b, array, hb, -, harray, -⟩ := h.nodes _ hnl
  have hba : b ≠ a := by
    rintro rfl
    exact hnp (h.apart _ hnl _ hpl (hb.trans ha.symm))
  have hnarg := hn b array hb harray
  have hself : Function.update x.myargv p (x.myargv n) p = x.myargv n := Function.update_self ..
  rw [delete_fields hp ha]
  constructor
  · intro hok
    have hfit := hok b array (hself.trans hb) ((Function.update_of_ne hba ..).trans harray)
    exact hnarg.trans hfit.symm
  · intro he b' array' hb' harray'
    have hb₁ : x.myargv n = some b' := hself.symm.trans hb'
    exact he.symm.trans (hn b' array' hb₁ (arrays_update harray'))

/-- The jids of the nodes are not above the shell's count. -/
theorem Inv.jid_le {s : Sys} (h : Inv s) (hl : Listed s.heap s.start l s.job sentinel) (hc : c ∈ l) :
    c.2.jid ≤ s.jid := by
  obtain ⟨l', hl', hjobs⟩ := h.list.list
  obtain rfl := hl.unique hl'
  have hmem : c.2 ∈ l.map Prod.snd := List.mem_map_of_mem hc
  rw [hjobs, List.nil_append] at hmem
  obtain ⟨j, hj, hnode⟩ := List.mem_map.mp hmem
  rw [← hnode]
  exact (h.numbered.range j (mem_launched hj)).2.1

/-- A launch is not at the nodes of the jobs. -/
theorem Owned.apart_launch (h : Owned x l) {addr : Ptr} (hfree : x.shell.heap addr = none)
    (hc : c ∈ l) : c.1 ≠ addr ∧ c.1 ≠ x.shell.job := by
  obtain ⟨m, hm⟩ := h.list.chain.cell hc
  constructor
  · intro he
    rw [he, hfree] at hm
    cases hm
  · intro he
    have hmem : c.1 ∈ l.map Prod.fst := List.mem_map_of_mem hc
    rw [he] at hmem
    exact h.list.notMem hmem

theorem Owned.last_ne (h : Owned x l) {addr : Ptr} (hfree : x.shell.heap addr = none) :
    x.shell.job ≠ addr := by
  intro he
  rw [← he, h.list.last] at hfree
  cases hfree

/-- A job is launched. -/
theorem Owned.launch (h : Owned x l) (hs : Inv x.shell) {myargv : List Word} {argv : Argv}
    {pid : Int} {addr arr : Ptr} (hcommand : command myargv = some ⟨argv, true⟩)
    (harr : x.arrays arr = none) (ht : x.shell.step (.launch argv pid addr) = some t) :
    Owned (x.launch myargv addr arr t)
      (l ++ [(x.shell.job, ⟨x.shell.jid + 1, pid, some argv⟩)]) := by
  obtain ⟨hfree, hjid, hheap, hstart, hjob⟩ := step_launch h.list.last ht
  have hnew := h.last_ne hfree
  -- the nodes that were there keep their arrays
  have hold : ∀ c ∈ l, (x.launch myargv addr arr t).myargv c.1 = x.myargv c.1 := fun c hc => by
    obtain ⟨hca, hcj⟩ := h.apart_launch hfree hc
    exact (Function.update_of_ne hca ..).trans (Function.update_of_ne hcj ..)
  have hself : (x.launch myargv addr arr t).myargv x.shell.job = some arr :=
    (Function.update_of_ne hnew ..).trans (Function.update_self ..)
  have hne : ∀ c ∈ l, x.myargv c.1 ≠ some arr := fun c hc he => by
    obtain ⟨b, array, hb, -, harray, -⟩ := h.nodes c hc
    obtain rfl := Option.some.inj (hb.symm.trans he)
    cases harr.symm.trans harray
  refine ⟨?_, fun c hc => ?_, fun c hc c' hc' he => ?_, ?_⟩
  · show Listed t.heap t.start _ t.job sentinel
    rw [hheap, hstart, hjob]
    exact h.list.snoc hfree _ sentinel
  · rcases List.mem_append.mp hc with hc | hc
    · obtain ⟨b, array, hb, hown, harray, hwords⟩ := h.nodes c hc
      have hba : b ≠ arr := fun he => hne c hc (he ▸ hb)
      have hcj : c.2.jid ≠ t.jid := by
        have := hs.jid_le h.list hc
        omega
      exact ⟨b, array, (hold c hc).trans hb, (Function.update_of_ne hcj ..).trans hown,
        (Function.update_of_ne hba ..).trans harray, hwords⟩
    · obtain rfl := List.mem_singleton.mp hc
      refine ⟨arr, slots myargv, hself, ?_, Function.update_self .., ?_⟩
      · show Function.update x.own t.jid (some arr) (x.shell.jid + 1) = some arr
        rw [hjid, Function.update_self]
      · rw [slots_command hcommand]
        rfl
  · rcases List.mem_append.mp hc with hc | hc
    · rcases List.mem_append.mp hc' with hc' | hc'
      · rw [hold c hc, hold c' hc'] at he
        exact h.apart c hc c' hc' he
      · obtain rfl := List.mem_singleton.mp hc'
        rw [hold c hc, hself] at he
        exact absurd he (hne c hc)
    · obtain rfl := List.mem_singleton.mp hc
      rcases List.mem_append.mp hc' with hc' | hc'
      · rw [hold c' hc', hself] at he
        exact absurd he.symm (hne c' hc')
      · rw [List.mem_singleton.mp hc']
  · show (x.launch myargv addr arr t).myargv t.job = none
    rw [hjob]
    exact Function.update_self ..

end

/-! ## Runs of the shell -/

variable {d : Deed}

/-- A deletion: what is left of the list, and of what its `narg`s depend on. -/
theorem step_delete (h : RecInv x) {e : Event} {t : Sys} (hd : x.shell.deletes e = some p)
    (ht : x.shell.step e = some t) :
    (∃ l, Owned (x.delete p t) l ∧ ∀ c ∈ l, (x.delete p t).NargOk c.1) ∧
        (x.shell.heap p).bind Cell.next = some x.shell.job ∨
      ∃ n l c, (x.shell.heap p).bind Cell.next = some n ∧ x.myargv n ≠ none ∧
        Owned (x.delete p t) l ∧ c ∈ l ∧ c.1 = p ∧
        ((x.delete p t).NargOk p ↔ x.narg n = x.narg p) ∧
        ∀ c ∈ l, c.1 ≠ p → (x.delete p t).NargOk c.1 := by
  obtain ⟨l, hl⟩ := h.holds
  obtain ⟨v, n, cell, hp, hn, ⟨k, hk⟩, hheap, hstart, hjob⟩ := step_deletes h.shell hd ht
  -- the node is one of the list
  have hpl : ∃ l₁ l₂, l = l₁ ++ (p, v) :: l₂ := by
    rcases List.mem_append.mp (hl.reached.mp ⟨k, hk⟩) with hm | hm
    · obtain ⟨c, hc, rfl⟩ := List.mem_map.mp hm
      obtain ⟨m, hcell⟩ := hl.list.chain.cell hc
      obtain ⟨l₁, l₂, rfl⟩ := List.append_of_mem hc
      rw [hp] at hcell
      obtain rfl : v = c.2 := by simpa using congrArg (Option.map Cell.val) hcell
      exact ⟨l₁, l₂, rfl⟩
    · rw [List.mem_singleton.mp hm, hl.list.last] at hp
      cases hp
  obtain ⟨l₁, l₂, rfl⟩ := hpl
  obtain ⟨a, -, ha, -⟩ := hl.nodes (p, v) (List.mem_append_right _ (List.mem_cons_self ..))
  have hnext : (x.shell.heap p).bind Cell.next = some n := by rw [hp]; rfl
  have hnargs := h.narg _ hl
  rcases hl.delete hp hn hheap hstart hjob with ⟨rfl, hl'⟩ | ⟨l₃, rfl, hl'⟩
  · refine .inl ⟨⟨l₁, hl', fun c hc => ?_⟩, hnext⟩
    have hcp : c.1 ≠ p := by
      have hnd := (List.nodup_append.mp hl.list.nodup).1
      rw [List.map_append, List.map_cons] at hnd
      exact (List.nodup_append.mp hnd).2.2 c.1 (List.mem_map_of_mem hc) p (List.mem_cons_self ..)
    exact NargOk.keep hp ha hcp (hnargs c (List.mem_append_left _ hc))
  · have hnl : (n, cell.val) ∈ l₁ ++ (p, v) :: (n, cell.val) :: l₃ :=
      List.mem_append_right _ (List.mem_cons_of_mem _ (List.mem_cons_self ..))
    obtain ⟨b, -, hb, -⟩ := hl.nodes _ hnl
    refine .inr ⟨n, _, (p, cell.val), hnext, by rw [hb]; exact Option.some_ne_none b, hl',
      List.mem_append_right _ (List.mem_cons_self ..), rfl,
      nargOk_delete hl hp (hnargs _ hnl), fun c hc hcp => ?_⟩
    refine NargOk.keep hp ha hcp (hnargs c ?_)
    rcases List.mem_append.mp hc with hc | hc
    · exact List.mem_append_left _ hc
    · rcases List.mem_cons.mp hc with rfl | hc
      · exact absurd rfl hcp
      · exact List.mem_append_right _ (List.mem_cons_of_mem _ (List.mem_cons_of_mem _ hc))

/-- A step that does not delete keeps the invariant. -/
theorem step_keeps (h : RecInv x) (hno : ∀ e, d = .other e → x.shell.deletes e = none)
    (hy : x.step d = some y) : RecInv y := by
  obtain ⟨l, hl⟩ := h.holds
  cases d with
  | launch myargv pid addr arr =>
      rw [Records.step] at hy
      split at hy
      · rename_i argv hcommand
        split at hy
        · rename_i harr
          obtain ⟨t, ht, rfl⟩ := Option.map_eq_some_iff.mp hy
          have hl' := hl.launch h.shell hcommand harr ht
          refine ⟨step_inv h.shell ht, ⟨_, hl'⟩, fun k hk c hc => ?_⟩
          obtain rfl := hk.unique hl'
          intro b array hb harray
          obtain ⟨hfree, -⟩ := step_launch hl.list.last ht
          have hnew := hl.last_ne hfree
          rcases List.mem_append.mp hc with hc | hc
          · obtain ⟨hca, hcj⟩ := hl.apart_launch hfree hc
            have hb' : x.myargv c.1 = some b :=
              ((Function.update_of_ne hca ..).trans (Function.update_of_ne hcj ..)).symm.trans hb
            obtain ⟨b', array', hb₁, -, harray', -⟩ := hl.nodes c hc
            obtain rfl := Option.some.inj (hb₁.symm.trans hb')
            have hba : b' ≠ arr := by
              rintro rfl
              cases harr.symm.trans harray'
            have hkept : x.arrays b' = some array := (Function.update_of_ne hba ..).symm.trans harray
            have hnarg : (x.launch myargv addr arr t).narg c.1 = x.narg c.1 :=
              (Function.update_of_ne hca ..).trans (Function.update_of_ne hcj ..)
            rw [hnarg]
            exact h.narg l hl c hc b' array hb' hkept
          · obtain rfl := List.mem_singleton.mp hc
            have hself : (x.launch myargv addr arr t).myargv x.shell.job = some arr :=
              (Function.update_of_ne hnew ..).trans (Function.update_self ..)
            obtain rfl := Option.some.inj (hself.symm.trans hb)
            have harr' : (x.launch myargv addr arr t).arrays arr = some (slots myargv) :=
              Function.update_self ..
            obtain rfl := Option.some.inj (harr'.symm.trans harray)
            have hnarg : (x.launch myargv addr arr t).narg x.shell.job = myargv.length :=
              (Function.update_of_ne hnew ..).trans (Function.update_self ..)
            rw [hnarg, slots_length]
            omega
        · cases hy
      · cases hy
  | other e =>
      rw [Records.step] at hy
      split at hy
      · cases hy
      · rename_i hlaunch
        obtain ⟨t, ht, rfl⟩ := Option.map_eq_some_iff.mp hy
        have hsame := step_sameList (by simpa using hlaunch) (hno e rfl) ht
        rw [hno e rfl]
        refine ⟨step_inv h.shell ht, ⟨l, hl.same hsame⟩, fun k hk c hc => ?_⟩
        obtain rfl := hk.unique (hl.same hsame)
        exact h.narg k hl c hc

theorem step_recInv (h : RecInv x) (hok : SameNarg x d) (hy : x.step d = some y) : RecInv y := by
  by_cases hno : ∀ e, d = .other e → x.shell.deletes e = none
  · exact step_keeps h hno hy
  · simp only [not_forall] at hno
    obtain ⟨e, rfl, hdel⟩ := hno
    obtain ⟨p, hd⟩ := Option.ne_none_iff_exists'.mp hdel
    rw [Records.step] at hy
    split at hy
    · cases hy
    · obtain ⟨t, ht, rfl⟩ := Option.map_eq_some_iff.mp hy
      have hshell : Inv (x.delete p t).shell := by
        have hs : (x.delete p t).shell = t := by
          rw [Records.delete]
          split <;> rfl
        rw [hs]
        exact step_inv h.shell ht
      rw [hd]
      rcases step_delete h hd ht with ⟨⟨l, hl, hnarg⟩, -⟩ | ⟨n, l, c, hnext, hn, hl, -, -, hiff, hnarg⟩
      · refine ⟨hshell, ⟨l, hl⟩, fun k hk c hc => ?_⟩
        obtain rfl := hk.unique hl
        exact hnarg c hc
      · refine ⟨hshell, ⟨l, hl⟩, fun k hk c hc => ?_⟩
        obtain rfl := hk.unique hl
        by_cases hcp : c.1 = p
        · rw [hcp]
          exact hiff.mpr (hok e p n rfl hd hnext hn)
        · exact hnarg c hc hcp

/-- A step after which the records are right has met the condition. -/
theorem sameNarg_of_consistent (h : RecInv x) (hy : x.step d = some y) (hc : Consistent y) :
    SameNarg x d := by
  rintro e p n rfl hd hnext hn
  obtain ⟨l₀, hl₀⟩ := h.holds
  rw [Records.step] at hy
  split at hy
  · cases hy
  · obtain ⟨t, ht, rfl⟩ := Option.map_eq_some_iff.mp hy
    rw [hd] at hc
    rcases step_delete h hd ht with ⟨-, hlast⟩ | ⟨m, l, c, hnext', -, hl, hcl, hcp, hiff, -⟩
    · obtain rfl := Option.some.inj (hlast.symm.trans hnext)
      exact absurd hl₀.last hn
    · obtain rfl := Option.some.inj (hnext'.symm.trans hnext)
      have hok := hc.nargOk hl hcl
      rw [hcp] at hok
      exact hiff.mp hok

theorem start_recInv (a : Ptr) : RecInv (Records.start a) := by
  have hlist : Owned (Records.start a) [] := by
    refine ⟨⟨rfl, List.nodup_singleton a, ?_⟩, fun c hc => absurd hc List.not_mem_nil,
      fun c hc => absurd hc List.not_mem_nil, rfl⟩
    show Function.update (fun _ => none) a (some sentinel) a = some sentinel
    exact Function.update_self ..
  refine ⟨start_inv a, ⟨[], hlist⟩, fun l hl c hc => ?_⟩
  obtain rfl := hl.unique hlist
  exact absurd hc List.not_mem_nil

/-- In every run, the records are right in every state just when each job that
`j` or `myw` deletes has as many arguments as the job behind it. -/
theorem records_run (a : Ptr) (ds : List Deed) :
    AllStates Records.step Consistent (Records.start a) ds ↔
      AllSteps Records.step SameNarg (Records.start a) ds :=
  allStates_iff_allSteps (I := RecInv) (B := fun _ _ => True) (fun _ h => h.consistent)
    (fun _ _ _ h _ hy hc => sameNarg_of_consistent h hy hc)
    (fun _ _ _ h _ hok hy => step_recInv h hok hy) (start_recInv a) allSteps_true

/-- `sleep 9&` and then `a&`; the first ends, and `j` takes its node out. -/
def shorterRun : List Deed :=
  [.launch [[115, 108, 101, 101, 112], [57, 38]] 7 1 10, .launch [[97, 38]] 8 2 11,
    .other (.term 7), .other .j, .other .scan]

/-- Then `free_m` frees three slots of the array of `a`, which has two. -/
theorem free_m_beyond : ((run Records.step (Records.start 0) shorterRun).map fun x =>
      x.free_m 3 x.shell.heap (some x.shell.start)) = some (some [(11, 0), (11, 1), (11, 2)]) ∧
    ¬ AllStates Records.step Consistent (Records.start 0) shorterRun := by
  have hlast : ((run Records.step (Records.start 0) shorterRun).map fun x =>
      decide (x.free_m 3 x.shell.heap (some x.shell.start) = some [(11, 0), (11, 1), (11, 2)] ∧
        x.shell.start = 0 ∧ (x.shell.heap 0).isSome = true ∧ x.myargv 0 = some 11 ∧
        (x.arrays 11).map List.length = some 2 ∧ x.narg 0 = 2)) = some true := by
    decide +kernel
  obtain ⟨x, hrun, hx⟩ := Option.map_eq_some_iff.mp hlast
  obtain ⟨hfree, hstart, hheap, hmyargv, harray, hnarg⟩ := of_decide_eq_true hx
  refine ⟨by rw [hrun, Option.map_some, hfree], fun hall => ?_⟩
  obtain ⟨cell, hcell⟩ := Option.isSome_iff_exists.mp hheap
  obtain ⟨-, array, ha, hfit⟩ := (hall.last hrun).node 0 cell 11 ⟨[], hstart⟩ hcell hmyargv
  rw [ha, Option.map_some, Option.some.injEq] at harray
  omega

end Cs537.Mysh
