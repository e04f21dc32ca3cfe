/-
# `Cs537.Mysh.Jobs` — the shell's list of background jobs

`mysh.c` keeps its background jobs in a linked list that ends in a node with
jid -1, the one that `job` points to.  A launch fills that node and puts a new
one behind it.  `j` walks from `start` and asks `waitpid` about each job: it
prints the job if the child is still running, and takes the node out if not, by
copying the next one over it.  `myw` looks for a jid; a job that is done it
takes out as well, but for a running one it waits and leaves the node.

The machine below takes one step for each iteration of these walks, so that
children can terminate between any two of them:

    prompt          a line is read: `blank`, `ampersand`, `launch`, `fg`, `forkFail`, `j`, `myw`
    foreground pid  the shell waits for a foreground child           `wake`
    scan jtemp      the walk of `j`                                  `scan`
    find jtemp jid  the walk of `myw`                                `find`
    wait jtemp      `myw` waits for a running job                    `wake`
    any             a child terminates                               `term`

`fork` returns a pid that no child has, which may be one that an earlier child
had before it was waited for.  A job that `myw` has waited for is not running,
but its node is still there, with a pid that is free again.  When a later child
gets it, `waitpid` answers for that child and `j` prints the finished job.

**Proved here.**  The list is right in every state; `j` prints exactly the jobs
still running just when no such pid is asked for (`jobs_run`).
-/
import Cs537.Lib.Run
import Cs537.Lib.Chain
import Cs537.Mysh.Batch

namespace Cs537.Mysh

open Cs537.Lib

abbrev Argv := List Word
abbrev Ptr := Nat

/-! ## State -/

/-- `JOB` without its link.  A null `myargv` is `none`. -/
structure JOB where
  jid : Int
  pid : Int
  myargv : Option Argv
  deriving DecidableEq

/-- The node that ends the list. -/
def sentinel : Cell Ptr JOB := ⟨⟨-1, -1, none⟩, none⟩

/-- A child that has not been waited for.  `id` is not in the system: no two
children have the same. -/
structure Child where
  id : Nat
  running : Bool
  deriving DecidableEq

/-- A background job as it was launched. -/
structure Job where
  id : Nat
  jid : Int
  pid : Int
  argv : Argv
  deriving DecidableEq

/-- What the shell is doing. -/
inductive Mode where
  | prompt
  | foreground (pid : Int)
  | scan (jtemp : Ptr)
  | find (jtemp : Ptr) (jid_req : Int)
  | wait (jtemp : Ptr)
  | crashed
  deriving DecidableEq

/-- The shell and its children.  `printed` is what the last `j` has printed so
far.  `launched` and `seen` are not in the shell: the jobs launched, in order,
and the jids of those that `j`, or a `myw` that did not wait, has found done. -/
structure Sys where
  heap : Heap Ptr JOB
  start : Ptr
  job : Ptr
  jid : Int
  mode : Mode
  printed : List (Int × Argv)
  children : Int → Option Child
  nextid : Nat
  launched : List Job
  seen : List Int

inductive Event where
  | blank
  /-- a line that is only `&` -/
  | ampersand
  /-- a background command; `fork` returns `pid` and `malloc` `addr` -/
  | launch (argv : Argv) (pid : Int) (addr : Ptr)
  /-- a foreground command -/
  | fg (pid : Int)
  | forkFail
  | j
  | myw (jid_req : Int)
  /-- an iteration of the loop of `j` -/
  | scan
  /-- an iteration of the loop of `myw`, with what follows if it is the last -/
  | find
  /-- a blocking `waitpid` returns -/
  | wake
  /-- a child terminates -/
  | term (pid : Int)
  deriving DecidableEq

/-! ## The system -/

/-- `waitpid(pid, NULL, WNOHANG)` for a pid above 0: the value, and the children
after it. -/
def Sys.waitpid (s : Sys) (pid : Int) : Int × (Int → Option Child) :=
  match s.children pid with
  | none => (-1, s.children)
  | some c => if c.running then (0, s.children) else (pid, Function.update s.children pid none)

/-- `waitpid` without `WNOHANG`, and the rest of the command. -/
def Sys.block (s : Sys) (pid : Int) : Option Sys :=
  let (r, children) := s.waitpid pid
  if r = 0 then none else some { s with children := children, mode := .prompt }

/-- `fork` in the parent. -/
def Sys.fork (s : Sys) (pid : Int) : Option Sys :=
  if 0 < pid ∧ s.children pid = none then
    some { s with
      jid := s.jid + 1
      children := Function.update s.children pid (some ⟨s.nextid, true⟩)
      nextid := s.nextid + 1 }
  else none

/-- The use of a pointer that points to no node. -/
def Sys.crash (s : Sys) : Sys := { s with mode := .crashed }

/-- The job at `jtemp` is deleted: its successor `temp` is copied and freed. -/
def Sys.delete (s : Sys) (jtemp : Ptr) : Sys :=
  match (s.heap jtemp).bind Cell.next with
  | none => s.crash
  | some temp =>
      match s.heap temp with
      | none => s.crash
      | some c =>
          { s with
            heap := s.heap.copyNext jtemp temp c
            job := if temp = s.job then jtemp else s.job }

/-- The job is filled in at `job`, and a new end is made at `addr`. -/
def Sys.append (s : Sys) (argv : Argv) (pid : Int) (addr : Ptr) : Sys :=
  match s.heap s.job with
  | none => s.crash
  | some _ =>
      { s with
        heap := Function.update
          (Function.update s.heap s.job (some ⟨⟨s.jid, pid, some argv⟩, some addr⟩))
          addr (some sentinel)
        job := addr }

/-- `while (jtemp->jid != -1)` of `j`, once. -/
def Sys.scan (s : Sys) (jtemp : Ptr) : Sys :=
  match s.heap jtemp with
  | none => s.crash
  | some node =>
      if node.val.jid = -1 then { s with mode := .prompt }
      else
        let (r, children) := s.waitpid node.val.pid
        if r = 0 then
          match node.val.myargv, node.next with
          | some argv, some next =>
              { s with printed := s.printed ++ [(node.val.jid, argv)], mode := .scan next }
          | _, _ => s.crash
        else Sys.delete { s with children := children, seen := node.val.jid :: s.seen } jtemp

/-- `while (jtemp->jid != -1)` of `myw`, once, and what is done at its end. -/
def Sys.find (s : Sys) (jtemp : Ptr) (jid_req : Int) : Sys :=
  match s.heap jtemp with
  | none => s.crash
  | some node =>
      if node.val.jid = -1 then { s with mode := .prompt }
      else if node.val.jid = jid_req then
        let (r, children) := s.waitpid node.val.pid
        if r = 0 then { s with mode := .wait jtemp }
        else
          Sys.delete { s with
            children := children
            seen := node.val.jid :: s.seen
            mode := .prompt } jtemp
      else
        match node.next with
        | none => s.crash
        | some next => { s with mode := .find next jid_req }

/-- One event; `none` when it cannot happen in this state. -/
def Sys.step (s : Sys) (e : Event) : Option Sys :=
  match e, s.mode with
  | .blank, .prompt => some s
  | .ampersand, .prompt => some { s with jid := s.jid + 1 }
  | .launch argv pid addr, .prompt =>
      if s.heap addr = none then
        (s.fork pid).map fun t =>
          Sys.append { t with launched := t.launched ++ [⟨s.nextid, t.jid, pid, argv⟩] } argv pid addr
      else none
  | .fg pid, .prompt => (s.fork pid).map fun t => { t with mode := .foreground pid }
  | .forkFail, .prompt => some { s with jid := s.jid + 1 }
  | .j, .prompt => some { s with mode := .scan s.start, printed := [] }
  | .myw jid_req, .prompt =>
      if jid_req > s.jid then some s else some { s with mode := .find s.start jid_req }
  | .scan, .scan jtemp => some (s.scan jtemp)
  | .find, .find jtemp jid_req => some (s.find jtemp jid_req)
  | .wake, .foreground pid => s.block pid
  | .wake, .wait jtemp =>
      match s.heap jtemp with
      | none => some s.crash
      | some node => s.block node.val.pid
  | .term pid, _ =>
      match s.children pid with
      | none => none
      | some c =>
          if c.running then
            some { s with children := Function.update s.children pid (some ⟨c.id, false⟩) }
          else none
  | _, _ => none

/-- The shell at its first prompt, with the first node at `a`. -/
def start (a : Ptr) : Sys where
  heap := Function.update (fun _ => none) a (some sentinel)
  start := a
  job := a
  jid := 0
  mode := .prompt
  printed := []
  children _ := none
  nextid := 0
  launched := []
  seen := []

/-! ## What should hold -/

/-- The jobs launched and not yet seen finished. -/
def Sys.jobs (s : Sys) : List Job :=
  s.launched.filter fun x => x.jid ∉ s.seen

/-- The node of a job. -/
def Job.node (x : Job) : JOB := ⟨x.jid, x.pid, some x.argv⟩

/-- What `j` prints for a job. -/
def Job.line (x : Job) : Int × Argv := (x.jid, x.argv)

/-- The list is that of the jobs, in launch order, with increasing jids; it ends
in the only sentinel, and `job` points to that. -/
structure Right (s : Sys) : Prop where
  list : ∃ l, Listed s.heap s.start l s.job sentinel ∧ l.map Prod.snd = s.jobs.map Job.node
  jids : s.jobs.Pairwise fun x y => x.jid < y.jid
  real : ∀ x ∈ s.jobs, x.jid ≠ -1
  live : s.mode ≠ .crashed

/-- The job that the next iteration of `j` looks at. -/
def Sys.visited (s : Sys) : Option Job :=
  match s.mode with
  | .scan p => (s.heap p).bind fun c => s.jobs.find? fun x => x.jid = c.val.jid
  | _ => none

/-- What an iteration prints: the line of the job it looks at, if the job's own
process is running, and else nothing.  The last iteration, which looks at no
job, leaves all jobs that are left printed. -/
def PrintsAt (s : Sys) : Option Job → Prop
  | some x => (s.step .scan).map Sys.printed = some
      (if s.children x.pid = some ⟨x.id, true⟩ then s.printed ++ [x.line] else s.printed)
  | none => s.printed = s.jobs.map Job.line

instance (s : Sys) : ∀ x, Decidable (PrintsAt s x)
  | some _ => inferInstanceAs (Decidable (_ = _))
  | none => inferInstanceAs (Decidable (_ = _))

/-- `j` is at its loop. -/
def Mode.isScan : Mode → Bool
  | .scan _ => true
  | _ => false

/-- Each iteration of `j` prints what it should. -/
def PrintsRunning (s : Sys) (e : Event) : Prop :=
  e = .scan → s.mode.isScan = true → PrintsAt s s.visited

instance (s : Sys) (e : Event) : Decidable (PrintsRunning s e) :=
  inferInstanceAs (Decidable (_ → _))

/-- When `j` looks at a job, no other running child has the job's pid. -/
def NoClash (s : Sys) (e : Event) : Prop :=
  e = .scan → ∀ x ∈ s.visited, ∀ c ∈ s.children x.pid, c.running = true → c.id = x.id

/-! ## The walks -/

section
variable {h : Heap Ptr JOB} {first job cur next a : Ptr} {j₁ j₂ j₃ : List Job} {x : Job}

/-- A walk from `first` is at `cur`, with the jobs `j₁` behind it and `j₂` to come. -/
def Walk (h : Heap Ptr JOB) (first job cur : Ptr) (j₁ j₂ : List Job) : Prop :=
  ∃ l₁ l₂, Listed h first (l₁ ++ l₂) job sentinel ∧ Chain h first l₁ cur ∧ Chain h cur l₂ job ∧
    l₁.map Prod.snd = j₁.map Job.node ∧ l₂.map Prod.snd = j₂.map Job.node

theorem Walk.list (hw : Walk h first job cur j₁ j₂) :
    ∃ l, Listed h first l job sentinel ∧ l.map Prod.snd = (j₁ ++ j₂).map Job.node := by
  obtain ⟨l₁, l₂, hl, -, -, h1, h2⟩ := hw
  exact ⟨l₁ ++ l₂, hl, by rw [List.map_append, List.map_append, h1, h2]⟩

theorem Walk.rewind (hw : Walk h first job cur j₁ j₂) : Walk h first job first [] (j₁ ++ j₂) := by
  obtain ⟨l, hl, he⟩ := hw.list
  exact ⟨[], l, hl, rfl, hl.chain, rfl, he⟩

theorem Walk.at_end (hw : Walk h first job cur j₁ []) : h cur = some sentinel := by
  obtain ⟨l₁, l₂, hl, -, hc, -, he⟩ := hw
  obtain rfl : l₂ = [] := List.map_eq_nil_iff.mp he
  obtain rfl : cur = job := hc
  exact hl.last

/-- The node of the next job, and the walk behind it. -/
theorem Walk.advance (hw : Walk h first job cur j₁ (x :: j₃)) :
    ∃ next, h cur = some ⟨x.node, some next⟩ ∧ Walk h first job next (j₁ ++ [x]) j₃ := by
  obtain ⟨l₁, l₂, hl, h₁, h₂, e₁, e₂⟩ := hw
  obtain ⟨c, l₃, rfl, hv, e₃⟩ := List.map_eq_cons_iff.mp e₂
  obtain ⟨p, v⟩ := c
  obtain ⟨rfl, next, hcur, h₃⟩ := h₂
  obtain rfl : v = x.node := hv
  refine ⟨next, hcur, l₁ ++ [(p, x.node)], l₃, ?_, chain_append.mpr ⟨p, h₁, rfl, next, hcur, rfl⟩,
    h₃, ?_, e₃⟩
  · rwa [List.append_assoc]
  · rw [List.map_append, List.map_append, e₁]
    rfl

/-- The next job's node is deleted. -/
theorem Walk.delete (hw : Walk h first job cur j₁ (x :: j₃))
    (hcur : h cur = some ⟨x.node, some next⟩) :
    ∃ c, h next = some c ∧
      Walk (h.copyNext cur next c) first (if next = job then cur else job) cur j₁ j₃ := by
  obtain ⟨l₁, l₂, hl, h₁, h₂, e₁, e₂⟩ := hw
  obtain ⟨c, l₃, rfl, hv, e₃⟩ := List.map_eq_cons_iff.mp e₂
  obtain ⟨p, v⟩ := c
  obtain ⟨rfl, n, hn, h₃⟩ := h₂
  obtain ⟨rfl, rfl⟩ : v = x.node ∧ n = next := by
    rw [hcur] at hn
    simp only [Option.some.injEq, Cell.mk.injEq] at hn
    exact ⟨hn.1.symm, hn.2.symm⟩
  obtain ⟨c, hc⟩ : ∃ c, h n = some c := by
    cases l₃ with
    | nil =>
        obtain rfl : n = job := h₃
        exact ⟨_, hl.last⟩
    | cons y l₃ =>
        obtain ⟨-, m, hm, -⟩ := h₃
        exact ⟨_, hm⟩
  obtain ⟨l₃', hl', h₁', h₃', he⟩ := hl.copyNext hcur hc
  exact ⟨c, hc, l₁, l₃', hl', h₁', h₃', e₁, he.trans e₃⟩

/-- A job is put in at the end. -/
theorem Walk.append (hw : Walk h first job cur j₁ j₂) (ha : h a = none) :
    Walk (Function.update (Function.update h job (some ⟨x.node, some a⟩)) a (some sentinel))
      first a first [] (j₁ ++ j₂ ++ [x]) := by
  obtain ⟨l, hl, he⟩ := hw.list
  have hl' := hl.snoc ha x.node sentinel
  refine ⟨[], l ++ [(job, x.node)], hl', rfl, hl'.chain, rfl, ?_⟩
  rw [List.map_append, List.map_append, he]
  rfl

end

/-! ## The invariant -/

/-- Where the shell is in the list. -/
def Sys.cursor (s : Sys) : Ptr :=
  match s.mode with
  | .scan p | .find p _ | .wait p => p
  | _ => s.start

/-- The jobs behind the walk and to come, when the shell is in the list. -/
def Placed (s : Sys) (j₁ j₂ : List Job) : Prop :=
  match s.mode with
  | .scan _ => s.printed = j₁.map Job.line
  | .wait _ => j₂ ≠ []
  | .crashed => False
  | _ => True

/-- The jids and pids: those of later jobs are larger, and none is above the
shell's count. -/
structure Numbered (s : Sys) : Prop where
  increasing : s.launched.Pairwise fun x y => x.jid < y.jid
  range : ∀ x ∈ s.launched, 0 < x.jid ∧ x.jid ≤ s.jid ∧ 0 < x.pid
  seen : ∀ k ∈ s.seen, k ≤ s.jid
  jid : 0 ≤ s.jid

structure Inv (s : Sys) : Prop where
  walk : ∃ j₁ j₂, s.jobs = j₁ ++ j₂ ∧ Walk s.heap s.start s.job s.cursor j₁ j₂ ∧ Placed s j₁ j₂
  numbered : Numbered s

variable {s t : Sys} {j₁ j₂ j₃ : List Job} {x : Job}

theorem mem_launched (hx : x ∈ s.jobs) : x ∈ s.launched := (List.mem_filter.mp hx).1

theorem Numbered.jobs (h : Numbered s) : s.jobs.Pairwise fun x y => x.jid < y.jid :=
  h.increasing.filter _

theorem Inv.right (h : Inv s) : Right s := by
  obtain ⟨j₁, j₂, hj, hw, hplaced⟩ := h.walk
  obtain ⟨l, hl, he⟩ := hw.list
  refine ⟨⟨l, hl, by rw [he, hj]⟩, h.numbered.jobs, fun x hx => ?_, fun hm => ?_⟩
  · have := h.numbered.range x (mem_launched hx)
    omega
  · rw [Placed, hm] at hplaced
    exact hplaced

/-- A job that is seen finished leaves the jobs. -/
theorem filter_ne_of_split (hpair : (j₁ ++ x :: j₃).Pairwise fun x y => x.jid < y.jid) :
    (j₁ ++ x :: j₃).filter (fun y => y.jid ≠ x.jid) = j₁ ++ j₃ := by
  obtain ⟨-, h₂, h₁₂⟩ := List.pairwise_append.mp hpair
  obtain ⟨hx, -⟩ := List.pairwise_cons.mp h₂
  have hl₁ : j₁.filter (fun y => y.jid ≠ x.jid) = j₁ := by
    refine List.filter_eq_self.mpr fun y hy => ?_
    have := h₁₂ y hy x (List.mem_cons_self ..)
    exact decide_eq_true (by omega)
  have hl₃ : j₃.filter (fun y => y.jid ≠ x.jid) = j₃ := by
    refine List.filter_eq_self.mpr fun y hy => ?_
    have := hx y hy
    exact decide_eq_true (by omega)
  rw [List.filter_append, hl₁, List.filter_cons_of_neg (by simp), hl₃]

theorem jobs_seen (h : Numbered s) (hj : s.jobs = j₁ ++ x :: j₃) (ht : t.launched = s.launched)
    (hs : t.seen = x.jid :: s.seen) : t.jobs = j₁ ++ j₃ := by
  have hfilter : t.jobs = s.jobs.filter fun y => y.jid ≠ x.jid := by
    rw [Sys.jobs, Sys.jobs, List.filter_filter, ht, hs]
    refine List.filter_congr fun y _ => ?_
    simp [not_or]
  rw [hfilter, hj]
  exact filter_ne_of_split (hj ▸ h.jobs)

theorem visited_end {p : Ptr} (hm : s.mode = .scan p) (hp : s.heap p = some sentinel)
    (h : Numbered s) : s.visited = none := by
  rw [Sys.visited, hm]
  show (s.heap p).bind _ = none
  rw [hp, Option.bind_some]
  refine List.find?_eq_none.mpr fun x hx => ?_
  have := h.range x (mem_launched hx)
  show ¬ decide (x.jid = -1) = true
  rw [decide_eq_true_eq]
  omega

theorem visited_job {p : Ptr} {n : Option Ptr} (hm : s.mode = .scan p)
    (hp : s.heap p = some ⟨x.node, n⟩) (h : Numbered s) (hj : s.jobs = j₁ ++ x :: j₃) :
    s.visited = some x := by
  rw [Sys.visited, hm]
  show (s.heap p).bind _ = some x
  have hpair := hj ▸ h.jobs
  rw [hp, Option.bind_some, hj, List.find?_append]
  have hnone : (j₁.find? fun y => decide (y.jid = x.node.jid)) = none := by
    refine List.find?_eq_none.mpr fun y hy => ?_
    have := (List.pairwise_append.mp hpair).2.2 y hy x (List.mem_cons_self ..)
    show ¬ decide (y.jid = x.jid) = true
    rw [decide_eq_true_eq]
    omega
  rw [hnone, Option.none_or, List.find?_cons_of_pos]
  exact decide_eq_true rfl

/-! ## Steps -/

/-- `waitpid` says that the job is running. -/
def Answers (s : Sys) (x : Job) : Prop :=
  ∃ c, s.children x.pid = some c ∧ c.running = true

theorem waitpid_eq_zero (hpid : 0 < x.pid) : (s.waitpid x.pid).1 = 0 ↔ Answers s x := by
  rw [Sys.waitpid, Answers]
  cases s.children x.pid with
  | none => simp
  | some c =>
      cases hc : c.running with
      | true => simp [hc]
      | false =>
          have : x.pid ≠ 0 := by omega
          simp [hc, this]

theorem Inv.list (h : Inv s) : Walk s.heap s.start s.job s.start [] s.jobs := by
  obtain ⟨j₁, j₂, hj, hw, -⟩ := h.walk
  rw [hj]
  exact hw.rewind

theorem inv_of_list (hw : Walk s.heap s.start s.job s.start [] s.jobs) (hn : Numbered s)
    (hc : s.cursor = s.start) (hp : Placed s [] s.jobs) : Inv s :=
  ⟨⟨[], s.jobs, rfl, by rwa [hc], hp⟩, hn⟩

/-- The count has not gone down, and only jobs of the list have been seen finished. -/
theorem Numbered.later (h : Numbered s) (hl : t.launched = s.launched)
    (hs : ∀ k ∈ t.seen, k ∈ s.seen ∨ ∃ x ∈ s.jobs, x.jid = k) (hj : s.jid ≤ t.jid) :
    Numbered t := by
  refine ⟨hl ▸ h.increasing, fun x hx => ?_, fun k hk => ?_, h.jid.trans hj⟩
  · have := h.range x (hl ▸ hx)
    omega
  · rcases hs k hk with hk | ⟨x, hx, rfl⟩
    · exact (h.seen k hk).trans hj
    · exact (h.range x (mem_launched hx)).2.1.trans hj

theorem Numbered.same (h : Numbered s) (hl : t.launched = s.launched) (hs : t.seen = s.seen)
    (hj : s.jid ≤ t.jid) : Numbered t :=
  h.later hl (fun _ hk => .inl (hs ▸ hk)) hj

theorem Numbered.see (h : Numbered s) (hx : x ∈ s.jobs) (hl : t.launched = s.launched)
    (hs : t.seen = x.jid :: s.seen) (hj : t.jid = s.jid) : Numbered t := by
  refine h.later hl (fun k hk => ?_) hj.ge
  rw [hs] at hk
  rcases List.mem_cons.mp hk with rfl | hk
  · exact .inr ⟨x, hx, rfl⟩
  · exact .inl hk

theorem delete_spec {p : Ptr} (hw : Walk s.heap s.start s.job p j₁ (x :: j₃)) :
    ∃ heap' job', s.delete p = { s with heap := heap', job := job' } ∧
      Walk heap' s.start job' p j₁ j₃ := by
  obtain ⟨next, hp, -⟩ := hw.advance
  obtain ⟨c, hc, hw'⟩ := hw.delete hp
  refine ⟨_, _, ?_, hw'⟩
  rw [Sys.delete, hp]
  dsimp only [Option.bind_some]
  rw [hc]

/-- An iteration of `j`. -/
theorem scan_spec (h : Inv s) {p : Ptr} (hm : s.mode = .scan p) :
    (s.visited = none ∧ s.printed = s.jobs.map Job.line ∧ s.scan p = { s with mode := .prompt }) ∨
      ∃ x j₁ j₃, s.visited = some x ∧ s.jobs = j₁ ++ x :: j₃ ∧ s.printed = j₁.map Job.line ∧
        ((Answers s x ∧ ∃ next,
            s.scan p = { s with printed := s.printed ++ [x.line], mode := .scan next } ∧
            Walk s.heap s.start s.job next (j₁ ++ [x]) j₃) ∨
          (¬ Answers s x ∧ ∃ children heap job,
            s.scan p = { s with children := children, seen := x.jid :: s.seen,
                                heap := heap, job := job } ∧
            Walk heap s.start job p j₁ j₃)) := by
  obtain ⟨j₁, j₂, hj, hw, hplaced⟩ := h.walk
  have hcur : s.cursor = p := by rw [Sys.cursor, hm]
  have hprinted : s.printed = j₁.map Job.line := by
    rw [Placed, hm] at hplaced
    exact hplaced
  rw [hcur] at hw
  cases j₂ with
  | nil =>
      have hp := hw.at_end
      refine .inl ⟨visited_end hm hp h.numbered, by rw [hj, List.append_nil, hprinted], ?_⟩
      rw [Sys.scan, hp]
      exact if_pos rfl
  | cons x j₃ =>
      obtain ⟨next, hp, hnext⟩ := hw.advance
      have hx : x ∈ s.jobs := by simp [hj]
      obtain ⟨hjid, -, hpid⟩ := h.numbered.range x (mem_launched hx)
      have hne : x.node.jid ≠ -1 := by
        show x.jid ≠ -1
        omega
      refine .inr ⟨x, j₁, j₃, visited_job hm hp h.numbered hj, hj, hprinted, ?_⟩
      have hwait : (s.waitpid x.node.pid).1 = 0 ↔ Answers s x := waitpid_eq_zero hpid
      rw [Sys.scan, hp]
      dsimp only
      rw [if_neg hne]
      by_cases hans : Answers s x
      · refine .inl ⟨hans, next, ?_, hnext⟩
        rw [if_pos (hwait.mpr hans)]
        rfl
      · refine .inr ⟨hans, ?_⟩
        rw [if_neg (hwait.not.mpr hans)]
        obtain ⟨heap, job, heq, hw'⟩ := delete_spec (s := { s with
          children := (s.waitpid x.node.pid).2, seen := x.node.jid :: s.seen }) hw
        exact ⟨_, heap, job, heq, hw'⟩

theorem scan_inv (h : Inv s) {p : Ptr} (hm : s.mode = .scan p) : Inv (s.scan p) := by
  rcases scan_spec h hm with ⟨-, -, heq⟩ | ⟨x, j₁, j₃, -, hj, hprinted, hcase⟩
  · rw [heq]
    exact inv_of_list h.list (h.numbered.same rfl rfl le_rfl) rfl trivial
  have hx : x ∈ s.jobs := by simp [hj]
  rcases hcase with ⟨-, next, heq, hw⟩ | ⟨-, children, heap, job, heq, hw⟩
  · rw [heq]
    refine ⟨⟨j₁ ++ [x], j₃, ?_, hw, ?_⟩, h.numbered.same rfl rfl le_rfl⟩
    · rw [List.append_assoc]
      exact hj
    · show s.printed ++ [x.line] = (j₁ ++ [x]).map Job.line
      rw [hprinted, List.map_append]
      rfl
  · rw [heq]
    refine ⟨⟨j₁, j₃, jobs_seen h.numbered hj rfl rfl, ?_, ?_⟩, h.numbered.see hx rfl rfl rfl⟩
    · rw [Sys.cursor, hm]
      exact hw
    · rw [Placed, hm]
      exact hprinted

/-- What an iteration of `j` prints is right just when `waitpid` has answered
for the job itself. -/
theorem printsAt_iff (h : Inv s) (e : Event) : PrintsRunning s e ↔ NoClash s e := by
  rw [PrintsRunning, NoClash]
  refine imp_congr_right fun he => ?_
  subst he
  cases hm : s.mode with
  | scan p =>
      rw [Mode.isScan, imp_iff_right rfl]
      have hstep : s.step .scan = some (s.scan p) := by simp only [Sys.step, hm]
      rcases scan_spec h hm with ⟨hv, hprinted, -⟩ | ⟨x, j₁, j₃, hv, -, -, hcase⟩
      · rw [hv]
        exact iff_of_true hprinted nofun
      · rw [hv, PrintsAt, hstep, Option.map_some]
        rcases hcase with ⟨⟨c, hc, hrun⟩, next, heq, -⟩ | ⟨hans, children, heap, job, heq, -⟩
        · -- the child with the pid is running
          obtain ⟨id, running⟩ := c
          obtain rfl : running = true := hrun
          rw [heq, hc]
          by_cases hid : id = x.id
          · subst hid
            refine iff_of_true (by rw [if_pos rfl]) fun y hy c hc' _ => ?_
            obtain rfl := Option.some.inj hy
            rw [hc] at hc'
            exact (Option.some.inj hc') ▸ rfl
          · have hown : ¬ (some (⟨id, true⟩ : Child) = some ⟨x.id, true⟩) := by simpa using hid
            rw [if_neg hown]
            refine iff_of_false (fun he => ?_) fun hno => hid (hno x rfl _ hc rfl)
            have := congrArg (Option.map List.length) he
            simp at this
        · have hown : ¬ s.children x.pid = some ⟨x.id, true⟩ := fun hc => hans ⟨_, hc, rfl⟩
          rw [heq, if_neg hown]
          refine iff_of_true rfl fun y hy c hc hrun => ?_
          obtain rfl := Option.some.inj hy
          exact absurd ⟨c, hc, hrun⟩ hans
  | _ =>
      refine iff_of_true (fun hs => by cases hs) fun x hx => ?_
      simp [Sys.visited, hm] at hx

/-- An iteration of `myw`. -/
theorem find_inv (h : Inv s) {p : Ptr} {req : Int} (hm : s.mode = .find p req) :
    Inv (s.find p req) := by
  obtain ⟨j₁, j₂, hj, hw, -⟩ := h.walk
  have hcur : s.cursor = p := by rw [Sys.cursor, hm]
  rw [hcur] at hw
  have hsame : ∀ m, Numbered { s with mode := m } := fun _ => h.numbered.same rfl rfl le_rfl
  cases j₂ with
  | nil =>
      rw [Sys.find, hw.at_end]
      exact inv_of_list h.list (hsame _) rfl trivial
  | cons x j₃ =>
      obtain ⟨next, hp, hnext⟩ := hw.advance
      have hx : x ∈ s.jobs := by simp [hj]
      obtain ⟨hjid, -, hpid⟩ := h.numbered.range x (mem_launched hx)
      have hne : x.node.jid ≠ -1 := by
        show x.jid ≠ -1
        omega
      rw [Sys.find, hp]
      dsimp only
      rw [if_neg hne]
      by_cases hreq : x.node.jid = req
      · rw [if_pos hreq]
        by_cases hans : (s.waitpid x.node.pid).1 = 0
        · -- it is running: the shell waits, the node stays
          rw [if_pos hans]
          exact ⟨⟨j₁, x :: j₃, hj, hw, List.cons_ne_nil x j₃⟩, hsame _⟩
        · rw [if_neg hans]
          obtain ⟨heap, job, heq, hw'⟩ := delete_spec (s := { s with
            children := (s.waitpid x.node.pid).2, seen := x.node.jid :: s.seen, mode := .prompt }) hw
          rw [heq]
          refine inv_of_list ?_ (h.numbered.see hx rfl rfl rfl) rfl trivial
          have hjobs : ({ s with
              children := (s.waitpid x.node.pid).2, seen := x.node.jid :: s.seen,
              mode := .prompt, heap := heap, job := job } : Sys).jobs = j₁ ++ j₃ :=
            jobs_seen h.numbered hj rfl rfl
          rw [hjobs]
          exact hw'.rewind
      · rw [if_neg hreq]
        refine ⟨⟨j₁ ++ [x], j₃, ?_, hnext, trivial⟩, hsame _⟩
        rw [List.append_assoc]
        exact hj

theorem fork_some {pid : Int} (ht : s.fork pid = some t) :
    0 < pid ∧ t = { s with
      jid := s.jid + 1
      children := Function.update s.children pid (some ⟨s.nextid, true⟩)
      nextid := s.nextid + 1 } := by
  rw [Sys.fork] at ht
  split at ht
  · next hpid => exact ⟨hpid.1, (Option.some.inj ht).symm⟩
  · cases ht

/-- A background job. -/
theorem launch_inv (h : Inv s) (hm : s.mode = .prompt) {argv : Argv} {pid : Int} {addr : Ptr}
    (ha : s.heap addr = none) {u : Sys} (hu : s.fork pid = some u) :
    Inv (Sys.append { u with launched := u.launched ++ [(⟨s.nextid, u.jid, pid, argv⟩ : Job)] }
      argv pid addr) := by
  obtain ⟨hpid, rfl⟩ := fork_some hu
  obtain ⟨l, hl, -⟩ := h.list.list
  have hjob : s.heap s.job = some sentinel := hl.last
  rw [Sys.append]
  dsimp only
  rw [hjob]
  dsimp only
  have hnum := h.numbered
  have hnew : s.jid + 1 ∉ s.seen := fun hmem => by
    have := hnum.seen _ hmem
    omega
  refine inv_of_list ?_ ⟨?_, ?_, ?_, ?_⟩ ?_ ?_
  · have hjobs : (s.launched ++ [(⟨s.nextid, s.jid + 1, pid, argv⟩ : Job)]).filter
        (fun x => decide (x.jid ∉ s.seen)) = s.jobs ++ [⟨s.nextid, s.jid + 1, pid, argv⟩] := by
      rw [List.filter_append, List.filter_cons_of_pos (by simpa using hnew), List.filter_nil]
      rfl
    rw [Sys.jobs, hjobs]
    exact Walk.append (x := ⟨s.nextid, s.jid + 1, pid, argv⟩) h.list ha
  · refine List.pairwise_append.mpr ⟨hnum.increasing, List.pairwise_singleton .., fun x hx y hy => ?_⟩
    obtain rfl := List.mem_singleton.mp hy
    have := hnum.range x hx
    show x.jid < s.jid + 1
    omega
  · intro x hx
    have hjid := hnum.jid
    rcases List.mem_append.mp hx with hx | hx
    · have := hnum.range x hx
      show 0 < x.jid ∧ x.jid ≤ s.jid + 1 ∧ 0 < x.pid
      omega
    · obtain rfl := List.mem_singleton.mp hx
      show 0 < s.jid + 1 ∧ s.jid + 1 ≤ s.jid + 1 ∧ 0 < pid
      omega
  · intro k hk
    have := hnum.seen k hk
    show k ≤ s.jid + 1
    omega
  · have := hnum.jid
    show 0 ≤ s.jid + 1
    omega
  · rw [Sys.cursor, hm]
  · rw [Placed, hm]
    trivial

theorem block_inv (h : Inv s) {pid : Int} (ht : s.block pid = some t) : Inv t := by
  rw [Sys.block] at ht
  dsimp only at ht
  split at ht
  · cases ht
  · cases ht
    exact inv_of_list h.list (h.numbered.same rfl rfl le_rfl) rfl trivial

theorem step_inv (h : Inv s) {e : Event} (ht : s.step e = some t) : Inv t := by
  have hlist := h.list
  have hnum := h.numbered
  unfold Sys.step at ht
  split at ht
  · -- blank
    cases ht
    exact h
  · -- ampersand
    next hm =>
      cases ht
      refine inv_of_list hlist (hnum.same rfl rfl (by simp)) ?_ ?_
      · rw [Sys.cursor, hm]
      · rw [Placed, hm]
        trivial
  · -- launch
    next argv pid addr hm =>
      split at ht
      · next ha =>
          obtain ⟨u, hu, rfl⟩ := Option.map_eq_some_iff.mp ht
          exact launch_inv h hm ha hu
      · cases ht
  · -- fg
    obtain ⟨u, hu, rfl⟩ := Option.map_eq_some_iff.mp ht
    obtain ⟨-, rfl⟩ := fork_some hu
    exact inv_of_list hlist (hnum.same rfl rfl (by simp)) rfl trivial
  · -- forkFail
    next hm =>
      cases ht
      refine inv_of_list hlist (hnum.same rfl rfl (by simp)) ?_ ?_
      · rw [Sys.cursor, hm]
      · rw [Placed, hm]
        trivial
  · -- j
    cases ht
    exact inv_of_list hlist (hnum.same rfl rfl le_rfl) rfl rfl
  · -- myw
    split at ht
    · cases ht
      exact h
    · cases ht
      exact inv_of_list hlist (hnum.same rfl rfl le_rfl) rfl trivial
  · -- scan
    next hm =>
      cases ht
      exact scan_inv h hm
  · -- find
    next hm =>
      cases ht
      exact find_inv h hm
  · -- wake, of a foreground child
    exact block_inv h ht
  · -- wake, of `myw`
    next p hm =>
      obtain ⟨j₁, j₂, -, hw, hplaced⟩ := h.walk
      rw [Placed, hm] at hplaced
      rw [Sys.cursor, hm] at hw
      cases j₂ with
      | nil => exact absurd rfl hplaced
      | cons x j₃ =>
          obtain ⟨next, hp, -⟩ := hw.advance
          rw [hp] at ht
          exact block_inv h ht
  · -- term
    split at ht
    · cases ht
    · split at ht
      · cases ht
        exact ⟨h.walk, hnum.same rfl rfl le_rfl⟩
      · cases ht
  · cases ht

theorem start_inv (a : Ptr) : Inv (start a) := by
  have hlast : (start a).heap a = some sentinel := by
    show Function.update (fun _ => none) a (some sentinel) a = some sentinel
    exact Function.update_self ..
  refine inv_of_list ⟨[], [], ⟨rfl, List.nodup_singleton a, hlast⟩, rfl, rfl, rfl, rfl⟩
    ⟨List.Pairwise.nil, nofun, nofun, le_rfl⟩ rfl trivial

/-! ## Runs of the shell -/

/-- In every run, the list is right in every state and every `j` prints exactly
the jobs still running, just when `j` never looks at a job whose pid a later
child has and is running. -/
theorem jobs_run (a : Ptr) (es : List Event) :
    AllStates Sys.step Right (start a) es ∧ AllTried Sys.step PrintsRunning (start a) es ↔
      AllTried Sys.step NoClash (start a) es :=
  allStates_and_allTried_iff (B := fun _ _ => True) (fun _ h => h.right)
    (fun _ e h hD _ => (printsAt_iff h e).mp hD) (fun _ e h hC => (printsAt_iff h e).mpr hC)
    (fun _ _ _ h _ _ ht => step_inv h ht) (start_inv a) allSteps_true

/-- The list is right in any case. -/
theorem list_run (a : Ptr) (es : List Event) : AllStates Sys.step Right (start a) es :=
  (allStates_of_step (fun _ _ _ h ht => step_inv h ht) (start_inv a)).mono fun _ h => h.right

/-- `myw` waits for job 1, which leaves its node; job 2 gets the same pid. -/
def reuseRun : List Event :=
  [.launch [[97]] 7 1, .myw 1, .find, .term 7, .wake, .launch [[98]] 7 2, .j, .scan]

/-- Then `j` prints job 1 as running. -/
theorem finished_job_printed : ¬ AllTried Sys.step PrintsRunning (start 0) reuseRun := by
  decide +kernel

end Cs537.Mysh
