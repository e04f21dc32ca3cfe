/-
# `Cs537.Mysh.Bounds` — what the shell's loop copies, indexes and passes on

An iteration of `main` reads a line into `str`, copies it to `copy`, counts its
words by `strtok` and takes them again from `copy` into the array `myargv` of
`narg + 1` pointers; the built-ins then look at fixed places of it.  Here each
copy into `str` and `copy`, each index into `myargv` and each string argument of
`strcmp`, `strlen`, `strtol` and `strdup` is checked (`Cs537.Lib.Checked`), and
one that is wrong ends the run with a `Fault`.

What the C program finds in memory that it has not written is arbitrary: `str`
at the start, and at each line `copy` and the block from `malloc` (`Env`).  The
jobs are a list in the order of `next`; that the pointers make such a list is
in `Cs537.Mysh.Jobs`, and what `free_m` does with their `narg` in
`Cs537.Mysh.Records`.

**Proved here.**  The two passes of `strtok` agree, and every array is filled and
ends in NULL.  In every run, nothing is wrong just when no batch line has
`MXCHAR` bytes exactly, a longer one finds a string in `str`, and no command is
`myw` without an argument (`bounds_run`).
-/
import Cs537.Lib.Checked
import Cs537.Lib.Run
import Cs537.Mysh.Records

namespace Cs537.Mysh.Bounds

open Cs537.Lib

inductive Fault where
  /-- a copy is longer than its buffer -/
  | overflow
  /-- an index is above `narg` -/
  | bound
  /-- NULL is passed for a string -/
  | null
  deriving DecidableEq

abbrev Checked (α : Type) := Except Fault α

/-- `char *`; `none` is NULL. -/
abbrev CharPtr := Option Word

/-- What `myargv` points to. -/
abbrev Args := List CharPtr

/-- A string argument. -/
def string : CharPtr → Checked Word
  | some w => .ok w
  | none => .error .null

def get (myargv : Args) (i : Nat) : Checked CharPtr := load .bound myargv i

def set (myargv : Args) (i : Nat) (p : CharPtr) : Checked Args := store .bound myargv i p

/-- `argc == 1`, or the name of a batch file. -/
inductive Source where
  | interactive
  | batch
  deriving DecidableEq

/-- A node of the list of jobs. -/
structure Job where
  jid : Int
  myargv : Args

structure State where
  input : List UInt8
  str : Buffer MXCHAR
  jid : Int
  jobs : List Job

/-- What an iteration meets outside the shell. -/
structure Env where
  /-- `copy` before `strcpy` -/
  copy : Buffer MXCHAR
  /-- the block that `malloc` returns for `myargv` -/
  block : Nat → CharPtr
  /-- `waitpid` returns 0 for the process of this job -/
  running : Int → Bool
  /-- `fork` returns a process -/
  forks : Bool
  /-- `execvp` finds the program -/
  execs : Bool
  /-- the child has the shell's file, and leaves this of the input -/
  left : List UInt8 → List UInt8

inductive Event where
  | line (e : Env)
  /-- `fgets` or `getline` fails, with this left of the input, and this in `str` -/
  | error (input : List UInt8) (str : Buffer MXCHAR)

/-! ## The words of a line -/

/-- `strdup(strtok(.., " \t\n"))`, and what `strtok` has left. -/
def dup (rest : List UInt8) : Checked (Word × List UInt8) :=
  match strtok isDelim rest with
  | some t => .ok (t.word, t.rest)
  | none => .error .null

/-- `while (i < narg-1)`, which makes `turns = narg-1-i` turns: `i` and `myargv` after
it. -/
def fill : (turns i : Nat) → List UInt8 → Args → Checked (Nat × Args)
  | 0, i, _, myargv => .ok (i, myargv)
  | turns + 1, i, rest, myargv => do
      let t ← dup rest
      let myargv ← set myargv (i + 1) (some t.1)
      fill turns (i + 1) t.2 myargv

/-- The block is filled, from its first entry to the NULL at its end. -/
def acquireArgs (narg : Nat) (copy : List UInt8) (myargv : Args) : Checked (Nat × Args) := do
  let t ← dup copy
  let myargv ← set myargv 0 (some t.1)
  let r ← fill (narg - 1) 0 t.2 myargv
  let myargv ← set r.2 (r.1 + 1) none
  return (r.1, myargv)

/-- `myargv[i][strlen(myargv[i])-1]`. -/
def lastChar (w : Word) : Checked UInt8 :=
  match w.getLast? with
  | some c => .ok c
  | none => .error .bound

/-- An `&` at the end of the last word: `backg`, and `myargv` without it. -/
def background (i : Nat) (myargv : Args) : Checked (Bool × Args) := do
  let w ← string (← get myargv i)
  let c ← lastChar w
  if c = ampersand then
    let myargv ← set myargv i (if w.length > 1 then some w.dropLast else none)
    return (true, myargv)
  else return (false, myargv)

/-- `myargv[0] == NULL`, which is asked after an `&` only. -/
def emptied (backg : Bool) (myargv : Args) : Checked Bool :=
  if backg then do
    let p ← get myargv 0
    return p.isNone
  else return false

/-- The entries `0 .. narg`, for `n = narg + 1`. -/
def free_mm (myargv : Args) : (n : Nat) → Checked Unit
  | 0 => .ok ()
  | n + 1 => do
      free_mm myargv n
      let _ ← get myargv n
      return ()

/-! ## Commands -/

/-- `j` -/
def jWord : Word := [106]

/-- `strcmp(myargv[0], word) == 0`, and then whether `myargv[k]` is NULL. -/
def called (word : Word) (k : Nat) (myargv : Args) : Checked (Option Bool) := do
  let w ← string (← get myargv 0)
  if w = word then
    let p ← get myargv k
    return some p.isNone
  else return none

inductive Action where
  | exit
  | j
  | myw
  | exec (exec_start : Nat)
  deriving DecidableEq

/-- The tests for the built-ins, in turn. -/
def dispatch (myargv : Args) : Checked Action := do
  let exit ← called exitWord 1 myargv
  if exit = some true then return .exit
  let j ← called jWord 1 myargv
  if j = some true then return .j
  let myw ← called mywWord 2 myargv
  if myw = some true then return .myw
  return .exec (if myw.isSome then 2 else if exit.isSome ∨ j.isSome then 1 else 0)

/-- `strlen(myargv[k])`, `strlen(myargv[k + 1])`, and so on up to a NULL; the list is the
array from `k` on. -/
def printArgs : Args → Checked Unit
  | [] => .error .bound
  | none :: _ => .ok ()
  | some _ :: myargv => printArgs myargv

/-- The walk of `j`: a job that runs is printed, and one that does not is taken out. -/
def listJobs (e : Env) : List Job → Checked (List Job)
  | [] => .ok []
  | x :: jobs =>
      if e.running x.jid then do
        let _ ← string (← get x.myargv 0)
        printArgs (x.myargv.drop 1)
        let jobs ← listJobs e jobs
        return x :: jobs
      else listJobs e jobs

/-- `isspace` -/
def isspace (c : UInt8) : Bool := c == 32 || (9 ≤ c && c ≤ 13)

/-- The digits in front of `s`, as a number. -/
def digits (s : Word) : Int :=
  (s.takeWhile fun c => 48 ≤ c && c ≤ 57).foldl (fun n c => 10 * n + (c.toNat - 48)) 0

/-- `strtol(s, &ptr, 10)`, as an `int`. -/
def strtol (s : Word) : Int :=
  let s := s.dropWhile isspace
  let n := if s.head? = some 45 then - digits s.tail
    else if s.head? = some 43 then digits s.tail else digits s
  (BitVec.ofInt 32 (max (-2 ^ 63) (min n (2 ^ 63 - 1)))).toInt

/-- `myw` with at most one argument.  A job that is still running is waited for, and
stays in the list. -/
def myw (e : Env) (s : State) (narg : Nat) (myargv : Args) : Checked State := do
  let jid := s.jid - 1
  let w ← string (← get myargv 1)
  let jid_req := strtol w
  if jid_req > jid then
    let _ ← string (← get myargv 1)
    free_mm myargv (narg + 1)
    return { s with jid := jid }
  else
    free_mm myargv (narg + 1)
    return { s with
      jid := jid
      jobs := if e.running jid_req then s.jobs else s.jobs.eraseP fun x => x.jid = jid_req }

/-- The child: `execvp(myargv[exec_start], myargv)`, and the message if that returns. -/
def child (e : Env) (myargv : Args) (exec_start : Nat) : Checked Unit := do
  let _ ← string (← get myargv exec_start)
  if e.execs then return ()
  let _ ← string (← get myargv 0)
  return ()

/-- `fork`, and what the two processes do. -/
def execute (e : Env) (s : State) (narg : Nat) (backg : Bool) (myargv : Args)
    (exec_start : Nat) : Checked State :=
  if e.forks then do
    child e myargv exec_start
    let s := { s with input := e.left s.input }
    if backg then return { s with jobs := s.jobs ++ [⟨s.jid, myargv⟩] }
    free_mm myargv (narg + 1)
    return s
  else return s

/-- A command is executed; `none` is the end of the shell. -/
def obey (e : Env) (s : State) (narg : Nat) (backg : Bool) (myargv : Args) :
    Checked (Option State) := do
  let action ← dispatch myargv
  match action with
  | .exit => do
      free_mm myargv (narg + 1)
      return none
  | .j => do
      let jobs ← listJobs e s.jobs
      free_mm myargv (narg + 1)
      return some { s with jid := s.jid - 1, jobs := jobs }
  | .myw => do
      let t ← myw e s narg myargv
      return some t
  | .exec exec_start => do
      let t ← execute e s narg backg myargv exec_start
      return some t

/-! ## Lines -/

/-- The next line of `file`, of at most `n` bytes, and what follows it. -/
def nextLine : (n : Nat) → List UInt8 → Line × List UInt8
  | 0, file => ([], file)
  | _ + 1, [] => ([], [])
  | n + 1, c :: file =>
      if c = 10 then ([c], file)
      else
        let r := nextLine n file
        (c :: r.1, r.2)

theorem n_args_length (str : List UInt8) : (n_args str).2.length = str.length := by
  have hle : (cstr str).length ≤ str.length := (List.takeWhile_prefix _).length_le
  rw [n_args, List.length_append, tokenised, tokens_length, List.length_drop]
  omega

/-- `str` after `n_args(str)`. -/
def cut (str : Buffer MXCHAR) : Buffer MXCHAR where
  bytes := (n_args str.bytes).2
  size := (n_args_length str.bytes).trans str.size

/-- From `strcpy(copy, str)` on. -/
def work (e : Env) (s : State) : Checked (Option State) := do
  let copy ← strcpy Fault.overflow e.copy s.str.bytes
  let narg := (n_args s.str.bytes).1
  let s := { s with str := cut s.str }
  if narg < 1 then return some { s with jid := s.jid - 1 }
  let block := (List.range (narg + 1)).map e.block
  let r ← acquireArgs narg (cstr copy.bytes) block
  let b ← background r.1 r.2
  let empty ← emptied b.1 b.2
  if empty then
    free_mm b.2 (narg + 1)
    return some s
  obey e s narg b.1 b.2

/-- `strlen(str_b) > MXCHAR`, or else `strcpy(str, str_b)`. -/
def take (str : Buffer MXCHAR) (str_b : Line) : Checked (Buffer MXCHAR) :=
  if (cstr str_b).length > MXCHAR then .ok str else strcpy .overflow str str_b

/-- The line is read into `str`.  `getline` reads without a limit. -/
def readLine (src : Source) (s : State) : Checked State :=
  match src with
  | .interactive => do
      let r := nextLine (MXCHAR - 1) s.input
      let str ← s.str.write Fault.overflow (r.1 ++ [0])
      return { s with input := r.2, str := str }
  | .batch => do
      let r := nextLine s.input.length s.input
      let str ← take s.str r.1
      return { s with input := r.2, str := str }

/-- An iteration of `while (1)`. -/
def iteration (src : Source) (s : State) : Event → Checked (Option State)
  | .error input str =>
      .ok (if src = .interactive then some { s with input := input, str := str } else none)
  | .line e =>
      if s.input = [] then .ok none
      else do
        let s ← readLine src s
        work e { s with jid := s.jid + 1 }

/-- The step of a run; `none` is the end of the shell, or a fault. -/
def step (src : Source) (s : State) (v : Event) : Option State :=
  match iteration src s v with
  | .ok t => t
  | .error _ => none

def start (input : List UInt8) (str : Buffer MXCHAR) : State := ⟨input, str, 0, []⟩

/-! ## The property, and the condition -/

/-- Nothing is wrong in the iteration. -/
def Safe (src : Source) (s : State) (v : Event) : Prop := (iteration src s v).isOk = true

instance (src : Source) (s : State) (v : Event) : Decidable (Safe src s v) :=
  inferInstanceAs (Decidable (_ = _))

/-- The command, if there is one, is not `myw` alone. -/
def HasArg (str : List UInt8) : Prop :=
  (command (wordsOf isDelim (cstr str))).map Command.argv ≠ some [mywWord]

/-- A line that `getline` returns and that does not fit is longer than `MXCHAR`, and
`str` has a string, with a command to act on. -/
def Meets : Source → State → Event → Prop
  | _, _, .error .. => True
  | .interactive, s, .line _ => HasArg (nextLine (MXCHAR - 1) s.input).1
  | .batch, s, .line _ =>
      let line := (nextLine s.input.length s.input).1
      if Fits line then HasArg line
      else (cstr line).length ≠ MXCHAR ∧ 0 ∈ s.str.bytes ∧ HasArg s.str.bytes

/-! ## Arrays -/

section

variable {n i : Nat} {rest : List UInt8} {ws : List Word} {w : Word} {pre post myargv : Args}

theorem set_append (l r : Args) (p q : CharPtr) :
    set (l ++ p :: r) l.length q = .ok (l ++ q :: r) := store_append ..

/-- The second pass finds the next word of the first. -/
theorem dup_ok (h : acquire isDelim (n + 1) rest = some ws) :
    ∃ w rest' ws', ws = w :: ws' ∧ dup rest = .ok (w, rest') ∧
      acquire isDelim n rest' = some ws' := by
  rw [acquire] at h
  obtain ⟨t, ht, h⟩ := Option.bind_eq_some_iff.mp h
  obtain ⟨ws', hws, rfl⟩ := Option.map_eq_some_iff.mp h
  refine ⟨t.word, t.rest, ws', rfl, ?_, hws⟩
  rw [dup, ht]

/-- The loop fills the block up to its last entry. -/
theorem fill_ok (h : acquire isDelim n rest = some ws) (hpre : pre.length = i + 1)
    (hpost : post.length = n + 1) :
    ∃ p, fill n i rest (pre ++ post) = .ok (i + n, pre ++ ws.map some ++ [p]) := by
  induction n generalizing i rest ws pre post with
  | zero =>
      cases h
      obtain ⟨p, rfl⟩ := List.length_eq_one_iff.mp hpost
      exact ⟨p, by rw [fill, List.map_nil, List.append_nil]; rfl⟩
  | succ n ih =>
      obtain ⟨w, rest', ws', rfl, hdup, hws⟩ := dup_ok h
      cases post with
      | nil => cases hpost
      | cons q post =>
          have hpre' : (pre ++ [some w]).length = i + 1 + 1 := by
            rw [List.length_append, hpre, List.length_singleton]
          have hpost' : post.length = n + 1 := by simpa using hpost
          obtain ⟨p, hp⟩ := ih hws hpre' hpost'
          refine ⟨p, ?_⟩
          rw [fill, hdup, ok_bind, ← hpre, set_append, ok_bind, hpre, List.map_cons]
          rw [List.append_assoc, List.singleton_append] at hp
          rw [hp, List.append_assoc pre [some w], List.singleton_append, Nat.add_right_comm]
          rfl

/-- Every word has its entry, and NULL the last one. -/
theorem acquireArgs_ok {copy : List UInt8} (hws : wordsOf isDelim copy = ws) (hne : ws ≠ [])
    (hlen : myargv.length = ws.length + 1) :
    acquireArgs ws.length copy myargv = .ok (ws.length - 1, ws.map some ++ [none]) := by
  have hacq : acquire isDelim ws.length copy = some ws := by
    rw [← hws]
    exact acquire_wordsOf
  obtain ⟨n, hn⟩ : ∃ n, ws.length = n + 1 :=
    Nat.exists_eq_add_one.mpr (List.length_pos_of_ne_nil hne)
  rw [hn] at hacq hlen ⊢
  obtain ⟨w, rest, ws', rfl, hdup, hacq'⟩ := dup_ok hacq
  have hlen' : ws'.length = n := by simpa using hn
  cases myargv with
  | nil => cases hlen
  | cons q post =>
      have hpre : ([some w] : Args).length = 0 + 1 := rfl
      have hpost : post.length = n + 1 := by simpa using hlen
      obtain ⟨p, hp⟩ := fill_ok hacq' hpre hpost
      have hset : set (q :: post) 0 (some w) = .ok (some w :: post) := set_append [] post q (some w)
      have hfill : fill n 0 rest (some w :: post) =
          .ok (0 + n, (some w :: ws'.map some) ++ [p]) := hp
      have hlast : set ((some w :: ws'.map some) ++ [p]) (n + 1) none =
          .ok ((some w :: ws'.map some) ++ [none]) := by
        rw [← hlen', ← List.length_map (f := some), ← List.length_cons]
        exact set_append ..
      rw [acquireArgs, hdup, ok_bind, hset, ok_bind, Nat.add_sub_cancel, hfill, ok_bind,
        Nat.zero_add, hlast]
      rfl

/-- The array of a line, by its last word. -/
theorem slots_concat (l : List Word) (w : Word) :
    slots (l ++ [w]) =
      l.map some ++ (if w.getLast? = some ampersand then
        if w.length > 1 then some w.dropLast else none else some w) :: [none] := by
  rw [slots, List.getLast?_concat]
  simp only [List.dropLast_concat, List.map_append, List.map_cons, List.map_nil, List.append_assoc,
    List.singleton_append]
  split
  · split
    · rfl
    · rfl
  · rfl

/-- An `&` at the end is taken off. -/
theorem background_ok (hne : ws ≠ []) (hall : ∀ w ∈ ws, w ≠ []) :
    ∃ w, ws.getLast? = some w ∧ background (ws.length - 1) (ws.map some ++ [none]) =
      .ok (decide (w.getLast? = some ampersand), slots ws) := by
  obtain ⟨l, w, rfl⟩ : ∃ l w, ws = l ++ [w] := ⟨_, _, (List.dropLast_append_getLast hne).symm⟩
  have hw : w ≠ [] := hall w (List.mem_append_right _ (List.mem_singleton_self w))
  have hlast : w.getLast? = some (w.getLast hw) := List.getLast?_eq_some_getLast hw
  have hi : (l ++ [w]).length - 1 = (l.map some).length := by simp
  have harr : (l ++ [w]).map some ++ [none] = l.map some ++ some w :: [none] := by simp
  have hget : get (l.map some ++ some w :: [none]) (l.map some).length = .ok (some w) :=
    load_eq_ok.mpr (by rw [List.getElem?_append_right le_rfl, Nat.sub_self]; rfl)
  have hchar : lastChar w = .ok (w.getLast hw) := by rw [lastChar, hlast]
  refine ⟨w, List.getLast?_concat, ?_⟩
  rw [hi, harr, background, hget, ok_bind, string, ok_bind, hchar, ok_bind, slots_concat, hlast]
  by_cases hamp : w.getLast hw = ampersand
  · rw [if_pos hamp, set_append, ok_bind, if_pos (congrArg some hamp),
      decide_eq_true (congrArg some hamp)]
    rfl
  · have hsome : some (w.getLast hw) ≠ some ampersand := fun he => hamp (Option.some.inj he)
    rw [if_neg hamp, if_neg hsome, decide_eq_false hsome]
    rfl

end

/-! ## Commands -/

/-- The array holds words, one at least, and a NULL behind them. -/
def Terminated (myargv : Args) : Prop :=
  ∃ argv tail, argv ≠ [] ∧ myargv = argv.map some ++ none :: tail

section

variable {n k narg : Nat} {ws argv as : List Word} {a w word : Word} {tail myargv : Args}
  {backg : Bool} {e : Env} {s t : State}

/-- The array of a line: the arguments of its command and NULLs, or NULLs alone for a
single `&`. -/
theorem slots_cases (hne : ws ≠ []) (hlast : ws.getLast? = some w) :
    (command ws = none ∧ w.getLast? = some ampersand ∧ slots ws = [none, none]) ∨
      ∃ c tail, command ws = some c ∧ c.backg = decide (w.getLast? = some ampersand) ∧
        c.argv ≠ [] ∧ slots ws = c.argv.map some ++ none :: tail ∧ ∀ p ∈ tail, p = none := by
  obtain ⟨l, w', rfl⟩ : ∃ l w, ws = l ++ [w] := ⟨_, _, (List.dropLast_append_getLast hne).symm⟩
  obtain rfl : w' = w := by simpa using hlast
  have hconcat : ∀ v : Word, l.map some ++ some v :: [none] = (l ++ [v]).map some ++ none :: [] := by
    simp
  have hnil : ∀ p ∈ ([] : Args), p = none := fun p hp => absurd hp List.not_mem_nil
  rw [slots_concat, command, hlast]
  simp only [List.dropLast_concat]
  by_cases hamp : w'.getLast? = some ampersand
  · simp only [if_pos hamp, decide_eq_true hamp]
    by_cases hlen : w'.length > 1
    · simp only [if_pos hlen, if_neg (List.concat_ne_nil _ _)]
      exact .inr ⟨_, [], rfl, rfl, List.concat_ne_nil _ _, hconcat _, hnil⟩
    · simp only [if_neg hlen]
      by_cases hl : l = []
      · subst hl
        exact .inl ⟨if_pos rfl, hamp, rfl⟩
      · rw [if_neg hl]
        refine .inr ⟨_, [none], rfl, rfl, hl, rfl, fun p hp => ?_⟩
        exact List.mem_singleton.mp hp
  · simp only [if_neg hamp, decide_eq_false hamp]
    exact .inr ⟨_, [], rfl, rfl, List.concat_ne_nil _ _, hconcat _, hnil⟩

theorem free_mm_ok (h : n ≤ myargv.length) : free_mm myargv n = .ok () := by
  induction n with
  | zero => rfl
  | succ n ih =>
      have hget : get myargv n = .ok myargv[n] := load_eq_ok.mpr (List.getElem?_eq_getElem h)
      rw [free_mm, ih (by omega), ok_bind, hget]
      rfl

/-- The arguments, and the NULL behind them. -/
theorem get_args (hk : k ≤ argv.length) : get (argv.map some ++ none :: tail) k = .ok argv[k]? := by
  refine load_eq_ok.mpr ?_
  rcases Nat.lt_or_eq_of_le hk with hlt | rfl
  · rw [List.getElem?_append_left (by rwa [List.length_map]), List.getElem?_map,
      List.getElem?_eq_getElem hlt]
    rfl
  · rw [List.getElem?_append_right (by rw [List.length_map]), List.length_map, Nat.sub_self,
      List.getElem?_eq_none le_rfl]
    rfl

theorem get_word (hk : k < argv.length) :
    get (argv.map some ++ none :: tail) k = .ok (some argv[k]) := by
  rw [get_args hk.le, List.getElem?_eq_getElem hk]

theorem called_ne (ha : a ≠ word) :
    called word k ((a :: as).map some ++ none :: tail) = .ok none := by
  have hget : get ((a :: as).map some ++ none :: tail) 0 = .ok (some a) := get_args (Nat.zero_le _)
  rw [called, hget, ok_bind, string, ok_bind, if_neg ha]
  rfl

theorem called_self (hk : k ≤ as.length + 1) :
    called a k ((a :: as).map some ++ none :: tail) = .ok (some (a :: as)[k]?.isNone) := by
  have hget : get ((a :: as).map some ++ none :: tail) 0 = .ok (some a) := get_args (Nat.zero_le _)
  rw [called, hget, ok_bind, string, ok_bind, if_pos rfl, get_args hk, ok_bind]
  rfl

/-- What the rest of the iteration needs of an action on `n` arguments. -/
def Action.Within (n : Nat) : Action → Prop
  | .exit | .j => True
  | .myw => 1 < n
  | .exec exec_start => exec_start < n

theorem dispatch_ok (hne : argv ≠ []) (hmyw : argv ≠ [mywWord]) :
    ∃ action, dispatch (argv.map some ++ none :: tail) = .ok action ∧
      action.Within argv.length := by
  obtain ⟨a, as, rfl⟩ := List.exists_cons_of_ne_nil hne
  have hej : exitWord ≠ jWord := by decide
  have hem : exitWord ≠ mywWord := by decide
  have hjm : jWord ≠ mywWord := by decide
  by_cases hexit : a = exitWord
  · subst hexit
    rw [dispatch, called_self (Nat.le_add_left ..), ok_bind]
    cases as with
    | nil => exact ⟨.exit, rfl, trivial⟩
    | cons b as =>
        rw [if_neg (by simp), called_ne hej, ok_bind, if_neg (by simp), called_ne hem, ok_bind]
        exact ⟨.exec 1, rfl, by simp [Action.Within]⟩
  rw [dispatch, called_ne hexit, ok_bind, if_neg (by simp)]
  by_cases hj : a = jWord
  · subst hj
    rw [called_self (Nat.le_add_left ..), ok_bind]
    cases as with
    | nil => exact ⟨.j, rfl, trivial⟩
    | cons b as =>
        rw [if_neg (by simp), called_ne hjm, ok_bind]
        exact ⟨.exec 1, rfl, by simp [Action.Within]⟩
  rw [called_ne hj, ok_bind, if_neg (by simp)]
  by_cases hm : a = mywWord
  · subst hm
    cases as with
    | nil => exact absurd rfl hmyw
    | cons b as =>
        rw [called_self (by simp), ok_bind]
        cases as with
        | nil => exact ⟨.myw, rfl, by simp [Action.Within]⟩
        | cons c as => exact ⟨.exec 2, rfl, by simp [Action.Within]⟩
  · rw [called_ne hm, ok_bind]
    exact ⟨.exec 0, rfl, by simp [Action.Within]⟩

theorem printArgs_ok (as : List Word) (tail : Args) :
    printArgs (as.map some ++ none :: tail) = .ok () := by
  induction as with
  | nil => rfl
  | cons a as ih => exact ih

/-- Every job of the list has a terminated array. -/
def Inv (s : State) : Prop := ∀ x ∈ s.jobs, Terminated x.myargv

/-- The shell goes on, in a state with the invariant. -/
theorem exists_ok_some (h : Inv t) :
    ∃ u, (.ok (some t) : Checked (Option State)) = .ok u ∧ ∀ t' ∈ u, Inv t' := by
  refine ⟨some t, rfl, fun t' ht => ?_⟩
  cases ht
  exact h

theorem listJobs_ok {jobs : List Job} (h : ∀ x ∈ jobs, Terminated x.myargv) :
    listJobs e jobs = .ok (jobs.filter fun x => e.running x.jid) := by
  induction jobs with
  | nil => rfl
  | cons x jobs ih =>
      have hrest := ih fun y hy => h y (List.mem_cons_of_mem _ hy)
      obtain ⟨argv, tail, hne, hx⟩ := h x (List.mem_cons_self ..)
      obtain ⟨a, as, rfl⟩ := List.exists_cons_of_ne_nil hne
      rw [listJobs]
      split
      · rename_i hrun
        have hget : get x.myargv 0 = .ok (some a) := by
          rw [hx]
          exact get_args (Nat.zero_le _)
        have hprint : printArgs (x.myargv.drop 1) = .ok () := by
          rw [hx]
          exact printArgs_ok as tail
        rw [hget, ok_bind, string, ok_bind, hprint, ok_bind, hrest, ok_bind, List.filter_cons,
          if_pos hrun]
        rfl
      · rename_i hrun
        rw [hrest, List.filter_cons, if_neg hrun]

theorem myw_ok (hlen : 1 < argv.length) (hargs : myargv = argv.map some ++ none :: tail)
    (hnarg : myargv.length = narg + 1) (h : Inv s) :
    ∃ t, myw e s narg myargv = .ok t ∧ Inv t := by
  have hget : get myargv 1 = .ok (some argv[1]) := by
    rw [hargs]
    exact get_word hlen
  have hfree := free_mm_ok hnarg.ge
  rw [myw, hget, ok_bind, string, ok_bind, hfree]
  dsimp only
  split
  · exact ⟨_, rfl, h⟩
  · refine ⟨_, rfl, fun x hx => h x ?_⟩
    dsimp only at hx
    split at hx
    · exact hx
    · exact List.mem_of_mem_eraseP hx

theorem child_ok (hk : k < argv.length) : child e (argv.map some ++ none :: tail) k = .ok () := by
  rw [child, get_word hk, ok_bind, string, ok_bind, get_word (Nat.zero_lt_of_lt hk), ok_bind,
    string]
  split
  · rfl
  · rfl

theorem execute_ok (hk : k < argv.length) (hargs : myargv = argv.map some ++ none :: tail)
    (hnarg : myargv.length = narg + 1) (h : Inv s) :
    ∃ t, execute e s narg backg myargv k = .ok t ∧ Inv t := by
  have hchild : child e myargv k = .ok () := by
    rw [hargs]
    exact child_ok hk
  rw [execute]
  split
  · rw [hchild, ok_bind, free_mm_ok hnarg.ge]
    split
    · refine ⟨_, rfl, fun x hx => ?_⟩
      rcases List.mem_append.mp hx with hx | hx
      · exact h x hx
      · rw [List.mem_singleton.mp hx]
        exact ⟨argv, tail, List.ne_nil_of_length_pos (Nat.zero_lt_of_lt hk), hargs⟩
    · exact ⟨_, rfl, h⟩
  · exact ⟨_, rfl, h⟩

/-- A command that is not `myw` alone. -/
theorem obey_ok (hne : argv ≠ []) (hmyw : argv ≠ [mywWord])
    (hargs : myargv = argv.map some ++ none :: tail) (hnarg : myargv.length = narg + 1) (h : Inv s) :
    ∃ t, obey e s narg backg myargv = .ok t ∧ ∀ u ∈ t, Inv u := by
  obtain ⟨action, haction, hwithin⟩ : ∃ action, dispatch (argv.map some ++ none :: tail) =
      .ok action ∧ action.Within argv.length := dispatch_ok hne hmyw
  rw [obey, hargs, haction, ok_bind, ← hargs]
  cases action with
  | exit =>
      dsimp only
      rw [free_mm_ok hnarg.ge]
      exact ⟨none, rfl, fun u hu => by cases hu⟩
  | j =>
      dsimp only
      rw [listJobs_ok h, ok_bind, free_mm_ok hnarg.ge]
      exact exists_ok_some fun x hx => h x (List.mem_filter.mp hx).1
  | myw =>
      obtain ⟨t, ht, hinv⟩ := myw_ok (e := e) hwithin hargs hnarg h
      dsimp only
      rw [ht]
      exact exists_ok_some hinv
  | exec k =>
      obtain ⟨t, ht, hinv⟩ : ∃ t, execute e s narg backg myargv k = .ok t ∧ Inv t :=
        execute_ok hwithin hargs hnarg h
      dsimp only
      rw [ht]
      exact exists_ok_some hinv

/-- `myw` alone: `myargv[2]` is behind the array, or `myargv[1]` goes to `strtol`. -/
theorem obey_bare (htail : ∀ p ∈ tail, p = none) :
    ∃ f, obey e s narg backg ([mywWord].map some ++ none :: tail) = .error f := by
  have hme : mywWord ≠ exitWord := by decide
  have hmj : mywWord ≠ jWord := by decide
  have hget : get ([mywWord].map some ++ none :: tail) 0 = .ok (some mywWord) := rfl
  rw [obey, dispatch, called_ne hme, ok_bind, if_neg (by simp), called_ne hmj, ok_bind,
    if_neg (by simp), called, hget, ok_bind, string, ok_bind, if_pos rfl]
  cases tail with
  | nil => exact ⟨.bound, rfl⟩
  | cons p tail =>
      obtain rfl := htail p (List.mem_cons_self ..)
      exact ⟨.null, rfl⟩

end

/-! ## Iterations -/

section

variable {n : Nat} {file line : List UInt8} {e : Env} {src : Source} {s t : State} {v : Event}

theorem hasArg_congr {str str' : List UInt8} (h : cstr str = cstr str') :
    HasArg str ↔ HasArg str' := by
  rw [HasArg, HasArg, h]

theorem hasArg_nil : HasArg [] := fun h => by cases h

/-- The words of a line, and its array. -/
theorem work_eq (h0 : 0 ∈ s.str.bytes) {ws : List Word}
    (hws : wordsOf isDelim (cstr s.str.bytes) = ws) :
    work e s =
      if ws = [] then .ok (some { s with str := cut s.str, jid := s.jid - 1 })
      else match command ws with
        | none => .ok (some { s with str := cut s.str })
        | some c => obey e { s with str := cut s.str } ws.length c.backg (slots ws) := by
  obtain ⟨copy, hcopy, hcstr, -⟩ :=
    strcpy_ok (e := Fault.overflow) (b := e.copy) (cstr_lt_size.mpr h0)
  have hnarg : (n_args s.str.bytes).1 = ws.length := by rw [← hws, n_args]
  rw [work, hcopy, ok_bind]
  dsimp only
  rw [hnarg]
  by_cases hnil : ws = []
  · rw [if_pos hnil, hnil]
    rfl
  have hpos : ¬ ws.length < 1 := by
    have := List.length_pos_of_ne_nil hnil
    omega
  have hblock : ((List.range (ws.length + 1)).map e.block).length = ws.length + 1 := by
    rw [List.length_map, List.length_range]
  have hall : ∀ w ∈ ws, w ≠ [] := fun w hw => by
    rw [← hws] at hw
    exact (mem_tokens hw).1
  obtain ⟨w, hlast, hback⟩ := background_ok hnil hall
  rw [if_neg hpos, if_neg hnil, acquireArgs_ok (by rw [hcstr]; exact hws) hnil hblock, ok_bind]
  dsimp only
  rw [hback, ok_bind]
  dsimp only
  rcases slots_cases hnil hlast with ⟨hnone, hamp, hslots⟩ | ⟨c, tail, hc, hbackg, hne, hslots, -⟩
  · have hempty : emptied true (slots ws) = .ok true := by
      rw [hslots]
      rfl
    have hfree : free_mm (slots ws) (ws.length + 1) = .ok () := free_mm_ok (slots_length ws).ge
    rw [hnone, decide_eq_true hamp, hempty, ok_bind, if_pos rfl, hfree]
    rfl
  · have hempty : emptied c.backg (slots ws) = .ok false := by
      obtain ⟨a, as, has⟩ := List.exists_cons_of_ne_nil hne
      rw [hslots, has]
      cases c.backg with
      | true => rfl
      | false => rfl
    rw [hc, ← hbackg, hempty, ok_bind, if_neg (fun h => by cases h)]

theorem work_ok (h : Inv s) (h0 : 0 ∈ s.str.bytes) (harg : HasArg s.str.bytes) :
    ∃ t, work e s = .ok t ∧ ∀ u ∈ t, Inv u := by
  rw [work_eq h0 rfl]
  rw [HasArg] at harg
  generalize wordsOf isDelim (cstr s.str.bytes) = ws at harg ⊢
  by_cases hnil : ws = []
  · rw [if_pos hnil]
    exact exists_ok_some h
  rw [if_neg hnil]
  obtain ⟨w, hlast⟩ : ∃ w, ws.getLast? = some w := ⟨_, List.getLast?_eq_some_getLast hnil⟩
  rcases slots_cases hnil hlast with ⟨hnone, -, -⟩ | ⟨c, tail, hc, -, hne, hslots, -⟩
  · rw [hnone]
    exact exists_ok_some h
  · rw [hc] at harg ⊢
    exact obey_ok hne (fun he => harg (congrArg some he)) hslots (slots_length ws) h

theorem work_bare (h0 : 0 ∈ s.str.bytes) (harg : ¬ HasArg s.str.bytes) :
    ∃ f, work e s = .error f := by
  rw [work_eq h0 rfl]
  rw [HasArg, not_not] at harg
  generalize wordsOf isDelim (cstr s.str.bytes) = ws at harg ⊢
  obtain ⟨c, hc, hargv⟩ := Option.map_eq_some_iff.mp harg
  have hnil : ws ≠ [] := fun he => by
    rw [he] at hc
    cases hc
  rw [if_neg hnil, hc]
  obtain ⟨w, hlast⟩ : ∃ w, ws.getLast? = some w := ⟨_, List.getLast?_eq_some_getLast hnil⟩
  rcases slots_cases hnil hlast with ⟨hnone, -, -⟩ | ⟨c', tail, hc', -, -, hslots, htail⟩
  · rw [hnone] at hc
    cases hc
  · obtain rfl := Option.some.inj (hc'.symm.trans hc)
    dsimp only
    rw [hslots, hargv]
    exact obey_bare htail

/-- A buffer without a NUL does not fit `copy`. -/
theorem work_overflow (h0 : 0 ∉ s.str.bytes) : work e s = .error .overflow := by
  have hle : MXCHAR ≤ (cstr s.str.bytes).length := not_lt.mp (cstr_lt_size.not.mpr h0)
  rw [work, strcpy_error hle]
  rfl

theorem nextLine_length (n : Nat) (file : List UInt8) : (nextLine n file).1.length ≤ n := by
  induction n generalizing file with
  | zero => exact le_rfl
  | succ n ih =>
      cases file with
      | nil => exact Nat.zero_le _
      | cons c file =>
          rw [nextLine]
          split
          · exact Nat.le_add_left 1 n
          · exact Nat.succ_le_succ (ih file)

/-- Without a limit, the lines are those of the whole file. -/
theorem getlines_nextLine (hn : file.length ≤ n) (hne : file ≠ []) :
    getlines file = (nextLine n file).1 :: getlines (nextLine n file).2 := by
  induction file generalizing n with
  | nil => exact absurd rfl hne
  | cons c file ih =>
      obtain ⟨m, rfl⟩ : ∃ m, n = m + 1 :=
        Nat.exists_eq_add_one.mpr (Nat.lt_of_lt_of_le (Nat.succ_pos _) hn)
      rw [getlines, nextLine]
      split
      · rfl
      · cases file with
        | nil => cases m <;> rfl
        | cons d file => rw [ih (Nat.le_of_succ_le_succ hn) (List.cons_ne_nil d file)]

/-- A line that has been read into `str`. -/
structure Took (s t : State) (line : Line) : Prop where
  jobs : t.jobs = s.jobs
  nul : 0 ∈ t.str.bytes
  string : cstr t.str.bytes = cstr line

/-- `fgets` leaves room for its NUL. -/
theorem readLine_interactive (s : State) :
    ∃ t, readLine .interactive s = .ok t ∧ Took s t (nextLine (MXCHAR - 1) s.input).1 := by
  have hle : ((nextLine (MXCHAR - 1) s.input).1 ++ [0]).length ≤ MXCHAR := by
    have := nextLine_length (MXCHAR - 1) s.input
    rw [List.length_append, List.length_singleton]
    unfold MXCHAR at this ⊢
    omega
  obtain ⟨str, hstr, hbytes⟩ := s.str.write_ok (e := Fault.overflow) hle
  refine ⟨{ s with input := (nextLine (MXCHAR - 1) s.input).2, str := str }, ?_, rfl, ?_, ?_⟩
  · rw [readLine]
    rw [hstr]
    rfl
  · show 0 ∈ str.bytes
    rw [hbytes]
    exact List.mem_append_left _ (List.mem_append_right _ (List.mem_singleton_self 0))
  · show cstr str.bytes = _
    rw [hbytes, cstr_append_singleton]

theorem readLine_fits (hfits : Fits (nextLine s.input.length s.input).1) :
    ∃ t, readLine .batch s = .ok t ∧ Took s t (nextLine s.input.length s.input).1 := by
  obtain ⟨str, hstr, hcstr, h0⟩ := strcpy_ok (e := Fault.overflow) (b := s.str) hfits
  refine ⟨{ s with input := (nextLine s.input.length s.input).2, str := str }, ?_, rfl, h0, hcstr⟩
  have hlt : (cstr (nextLine s.input.length s.input).1).length < MXCHAR := hfits
  rw [readLine]
  rw [take, if_neg (not_lt.mpr hlt.le), hstr]
  rfl

/-- The test lets a line of `MXCHAR` bytes through, and its NUL does not fit. -/
theorem readLine_limit (hlen : (cstr (nextLine s.input.length s.input).1).length = MXCHAR) :
    readLine .batch s = .error .overflow := by
  rw [readLine]
  rw [take, if_neg (not_lt.mpr hlen.le), strcpy_error hlen.ge]
  rfl

/-- A longer one leaves `str` as it was. -/
theorem readLine_long (hlen : MXCHAR < (cstr (nextLine s.input.length s.input).1).length) :
    readLine .batch s = .ok { s with input := (nextLine s.input.length s.input).2 } := by
  rw [readLine]
  rw [take, if_pos hlen]
  rfl

theorem Inv.took (h : Inv s) (ht : Took s t line) (jid : Int) : Inv { t with jid := jid } := by
  intro x hx
  exact h x (ht.jobs ▸ hx)

/-- What follows a line that has been read. -/
theorem took_ok (h : Inv s) (ht : Took s t line) (harg : HasArg line) :
    ∃ u, work e { t with jid := t.jid + 1 } = .ok u ∧ ∀ u' ∈ u, Inv u' :=
  work_ok (h.took ht _) ht.nul ((hasArg_congr ht.string).mpr harg)

theorem took_bare (ht : Took s t line) (harg : ¬ HasArg line) :
    ∃ f, work e { t with jid := t.jid + 1 } = .error f :=
  work_bare ht.nul fun h => harg ((hasArg_congr ht.string).mp h)

/-- At the end of the input, the condition says nothing. -/
theorem meets_nil (hinput : s.input = []) : Meets src s v := by
  have hline : (nextLine s.input.length s.input).1 = [] := by
    rw [hinput]
    rfl
  cases v with
  | error input str => cases src <;> exact trivial
  | line e =>
      cases src with
      | interactive =>
          rw [Meets, hinput]
          exact hasArg_nil
      | batch =>
          rw [Meets, hline, if_pos (by decide)]
          exact hasArg_nil

theorem iteration_ok (h : Inv s) (hm : Meets src s v) :
    ∃ t, iteration src s v = .ok t ∧ ∀ u ∈ t, Inv u := by
  cases v with
  | error input str =>
      refine ⟨_, rfl, fun u hu => ?_⟩
      split at hu
      · cases hu
        exact h
      · cases hu
  | line e =>
      rw [iteration]
      split
      · exact ⟨none, rfl, fun u hu => by cases hu⟩
      cases src with
      | interactive =>
          obtain ⟨t, ht, htook⟩ := readLine_interactive s
          rw [ht, ok_bind]
          exact took_ok h htook hm
      | batch =>
          rw [Meets] at hm
          split at hm
          · rename_i hfits
            obtain ⟨t, ht, htook⟩ := readLine_fits hfits
            rw [ht, ok_bind]
            exact took_ok h htook hm
          · rename_i hfits
            obtain ⟨hne, h0, harg⟩ := hm
            rw [readLine_long (lt_of_le_of_ne (not_lt.mp hfits) hne.symm), ok_bind]
            exact work_ok h h0 harg

theorem iteration_error (hm : ¬ Meets src s v) : ∃ f, iteration src s v = .error f := by
  have hinput : s.input ≠ [] := fun hnil => hm (meets_nil hnil)
  cases v with
  | error input str => cases src <;> exact absurd trivial hm
  | line e =>
      rw [iteration, if_neg hinput]
      cases src with
      | interactive =>
          obtain ⟨t, ht, htook⟩ := readLine_interactive s
          rw [ht, ok_bind]
          exact took_bare htook hm
      | batch =>
          rw [Meets] at hm
          split at hm
          · rename_i hfits
            obtain ⟨t, ht, htook⟩ := readLine_fits hfits
            rw [ht, ok_bind]
            exact took_bare htook hm
          · rename_i hfits
            by_cases hlen : (cstr (nextLine s.input.length s.input).1).length = MXCHAR
            · rw [readLine_limit hlen]
              exact ⟨.overflow, rfl⟩
            rw [readLine_long (lt_of_le_of_ne (not_lt.mp hfits) (Ne.symm hlen)), ok_bind]
            by_cases h0 : 0 ∈ s.str.bytes
            · exact work_bare h0 fun harg => hm ⟨hlen, h0, harg⟩
            · exact ⟨.overflow, work_overflow h0⟩

theorem safe_iff (h : Inv s) : Safe src s v ↔ Meets src s v := by
  rw [Safe]
  constructor
  · intro hok
    by_contra hm
    obtain ⟨f, hf⟩ := iteration_error hm
    rw [hf] at hok
    cases hok
  · intro hm
    obtain ⟨t, ht, -⟩ := iteration_ok h hm
    rw [ht]
    rfl

theorem Inv.step (h : Inv s) (ht : step src s v = some t) : Inv t := by
  by_cases hm : Meets src s v
  · obtain ⟨u, hu, hinv⟩ := iteration_ok h hm
    rw [Bounds.step, hu] at ht
    exact hinv t ht
  · obtain ⟨f, hf⟩ := iteration_error hm
    rw [Bounds.step, hf] at ht
    cases ht

end

/-! ## Runs -/

/-- For every input, from the terminal or from a file, and in every run: each copy
fits, each index is at most `narg` and no string is NULL, just when each line meets
the condition. -/
theorem bounds_run (src : Source) (input : List UInt8) (str : Buffer MXCHAR) (vs : List Event) :
    AllTried (step src) (Safe src) (start input str) vs ↔
      AllTried (step src) (Meets src) (start input str) vs := by
  have hstart : Inv (start input str) := fun x hx => absurd hx List.not_mem_nil
  exact allTried_iff (fun _ _ h => safe_iff h) (fun _ _ _ h ht => h.step ht) hstart

/-- Memory that holds zeros. -/
def zeros : Buffer MXCHAR := ⟨List.replicate MXCHAR 0, List.length_replicate⟩

def zeroEnv : Env := ⟨zeros, fun _ => none, fun _ => true, true, true, id⟩

/-- `myw` at the prompt looks at `myargv[2]`, with `narg` 1; and a batch line of 513
bytes is copied to `str`. -/
theorem lines_beyond :
    ¬ AllTried (step .interactive) (Safe .interactive) (start (mywWord ++ [10]) zeros)
        [.line zeroEnv] ∧
      ¬ AllTried (step .batch) (Safe .batch) (start (List.replicate 513 97) zeros)
        [.line zeroEnv] := by
  refine ⟨fun h => absurd h.1 ?_, fun h => absurd h.1 ?_⟩
  · decide +kernel
  · decide +kernel

end Cs537.Mysh.Bounds
