/-
# `Cs537.Mysh.Batch` — the batch loop of the shell

`mysh.c` reads its batch file a line at a time into `str_b`.  A line that fits
is copied to the command buffer `str`, of `MXCHAR` bytes; for a longer one the
shell reports an error, but goes on with what `str` holds.  `n_args` counts the
words of `str` by `strtok`, which cuts `str` after its first word; the words
themselves are taken from a copy made before.

So a line that is too long is followed by the first word of the last line that
fitted, executed as a command of its own.  Two more slips are at the limit: a
line of `MXCHAR` bytes passes the test `strlen(str_b) > MXCHAR` and `strcpy`
writes its NUL past the buffer; and if no line has fitted yet, `str` is read
uninitialised.

    batch none (getlines file)     what the shell does with the file
    obeyed (getlines file)         what it should do
    Harmless none (getlines file)  when the two agree

What a command does is left to the shell's other parts (the job table is in
`Cs537.Mysh.Jobs`) and to the children it runs; only `exit`, and `myw` with no
argument, end the loop.  The lines are those `getline` returns, in order.
-/
import Cs537.Lib.Strtok

namespace Cs537.Mysh

open Cs537.Lib

abbrev Word := List UInt8
abbrev Line := List UInt8

/-- The size of `str` and `copy`. -/
def MXCHAR : Nat := 513

/-- The delimiters `" \t\n"`. -/
def isDelim (c : UInt8) : Bool :=
  c == 32 || c == 9 || c == 10

/-- `exit` -/
def exitWord : Word := [101, 120, 105, 116]

/-- `myw` -/
def mywWord : Word := [109, 121, 119]

/-- `&` -/
def ampersand : UInt8 := 38

/-! ## Lines and words -/

/-- The lines of a file as `getline` returns them, each with its newline; the
last one may have none. -/
def getlines : List UInt8 → List Line
  | [] => []
  | c :: file =>
      if c = 10 then [c] :: getlines file
      else
        match getlines file with
        | [] => [[c]]
        | line :: lines => (c :: line) :: lines

theorem getlines_flatten (file : List UInt8) : (getlines file).flatten = file := by
  induction file with
  | nil => rfl
  | cons c file ih =>
      rw [getlines]
      split
      · rw [List.flatten_cons, ih, List.singleton_append]
      · split
        · next h =>
            rw [h] at ih
            rw [← ih]
            rfl
        · next line lines h =>
            rw [h] at ih
            rw [← ih]
            rfl

/-- `n_args`: the number of words in `str`, and `str` after the count. -/
def n_args (str : List UInt8) : Nat × List UInt8 :=
  ((wordsOf isDelim (cstr str)).length,
    tokenised isDelim (cstr str) ++ str.drop (cstr str).length)

/-- A command: its argument vector, and whether it is for the background. -/
structure Command where
  argv : List Word
  backg : Bool
  deriving DecidableEq

/-- The command of the words `myargv`.  An `&` at the end of the last word is
taken off, the word with it when nothing else is left; there is no command
when that was the only word. -/
def command (myargv : List Word) : Option Command :=
  match myargv.getLast? with
  | none => none
  | some w =>
      if w.getLast? = some ampersand then
        let argv := if w.length > 1 then myargv.dropLast ++ [w.dropLast] else myargv.dropLast
        if argv = [] then none else some ⟨argv, true⟩
      else some ⟨myargv, false⟩

/-! ## The loop -/

/-- How a run ends: at the end of the file, by `exit`, or in behaviour that C
does not define. -/
inductive End where
  | eof
  | exit
  | undefined
  deriving DecidableEq

/-- The commands that end the loop.  For `myw` alone the shell looks at
`myargv[2]`, which is past the vector, and at the null pointer `myargv[1]`. -/
def Command.ends (c : Command) : Option End :=
  if c.argv = [exitWord] then some .exit
  else if c.argv = [mywWord] then some .undefined
  else none

/-- What the shell did at a line: whether it reported an error, and the command
that it acted on, if any. -/
structure Entry where
  reported : Bool
  command : Option Command
  deriving DecidableEq

/-- The rest of an iteration, once `str` holds the line: `str` after it and the
command.  `none` would be `strdup` of a null pointer. -/
def act (str : List UInt8) : Option (List UInt8 × Option Command) :=
  let copy := cstr str
  let (narg, str) := n_args str
  if narg < 1 then some (str, none)
  else (acquire isDelim narg copy).map fun myargv => (str, command myargv)

/-- The loop over the lines.  `str` is `none` as long as nothing has been copied
to it. -/
def batch : Option (List UInt8) → List Line → List Entry × End
  | _, [] => ([], .eof)
  | str, str_b :: file =>
      let len := (cstr str_b).length
      -- `strcpy` of `MXCHAR` bytes and a NUL
      if len = MXCHAR then ([], .undefined)
      else
        match (if len > MXCHAR then str else some (cstr str_b)).bind act with
        | none => ([], .undefined)
        | some (str, command) =>
            let entry := ⟨decide (len > MXCHAR), command⟩
            match command.bind Command.ends with
            | some e => ([entry], e)
            | none =>
                let r := batch (some str) file
                (entry :: r.1, r.2)

/-! ## What the shell should do -/

/-- The line and its NUL fit the command buffer. -/
def Fits (line : Line) : Prop :=
  (cstr line).length < MXCHAR

instance (line : Line) : Decidable (Fits line) :=
  inferInstanceAs (Decidable (_ < _))

/-- The command of a line. -/
def lineCommand (line : Line) : Option Command :=
  command (wordsOf isDelim (cstr line))

/-- The lines that fit, each acted on once and in order; the others reported. -/
def obeyed : List Line → List Entry × End
  | [] => ([], .eof)
  | line :: file =>
      if Fits line then
        match (lineCommand line).bind Command.ends with
        | some e => ([⟨false, lineCommand line⟩], e)
        | none => (⟨false, lineCommand line⟩ :: (obeyed file).1, (obeyed file).2)
      else (⟨true, none⟩ :: (obeyed file).1, (obeyed file).2)

/-- There is a line that fitted, and its first word is no command: the line is
blank, or the word is `&`. -/
def Idle : Option Line → Prop
  | none => False
  | some line => command ((wordsOf isDelim (cstr line)).take 1) = none

instance : ∀ prev, Decidable (Idle prev)
  | none => inferInstanceAs (Decidable False)
  | some line => inferInstanceAs (Decidable (command ((wordsOf isDelim (cstr line)).take 1) = none))

/-- The condition.  Of the lines up to the one that ends the run none is of
exactly `MXCHAR` bytes, and at each longer one the last line that fitted
(`prev`) is idle. -/
def Harmless (prev : Option Line) : List Line → Prop
  | [] => True
  | line :: file =>
      if Fits line then
        ((lineCommand line).bind Command.ends).isSome ∨ Harmless (some line) file
      else (cstr line).length ≠ MXCHAR ∧ Idle prev ∧ Harmless prev file

/-! ## What `str` holds -/

/-- What `str` holds when `prev` was the last line that fitted: a string with
that line's first word, and no other. -/
def Holds : Option (List UInt8) → Option Line → Prop
  | none, none => True
  | some str, some line => wordsOf isDelim (cstr str) = (wordsOf isDelim (cstr line)).take 1
  | _, _ => False

theorem command_nil : command [] = none := rfl

/-- The count leaves the first word. -/
theorem wordsOf_n_args (str : List UInt8) :
    wordsOf isDelim (cstr (n_args str).2) = (wordsOf isDelim (cstr str)).take 1 := by
  rw [n_args, cstr_append_drop]
  exact wordsOf_tokenised nul_notMem_cstr

/-- An iteration acts on the words of `str`. -/
theorem act_spec (str : List UInt8) :
    act str = some ((n_args str).2, command (wordsOf isDelim (cstr str))) := by
  have hnarg : (n_args str).1 = (wordsOf isDelim (cstr str)).length := rfl
  unfold act
  dsimp only
  split
  · next hlt =>
      have hnil : wordsOf isDelim (cstr str) = [] :=
        List.length_eq_zero_iff.mp (by omega)
      rw [hnil, command_nil]
  · rw [hnarg, acquire_wordsOf, Option.map_some]

/-- A line that fits is copied to `str` and acted on. -/
theorem batch_fits {line : Line} {file : List Line} (str : Option (List UInt8))
    (h : Fits line) :
    batch str (line :: file) =
      match (lineCommand line).bind Command.ends with
      | some e => ([⟨false, lineCommand line⟩], e)
      | none =>
          (⟨false, lineCommand line⟩ :: (batch (some (n_args (cstr line)).2) file).1,
            (batch (some (n_args (cstr line)).2) file).2) := by
  have hlt : (cstr line).length < MXCHAR := h
  have hcommand : command (wordsOf isDelim (cstr (cstr line))) = lineCommand line := by
    rw [cstr_of_notMem nul_notMem_cstr, lineCommand]
  have hdec : decide ((cstr line).length > MXCHAR) = false := decide_eq_false (by omega)
  rw [batch, if_neg (by omega), if_neg (by omega), Option.bind_some, act_spec, hcommand, hdec]

/-- A longer line leads to the command of what `str` held. -/
theorem batch_long {line : Line} {file : List Line} {str : List UInt8}
    (h : MXCHAR < (cstr line).length) :
    batch (some str) (line :: file) =
      match (command (wordsOf isDelim (cstr str))).bind Command.ends with
      | some e => ([⟨true, command (wordsOf isDelim (cstr str))⟩], e)
      | none =>
          (⟨true, command (wordsOf isDelim (cstr str))⟩ :: (batch (some (n_args str).2) file).1,
            (batch (some (n_args str).2) file).2) := by
  have hdec : decide ((cstr line).length > MXCHAR) = true := decide_eq_true h
  rw [batch, if_neg (by omega), if_pos h, Option.bind_some, act_spec, hdec]

/-- The run of the code and the run that the file asks for. -/
theorem batch_iff {file : List Line} {str : Option (List UInt8)} {prev : Option Line}
    (h : Holds str prev) : batch str file = obeyed file ↔ Harmless prev file := by
  induction file generalizing str prev with
  | nil => exact iff_of_true rfl trivial
  | cons line file ih =>
      by_cases hfits : Fits line
      · -- `str` is written anew
        have hholds : Holds (some (n_args (cstr line)).2) (some line) := by
          have hwords := wordsOf_n_args (cstr line)
          rwa [cstr_of_notMem nul_notMem_cstr] at hwords
        rw [batch_fits str hfits, obeyed, if_pos hfits, Harmless, if_pos hfits]
        cases (lineCommand line).bind Command.ends with
        | some e => exact iff_of_true rfl (.inl rfl)
        | none =>
            rw [← ih hholds]
            simp [Prod.ext_iff]
      have hge : ¬ (cstr line).length < MXCHAR := hfits
      have hobeyed : obeyed (line :: file) = (⟨true, none⟩ :: (obeyed file).1, (obeyed file).2) :=
        if_neg hfits
      rw [hobeyed, Harmless, if_neg hfits]
      by_cases hlen : (cstr line).length = MXCHAR
      · -- the copy overflows
        rw [batch, if_pos hlen]
        exact iff_of_false (fun he => by simp at he) fun hne => hne.1 hlen
      have hlong : MXCHAR < (cstr line).length := by omega
      cases str with
      | none =>
          cases prev with
          | none =>
              rw [batch, if_neg hlen, if_pos hlong]
              exact iff_of_false (fun he => by simp at he) fun hne => hne.2.1
          | some k => cases h
      | some str =>
          cases prev with
          | none => cases h
          | some k =>
              have hwords : wordsOf isDelim (cstr str) = (wordsOf isDelim (cstr k)).take 1 := h
              have hholds : Holds (some (n_args str).2) (some k) := by
                show wordsOf isDelim (cstr (n_args str).2) = _
                rw [wordsOf_n_args, hwords, List.take_take]
                rfl
              rw [batch_long hlong, Idle, ← hwords, ← ih hholds]
              cases command (wordsOf isDelim (cstr str)) with
              | none => simp [Prod.ext_iff, hlen]
              | some c =>
                  refine iff_of_false (fun he => ?_) (fun hne => absurd hne.2.1 (by simp))
                  split at he <;> simp at he

/-! ## The whole file -/

/-- `ls -l` and a line of 600 letters. -/
def longLine : List UInt8 :=
  [108, 115, 32, 45, 108, 10] ++ List.replicate 600 120 ++ [10]

end Cs537.Mysh
