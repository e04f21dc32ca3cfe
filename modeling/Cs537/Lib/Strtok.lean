/-
# `Cs537.Lib.Strtok` — C strings and `strtok`

A buffer is a list of bytes; the C string in it is what stands before its first
NUL (or all of it: the NUL after the last byte is left out).  `strtok` returns
the next token of a string and writes a NUL over the delimiter that ends it, so
a buffer that has been tokenised holds a shorter string than before: the
leading delimiters and the first token (`wordsOf_tokenised`).

    cstr buf               the string in `buf`
    strtok delim s         one call, on what the calls before it left of the string
    tokens delim n s       calls until NULL is returned, `n` at most
    wordsOf delim s          the tokens of `s`
    tokenised delim s      the bytes of `s` after these calls
    acquire delim n s      exactly `n` calls
-/
import Mathlib.Data.List.TakeWhile
import Mathlib.Data.UInt

namespace Cs537.Lib

variable {delim : UInt8 → Bool} {s buf : List UInt8}

/-! ## Strings -/

/-- The C string at the start of a buffer. -/
def cstr (buf : List UInt8) : List UInt8 :=
  buf.takeWhile fun c => c != 0

theorem nul_notMem_cstr : 0 ∉ cstr buf := fun h => by
  simpa using List.mem_takeWhile_imp h

theorem cstr_of_notMem (h : 0 ∉ s) : cstr s = s := by
  refine List.takeWhile_eq_self_iff.mpr fun c hc => ?_
  simpa using fun h0 : c = 0 => h (h0 ▸ hc)

/-- What follows a NUL is out of reach. -/
theorem cstr_append_nul (s rest : List UInt8) : cstr (s ++ 0 :: rest) = cstr s := by
  induction s with
  | nil => rfl
  | cons c s ih =>
      rw [cstr, cstr] at ih ⊢
      rw [List.cons_append, List.takeWhile_cons, List.takeWhile_cons, ih]

theorem cstr_append_drop (s buf : List UInt8) :
    cstr (s ++ buf.drop (cstr buf).length) = cstr s := by
  have hdrop : buf.drop (cstr buf).length = buf.dropWhile fun c => c != 0 := by
    have hleft := @List.drop_left _ (cstr buf) (buf.dropWhile fun c => c != 0)
    rwa [cstr, List.takeWhile_append_dropWhile] at hleft
  rw [hdrop]
  cases h : buf.dropWhile fun c => c != 0 with
  | nil => rw [List.append_nil]
  | cons c rest =>
      have hc := List.head?_dropWhile_not (fun c => c != 0) buf
      rw [h] at hc
      obtain rfl : c = 0 := by simpa using hc
      exact cstr_append_nul s rest

/-! ## `strtok` -/

/-- What a call of `strtok` returns: the token, the bytes up to where the next
call starts as it leaves them, and the string from there. -/
structure Token where
  word : List UInt8
  behind : List UInt8
  rest : List UInt8

/-- `strtok(str, delim)` and `strtok(NULL, delim)`, `s` being the string that is
left; `none` is NULL. -/
def strtok (delim : UInt8 → Bool) (s : List UInt8) : Option Token :=
  let lead := s.takeWhile delim
  let word := (s.dropWhile delim).takeWhile fun c => !delim c
  if word = [] then none
  else
    match (s.dropWhile delim).dropWhile fun c => !delim c with
    | [] => some ⟨word, lead ++ word, []⟩
    | _ :: rest => some ⟨word, lead ++ word ++ [0], rest⟩

/-- The calls of `strtok` until one returns NULL: the tokens and the bytes of the
string after them. -/
def tokens (delim : UInt8 → Bool) : Nat → List UInt8 → List (List UInt8) × List UInt8
  | 0, s => ([], s)
  | n + 1, s =>
      match strtok delim s with
      | none => ([], s)
      | some t =>
          let r := tokens delim n t.rest
          (t.word :: r.1, t.behind ++ r.2)

/-- The tokens of a string.  Each call takes a byte at least. -/
def wordsOf (delim : UInt8 → Bool) (s : List UInt8) : List (List UInt8) :=
  (tokens delim s.length s).1

/-- The bytes of a string whose tokens have all been taken. -/
def tokenised (delim : UInt8 → Bool) (s : List UInt8) : List UInt8 :=
  (tokens delim s.length s).2

/-- `n` tokens, `none` if there are less. -/
def acquire (delim : UInt8 → Bool) : Nat → List UInt8 → Option (List (List UInt8))
  | 0, _ => some []
  | n + 1, s => (strtok delim s).bind fun t => (acquire delim n t.rest).map (t.word :: ·)

/-- A second pass over the same string finds the tokens that the first counted. -/
theorem acquire_tokens (n : Nat) (s : List UInt8) :
    acquire delim (tokens delim n s).1.length s = some (tokens delim n s).1 := by
  induction n generalizing s with
  | zero => rfl
  | succ n ih =>
      rw [tokens]
      cases h : strtok delim s with
      | none => rfl
      | some t =>
          show acquire delim ((tokens delim n t.rest).1.length + 1) s = _
          rw [acquire, h, Option.bind_some, ih, Option.map_some]

theorem acquire_wordsOf : acquire delim (wordsOf delim s).length s = some (wordsOf delim s) :=
  acquire_tokens ..

/-! ## What the calls leave -/

/-- A token is what `strtok` found after the delimiters. -/
theorem strtok_some {t : Token} (h : strtok delim s = some t) :
    ∃ lead, (∀ c ∈ lead, delim c = true) ∧ t.word ≠ [] ∧ (∀ c ∈ t.word, delim c = false) ∧
      (t.behind = lead ++ t.word ∧ t.rest = [] ∧ s = lead ++ t.word ∨
        ∃ c, t.behind = lead ++ t.word ++ [0] ∧ s = lead ++ t.word ++ c :: t.rest) := by
  refine ⟨s.takeWhile delim, fun c hc => List.mem_takeWhile_imp hc, ?_⟩
  have hs : s.takeWhile delim ++ ((s.dropWhile delim).takeWhile (fun c => !delim c) ++
      (s.dropWhile delim).dropWhile fun c => !delim c) = s := by
    rw [List.takeWhile_append_dropWhile, List.takeWhile_append_dropWhile]
  have hword : ∀ c ∈ (s.dropWhile delim).takeWhile (fun c => !delim c), delim c = false :=
    fun c hc => by simpa using List.mem_takeWhile_imp hc
  unfold strtok at h
  dsimp only at h
  split at h
  · cases h
  next hne =>
    split at h
    · next hrest =>
        cases h
        rw [hrest, List.append_nil] at hs
        exact ⟨hne, hword, .inl ⟨rfl, rfl, hs.symm⟩⟩
    · next c rest hrest =>
        cases h
        rw [hrest, ← List.append_assoc] at hs
        exact ⟨hne, hword, .inr ⟨c, rfl, hs.symm⟩⟩

/-- The calls change bytes of the string, not their number. -/
theorem tokens_length (n : Nat) (s : List UInt8) : (tokens delim n s).2.length = s.length := by
  induction n generalizing s with
  | zero => rfl
  | succ n ih =>
      rw [tokens]
      cases h : strtok delim s with
      | none => rfl
      | some t =>
          show (t.behind ++ (tokens delim n t.rest).2).length = s.length
          rw [List.length_append, ih]
          obtain ⟨lead, -, -, -, ⟨hbehind, hrest, hs⟩ | ⟨c, hbehind, hs⟩⟩ := strtok_some h
          · rw [hbehind, hrest, hs]
            rfl
          · rw [hbehind, hs]
            simp only [List.length_append, List.length_cons, List.length_nil]
            omega

theorem mem_tokens {n : Nat} {word : List UInt8} (h : word ∈ (tokens delim n s).1) :
    word ≠ [] ∧ word.length ≤ s.length := by
  induction n generalizing s with
  | zero => exact absurd h List.not_mem_nil
  | succ n ih =>
      rw [tokens] at h
      cases htok : strtok delim s with
      | none =>
          rw [htok] at h
          exact absurd h List.not_mem_nil
      | some t =>
          obtain ⟨lead, -, hne, -, hs⟩ := strtok_some htok
          have hlen : t.word.length ≤ s.length ∧ t.rest.length ≤ s.length := by
            rcases hs with ⟨-, hrest, hs⟩ | ⟨c, -, hs⟩
            · simp only [hs, hrest, List.length_append, List.length_nil]
              omega
            · simp only [hs, List.length_append, List.length_cons]
              omega
          rw [htok] at h
          rcases List.mem_cons.mp h with rfl | h
          · exact ⟨hne, hlen.1⟩
          · obtain ⟨hword, hle⟩ := ih h
            exact ⟨hword, hle.trans hlen.2⟩

/-- A single token, with delimiters before it. -/
theorem strtok_single {lead word : List UInt8} (hlead : ∀ c ∈ lead, delim c = true)
    (hne : word ≠ []) (hword : ∀ c ∈ word, delim c = false) :
    strtok delim (lead ++ word) = some ⟨word, lead ++ word, []⟩ := by
  have hhead : word.takeWhile delim = [] ∧ word.dropWhile delim = word := by
    cases word with
    | nil => exact absurd rfl hne
    | cons c word =>
        have hc : ¬ delim c = true := by simp [hword c (List.mem_cons_self ..)]
        exact ⟨List.takeWhile_cons_of_neg hc, List.dropWhile_cons_of_neg hc⟩
  have hall : ∀ c ∈ word, (!delim c) = true := fun c hc => by simp [hword c hc]
  have h1 : (lead ++ word).takeWhile delim = lead := by
    rw [List.takeWhile_append_of_pos hlead, hhead.1, List.append_nil]
  have h2 : (lead ++ word).dropWhile delim = word := by
    rw [List.dropWhile_append_of_pos hlead, hhead.2]
  rw [strtok, h1, h2, List.takeWhile_eq_self_iff.mpr hall, List.dropWhile_eq_nil_iff.mpr hall]
  exact if_neg hne

theorem tokens_nil (n : Nat) : tokens delim n [] = ([], []) := by
  cases n <;> rfl

theorem wordsOf_single {lead word : List UInt8} (hlead : ∀ c ∈ lead, delim c = true)
    (hne : word ≠ []) (hword : ∀ c ∈ word, delim c = false) :
    wordsOf delim (lead ++ word) = [word] := by
  have hlen : (lead ++ word).length = lead.length + (word.length - 1) + 1 := by
    have := List.length_pos_of_ne_nil hne
    rw [List.length_append]
    omega
  rw [wordsOf, hlen, tokens, strtok_single hlead hne hword]
  show [word] ++ (tokens delim _ []).1 = [word]
  rw [tokens_nil, List.append_nil]

/-- Once its tokens have been taken, a string has the first one only. -/
theorem wordsOf_tokenised (h : 0 ∉ s) :
    wordsOf delim (cstr (tokenised delim s)) = (wordsOf delim s).take 1 := by
  cases hlen : s.length with
  | zero =>
      obtain rfl := List.length_eq_zero_iff.mp hlen
      rfl
  | succ n =>
      rw [tokenised, wordsOf, wordsOf, hlen, tokens]
      cases htok : strtok delim s with
      | none =>
          show (tokens delim (cstr s).length (cstr s)).1 = []
          rw [cstr_of_notMem h, hlen, tokens, htok]
      | some t =>
          obtain ⟨lead, hlead, hne, hword, ⟨hbehind, hrest, hs⟩ | ⟨c, hbehind, hs⟩⟩ :=
            strtok_some htok
          · have hstr : cstr (t.behind ++ (tokens delim n t.rest).2) = lead ++ t.word := by
              rw [hbehind, hrest, tokens_nil, List.append_nil]
              exact cstr_of_notMem (hs ▸ h)
            exact (congrArg (wordsOf delim) hstr).trans (wordsOf_single hlead hne hword)
          · have hstr : cstr (t.behind ++ (tokens delim n t.rest).2) = lead ++ t.word := by
              rw [hbehind, List.append_assoc _ [0], List.singleton_append, cstr_append_nul]
              refine cstr_of_notMem fun h0 => h ?_
              rw [hs]
              exact List.mem_append_left _ h0
            exact (congrArg (wordsOf delim) hstr).trans (wordsOf_single hlead hne hword)

end Cs537.Lib
