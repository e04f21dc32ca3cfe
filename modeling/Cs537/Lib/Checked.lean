/-
# `Cs537.Lib.Checked` — memory whose accesses are checked

What C leaves undefined ends a computation in `Except ε` with an error of the
caller's choice: an index outside an array, a copy that does not fit its buffer.

    load e a i         a[i]
    store e a i x      a[i] = x
    b.write e s        the bytes `s` are put at the start of the buffer `b`
    strcpy e b s       the C string in `s` is, with its NUL
-/
import Cs537.Lib.Strtok

namespace Cs537.Lib

variable {ε : Type*} {α β : Type} {e : ε}

/-! ## Computations -/

theorem ok_bind (x : α) (f : α → Except ε β) : (Except.ok x >>= f) = f x := rfl

/-! ## Arrays -/

def load (e : ε) (a : List α) (i : Nat) : Except ε α :=
  match a[i]? with
  | some x => .ok x
  | none => .error e

def store (e : ε) (a : List α) (i : Nat) (x : α) : Except ε (List α) :=
  if i < a.length then .ok (a.set i x) else .error e

theorem load_eq_ok {a : List α} {i : Nat} {x : α} : load e a i = .ok x ↔ a[i]? = some x := by
  rw [load]
  cases a[i]? with
  | none => exact iff_of_false (fun h => by cases h) fun h => by cases h
  | some y => rw [Except.ok.injEq, Option.some.injEq]

/-- The entry behind the first `l.length` is stored. -/
theorem store_append (l r : List α) (x y : α) :
    store e (l ++ x :: r) l.length y = .ok (l ++ y :: r) := by
  have hlt : l.length < (l ++ x :: r).length := by
    rw [List.length_append, List.length_cons]
    omega
  rw [store, if_pos hlt, List.set_append_right _ _ le_rfl, Nat.sub_self]
  rfl

/-! ## Buffers -/

/-- A buffer of `n` bytes. -/
structure Buffer (n : Nat) where
  bytes : List UInt8
  size : bytes.length = n

variable {n : Nat}

def Buffer.write (e : ε) (b : Buffer n) (s : List UInt8) : Except ε (Buffer n) :=
  if h : s.length ≤ n then
    .ok ⟨s ++ b.bytes.drop s.length, by rw [List.length_append, List.length_drop, b.size]; omega⟩
  else .error e

/-- `strcpy(b, s)`. -/
def strcpy (e : ε) (b : Buffer n) (s : List UInt8) : Except ε (Buffer n) :=
  b.write e (cstr s ++ [0])

theorem Buffer.write_ok {b : Buffer n} {s : List UInt8} (h : s.length ≤ n) :
    ∃ b', b.write e s = .ok b' ∧ b'.bytes = s ++ b.bytes.drop s.length :=
  ⟨_, dif_pos h, rfl⟩

theorem cstr_append_singleton (s rest : List UInt8) : cstr (s ++ [0] ++ rest) = cstr s := by
  rw [List.append_assoc, List.singleton_append, cstr_append_nul]

/-- A string of less than `n` bytes is copied. -/
theorem strcpy_ok {b : Buffer n} {s : List UInt8} (h : (cstr s).length < n) :
    ∃ b', strcpy e b s = .ok b' ∧ cstr b'.bytes = cstr s ∧ 0 ∈ b'.bytes := by
  have hle : (cstr s ++ [0]).length ≤ n := by
    rw [List.length_append]
    exact h
  obtain ⟨b', hb, hbytes⟩ := b.write_ok (e := e) hle
  refine ⟨b', hb, ?_, ?_⟩
  · rw [hbytes, cstr_append_singleton, cstr_of_notMem nul_notMem_cstr]
  · rw [hbytes]
    exact List.mem_append_left _ (List.mem_append_right _ (List.mem_singleton_self 0))

theorem strcpy_error {b : Buffer n} {s : List UInt8} (h : n ≤ (cstr s).length) :
    strcpy e b s = .error e := by
  refine dif_neg fun hle => ?_
  rw [List.length_append, List.length_singleton] at hle
  omega

/-- A buffer with a NUL holds a string. -/
theorem cstr_lt_size {b : Buffer n} : (cstr b.bytes).length < n ↔ 0 ∈ b.bytes := by
  have hsize := b.size
  constructor
  · intro hlt
    by_contra h0
    rw [cstr_of_notMem h0] at hlt
    omega
  · intro h0
    have hpre : cstr b.bytes <+: b.bytes := List.takeWhile_prefix _
    refine lt_of_le_of_ne (hpre.length_le.trans hsize.le) fun heq => ?_
    have hall : cstr b.bytes = b.bytes := hpre.eq_of_length (heq.trans hsize.symm)
    rw [← hall] at h0
    exact nul_notMem_cstr h0

end Cs537.Lib
