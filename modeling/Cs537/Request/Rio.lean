/-
# `Cs537.Request.Rio` — the buffered reader of the web server (p4/linux)

`rio_read` and `rio_readlineb` of `cs537.c`.  `read` returns what has arrived, a
piece of the stream of any length up to the size of the buffer, and 0 at the
end of the stream; it does not fail here.

What a call of `rio_readlineb` returns does not depend on how the bytes have
arrived: it is the first line of the bytes still to come, or the first
`maxlen - 1` bytes of it, and at the end of the stream nothing is stored
(`readlineb_spec`).
-/
import Mathlib.Data.UInt
import Cs537.Lib.Lines

namespace Cs537.Request

open Cs537.Lib

def MAXLINE : Nat := 8192

def MAXBUF : Nat := 8192

def RIO_BUFSIZE : Nat := 8192

/-- What one call of `read` returns. -/
abbrev Arrival := { a : List UInt8 // 0 < a.length ∧ a.length ≤ RIO_BUFSIZE }

/-- `rio_t`: the `rio_cnt` bytes from `rio_bufptr` on, and what the calls of
`read` will return before they return 0. -/
structure Rio where
  unread : List UInt8
  arrivals : List Arrival

/-- `rio_read`; it returns no byte at the end of the stream. -/
def Rio.rio_read (rp : Rio) (n : Nat) : List UInt8 × Rio :=
  match rp.unread, rp.arrivals with
  | [], [] => ([], rp)
  | [], a :: as => (a.val.take n, ⟨a.val.drop n, as⟩)
  | u, as => (u.take n, ⟨u.drop n, as⟩)

/-- The loop of `rio_readlineb`, with `left` turns to go; `l` is stored so far.
The result is the value returned, what `usrbuf` holds up to its last NUL, and
the reader. -/
def Rio.readlineLoop (usrbuf : List UInt8) : (left n : Nat) → List UInt8 → Rio →
    Nat × List UInt8 × Rio
  | 0, n, l, rp => (n, l, rp)
  | left + 1, n, l, rp =>
      match rp.rio_read 1 with
      | ([], rp) => if n = 1 then (0, usrbuf, rp) else (n, l, rp)
      | (c :: _, rp) =>
          if c = 10 then (n, l ++ [c], rp)
          else Rio.readlineLoop usrbuf left (n + 1) (l ++ [c]) rp

def Rio.rio_readlineb (rp : Rio) (usrbuf : List UInt8) (maxlen : Nat) : Nat × List UInt8 × Rio :=
  Rio.readlineLoop usrbuf (maxlen - 1) 1 [] rp

/-! ## The bytes to come -/

def Rio.bytes (rp : Rio) : List UInt8 := rp.unread ++ (rp.arrivals.map Subtype.val).flatten

variable {rp rp' : Rio} {usrbuf : List UInt8} {c : UInt8} {s : List UInt8}

/-- A byte at a time, `rio_read` is the stream itself. -/
theorem rio_read_one (rp : Rio) : (rp.bytes = [] ∧ rp.rio_read 1 = ([], rp)) ∨
    ∃ c rp', rp.bytes = c :: rp'.bytes ∧ rp.rio_read 1 = ([c], rp') := by
  obtain ⟨unread, arrivals⟩ := rp
  cases unread with
  | cons c u => exact .inr ⟨c, ⟨u, arrivals⟩, rfl, rfl⟩
  | nil =>
      cases arrivals with
      | nil => exact .inl ⟨rfl, rfl⟩
      | cons a as =>
          obtain ⟨a, hpos, hle⟩ := a
          cases a with
          | nil => exact absurd hpos (Nat.lt_irrefl 0)
          | cons c a => exact .inr ⟨c, ⟨a, as⟩, rfl, rfl⟩

/-- Past the first byte, the loop takes what is left of the line. -/
theorem readlineLoop_spec (usrbuf : List UInt8) (left n : Nat) (l : List UInt8) (rp : Rio)
    (hn : n ≠ 1) (hpos : 0 < n) :
    ∃ rc rp', Rio.readlineLoop usrbuf left n l rp =
        (rc, l ++ (takeLine 10 left rp.bytes).1, rp') ∧
      rp'.bytes = (takeLine 10 left rp.bytes).2 := by
  induction left generalizing n l rp with
  | zero => exact ⟨n, rp, by rw [takeLine, List.append_nil]; rfl, rfl⟩
  | succ left ih =>
      rcases rio_read_one rp with ⟨hnil, hread⟩ | ⟨c, rp', hcons, hread⟩
      · refine ⟨n, rp, ?_, by rw [hnil, takeLine]⟩
        rw [Rio.readlineLoop, hread, hnil, takeLine, List.append_nil]
        exact if_neg hn
      · rw [hcons, Rio.readlineLoop, hread]
        by_cases hc : c = 10
        · refine ⟨n, rp', ?_, by rw [takeLine, if_pos hc]⟩
          rw [takeLine, if_pos hc]
          exact if_pos hc
        · obtain ⟨rc, last, hloop, hbytes⟩ :=
            ih (n + 1) (l ++ [c]) rp' (by omega) (Nat.succ_pos n)
          refine ⟨rc, last, ?_, by rw [hbytes, takeLine, if_neg hc]⟩
          rw [List.append_assoc] at hloop
          rw [takeLine, if_neg hc]
          exact (if_neg hc).trans hloop

/-- What a call returns: the next piece of the stream, and at its end nothing. -/
theorem readlineb_spec (rp : Rio) (usrbuf : List UInt8) {maxlen : Nat} (hmax : 1 < maxlen) :
    (rp.bytes = [] ∧ rp.rio_readlineb usrbuf maxlen = (0, usrbuf, rp)) ∨
    rp.bytes ≠ [] ∧ ∃ rc rp',
      rp.rio_readlineb usrbuf maxlen = (rc, (takeLine 10 (maxlen - 1) rp.bytes).1, rp') ∧
      rp'.bytes = (takeLine 10 (maxlen - 1) rp.bytes).2 := by
  obtain ⟨left, hleft⟩ := Nat.exists_eq_add_one_of_ne_zero (n := maxlen - 1) (by omega)
  rw [Rio.rio_readlineb, hleft]
  rcases rio_read_one rp with ⟨hnil, hread⟩ | ⟨c, rp', hcons, hread⟩
  · exact .inl ⟨hnil, by rw [Rio.readlineLoop, hread]; rfl⟩
  · refine .inr ⟨by rw [hcons]; exact List.cons_ne_nil _ _, ?_⟩
    rw [hcons, Rio.readlineLoop, hread]
    by_cases hc : c = 10
    · refine ⟨1, rp', ?_, by rw [takeLine, if_pos hc]⟩
      rw [takeLine, if_pos hc]
      exact if_pos hc
    · obtain ⟨rc, last, hloop, hbytes⟩ :=
        readlineLoop_spec usrbuf left 2 [c] rp' (by decide) (by decide)
      refine ⟨rc, last, ?_, by rw [hbytes, takeLine, if_neg hc]⟩
      rw [takeLine, if_neg hc]
      exact (if_neg hc).trans hloop

end Cs537.Request
