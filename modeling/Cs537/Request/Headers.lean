/-
# `Cs537.Request.Headers` — skipping the headers of a request (p4/linux)

`requestReadhdrs` reads until its buffer holds `"\r\n"`, which it takes for the
empty line after the headers.  A line comes in pieces of `MAXLINE - 1` bytes, and
it is a piece that is compared: a line whose last piece is `"\r\n"` stops the loop
(`Stops`), an empty line or not.  And the result of the read is not looked at: at
the end of the stream the buffer is left as it was, so if no line has stopped
the loop by then, none will, and it goes on for ever.

    skipLines ls       the lines left behind the first of `ls` that stops
    Returns rp buf r   the loop ends, with the reader `r`

`readhdrs_returns` and `readhdrs_spins` say that the loop does what `skipLines`
does with the lines of the stream.
-/
import Cs537.Lib.Strtok
import Cs537.Request.Rio

namespace Cs537.Request

open Cs537.Lib

/-- The bytes of a string literal. -/
def text (str : String) : List UInt8 := str.toUTF8.data.toList

/-- `"\r\n"` -/
def crlf : List UInt8 := [13, 10]

/-- `requestReadhdrs`, with `fuel` reads at most; `buf` is its buffer before the
first of them. -/
def requestReadhdrs : (fuel : Nat) → Rio → List UInt8 → Option Rio
  | 0, _, _ => none
  | fuel + 1, rp, buf =>
      match rp.rio_readlineb buf MAXLINE with
      | (_, buf, rp) => if cstr buf = crlf then some rp else requestReadhdrs fuel rp buf

/-- The loop ends. -/
def Returns (rp : Rio) (buf : List UInt8) (rp' : Rio) : Prop :=
  ∃ fuel, requestReadhdrs fuel rp buf = some rp'

/-- The last piece of the line is `"\r\n"`. -/
def Stops (line : List UInt8) : Prop :=
  crlf <:+ line ∧ MAXLINE - 1 ∣ line.length - 2

instance decidableStops (line : List UInt8) : Decidable (Stops line) :=
  inferInstanceAs (Decidable (_ ∧ _))

def skipLines : List (List UInt8) → Option (List (List UInt8))
  | [] => none
  | l :: ls => if Stops l then some ls else skipLines ls

variable {rp rp' rp'' : Rio} {buf buf' line s : List UInt8} {ls ls' : List (List UInt8)}

/-! ## One turn of the loop -/

theorem requestReadhdrs_mono {fuel more : Nat} (h : requestReadhdrs fuel rp buf = some rp')
    (hle : fuel ≤ more) : requestReadhdrs more rp buf = some rp' := by
  induction fuel generalizing more rp buf with
  | zero => cases h
  | succ fuel ih =>
      obtain ⟨more, rfl⟩ := Nat.exists_eq_add_one_of_ne_zero (n := more) (by omega)
      rw [requestReadhdrs] at h ⊢
      dsimp only at h ⊢
      by_cases hcrlf : cstr (rp.rio_readlineb buf MAXLINE).2.1 = crlf
      · rw [if_pos hcrlf] at h ⊢
        exact h
      · rw [if_neg hcrlf] at h ⊢
        exact ih h (by omega)

theorem Returns.unique (h : Returns rp buf rp') (h' : Returns rp buf rp'') : rp' = rp'' := by
  obtain ⟨fuel, h⟩ := h
  obtain ⟨fuel', h'⟩ := h'
  have hmax := requestReadhdrs_mono h (Nat.le_max_left fuel fuel')
  exact Option.some.inj (hmax.symm.trans (requestReadhdrs_mono h' (Nat.le_max_right fuel fuel')))

/-- The piece read is `"\r\n"`. -/
theorem returns_stop {rc : Nat} (hread : rp.rio_readlineb buf MAXLINE = (rc, buf', rp'))
    (hcrlf : cstr buf' = crlf) : Returns rp buf rp' := by
  refine ⟨1, ?_⟩
  rw [requestReadhdrs, hread]
  exact if_pos hcrlf

/-- It is not. -/
theorem returns_next {rc : Nat} (hread : rp.rio_readlineb buf MAXLINE = (rc, buf', rp'))
    (hcrlf : cstr buf' ≠ crlf) : Returns rp buf rp'' ↔ Returns rp' buf' rp'' := by
  constructor
  · rintro ⟨fuel, h⟩
    cases fuel with
    | zero => cases h
    | succ fuel =>
        rw [requestReadhdrs, hread] at h
        exact ⟨fuel, (if_neg hcrlf).symm.trans h⟩
  · rintro ⟨fuel, h⟩
    refine ⟨fuel + 1, ?_⟩
    rw [requestReadhdrs, hread]
    exact (if_neg hcrlf).trans h

/-! ## Pieces of a line -/

theorem cstr_ne_crlf (h : 10 ∉ s) : cstr s ≠ crlf := by
  intro he
  have hmem : 10 ∈ cstr s := by
    rw [he]
    exact List.mem_cons_of_mem 13 (List.mem_singleton_self 10)
  exact h ((List.takeWhile_sublist _).subset hmem)

theorem isLine_crlf : IsLine 10 crlf :=
  ⟨[13], by decide, rfl⟩

/-- A line is compared as a string. -/
theorem cstr_line (h : IsLine 10 line) : cstr line = crlf ↔ line = crlf := by
  constructor
  · intro hcstr
    obtain ⟨body, hbody, rfl⟩ := h
    obtain ⟨rest, hrest⟩ := List.takeWhile_prefix (fun c => c != 0) (l := body ++ [10])
    have hsplit : crlf ++ rest = body ++ [10] := by
      rw [← hcstr]
      exact hrest
    cases rest with
    | nil => exact hsplit.symm
    | cons c rest =>
        -- the 10 of the string is in the body of the line
        exfalso
        refine hbody ?_
        have hlen := congrArg List.length hsplit
        have hget := congrArg (·[1]?) hsplit
        simp only [crlf, List.length_append, List.length_cons, List.length_nil] at hlen
        simp only [crlf, List.cons_append, List.getElem?_cons_succ, List.getElem?_cons_zero] at hget
        rw [List.getElem?_append_left (by omega)] at hget
        exact List.mem_of_getElem? hget.symm
  · rintro rfl
    rfl

/-- A line that is read in one piece. -/
theorem stops_short (hlen : line.length ≤ MAXLINE - 1) : Stops line ↔ line = crlf := by
  constructor
  · rintro ⟨⟨pre, rfl⟩, hdvd⟩
    rw [List.length_append] at hlen hdvd
    have hpre : pre.length = 0 := by
      refine Nat.eq_zero_of_dvd_of_lt hdvd ?_
      show pre.length + 2 - 2 < MAXLINE - 1
      change pre.length + 2 ≤ MAXLINE - 1 at hlen
      omega
    rw [List.length_eq_zero_iff.mp hpre]
    rfl
  · rintro rfl
    decide

/-- A longer one: what is left after its first piece decides. -/
theorem stops_drop (hlen : MAXLINE - 1 < line.length) :
    Stops line ↔ Stops (line.drop (MAXLINE - 1)) := by
  constructor
  · rintro ⟨hsuf, hdvd⟩
    have hfar : MAXLINE - 1 ≤ line.length - 2 := by
      refine Nat.le_of_dvd ?_ hdvd
      unfold MAXLINE at hlen
      omega
    have hleft : crlf.length ≤ (line.drop (MAXLINE - 1)).length := by
      rw [List.length_drop]
      unfold MAXLINE at hfar hlen ⊢
      change 2 ≤ _
      omega
    refine ⟨List.suffix_of_suffix_length_le hsuf (List.drop_suffix ..) hleft, ?_⟩
    rw [List.length_drop, Nat.sub_right_comm]
    exact Nat.dvd_sub hdvd (Nat.dvd_refl _)
  · rintro ⟨hsuf, hdvd⟩
    have hleft := hsuf.length_le
    rw [List.length_drop] at hleft hdvd
    refine ⟨hsuf.trans (List.drop_suffix ..), ?_⟩
    have hsum : line.length - 2 = line.length - (MAXLINE - 1) - 2 + (MAXLINE - 1) := by
      change 2 ≤ _ at hleft
      omega
    rw [hsum]
    exact Nat.dvd_add hdvd (Nat.dvd_refl _)

/-! ## A line of the stream -/

theorem one_lt_MAXLINE : 1 < MAXLINE := by
  decide

/-- A call reads a piece of the first line. -/
theorem readlineb_line (buf : List UInt8) (hs : rp.bytes = line ++ s) (hline : IsLine 10 line) :
    ∃ rc rp', rp.rio_readlineb buf MAXLINE = (rc, line.take (MAXLINE - 1), rp') ∧
      rp'.bytes = line.drop (MAXLINE - 1) ++ s := by
  have hpiece := takeLine_line (k := MAXLINE - 1) (s := s) hline
  rcases readlineb_spec rp buf one_lt_MAXLINE with ⟨hnil, -⟩ | ⟨-, rc, rp', hread, hleft⟩
  · exact absurd (List.append_eq_nil_iff.mp (hs.symm.trans hnil)).1 hline.ne_nil
  · rw [hs, hpiece] at hread hleft
    exact ⟨rc, rp', hread, hleft⟩

/-- The loop takes the line, and ends with it if it stops. -/
theorem readhdrs_line (buf : List UInt8) (hline : IsLine 10 line) (hs : rp.bytes = line ++ s) :
    ∃ rp1 buf1, rp1.bytes = s ∧
      if Stops line then Returns rp buf rp1
      else cstr buf1 ≠ crlf ∧ ∀ rp', Returns rp buf rp' ↔ Returns rp1 buf1 rp' := by
  obtain ⟨n, hn⟩ : ∃ n, line.length ≤ n := ⟨_, Nat.le_refl _⟩
  induction n generalizing line rp buf with
  | zero => exact absurd (List.length_eq_zero_iff.mp (Nat.le_zero.mp hn)) hline.ne_nil
  | succ n ih =>
      obtain ⟨rc, rp1, hread, hleft⟩ := readlineb_line buf hs hline
      by_cases hlen : line.length ≤ MAXLINE - 1
      · rw [List.take_of_length_le hlen] at hread
        rw [List.drop_of_length_le hlen, List.nil_append] at hleft
        refine ⟨rp1, line, hleft, ?_⟩
        split
        · next hstop => exact returns_stop hread ((cstr_line hline).mpr ((stops_short hlen).mp hstop))
        · next hstop =>
            have hne : cstr line ≠ crlf := fun he =>
              hstop ((stops_short hlen).mpr ((cstr_line hline).mp he))
            exact ⟨hne, fun rp' => returns_next hread hne⟩
      · -- a piece without an end of line, and what is left is a shorter line
        obtain ⟨hno, hline'⟩ := hline.drop (Nat.lt_of_not_le hlen)
        have hshort : (line.drop (MAXLINE - 1)).length ≤ n := by
          rw [List.length_drop]
          have : 0 < MAXLINE - 1 := by decide
          omega
        obtain ⟨rp2, buf2, hs2, hreturns⟩ := ih (line.take (MAXLINE - 1)) hline' hleft hshort
        have hnext : ∀ rp', Returns rp buf rp' ↔ Returns rp1 (line.take (MAXLINE - 1)) rp' :=
          fun rp' => returns_next hread (cstr_ne_crlf hno)
        refine ⟨rp2, buf2, hs2, ?_⟩
        split
        · next hstop =>
            rw [if_pos ((stops_drop (Nat.lt_of_not_le hlen)).mp hstop)] at hreturns
            exact (hnext rp2).mpr hreturns
        · next hstop =>
            rw [if_neg fun h => hstop ((stops_drop (Nat.lt_of_not_le hlen)).mpr h)] at hreturns
            exact ⟨hreturns.1, fun rp' => (hnext rp').trans (hreturns.2 rp')⟩

/-- Without an end of line to come, no piece is `"\r\n"`. -/
theorem readhdrs_part (hno : 10 ∉ rp.bytes) (hbuf : rp.bytes = [] → cstr buf ≠ crlf) :
    ¬ Returns rp buf rp' := by
  rintro ⟨fuel, h⟩
  induction fuel generalizing rp buf with
  | zero => cases h
  | succ fuel ih =>
      rw [requestReadhdrs] at h
      rcases readlineb_spec rp buf one_lt_MAXLINE with ⟨hnil, hread⟩ | ⟨-, rc, rp1, hread, hleft⟩
      · rw [hread] at h
        exact ih hno hbuf ((if_neg (hbuf hnil)).symm.trans h)
      · have happ := takeLine_append 10 (MAXLINE - 1) rp.bytes
        have hpiece : 10 ∉ (takeLine 10 (MAXLINE - 1) rp.bytes).1 := fun hm =>
          hno (happ ▸ List.mem_append_left _ hm)
        have hrest : 10 ∉ rp1.bytes := fun hm =>
          hno (happ ▸ List.mem_append_right _ (hleft ▸ hm))
        rw [hread] at h
        exact ih hrest (fun _ => cstr_ne_crlf hpiece) ((if_neg (cstr_ne_crlf hpiece)).symm.trans h)

/-! ## The whole stream -/

theorem lines_nil_iff : lines 10 s = [] ↔ s = [] := by
  constructor
  · intro h
    rw [← lines_flatten 10 s, h]
    rfl
  · rintro rfl
    rfl

/-- A line without its end does not stop the loop. -/
theorem not_stops_part (h : 10 ∉ line) : ¬ Stops line := by
  rintro ⟨hsuf, -⟩
  exact h (hsuf.subset (List.mem_cons_of_mem 13 (List.mem_singleton_self 10)))

/-- Some line stops the loop: it ends behind the first that does. -/
theorem readhdrs_returns (buf : List UInt8) (h : skipLines (lines 10 rp.bytes) = some ls) :
    ∃ rp', Returns rp buf rp' ∧ rp'.bytes = ls.flatten := by
  generalize hlines : lines 10 rp.bytes = all at h
  induction all generalizing rp buf with
  | nil => cases h
  | cons line all ih =>
      rcases lines_cases 10 rp.bytes with hnil | ⟨hno, hne⟩ | ⟨l, s, hl, hs⟩
      · rw [hnil] at hlines
        cases hlines
      · rw [lines_part hno hne] at hlines
        obtain ⟨rfl, rfl⟩ := List.cons.inj hlines
        rw [skipLines, if_neg (not_stops_part hno)] at h
        cases h
      · rw [hs, lines_cons hl] at hlines
        obtain ⟨rfl, rfl⟩ := List.cons.inj hlines
        obtain ⟨rp1, buf1, hs1, hreturns⟩ := readhdrs_line buf hl hs
        rw [skipLines] at h
        split at h
        · next hstop =>
            cases h
            rw [if_pos hstop] at hreturns
            exact ⟨rp1, hreturns, by rw [hs1, lines_flatten]⟩
        · next hstop =>
            rw [if_neg hstop] at hreturns
            obtain ⟨rp', hret, hflat⟩ := ih buf1 (by rw [hs1]) h
            exact ⟨rp', (hreturns.2 rp').mpr hret, hflat⟩

/-- None does: it does not end. -/
theorem readhdrs_spins (h : skipLines (lines 10 rp.bytes) = none)
    (hbuf : rp.bytes = [] → cstr buf ≠ crlf) : ¬ Returns rp buf rp' := by
  generalize hlines : lines 10 rp.bytes = all at h
  induction all generalizing rp buf with
  | nil =>
      have hnil := lines_nil_iff.mp hlines
      exact readhdrs_part (by rw [hnil]; exact List.not_mem_nil) hbuf
  | cons line all ih =>
      rcases lines_cases 10 rp.bytes with hnil | ⟨hno, hne⟩ | ⟨l, s, hl, hs⟩
      · rw [hnil] at hlines
        cases hlines
      · exact readhdrs_part hno fun hnil => absurd hnil hne
      · rw [hs, lines_cons hl] at hlines
        obtain ⟨rfl, rfl⟩ := List.cons.inj hlines
        obtain ⟨rp1, buf1, hs1, hreturns⟩ := readhdrs_line buf hl hs
        rw [skipLines] at h
        split at h
        · cases h
        · next hstop =>
            rw [if_neg hstop] at hreturns
            exact fun hret => ih (fun _ => hreturns.1) (by rw [hs1]) h ((hreturns.2 rp').mp hret)

theorem skipLines_none : skipLines ls = none ↔ ∀ line ∈ ls, ¬ Stops line := by
  induction ls with
  | nil => exact ⟨fun _ line hm => absurd hm List.not_mem_nil, fun _ => rfl⟩
  | cons l ls ih =>
      rw [skipLines, List.forall_mem_cons]
      split
      · next hstop => exact ⟨fun h => (Option.some_ne_none _ h).elim, fun h => absurd hstop h.1⟩
      · next hstop => exact ih.trans ⟨fun h => ⟨hstop, h⟩, fun h => h.2⟩

/-- The loop ends if and only if a line of the stream stops it, or there is no
line at all and the buffer happens to hold an empty one. -/
theorem readhdrs_ends_iff (rp : Rio) (buf : List UInt8) :
    (∃ rp', Returns rp buf rp') ↔
      (∃ line ∈ lines 10 rp.bytes, Stops line) ∨ rp.bytes = [] ∧ cstr buf = crlf := by
  constructor
  · rintro ⟨rp', h⟩
    by_contra hno
    obtain ⟨hstop, hbuf⟩ := not_or.mp hno
    refine readhdrs_spins (skipLines_none.mpr fun line hm hline => ?_)
      (fun hnil he => hbuf ⟨hnil, he⟩) h
    exact hstop ⟨line, hm, hline⟩
  · rintro (⟨line, hm, hstop⟩ | ⟨hnil, hbuf⟩)
    · cases hskip : skipLines (lines 10 rp.bytes) with
      | none => exact absurd hstop (skipLines_none.mp hskip line hm)
      | some ls =>
          obtain ⟨rp', hret, -⟩ := readhdrs_returns buf hskip
          exact ⟨rp', hret⟩
    · rcases readlineb_spec rp buf one_lt_MAXLINE with ⟨-, hread⟩ | ⟨hne, -⟩
      · exact ⟨rp, returns_stop hread hbuf⟩
      · exact absurd hnil hne

/-- `"Host: a\r\n"`, and the client closes its side. -/
def truncated : Rio :=
  ⟨text "Host: a\r\n", []⟩

theorem truncated_spins : ¬ ∃ rp', Returns truncated [] rp' := by
  rintro ⟨rp', h⟩
  exact readhdrs_spins (by decide) (by decide) h

/-! ## The first empty line -/

variable {pre rest headers : List (List UInt8)} {line0 usrbuf : List UInt8}

theorem stops_crlf : Stops crlf := by
  decide

theorem skipLines_blank (h : ∀ line ∈ pre, ¬ Stops line) :
    skipLines (pre ++ crlf :: rest) = some rest := by
  induction pre with
  | nil => exact if_pos stops_crlf
  | cons l pre ih =>
      obtain ⟨hl, hpre⟩ := List.forall_mem_cons.mp h
      exact (if_neg hl).trans (ih hpre)

/-- A line before the empty one stops the loop. -/
theorem skipLines_early (rest : List (List UInt8)) (h : ∃ line ∈ pre, Stops line) :
    ∃ pre', skipLines (pre ++ crlf :: rest) = some (pre' ++ crlf :: rest) := by
  induction pre with
  | nil =>
      obtain ⟨line, hm, -⟩ := h
      exact absurd hm List.not_mem_nil
  | cons l pre ih =>
      rw [List.cons_append, skipLines]
      split
      · exact ⟨pre, rfl⟩
      · next hl =>
          obtain ⟨line, hm, hline⟩ := h
          rcases List.mem_cons.mp hm with rfl | hm
          · exact absurd hline hl
          · exact ih ⟨line, hm, hline⟩

/-- The loop ends behind the empty line if and only if no line before it stops it. -/
theorem readhdrs_blank_iff (hlines : lines 10 rp.bytes = pre ++ crlf :: rest) :
    (∃ rp', Returns rp buf rp' ∧ rp'.bytes = rest.flatten) ↔ ∀ line ∈ pre, ¬ Stops line := by
  constructor
  · rintro ⟨rp', hret, hflat⟩ line hm hstop
    obtain ⟨pre', hskip⟩ := skipLines_early rest ⟨line, hm, hstop⟩
    obtain ⟨rp'', hret', hflat'⟩ := readhdrs_returns buf (hlines ▸ hskip)
    obtain rfl := hret.unique hret'
    -- two bytes at least would be left before `rest`
    have hlen := congrArg List.length (hflat.symm.trans hflat')
    rw [List.flatten_append, List.flatten_cons, List.length_append, List.length_append] at hlen
    change _ = _ + (2 + _) at hlen
    omega
  · intro h
    exact readhdrs_returns buf (hlines ▸ skipLines_blank h)

/-- What is left of the request line behind its first piece counts as a header. -/
theorem after_request_line (usrbuf : List UInt8) (hlines : lines 10 rp.bytes = line0 :: ls)
    (hls : ls ≠ []) :
    ∃ pre, lines 10 (rp.rio_readlineb usrbuf MAXLINE).2.2.bytes = pre ++ ls ∧
      ((∀ line ∈ pre, ¬ Stops line) ↔ (line0 ≠ crlf → ¬ Stops line0)) := by
  obtain ⟨hline, s, hs, hrest⟩ := isLine_of_lines hlines hls
  obtain ⟨rc, rp1, hread, hleft⟩ := readlineb_line usrbuf hs hline
  rw [hread]
  show ∃ pre, lines 10 rp1.bytes = _ ∧ _
  by_cases hlen : line0.length ≤ MAXLINE - 1
  · rw [List.drop_of_length_le hlen, List.nil_append] at hleft
    refine ⟨[], by rw [hleft, hrest]; rfl, fun _ hne hstop => hne ((stops_short hlen).mp hstop),
      fun _ line hm => absurd hm List.not_mem_nil⟩
  · have hlong := Nat.lt_of_not_le hlen
    refine ⟨[line0.drop (MAXLINE - 1)], by rw [hleft, lines_cons (hline.drop hlong).2, hrest]; rfl, ?_⟩
    rw [List.forall_mem_singleton, ← stops_drop hlong]
    refine ⟨fun h _ => h, fun h => h ?_⟩
    rintro rfl
    exact hlen (by decide)

/-- After a request line `line0`, the headers are skipped up to the first empty
line and no further if and only if none of the lines on the way, the request line
included, stops the loop. -/
theorem readhdrs_blank (rp : Rio) (usrbuf buf line0 : List UInt8) (headers rest : List (List UInt8))
    (hlines : lines 10 rp.bytes = line0 :: (headers ++ crlf :: rest)) (hfirst : crlf ∉ headers) :
    (∃ rp', Returns (rp.rio_readlineb usrbuf MAXLINE).2.2 buf rp' ∧ rp'.bytes = rest.flatten) ↔
      ∀ line ∈ line0 :: headers, line ≠ crlf → ¬ Stops line := by
  obtain ⟨pre, hpre, hiff⟩ := after_request_line usrbuf hlines
    (List.append_ne_nil_of_right_ne_nil headers (List.cons_ne_nil crlf rest))
  rw [← List.append_assoc] at hpre
  rw [readhdrs_blank_iff hpre, List.forall_mem_append, List.forall_mem_cons, hiff]
  refine and_congr_right fun _ => forall₂_congr fun line hm => ?_
  have hne : line ≠ crlf := fun he => hfirst (he ▸ hm)
  exact ⟨fun h _ => h, fun h => h hne⟩

theorem readhdrs_blank_host :
    ∃ rp', Returns ((⟨text "GET / HTTP/1.0\r\nHost: a\r\n\r\nbody", []⟩ : Rio).rio_readlineb
      [] MAXLINE).2.2 [] rp' ∧ rp'.bytes = [text "body"].flatten :=
  (readhdrs_blank ⟨text "GET / HTTP/1.0\r\nHost: a\r\n\r\nbody", []⟩ [] []
    (text "GET / HTTP/1.0\r\n") [text "Host: a\r\n"] [text "body"] (by decide) (by decide)).mpr
    (by decide)

def getLine : List UInt8 := text "GET / HTTP/1.0\r\n"

/-- A header whose first piece ends just before its `"\r\n"`. -/
def longHeader : List UInt8 := List.replicate (MAXLINE - 1) 97 ++ crlf

theorem isLine_longHeader : IsLine 10 longHeader := by
  refine ⟨List.replicate (MAXLINE - 1) 97 ++ [13], fun hm => ?_, by rw [List.append_assoc]; rfl⟩
  rcases List.mem_append.mp hm with hm | hm
  · exact absurd (List.eq_of_mem_replicate hm) (by decide)
  · exact absurd hm (by decide)

theorem stops_longHeader : Stops longHeader := by
  refine ⟨List.suffix_append .., ?_⟩
  rw [longHeader, List.length_append, List.length_replicate]
  exact Nat.dvd_refl _

/-- `getLine`, `longHeader`, and an empty line at last. -/
def longRequest : Rio :=
  ⟨getLine, [⟨List.replicate (MAXLINE - 1) 97, by rw [List.length_replicate]; decide⟩,
    ⟨crlf ++ crlf, by decide⟩]⟩

theorem lines_longRequest : lines 10 longRequest.bytes = [getLine, longHeader, crlf] := by
  have hget : IsLine 10 getLine := ⟨text "GET / HTTP/1.0\r", by decide, by decide⟩
  have hbytes : longRequest.bytes = getLine ++ (longHeader ++ (crlf ++ [])) := by
    rw [longHeader, List.append_assoc]
    rfl
  rw [hbytes, lines_cons hget, lines_cons isLine_longHeader, lines_cons isLine_crlf]
  rfl

/-- The empty line of this request is not reached. -/
theorem longRequest_early : lines 10 longRequest.bytes = getLine :: ([longHeader] ++ crlf :: []) ∧
    crlf ∉ [longHeader] ∧
    ¬ ∃ rp', Returns (longRequest.rio_readlineb [] MAXLINE).2.2 [] rp' ∧ rp'.bytes = [] := by
  refine ⟨lines_longRequest, fun hm => ?_, ?_⟩
  · have hlen := congrArg List.length (List.mem_singleton.mp hm)
    rw [longHeader, List.length_append, List.length_replicate] at hlen
    exact absurd hlen (by decide)
  · obtain ⟨pre, hpre, -⟩ := after_request_line [] lines_longRequest (by simp)
    have hlines : lines 10 (longRequest.rio_readlineb [] MAXLINE).2.2.bytes =
        (pre ++ [longHeader]) ++ crlf :: [] := by
      rw [hpre, List.append_assoc]
      rfl
    exact fun h => (readhdrs_blank_iff hlines).mp h longHeader
      (List.mem_append_right pre (List.mem_singleton_self _)) stops_longHeader

end Cs537.Request
