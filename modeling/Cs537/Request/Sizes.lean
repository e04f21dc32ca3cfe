/-
# `Cs537.Request.Sizes` — the arrays a request is put together in (p4/linux)

All arrays have the same size, and a line that has been read fits.  But what is made
of it is longer: `requestError` puts the method or the file name into a message,
and `requestParseURI` puts `home.html` behind a URI.  Nothing checks the lengths.

    Fits w                         a string, with its NUL, is in its array
    errorRoom e s l                what `requestError` adds to its cause
    Roomy stat loc line            the line is short enough for what is made of it

`buffers_iff`: everything that a request line makes the server build fits, if and
only if the line is roomy.
-/
import Mathlib.Data.Nat.Digits.Defs
import Cs537.Request.Handle

namespace Cs537.Request

open Cs537.Lib

variable {stat : List UInt8 → Option Sbuf} {loc : Locals} {hdr : List UInt8} {rp : Rio}
  {cause errnum shortmsg longmsg filename cgiargs uri : List UInt8} {front : UInt8}
  {is_static : Bool}

def Fits (w : Buffer × List UInt8) : Prop := w.2.length < w.1.size

theorem fits_iff (w : Buffer × List UInt8) : Fits w ↔ w.2.length < MAXLINE := by
  obtain ⟨b, s⟩ := w
  cases b <;> exact Iff.rfl

/-! ## Error messages -/

/-- The length of the message for an empty cause. -/
def errorRoom (errnum shortmsg longmsg : List UInt8) : Nat :=
  87 + errnum.length + shortmsg.length + longmsg.length

theorem decimal_length {n : Nat} (h : n < 10 ^ 4) : (decimal n).length ≤ 4 := by
  rw [decimal, List.length_map]
  exact Nat.toDigits_length 10 n 4 (by decide) h

theorem requestError_fits_iff (hhead : errnum.length + shortmsg.length < 1000) :
    (∀ w ∈ (requestError cause errnum shortmsg longmsg).2, Fits w) ↔
      cause.length + errorRoom errnum shortmsg longmsg < MAXBUF := by
  have h1 : (text "<html><title>CS537 Error</title>").length = 32 := by decide
  have h2 : (text "<body bgcolor=fffff>\r\n").length = 22 := by decide
  have h3 : (text ": ").length = 2 := by decide
  have h4 : (text "<p>").length = 3 := by decide
  have h5 : (text "<hr>CS537 Web Server\r\n").length = 22 := by decide
  have h6 : (text "HTTP/1.0 ").length = 9 := by decide
  have h7 : (text " ").length = 1 := by decide
  have h8 : (text "Content-Type: text/html\r\n").length = 25 := by decide
  have h9 : (text "Content-Length: ").length = 16 := by decide
  have hcrlf : crlf.length = 2 := by decide
  unfold requestError errorRoom
  simp only [List.forall_mem_cons, fits_iff, List.length_append, h1, h2, h3, h4, h5, h6, h7, h8, h9,
    hcrlf]
  unfold MAXLINE MAXBUF
  constructor
  · rintro ⟨-, -, -, -, hbody, -⟩
    omega
  · intro h
    refine ⟨by omega, by omega, by omega, by omega, by omega, by omega, by omega, ?_, by simp⟩
    have hdec := decimal_length (n := 32 + 22 + errnum.length + 2 + shortmsg.length + 2 + 3 +
      longmsg.length + 2 + cause.length + 2 + 22) (by omega)
    omega

/-! ## The file -/

/-- The length of the file name of a URI. -/
def fileLength (front : UInt8) (uri : List UInt8) : Nat :=
  if text "cgi" <:+: uri then 1 + (uriPath uri).length
  else if lastByte front uri = slash then 1 + uri.length + 9
  else 1 + uri.length

/-- The length of its arguments. -/
def argsLength (uri : List UInt8) : Nat :=
  if text "cgi" <:+: uri then (uriArgs uri).length else 0

theorem parsed_length (front : UInt8) (uri : List UInt8) :
    (requestParseURI front uri).filename.length = fileLength front uri := by
  have hdot : (text ".").length = 1 := by decide
  have hhome : (text "home.html").length = 9 := by decide
  unfold requestParseURI fileLength
  dsimp only
  split
  · rw [List.length_append, hdot]
  · split
    · rw [List.length_append, List.length_append, hdot, hhome]
    · rw [List.length_append, hdot]

theorem parsed_fits_iff (front : UInt8) (uri : List UInt8) :
    (∀ w ∈ (requestParseURI front uri).built, Fits w) ↔
      fileLength front uri < MAXLINE ∧ argsLength uri < MAXLINE := by
  have hdot : (text ".").length = 1 := by decide
  have hhome : (text "home.html").length = 9 := by decide
  have hpos : 0 < MAXLINE := by decide
  unfold requestParseURI fileLength argsLength
  dsimp only
  split
  · rw [List.forall_mem_cons, List.forall_mem_singleton, fits_iff, fits_iff, List.length_append, hdot]
    exact and_comm
  · split
    · rw [List.forall_mem_cons, List.forall_mem_cons, List.forall_mem_singleton]
      simp only [fits_iff, List.length_append, hdot, hhome]
      exact ⟨fun h => ⟨h.2.2, hpos⟩, fun h => ⟨hpos, by omega, h.1⟩⟩
    · rw [List.forall_mem_cons, List.forall_mem_singleton, fits_iff, fits_iff, List.length_append, hdot]
      exact and_comm

/-- What the response adds to the file name: a message, or nothing. -/
def messageRoom (stat : List UInt8 → Option Sbuf) (is_static : Bool) (filename : List UInt8) : Nat :=
  match stat filename with
  | none =>
      errorRoom (text "404") (text "Not found") (text "CS537 Server could not find this file")
  | some sbuf =>
      if is_static then
        if !sbuf.isreg || !sbuf.irusr then
          errorRoom (text "403") (text "Forbidden") (text "CS537 Server could not read this file")
        else 0
      else if !sbuf.isreg || !sbuf.ixusr then
        errorRoom (text "403") (text "Forbidden") (text "CS537 Server could not run this CGI program")
      else 0

theorem respond_fits_iff (hfile : filename.length < MAXLINE) :
    (∀ w ∈ (respond stat is_static filename cgiargs).built, Fits w) ↔
      filename.length + messageRoom stat is_static filename < MAXLINE := by
  have hserved : (∀ w ∈ ([] : List (Buffer × List UInt8)), Fits w) ↔
      filename.length + 0 < MAXLINE := iff_of_true (fun w hw => absurd hw List.not_mem_nil) hfile
  have hmissing : (text "404").length + (text "Not found").length < 1000 := by decide
  have hforbidden : (text "403").length + (text "Forbidden").length < 1000 := by decide
  rw [respond, messageRoom]
  cases stat filename with
  | none =>
      exact requestError_fits_iff hmissing
  | some sbuf =>
      dsimp only
      cases is_static with
      | true =>
          rw [if_pos rfl, if_pos rfl]
          split
          · exact requestError_fits_iff hforbidden
          · exact hserved
      | false =>
          rw [if_neg Bool.false_ne_true, if_neg Bool.false_ne_true]
          split
          · exact requestError_fits_iff hforbidden
          · exact hserved

/-! ## The request -/

/-- What is read and scanned fits. -/
theorem scanned_fits (hline : rp.bytes ≠ []) : ∀ w ∈ scanned loc rp, Fits w := by
  have hlen : (requestLine loc rp).length < MAXLINE := by
    rw [requestLine_eq hline]
    exact Nat.lt_of_le_pred (by decide) (takeLine_length ..)
  have hstr : (cstr (requestLine loc rp)).length ≤ (requestLine loc rp).length :=
    (List.takeWhile_prefix _).length_le
  intro w hw
  rw [fits_iff]
  rcases List.mem_append.mp hw with hw | hw
  · split at hw
    · exact absurd hw List.not_mem_nil
    · rw [List.mem_singleton.mp hw]
      exact hlen
  · have hword := (mem_tokens (List.mem_of_mem_take (List.of_mem_zip hw).2)).2
    omega

/-- What is made of the line is not too long. -/
def Roomy (stat : List UInt8 → Option Sbuf) (loc : Locals) (hdr : List UInt8) (rp : Rio) : Prop :=
  if IsGet (requestMethod loc rp) then
    HeadersEnd loc hdr rp →
      let p := requestParseURI loc.front (requestUri loc rp)
      argsLength (requestUri loc rp) < MAXLINE ∧
        fileLength loc.front (requestUri loc rp) + messageRoom stat p.is_static p.filename < MAXLINE
  else
    (requestMethod loc rp).length + errorRoom (text "501") (text "Not Implemented")
      (text "CS537 Server does not implement this method") < MAXBUF

theorem lookUp_fits_iff (stat : List UInt8 → Option Sbuf) (front : UInt8) (uri : List UInt8) :
    (∀ w ∈ (lookUp stat front uri).built, Fits w) ↔
      let p := requestParseURI front uri
      argsLength uri < MAXLINE ∧
        fileLength front uri + messageRoom stat p.is_static p.filename < MAXLINE := by
  show (∀ w ∈ _ ++ _, Fits w) ↔ _
  rw [List.forall_mem_append, parsed_fits_iff]
  constructor
  · rintro ⟨⟨hfile, hargs⟩, hmsg⟩
    rw [← parsed_length] at hfile
    rw [respond_fits_iff hfile, parsed_length] at hmsg
    exact ⟨hargs, hmsg⟩
  · rintro ⟨hargs, hmsg⟩
    have hfile : fileLength front uri < MAXLINE := by omega
    refine ⟨⟨hfile, hargs⟩, ?_⟩
    rw [← parsed_length] at hfile hmsg
    exact (respond_fits_iff hfile).mpr hmsg

/-- After a request line has been read, every string that is built fits into its array
if and only if the line is roomy. -/
theorem buffers_iff (stat : List UInt8 → Option Sbuf) (loc : Locals) (hdr : List UInt8) (rp : Rio)
    (hline : rp.bytes ≠ []) :
    (∀ fuel h, requestHandle fuel stat loc hdr rp = some h → ∀ w ∈ h.built, Fits w) ↔
      Roomy stat loc hdr rp := by
  have hafter : ∀ h : Handled, (∀ w ∈ (h.after (scanned loc rp)).built, Fits w) ↔
      ∀ w ∈ h.built, Fits w := fun h => by
    show (∀ w ∈ _ ++ _, Fits w) ↔ _
    rw [List.forall_mem_append]
    exact and_iff_right (scanned_fits hline)
  rw [Roomy]
  by_cases hget : IsGet (requestMethod loc rp)
  · rw [if_pos hget, ← lookUp_fits_iff, ← hafter]
    constructor
    · rintro h ⟨rp', fuel, hret⟩
      exact h fuel _ ((requestHandle_get hget).mpr ⟨⟨rp', hret⟩, rfl⟩)
    · intro h fuel handled hsome
      obtain ⟨⟨rp', hret⟩, rfl⟩ := (requestHandle_get hget).mp hsome
      exact h ⟨rp', fuel, hret⟩
  · rw [if_neg hget, ← requestError_fits_iff (by decide)]
    constructor
    · intro h
      exact (hafter _).mp (h 0 _ (requestHandle_other hget))
    · intro h fuel handled hsome
      rw [requestHandle_other hget] at hsome
      cases hsome
      exact (hafter (notImplemented (requestMethod loc rp))).mpr h

theorem buffers_iff_docs : Fits (.filename, text "./docs/home.html") :=
  (buffers_iff (fun _ => none) noLocals [] ⟨text "GET /docs/ HTTP/1.0\r\n\r\n", []⟩
    (by decide)).mpr (by rw [Roomy, if_pos (by decide)]; exact fun _ => by decide) 1 _ rfl
    (.filename, text "./docs/home.html") (by decide)

/-- A request line that is one word. -/
theorem requestMethod_single (loc : Locals) {word : List UInt8} (hbytes : rp.bytes = word) (hne : word ≠ [])
    (hlen : word.length ≤ MAXLINE - 1) (hspace : ∀ c ∈ word, isspace c = false) (hnul : 0 ∉ word) :
    requestMethod loc rp = word := by
  have hnl : 10 ∉ word := fun hm => absurd (hspace 10 hm) (by decide)
  have hpiece : takeLine 10 (MAXLINE - 1) rp.bytes = (word, []) := by
    rw [hbytes]
    exact takeLine_part hnl hlen
  have hlead : ∀ c ∈ ([] : List UInt8), isspace c = true := by simp
  have hwords : words word = [word] := by
    have hsingle := wordsOf_single hlead hne hspace
    rw [List.nil_append] at hsingle
    rw [words, cstr_of_notMem hnul, hsingle]
    rfl
  have hline : rp.bytes ≠ [] := fun hnil => hne (hbytes.symm.trans hnil)
  rw [requestMethod, requestLine_eq hline, firstLine, hpiece, methodOf, hwords]
  rfl

/-- A method so long that the message about it does not fit into `body`. -/
theorem overruns {word : List UInt8} (hbytes : rp.bytes = word) (hlong : MAXBUF < word.length + 100)
    (hlen : word.length ≤ MAXLINE - 1) (hspace : ∀ c ∈ word, isspace c = false) (hnul : 0 ∉ word) :
    ∃ h, requestHandle 0 stat loc hdr rp = some h ∧ ∃ w ∈ h.built, ¬ Fits w := by
  have hne : word ≠ [] := by
    rintro rfl
    exact absurd hlong (by decide)
  have hmethod := requestMethod_single loc hbytes hne hlen hspace hnul
  have hget : ¬ IsGet (requestMethod loc rp) := by
    rw [hmethod]
    intro h
    have hthree := congrArg List.length h
    rw [List.length_map] at hthree
    rw [hthree] at hlong
    exact absurd hlong (by decide)
  refine ⟨_, requestHandle_other hget, ?_⟩
  by_contra hno
  have hfit : ∀ w ∈ (notImplemented (requestMethod loc rp)).built, Fits w :=
    fun w hw => by_contra fun hw' => hno ⟨w, List.mem_append_right _ hw, hw'⟩
  have hroom := (requestError_fits_iff (by decide)).mp hfit
  have herror : errorRoom (text "501") (text "Not Implemented")
      (text "CS537 Server does not implement this method") = 148 := by decide
  rw [hmethod, herror] at hroom
  omega

/-- A connection on which one word arrives. -/
def single (word : List UInt8) (h : 0 < word.length ∧ word.length ≤ RIO_BUFSIZE) : Rio :=
  ⟨[], [⟨word, h⟩]⟩

theorem bytes_single {word : List UInt8} (h : 0 < word.length ∧ word.length ≤ RIO_BUFSIZE) :
    (single word h).bytes = word :=
  List.append_nil word

/-- 8191 bytes of method. -/
def longMethod : Rio :=
  single (List.replicate (MAXLINE - 1) 65) (by rw [List.length_replicate]; decide)

theorem longMethod_overruns : longMethod.bytes ≠ [] ∧
    ∃ h, requestHandle 0 (fun _ => none) noLocals [] longMethod = some h ∧
      ∃ w ∈ h.built, ¬ Fits w := by
  have hlen : (List.replicate (MAXLINE - 1) (65 : UInt8)).length = MAXLINE - 1 :=
    List.length_replicate
  refine ⟨?_, overruns (bytes_single _) ?_ (Nat.le_of_eq hlen) ?_ ?_⟩
  · rw [longMethod, bytes_single]
    refine List.ne_nil_of_length_pos ?_
    rw [hlen]
    decide
  · rw [hlen]
    decide
  · intro c hc
    rw [List.eq_of_mem_replicate hc]
    decide
  · intro hm
    exact absurd (List.eq_of_mem_replicate hm) (by decide)

end Cs537.Request
