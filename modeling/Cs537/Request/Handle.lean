/-
# `Cs537.Request.Handle` — handling a request (p4/linux)

`requestHandle` and what it calls, from the request line to the response.  The
arrays are on the stack of the worker and hold what was there before, so what
they hold at the start is an argument (`Locals`); of each, the C string at its
start.  `sscanf` fills as many of `method`, `uri` and `version` as the line has
words, and its result is not looked at.

Besides the response, the strings that are built in the arrays are recorded
(`built`), and the names that are looked up, opened or executed (`names`).
`stat` is a parameter; writing to the connection, `open`, `mmap`, `fork` and
`execve` do not fail here.
-/
import Cs537.Request.Headers

namespace Cs537.Request

open Cs537.Lib

/-! ## What is recorded -/

inductive Buffer where
  | buf
  | method
  | uri
  | version
  | filename
  | cgiargs
  | body
  deriving DecidableEq

def Buffer.size : Buffer → Nat
  | .body => MAXBUF
  | _ => MAXLINE

inductive Call where
  | stat
  | openFile
  | execve
  deriving DecidableEq

/-- What the client gets: the bytes of an error message, or a header and then the
contents of a file or what a program writes. -/
inductive Response where
  | error (bytes : List UInt8)
  | file (header filename : List UInt8) (filesize : Int)
  | program (header filename cgiargs : List UInt8)
  deriving DecidableEq

structure Handled where
  response : Response
  built : List (Buffer × List UInt8)
  names : List (Call × List UInt8)

/-- The fields of `struct stat` that are looked at. -/
structure Sbuf where
  isreg : Bool
  irusr : Bool
  ixusr : Bool
  st_size : Nat

/-- What the arrays hold when `requestHandle` starts, and the byte before `uri`. -/
structure Locals where
  buf : List UInt8
  method : List UInt8
  front : UInt8
  uri : List UInt8

def noLocals : Locals := ⟨[], [], 0, []⟩

/-! ## Strings -/

def isspace (c : UInt8) : Bool := c == 32 || (9 ≤ c && c ≤ 13)

def tolower (c : UInt8) : UInt8 := if 65 ≤ c ∧ c ≤ 90 then c + 32 else c

/-- `%lu` -/
def decimal (n : Nat) : List UInt8 := (Nat.toDigits 10 n).map fun c => c.toNat.toUInt8

/-- `%d` -/
def signed (i : Int) : List UInt8 :=
  if i < 0 then 45 :: decimal i.natAbs else decimal i.natAbs

/-- `strcasecmp(method, "GET")` is 0. -/
def IsGet (method : List UInt8) : Prop := method.map tolower = text "get"

instance decidableIsGet (method : List UInt8) : Decidable (IsGet method) :=
  inferInstanceAs (Decidable (_ = _))

/-! ## The functions -/

def requestError (cause errnum shortmsg longmsg : List UInt8) : Response × List (Buffer × List UInt8) :=
  let body1 := text "<html><title>CS537 Error</title>"
  let body2 := body1 ++ text "<body bgcolor=fffff>\r\n"
  let body3 := body2 ++ errnum ++ text ": " ++ shortmsg ++ crlf
  let body4 := body3 ++ text "<p>" ++ longmsg ++ text ": " ++ cause ++ crlf
  let body5 := body4 ++ text "<hr>CS537 Web Server\r\n"
  let buf1 := text "HTTP/1.0 " ++ errnum ++ text " " ++ shortmsg ++ crlf
  let buf2 := text "Content-Type: text/html\r\n"
  let buf3 := text "Content-Length: " ++ decimal body5.length ++ crlf ++ crlf
  (.error (buf1 ++ buf2 ++ buf3 ++ body5),
    [(.body, body1), (.body, body2), (.body, body3), (.body, body4), (.body, body5),
      (.buf, buf1), (.buf, buf2), (.buf, buf3)])

/-- What `requestParseURI` leaves. -/
structure Parsed where
  is_static : Bool
  filename : List UInt8
  cgiargs : List UInt8
  built : List (Buffer × List UInt8)

/-- `'/'` -/
def slash : UInt8 := 47

/-- `uri[strlen(uri)-1]`; it is the byte before `uri` if that is empty. -/
def lastByte (front : UInt8) (uri : List UInt8) : UInt8 := uri.getLast?.getD front

/-- The URI up to the first `?`. -/
def uriPath (uri : List UInt8) : List UInt8 := uri.takeWhile fun c => c != 63

/-- What follows it. -/
def uriArgs (uri : List UInt8) : List UInt8 := (uri.dropWhile fun c => c != 63).tail

def requestParseURI (front : UInt8) (uri : List UInt8) : Parsed :=
  let filename := text "." ++ uri
  if text "cgi" <:+: uri then
    let cgiargs := uriArgs uri
    let filename := text "." ++ uriPath uri
    ⟨false, filename, cgiargs, [(.cgiargs, cgiargs), (.filename, filename)]⟩
  else if lastByte front uri = slash then
    let home := filename ++ text "home.html"
    ⟨true, home, [], [(.cgiargs, []), (.filename, filename), (.filename, home)]⟩
  else ⟨true, filename, [], [(.cgiargs, []), (.filename, filename)]⟩

def requestGetFiletype (filename : List UInt8) : List UInt8 :=
  if text ".html" <:+: filename then text "text/html"
  else if text ".gif" <:+: filename then text "image/gif"
  else if text ".jpg" <:+: filename then text "image/jpeg"
  else text "text/plain"

/-- `filesize` is an `int`. -/
def requestServeStatic (filename : List UInt8) (st_size : Nat) : Response :=
  let filesize := (BitVec.ofNat 32 st_size).toInt
  .file (text "HTTP/1.0 200 OK\r\n" ++ text "Server: CS537 Web Server\r\n" ++
    text "Content-Length: " ++ signed filesize ++ crlf ++
    text "Content-Type: " ++ requestGetFiletype filename ++ crlf ++ crlf) filename filesize

def requestServeDynamic (filename cgiargs : List UInt8) : Response :=
  .program (text "HTTP/1.0 200 OK\r\n" ++ text "Server: CS537 Web Server\r\n") filename cgiargs

/-- `requestError` for the file `filename`, which has been looked up. -/
def refuse (filename errnum shortmsg longmsg : List UInt8) : Handled :=
  let e := requestError filename errnum shortmsg longmsg
  ⟨e.1, e.2, [(.stat, filename)]⟩

/-- `requestHandle` once the URI has been parsed. -/
def respond (stat : List UInt8 → Option Sbuf) (is_static : Bool) (filename cgiargs : List UInt8) :
    Handled :=
  match stat filename with
  | none =>
      refuse filename (text "404") (text "Not found") (text "CS537 Server could not find this file")
  | some sbuf =>
      if is_static then
        if !sbuf.isreg || !sbuf.irusr then
          refuse filename (text "403") (text "Forbidden")
            (text "CS537 Server could not read this file")
        else ⟨requestServeStatic filename sbuf.st_size, [], [(.stat, filename), (.openFile, filename)]⟩
      else if !sbuf.isreg || !sbuf.ixusr then
        refuse filename (text "403") (text "Forbidden")
          (text "CS537 Server could not run this CGI program")
      else ⟨requestServeDynamic filename cgiargs, [], [(.stat, filename), (.execve, filename)]⟩

/-- `sscanf(buf, "%s %s %s", method, uri, version)`: the words it stores. -/
def words (buf : List UInt8) : List (List UInt8) := (wordsOf isspace (cstr buf)).take 3

def methodOf (loc : Locals) (buf : List UInt8) : List UInt8 := (words buf)[0]?.getD (cstr loc.method)

def uriOf (loc : Locals) (buf : List UInt8) : List UInt8 := (words buf)[1]?.getD (cstr loc.uri)

/-- The rest of `requestHandle` for a GET, after the headers. -/
def lookUp (stat : List UInt8 → Option Sbuf) (front : UInt8) (uri : List UInt8) : Handled :=
  let p := requestParseURI front uri
  let h := respond stat p.is_static p.filename p.cgiargs
  ⟨h.response, p.built ++ h.built, h.names⟩

/-- For another method. -/
def notImplemented (method : List UInt8) : Handled :=
  let e := requestError method (text "501") (text "Not Implemented")
    (text "CS537 Server does not implement this method")
  ⟨e.1, e.2, []⟩

def Handled.after (h : Handled) (built : List (Buffer × List UInt8)) : Handled :=
  ⟨h.response, built ++ h.built, h.names⟩

/-- `hdr` is the buffer of `requestReadhdrs` before it reads.  `none` if `fuel`
reads of headers were not enough. -/
def requestHandle (fuel : Nat) (stat : List UInt8 → Option Sbuf) (loc : Locals) (hdr : List UInt8)
    (rp : Rio) : Option Handled :=
  match rp.rio_readlineb loc.buf MAXLINE with
  | (rc, buf, rp) =>
      let built := (if rc = 0 then [] else [(Buffer.buf, buf)]) ++
        [Buffer.method, .uri, .version].zip (words buf)
      if IsGet (methodOf loc buf) then
        (requestReadhdrs fuel rp hdr).map fun _ =>
          (lookUp stat loc.front (uriOf loc buf)).after built
      else some ((notImplemented (methodOf loc buf)).after built)

/-! ## What a request comes to -/

variable {fuel : Nat} {stat : List UInt8 → Option Sbuf} {loc : Locals} {hdr : List UInt8}
  {rp rp' : Rio} {h : Handled} {filename cgiargs : List UInt8} {is_static : Bool}

/-- The line `requestHandle` looks at. -/
def requestLine (loc : Locals) (rp : Rio) : List UInt8 := (rp.rio_readlineb loc.buf MAXLINE).2.1

/-- The connection behind it. -/
def afterLine (loc : Locals) (rp : Rio) : Rio := (rp.rio_readlineb loc.buf MAXLINE).2.2

/-- What has been built when the line has been scanned. -/
def scanned (loc : Locals) (rp : Rio) : List (Buffer × List UInt8) :=
  (if (rp.rio_readlineb loc.buf MAXLINE).1 = 0 then [] else [(Buffer.buf, requestLine loc rp)]) ++
    [Buffer.method, .uri, .version].zip (words (requestLine loc rp))

def requestMethod (loc : Locals) (rp : Rio) : List UInt8 := methodOf loc (requestLine loc rp)

def requestUri (loc : Locals) (rp : Rio) : List UInt8 := uriOf loc (requestLine loc rp)

/-- The headers of the request end. -/
def HeadersEnd (loc : Locals) (hdr : List UInt8) (rp : Rio) : Prop :=
  ∃ rp', Returns (afterLine loc rp) hdr rp'

/-- The first line, or as much of it as fits. -/
def firstLine (rp : Rio) : List UInt8 := (takeLine 10 (MAXLINE - 1) rp.bytes).1

theorem requestLine_eq (hline : rp.bytes ≠ []) : requestLine loc rp = firstLine rp := by
  rcases readlineb_spec rp loc.buf one_lt_MAXLINE with ⟨hnil, -⟩ | ⟨-, rc, rp', hread, -⟩
  · exact absurd hnil hline
  · rw [requestLine, hread]
    rfl

/-- Nothing arrives: the line is the one left in `buf`. -/
theorem requestLine_nil (hline : rp.bytes = []) : requestLine loc rp = loc.buf := by
  rcases readlineb_spec rp loc.buf one_lt_MAXLINE with ⟨-, hread⟩ | ⟨hne, -⟩
  · rw [requestLine, hread]
  · exact absurd hline hne

/-- For a GET, the file is looked up once the headers have ended. -/
theorem requestHandle_get (hget : IsGet (requestMethod loc rp)) :
    requestHandle fuel stat loc hdr rp = some h ↔
      (∃ rp', requestReadhdrs fuel (afterLine loc rp) hdr = some rp') ∧
        h = (lookUp stat loc.front (requestUri loc rp)).after (scanned loc rp) := by
  have heq : requestHandle fuel stat loc hdr rp =
      (requestReadhdrs fuel (afterLine loc rp) hdr).map fun _ =>
        (lookUp stat loc.front (requestUri loc rp)).after (scanned loc rp) := if_pos hget
  rw [heq, Option.map_eq_some_iff]
  constructor
  · rintro ⟨rp', hret, rfl⟩
    exact ⟨⟨rp', hret⟩, rfl⟩
  · rintro ⟨⟨rp', hret⟩, rfl⟩
    exact ⟨rp', hret, rfl⟩

/-- Another method is refused at once. -/
theorem requestHandle_other (hget : ¬ IsGet (requestMethod loc rp)) :
    requestHandle fuel stat loc hdr rp =
      some ((notImplemented (requestMethod loc rp)).after (scanned loc rp)) :=
  if_neg hget

/-- One file, whatever is done with it. -/
theorem respond_names (stat : List UInt8 → Option Sbuf) (is_static : Bool)
    (filename cgiargs : List UInt8) :
    ∃ calls, (respond stat is_static filename cgiargs).names = (.stat, filename) :: calls ∧
      ∀ c ∈ calls, c.2 = filename := by
  have hnone : ∀ c ∈ ([] : List (Call × List UInt8)), c.2 = filename := by simp
  have hone : ∀ call : Call, ∀ c ∈ [(call, filename)], c.2 = filename := by simp
  rw [respond]
  split
  · exact ⟨[], rfl, hnone⟩
  · split
    · split
      · exact ⟨[], rfl, hnone⟩
      · exact ⟨_, rfl, hone .openFile⟩
    · split
      · exact ⟨[], rfl, hnone⟩
      · exact ⟨_, rfl, hone .execve⟩

end Cs537.Request
