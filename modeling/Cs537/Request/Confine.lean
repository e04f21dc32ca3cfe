/-
# `Cs537.Request.Confine` — the files a request can name (p4/linux)

The server puts a `.` before the URI, so the name it looks up is never one from the
root.  That is all it does: it does not look for `..`, so a URI can climb out of
the directory of the server, and one without a `/` at its start can make the `.`
into `..`.

    Confined cwd name      the name leads to `cwd` or below
    Inside cwd front uri   the URI does not climb out of `cwd`, or climbs back into it

`confined_iff`: the names a GET looks up, opens or executes are confined if and
only if its URI is inside, or its headers never end.
-/
import Cs537.Lib.Path
import Cs537.Request.Handle

namespace Cs537.Request

open Cs537.Lib

variable {cwd : List (List UInt8)} {front : UInt8} {uri name : List UInt8}

/-- `'.'` -/
def period : UInt8 := 46

def Confined (cwd : List (List UInt8)) (name : List UInt8) : Prop :=
  cwd <+: resolve slash period cwd name

/-- The part of the URI that is a path. -/
def pathPart (uri : List UInt8) : List UInt8 :=
  if text "cgi" <:+: uri then uriPath uri else uri

/-- The name the server adds to it. -/
def added (front : UInt8) (uri : List UInt8) : List (List UInt8) :=
  if text "cgi" <:+: uri then []
  else if lastByte front uri = slash then [text "home.html"] else []

/-- Of the directories above `cwd`, the URI enters again those it has left. -/
def Inside (cwd : List (List UInt8)) (front : UInt8) (uri : List UInt8) : Prop :=
  let place := climb (moves slash period (period :: pathPart uri))
  cwd.drop (cwd.length - place.ups) <+: place.names ++ added front uri

instance decidableConfined (cwd : List (List UInt8)) (name : List UInt8) :
    Decidable (Confined cwd name) :=
  inferInstanceAs (Decidable (_ <+: _))

instance decidableInside (cwd : List (List UInt8)) (front : UInt8) (uri : List UInt8) :
    Decidable (Inside cwd front uri) :=
  inferInstanceAs (Decidable (_ <+: _))

theorem confined_relative (hfirst : name.head? ≠ some slash) :
    Confined cwd name ↔
      cwd.drop (cwd.length - (climb (moves slash period name)).ups) <+:
        (climb (moves slash period name)).names := by
  rw [Confined, resolve, if_neg hfirst, walk_eq]
  exact below_iff

theorem climb_down (ms : List (Move (List UInt8))) (name : List UInt8) :
    climb (ms ++ [.down name]) = ⟨(climb ms).ups, (climb ms).names ++ [name]⟩ := by
  rw [climb, List.foldl_append]
  rfl

theorem confined_of_ups (hfirst : name.head? ≠ some slash)
    (hups : (climb (moves slash period name)).ups = 0) : Confined cwd name := by
  rw [confined_relative hfirst, hups, Nat.sub_zero, List.drop_length]
  exact List.nil_prefix

/-- The file name of a URI leads where the URI does. -/
theorem parsed_confined (front : UInt8) (uri : List UInt8) :
    Confined cwd (requestParseURI front uri).filename ↔ Inside cwd front uri := by
  have hfirst : ∀ s, (text "." ++ s).head? ≠ some slash := by
    intro s
    show some period ≠ some slash
    decide
  by_cases hcgi : text "cgi" <:+: uri
  · rw [requestParseURI, if_pos hcgi, confined_relative (hfirst _), Inside, pathPart, added,
      if_pos hcgi, if_pos hcgi, List.append_nil]
    rfl
  · rw [requestParseURI, if_neg hcgi, Inside, pathPart, added, if_neg hcgi, if_neg hcgi]
    by_cases hlast : lastByte front uri = slash
    · rw [if_pos hlast, if_pos hlast]
      rcases List.eq_nil_or_concat' uri with rfl | ⟨p, c, rfl⟩
      · -- nothing between the `.` and `home.html`
        refine iff_of_true (confined_of_ups (hfirst _) (by decide)) ?_
        have hups : (climb (moves slash period [period])).ups = 0 := by decide
        rw [hups, Nat.sub_zero, List.drop_length]
        exact List.nil_prefix
      · obtain rfl : c = slash := by simpa [lastByte] using hlast
        have hmoves : moves slash period (text "." ++ (p ++ [slash] ++ text "home.html")) =
            moves slash period (period :: (p ++ [slash])) ++ [.down (text "home.html")] :=
          moves_name (period :: p) (by decide) (by decide)
        show Confined cwd (text "." ++ (p ++ [slash]) ++ text "home.html") ↔ _
        rw [List.append_assoc, confined_relative (hfirst _), hmoves, climb_down]
    · rw [if_neg hlast, if_neg hlast, confined_relative (hfirst _), List.append_nil]
      rfl

/-- A URI that has no `..` is inside any directory. -/
theorem inside_of_no_up (h : .up ∉ moves slash period (period :: pathPart uri)) :
    Inside cwd front uri := by
  rw [Inside, climb_ups_of_no_up h, Nat.sub_zero, List.drop_length]
  exact List.nil_prefix

/-- A request whose method is GET looks up, opens and executes nothing outside
`cwd`, if and only if its URI stays inside or its headers never end. -/
theorem confined_iff (cwd : List (List UInt8)) (stat : List UInt8 → Option Sbuf) (loc : Locals)
    (hdr : List UInt8) (rp : Rio) (hget : IsGet (requestMethod loc rp)) :
    (∀ fuel h, requestHandle fuel stat loc hdr rp = some h → ∀ c ∈ h.names, Confined cwd c.2) ↔
      ¬ HeadersEnd loc hdr rp ∨ Inside cwd loc.front (requestUri loc rp) := by
  rw [← parsed_confined]
  obtain ⟨calls, hnames, hcalls⟩ := respond_names stat
    (requestParseURI loc.front (requestUri loc rp)).is_static
    (requestParseURI loc.front (requestUri loc rp)).filename
    (requestParseURI loc.front (requestUri loc rp)).cgiargs
  constructor
  · intro h
    by_cases hend : HeadersEnd loc hdr rp
    · obtain ⟨rp', fuel, hret⟩ := hend
      refine .inr (h fuel _ ((requestHandle_get hget).mpr ⟨⟨rp', hret⟩, rfl⟩) (.stat, _) ?_)
      exact hnames ▸ List.mem_cons_self
    · exact .inl hend
  · intro h fuel handled hsome c hc
    obtain ⟨⟨rp', hret⟩, rfl⟩ := (requestHandle_get hget).mp hsome
    rcases h with hno | hin
    · exact absurd ⟨rp', fuel, hret⟩ hno
    · have hmem : c ∈ (.stat, (requestParseURI loc.front (requestUri loc rp)).filename) :: calls :=
        hnames ▸ hc
      rcases List.mem_cons.mp hmem with rfl | hmem
      · exact hin
      · rw [hcalls c hmem]
        exact hin

theorem confined_iff_docs : Confined [text "srv"] (text "./docs/home.html") :=
  (confined_iff [text "srv"] (fun _ => none) noLocals [] ⟨text "GET /docs/ HTTP/1.0\r\n\r\n", []⟩
    (by decide)).mpr (.inr (by decide)) 1 _ rfl (.stat, text "./docs/home.html") (by decide)

/-- One step up is enough. -/
theorem climbs_out : IsGet (requestMethod noLocals ⟨text "GET /../secret HTTP/1.0\r\n\r\n", []⟩) ∧
    ∃ h, requestHandle 1 (fun _ => none) noLocals []
        ⟨text "GET /../secret HTTP/1.0\r\n\r\n", []⟩ = some h ∧
      ¬ ∀ c ∈ h.names, Confined [text "srv"] c.2 :=
  ⟨by decide, _, rfl, by decide⟩

end Cs537.Request
