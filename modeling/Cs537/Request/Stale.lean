/-
# `Cs537.Request.Stale` — what a response depends on (p4/linux)

`requestHandle` uses its arrays whether they have been filled or not.  Two
requests on the same bytes may then be answered differently: if nothing arrives,
`buf` is what an earlier request left there; if the line has no word, so is
`method`; and if it is a GET without a second word, so is `uri`, the file that is
looked up.

    Answers stat loc hdr rp r     the request is answered by `r`
    Determined hdr rp             nothing that was left there is used

`answers_determined_iff`: the answer is the same for any two contents of the
arrays, if and only if the request is determined.
-/
import Cs537.Request.Handle

namespace Cs537.Request

open Cs537.Lib

variable {stat : List UInt8 → Option Sbuf} {loc loc' : Locals} {hdr uri : List UInt8} {rp : Rio}
  {r : Response} {front front' : UInt8}

def Answers (stat : List UInt8 → Option Sbuf) (loc : Locals) (hdr : List UInt8) (rp : Rio)
    (r : Response) : Prop :=
  ∃ fuel h, requestHandle fuel stat loc hdr rp = some h ∧ h.response = r

theorem answers_get (hget : IsGet (requestMethod loc rp)) : Answers stat loc hdr rp r ↔
    HeadersEnd loc hdr rp ∧ r = (lookUp stat loc.front (requestUri loc rp)).response := by
  constructor
  · rintro ⟨fuel, h, hsome, rfl⟩
    obtain ⟨⟨rp', hret⟩, rfl⟩ := (requestHandle_get hget).mp hsome
    exact ⟨⟨rp', fuel, hret⟩, rfl⟩
  · rintro ⟨⟨rp', fuel, hret⟩, rfl⟩
    exact ⟨fuel, _, (requestHandle_get hget).mpr ⟨⟨rp', hret⟩, rfl⟩, rfl⟩

theorem answers_other (hget : ¬ IsGet (requestMethod loc rp)) : Answers stat loc hdr rp r ↔
    r = (notImplemented (requestMethod loc rp)).response := by
  constructor
  · rintro ⟨fuel, h, hsome, rfl⟩
    rw [requestHandle_other hget] at hsome
    cases hsome
    rfl
  · rintro rfl
    exact ⟨0, _, requestHandle_other hget, rfl⟩

/-! ## What is read -/

/-- The headers, from the bytes alone. -/
def HeadersStop (hdr : List UInt8) (rp : Rio) : Prop :=
  (∃ line ∈ lines 10 (takeLine 10 (MAXLINE - 1) rp.bytes).2, Stops line) ∨
    (takeLine 10 (MAXLINE - 1) rp.bytes).2 = [] ∧ cstr hdr = crlf

/-- A line has been read; if the method in it is GET and the headers end, there is
a URI in it. -/
def Determined (hdr : List UInt8) (rp : Rio) : Prop :=
  rp.bytes ≠ [] ∧ ∃ method, (words (firstLine rp))[0]? = some method ∧
    (IsGet method → HeadersStop hdr rp → ∃ uri, (words (firstLine rp))[1]? = some uri)

theorem headersEnd_iff (hline : rp.bytes ≠ []) : HeadersEnd loc hdr rp ↔ HeadersStop hdr rp := by
  rcases readlineb_spec rp loc.buf one_lt_MAXLINE with ⟨hnil, -⟩ | ⟨-, rc, rp', hread, hleft⟩
  · exact absurd hnil hline
  · rw [HeadersEnd, afterLine, hread, readhdrs_ends_iff, hleft]
    rfl

/-! ## What is used -/

/-- The last byte of a URI that is not empty. -/
theorem lookUp_front (front front' : UInt8) (huri : uri ≠ []) : lookUp stat front uri = lookUp stat front' uri := by
  have hlast : lastByte front uri = lastByte front' uri := by
    rw [lastByte, lastByte, List.getLast?_eq_some_getLast huri]
    rfl
  rw [lookUp, lookUp, requestParseURI, requestParseURI, hlast]

theorem words_ne_nil {buf word : List UInt8} {i : Nat} (h : (words buf)[i]? = some word) :
    word ≠ [] :=
  (mem_tokens (List.mem_of_mem_take (List.mem_of_getElem? h))).1

variable {cause cause' errnum errnum' shortmsg shortmsg' longmsg longmsg' filename filename' :
  List UInt8}

/-- Two messages with the same number are told apart by their causes. -/
theorem requestError_cause (hlen : cause.length = cause'.length)
    (h : (requestError cause errnum shortmsg longmsg).1 =
      (requestError cause' errnum shortmsg longmsg).1) : cause = cause' := by
  simp only [requestError, Response.error.injEq, List.length_append, hlen,
    List.append_cancel_left_eq, List.append_cancel_right_eq] at h
  exact h

theorem requestError_errnum (hlen : errnum.length = errnum'.length)
    (h : (requestError cause errnum shortmsg longmsg).1 =
      (requestError cause' errnum' shortmsg' longmsg').1) : errnum = errnum' := by
  simp only [requestError, Response.error.injEq, List.append_assoc,
    List.append_cancel_left_eq] at h
  exact List.append_inj_left h hlen

/-- What can become of a file that is not a program. -/
theorem respond_static (stat : List UInt8 → Option Sbuf) (filename cgiargs : List UInt8) :
    (respond stat true filename cgiargs).response = (requestError filename (text "404")
      (text "Not found") (text "CS537 Server could not find this file")).1 ∨
    (respond stat true filename cgiargs).response = (requestError filename (text "403")
      (text "Forbidden") (text "CS537 Server could not read this file")).1 ∨
    ∃ size, (respond stat true filename cgiargs).response = requestServeStatic filename size := by
  rw [respond]
  cases stat filename with
  | none => exact .inl rfl
  | some sbuf =>
      dsimp only
      rw [if_pos rfl]
      split
      · exact .inr (.inl rfl)
      · exact .inr (.inr ⟨sbuf.st_size, rfl⟩)

/-- Two files are never answered alike. -/
theorem respond_static_ne {cgiargs : List UInt8} (hlen : filename.length = filename'.length)
    (h : (respond stat true filename cgiargs).response =
      (respond stat true filename' cgiargs).response) : filename = filename' := by
  have hnum : text "404" ≠ text "403" := by decide
  have hthree : (text "404").length = (text "403").length := by decide
  rcases respond_static stat filename cgiargs with h1 | h1 | ⟨size, h1⟩ <;>
    rcases respond_static stat filename' cgiargs with h2 | h2 | ⟨size', h2⟩ <;>
    rw [h1, h2] at h
  · exact requestError_cause hlen h
  · exact absurd (requestError_errnum hthree h) hnum
  · cases h
  · exact absurd (requestError_errnum hthree.symm h).symm hnum
  · exact requestError_cause hlen h
  · cases h
  · cases h
  · cases h
  · exact (Response.file.inj h).2.1

/-! ## Two contents of the arrays -/

/-- The answer does not depend on what the arrays held. -/
def AnswersAgree (stat : List UInt8 → Option Sbuf) (hdr : List UInt8) (rp : Rio) : Prop :=
  ∀ loc loc' r, Answers stat loc hdr rp r ↔ Answers stat loc' hdr rp r

theorem agree_of_determined (h : Determined hdr rp) : AnswersAgree stat hdr rp := by
  obtain ⟨hline, method, hmethod, huri⟩ := h
  have hmeth : ∀ loc, requestMethod loc rp = method := fun loc => by
    rw [requestMethod, requestLine_eq hline, methodOf, hmethod]
    rfl
  intro loc loc' r
  by_cases hget : IsGet method
  · rw [answers_get (hmeth loc ▸ hget), answers_get (hmeth loc' ▸ hget), headersEnd_iff hline,
      headersEnd_iff hline]
    refine and_congr_right fun hend => ?_
    obtain ⟨uri, hsome⟩ := huri hget hend
    have hu : ∀ loc, requestUri loc rp = uri := fun loc => by
      rw [requestUri, requestLine_eq hline, uriOf, hsome]
      rfl
    rw [hu loc, hu loc', lookUp_front loc.front loc'.front (words_ne_nil hsome)]
  · rw [answers_other (hmeth loc ▸ hget), answers_other (hmeth loc' ▸ hget), hmeth loc, hmeth loc']

/-- A method that is taken from the stack. -/
theorem method_fixed (loc loc' : Locals) (hagree : AnswersAgree stat hdr rp)
    (hA : requestMethod loc rp = text "A") (hB : requestMethod loc' rp = text "B") : False := by
  have hnotA : ¬ IsGet (requestMethod loc rp) := by
    rw [hA]
    decide
  have hnotB : ¬ IsGet (requestMethod loc' rp) := by
    rw [hB]
    decide
  have hlen : (text "A").length = (text "B").length := by decide
  have h := (answers_other hnotB).mp ((hagree loc loc' _).mp ((answers_other hnotA).mpr rfl))
  rw [hA, hB] at h
  exact absurd (requestError_cause hlen h) (by decide)

/-- A URI that is taken from the stack. -/
theorem uri_fixed (loc loc' : Locals) (hagree : AnswersAgree stat hdr rp)
    (hget : IsGet (requestMethod loc rp)) (hget' : IsGet (requestMethod loc' rp))
    (hend : HeadersEnd loc hdr rp) (ha : requestUri loc rp = text "a")
    (hb : requestUri loc' rp = text "b") : False := by
  have hstatic : ∀ front, ∀ uri ∈ [text "a", text "b"],
      requestParseURI front uri =
        ⟨true, text "." ++ uri, [], [(.cgiargs, []), (.filename, text "." ++ uri)]⟩ := by
    intro front uri huri
    rcases List.mem_pair.mp huri with rfl | rfl <;> rfl
  have hlen : (text "." ++ text "a").length = (text "." ++ text "b").length := by decide
  have h := ((answers_get hget').mp ((hagree loc loc' _).mp ((answers_get hget).mpr ⟨hend, rfl⟩))).2
  rw [ha, hb, lookUp, lookUp, hstatic _ _ (by decide), hstatic _ _ (by decide)] at h
  exact absurd (respond_static_ne hlen h) (by decide)

/-- The requests that the same bytes make are answered alike, whatever the arrays held
before, if and only if the line read has a method, and a URI where one is used. -/
theorem answers_determined_iff (stat : List UInt8 → Option Sbuf) (hdr : List UInt8) (rp : Rio) :
    (∀ loc loc' r, Answers stat loc hdr rp r ↔ Answers stat loc' hdr rp r) ↔ Determined hdr rp := by
  refine ⟨fun hagree => ?_, agree_of_determined⟩
  have hline : rp.bytes ≠ [] := by
    intro hnil
    refine method_fixed ⟨text "A", [], 0, []⟩ ⟨text "B", [], 0, []⟩ hagree ?_ ?_
      <;> rw [requestMethod, requestLine_nil hnil] <;> rfl
  cases hmethod : (words (firstLine rp))[0]? with
  | none =>
      refine (method_fixed ⟨[], text "A", 0, []⟩ ⟨[], text "B", 0, []⟩ hagree ?_ ?_).elim
        <;> rw [requestMethod, requestLine_eq hline, methodOf, hmethod] <;> rfl
  | some method =>
      refine ⟨hline, method, hmethod, fun hget hend => ?_⟩
      cases huri : (words (firstLine rp))[1]? with
      | some uri => exact ⟨uri, rfl⟩
      | none =>
          have hmeth : ∀ loc, IsGet (requestMethod loc rp) := fun loc => by
            rw [requestMethod, requestLine_eq hline, methodOf, hmethod]
            exact hget
          refine (uri_fixed ⟨[], [], 0, text "a"⟩ ⟨[], [], 0, text "b"⟩ hagree (hmeth _) (hmeth _)
            ((headersEnd_iff hline).mpr hend) ?_ ?_).elim
            <;> rw [requestUri, requestLine_eq hline, uriOf, huri] <;> rfl

/-- The file of an earlier request. -/
theorem stale_uri : ¬ ∀ loc loc' r,
    Answers (fun _ => none) loc [] ⟨text "GET\r\n\r\n", []⟩ r ↔
      Answers (fun _ => none) loc' [] ⟨text "GET\r\n\r\n", []⟩ r := fun h =>
  uri_fixed ⟨[], [], 0, text "a"⟩ ⟨[], [], 0, text "b"⟩ h (by decide) (by decide) ⟨_, 1, rfl⟩
    (by decide) (by decide)

end Cs537.Request
