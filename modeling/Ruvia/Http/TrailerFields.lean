import Ruvia.Http.ChunkFraming
import Ruvia.Http.RequestHeaderKind

/-!
# `Http.TrailerFields` — the trailer section as a sender writes it

The sender's rule for one request trailer field (`http_request_trailer_field.h`, `http_trailer_fields.h`), the
field line it becomes, and the section read back: the visitor of the received block sees the fields that were
written (`visitHttp1TrailerBlock_written`), and the decoder ends behind the section
(`trailersOutcome_written`).
-/

namespace Ruvia.Http

open Library
open HttpFieldSectionBudget

structure HttpHeaderView where
  name : Bytes
  value : Bytes
  deriving DecidableEq, Repr

/-- A normalized field value: no OWS at its ends. -/
def isValidHttpHeaderValue (value : Bytes) : Bool :=
  match value.head?, value.getLast? with
  | some front, some back =>
    if isHttpOwsChar front || isHttpOwsChar back then false else isValidHttpFieldValueBytes value
  | _, _ => true

/-! ## The sender's rule -/

/-- `is_forbidden_common_trailer_name`. -/
def isForbiddenCommonTrailerName (name : Bytes) (kind : RequestHeaderKind) : Bool :=
  match kind with
  | .host | .contentLength | .transferEncoding | .connection | .contentEncoding | .contentType | .cookie
  | .expect | .ifMatch | .ifModifiedSince | .ifNoneMatch | .ifRange | .ifUnmodifiedSince | .range | .upgrade
  | .authorization | .te | .trailer | .proxyAuthorization => true
  | .other | .accept | .acceptEncoding | .accessControlRequestHeaders | .accessControlRequestMethod | .origin
  | .userAgent | .secWebsocketKey | .secWebsocketProtocol | .secWebsocketVersion | .forwarded | .xForwardedFor
  | .xForwardedProto | .secWebsocketExtensions =>
    match name.length with
    | 10 =>
      httpAsciiEqualsIgnoreCase name (lit "Keep-Alive") || httpAsciiEqualsIgnoreCase name (lit "Set-Cookie")
    | 12 => httpAsciiEqualsIgnoreCase name (lit "Max-Forwards")
    | 13 =>
      httpAsciiEqualsIgnoreCase name (lit "Cache-Control") ||
        httpAsciiEqualsIgnoreCase name (lit "Content-Range")
    | 16 => httpAsciiEqualsIgnoreCase name (lit "Proxy-Connection")
    | 18 => httpAsciiEqualsIgnoreCase name (lit "Proxy-Authenticate")
    | _ => false

/-- `is_forbidden_http_request_trailer_name`. -/
def isForbiddenHttpRequestTrailerName (name : Bytes) : Bool :=
  let kind := classifyRequestHeader name
  if isForbiddenCommonTrailerName name kind then true
  else
    kind == .accessControlRequestHeaders || kind == .accessControlRequestMethod || kind == .origin ||
      httpAsciiEqualsIgnoreCase name (lit "Accept-Ranges")

inductive HttpRequestTrailerError where
  | invalidField
  | forbiddenField
  | sectionTooLarge
  deriving DecidableEq, Repr

/-- `charge_http_request_trailer_field`. -/
def chargeHttpRequestTrailerField (budget : HttpFieldSectionBudget) (field : HttpHeaderView) :
    Except HttpRequestTrailerError HttpFieldSectionBudget :=
  if isValidHttpHeaderName field.name = false ∨ isValidHttpHeaderValue field.value = false then
    .error .invalidField
  else if isForbiddenHttpRequestTrailerName field.name then .error .forbiddenField
  else
    match budget.addField field.name.length field.value.length with
    | none => .error .sectionTooLarge
    | some charged => .ok charged

/-- The field loop of the sender. -/
def chargeHttpRequestTrailerFields (budget : HttpFieldSectionBudget) :
    List HttpHeaderView → Except HttpRequestTrailerError HttpFieldSectionBudget
  | [] => .ok budget
  | field :: fields =>
    match chargeHttpRequestTrailerField budget field with
    | .error error => .error error
    | .ok charged => chargeHttpRequestTrailerFields charged fields

/-- `emit_http1_field_line`. -/
def emitHttp1FieldLine (field : HttpHeaderView) : Bytes :=
  field.name ++ [colon, sp] ++ field.value ++ [cr, lf]

/-- `write_chunked_trailers`: the last chunk and the trailer section. -/
def writeChunkedTrailers (trailers : List HttpHeaderView) : Bytes :=
  http1LastChunkPrefix ++ (trailers.map emitHttp1FieldLine).flatten ++ http1TrailerSectionTerminator

/-- The block a decoder publishes for the fields: their lines, without the CRLF behind the last one. -/
def trailerBlock : List HttpHeaderView → Bytes
  | [] => []
  | [field] => field.name ++ [colon, sp] ++ field.value
  | field :: next :: fields => emitHttp1FieldLine field ++ trailerBlock (next :: fields)

/-! ## What an accepted field is -/

/-- A field the sender's rule lets through. -/
structure HttpHeaderView.Generated (field : HttpHeaderView) : Prop where
  name_ne : field.name ≠ []
  name_token : ∀ b ∈ field.name, isHttpTokenChar b = true
  value_bytes : ∀ b ∈ field.value, isHttpFieldValueChar b = true
  value_front : ∀ b, field.value.head? = some b → isHttpOwsChar b = false
  value_back : ∀ b, field.value.getLast? = some b → isHttpOwsChar b = false
  permitted : isForbiddenHttpRequestTrailerName field.name = false

theorem isValidHttpHeaderValue_iff {value : Bytes} :
    isValidHttpHeaderValue value = true ↔ (∀ b ∈ value, isHttpFieldValueChar b = true) ∧
      (∀ b, value.head? = some b → isHttpOwsChar b = false) ∧
      ∀ b, value.getLast? = some b → isHttpOwsChar b = false := by
  unfold isValidHttpHeaderValue isValidHttpFieldValueBytes
  cases hfront : value.head? with
  | none =>
    rw [List.head?_eq_none_iff] at hfront
    simp [hfront]
  | some front =>
    cases hback : value.getLast? with
    | none =>
      rw [List.getLast?_eq_none_iff] at hback
      rw [hback] at hfront
      cases hfront
    | some back =>
      by_cases hows : isHttpOwsChar front = true ∨ isHttpOwsChar back = true
      · simp only [Bool.or_eq_true, hows, if_true, Bool.false_eq_true, Option.some.injEq, forall_eq', false_iff]
        rintro ⟨_, hf, hb⟩
        rcases hows with h | h
        · rw [hf] at h
          cases h
        · rw [hb] at h
          cases h
      · simp only [Bool.or_eq_true, hows, if_false, List.all_eq_true, Option.some.injEq, forall_eq']
        simp only [not_or, Bool.not_eq_true] at hows
        exact ⟨fun h => ⟨h, hows⟩, fun h => h.1⟩

/-- **What one accepted charge says**: the field may be sent, and it fits the budget. -/
theorem chargeHttpRequestTrailerField_ok {budget charged : HttpFieldSectionBudget} {field : HttpHeaderView}
    (h : chargeHttpRequestTrailerField budget field = .ok charged) :
    field.Generated ∧ budget.addField field.name.length field.value.length = some charged := by
  unfold chargeHttpRequestTrailerField at h
  split at h
  · cases h
  · rename_i hvalid
    simp only [not_or, Bool.not_eq_false] at hvalid
    split at h
    · cases h
    · rename_i hpermitted
      obtain ⟨hne, htoken⟩ := isValidHttpHeaderName_iff.mp hvalid.1
      obtain ⟨hbytes, hfront, hback⟩ := isValidHttpHeaderValue_iff.mp hvalid.2
      refine ⟨⟨hne, htoken, hbytes, hfront, hback, by simpa using hpermitted⟩, ?_⟩
      split at h
      · cases h
      · rename_i hadd
        cases h
        exact hadd

/-! ## One written line -/

namespace HttpHeaderView

/-- A field line without its CRLF. -/
def text (field : HttpHeaderView) : Bytes := field.name ++ [colon, sp] ++ field.value

variable {field : HttpHeaderView}

theorem length_text (field : HttpHeaderView) : field.text.length = field.name.length + 2 + field.value.length := by
  simp only [text, List.length_append, List.length_cons, List.length_nil]

/-- The windows of a field line behind its colon. -/
theorem sub_text_value :
    sub field.text (field.name.length + 1) (field.value.length + 1) = sp :: field.value ∧
      sub field.text (field.name.length + 2) field.value.length = field.value := by
  have hwindow : ∀ front back : Bytes, sub (front ++ back) front.length back.length = back := by
    intro front back
    rw [sub, List.drop_left, List.take_length]
  constructor
  · have := hwindow (field.name ++ [colon]) (sp :: field.value)
    simpa only [text, List.length_append, List.append_assoc, List.cons_append, List.nil_append,
      List.length_cons, List.length_nil] using this
  · have := hwindow (field.name ++ [colon, sp]) field.value
    rw [List.length_append] at this
    exact this

section

variable (h : field.Generated)
include h

theorem Generated.not_mem_text {b : UInt8} (htoken : isHttpTokenChar b = false)
    (hvalue : isHttpFieldValueChar b = false) (hne : b ≠ colon ∧ b ≠ sp) : b ∉ field.text := by
  intro hmem
  simp only [text, List.mem_append, List.mem_cons, List.not_mem_nil, or_false] at hmem
  rcases hmem with (hmem | hmem | hmem) | hmem
  · rw [h.name_token b hmem] at htoken
    cases htoken
  · exact hne.1 hmem
  · exact hne.2 hmem
  · rw [h.value_bytes b hmem] at hvalue
    cases hvalue

theorem Generated.cr_not_mem : cr ∉ field.text :=
  h.not_mem_text (by decide) (by decide) (by decide)

theorem Generated.lf_not_mem : lf ∉ field.text :=
  h.not_mem_text (by decide) (by decide) (by decide)

/-- The name is the token run at the front of the line. -/
theorem Generated.tokenPrefix : httpTokenPrefixSize field.text = field.name.length := by
  rw [httpTokenPrefixSize_eq, text, List.append_assoc, List.takeWhile_append_of_pos h.name_token,
    List.cons_append, List.takeWhile_cons_of_neg (by decide), List.append_nil]

/-- Behind the colon, only the one space of the field line is trimmed. -/
theorem Generated.trim :
    ((sp :: field.value).takeWhile isHttpOwsChar).length = 1 ∧ httpTrimOws (sp :: field.value) = field.value := by
  have hfront : field.value.takeWhile isHttpOwsChar = [] := by
    cases hvalue : field.value with
    | nil => rfl
    | cons b rest =>
      exact List.takeWhile_cons_of_neg (by rw [h.value_front b (by rw [hvalue]; rfl)]; exact Bool.false_ne_true)
  constructor
  · rw [List.takeWhile_cons_of_pos (by decide), hfront]
    rfl
  · exact httpTrimOws_of_ends h.value_front h.value_back

end

end HttpHeaderView

theorem emitHttp1FieldLine_eq (field : HttpHeaderView) : emitHttp1FieldLine field = field.text ++ [cr, lf] := rfl

/-! ## The line ends of a block -/

/-- No CR, no CRLF. -/
theorem findCrlf_last {pre text : Bytes} (h : cr ∉ text) : findCrlf (pre ++ text) pre.length = none := by
  rw [findCrlf, findFrom_eq_none_iff]
  intro j hj pair hpair
  rw [List.getElem?_zip_eq_some, List.getElem?_append_right hj] at hpair
  rw [beq_eq_false_iff_ne]
  intro heq
  rw [heq] at hpair
  exact h (List.mem_of_getElem? hpair.1)

/-- The CRLF behind a text without CR is the first one. -/
theorem findCrlf_line {pre text : Bytes} (h : cr ∉ text) (rest : Bytes) :
    findCrlf (pre ++ text ++ [cr, lf] ++ rest) pre.length = some (pre.length + text.length) := by
  rw [findCrlf, findFrom_eq_some_iff]
  refine ⟨Nat.le_add_right _ _, ⟨(cr, lf), ?_, by rfl⟩, fun j hj hlt pair hpair => ?_⟩
  · rw [List.getElem?_zip_eq_some, List.getElem?_drop]
    constructor
    · simp
    · rw [← List.length_append, Nat.add_comm 1, List.append_assoc (pre ++ text),
        List.getElem?_append_right (Nat.le_add_right _ _), Nat.add_sub_cancel_left]
      rfl
  · rw [List.getElem?_zip_eq_some] at hpair
    rw [beq_eq_false_iff_ne]
    intro heq
    have hat : (pre ++ text ++ [cr, lf] ++ rest)[j]? = text[j - pre.length]? := by
      rw [List.append_assoc, List.append_assoc, List.getElem?_append_right hj,
        List.getElem?_append_left (by omega)]
    rw [heq, hat] at hpair
    exact h (List.mem_of_getElem? hpair.1)

/-! ## The block read back -/

theorem length_le_trailerBlock : ∀ fields : List HttpHeaderView, fields.length ≤ (trailerBlock fields).length
  | [] => le_rfl
  | [field] => by
    simp only [trailerBlock, List.length_append, List.length_cons]
    omega
  | field :: next :: fields => by
    have := length_le_trailerBlock (next :: fields)
    rw [trailerBlock, List.length_append, emitHttp1FieldLine_eq, List.length_append, List.length_cons]
    simp only [List.length_cons, List.length_nil] at this ⊢
    omega

section

variable {σ : Type} {next : σ → HttpHeaderView → σ} {discardedName : Bytes → Bool} {field : HttpHeaderView}

variable {fuel : Nat} {lineEnd : Option Nat}

/-- With obs-fold rejected, a field is its first piece. -/
theorem visitFieldPieces_reject {block : Bytes} {piece : Span}
    (h : isValidHttpFieldValueBytes (piece.bytes block) = true) :
    visitFieldPieces block .reject (fuel + 1) lineEnd piece piece 0 0 = some ⟨piece, piece.size, lineEnd⟩ := by
  rw [visitFieldPieces, h, if_neg (by decide)]
  by_cases hempty : piece.size = 0
  all_goals cases lineEnd <;> simp [hempty]

/-- A visitor that takes every field. -/
def keepField (next : σ → HttpHeaderView → σ) (s : σ) (name value : Bytes) : σ × Bool := (next s ⟨name, value⟩, true)

/-- The spans of a field line at `pre.length`: the name, the colon and the value. -/
theorem visitTrailerFields_field (h : field.Generated) (hkept : discardedName field.name = false) {pre tail : Bytes}
    {budget charged : HttpFieldSectionBudget} {s : σ}
    (hline : findCrlf (pre ++ field.text ++ tail) pre.length = lineEnd)
    (hstop : lineEnd.getD (pre ++ field.text ++ tail).length = pre.length + field.text.length)
    (hcharge : budget.addField field.name.length field.value.length = some charged) :
    visitTrailerFields (pre ++ field.text ++ tail) .reject discardedName (keepField next) (fuel + 1) pre.length
        budget s =
      match lineEnd with
      | none => (.ok, charged, next s field)
      | some stop =>
        visitTrailerFields (pre ++ field.text ++ tail) .reject discardedName (keepField next) fuel (stop + 2)
          charged (next s field) := by
  have hwindow : ∀ start len, start + len ≤ field.text.length →
      sub (pre ++ field.text ++ tail) (pre.length + start) len = sub field.text start len := by
    intro start len hle
    rw [List.append_assoc, sub_append_right, sub_append_of_full hle]
  have hlength := field.length_text
  have htext : (Span.mk pre.length (pre.length + field.text.length)).bytes (pre ++ field.text ++ tail) =
      field.text := by
    have := hwindow 0 field.text.length (by omega)
    rw [Span.bytes]
    simpa only [Nat.add_zero, sub, List.drop_zero, List.take_length, Nat.add_sub_cancel_left] using this
  have hpiece : (Span.mk (pre.length + field.name.length + 1) (pre.length + field.text.length)).bytes
      (pre ++ field.text ++ tail) = sp :: field.value := by
    have := hwindow (field.name.length + 1) (field.value.length + 1) (by omega)
    rw [Span.bytes, show pre.length + field.text.length - (pre.length + field.name.length + 1) =
      field.value.length + 1 by omega, Nat.add_assoc, this, HttpHeaderView.sub_text_value.1]
  have hvalue : (Span.mk (pre.length + field.name.length + 2) (pre.length + field.text.length)).bytes
      (pre ++ field.text ++ tail) = field.value := by
    have := hwindow (field.name.length + 2) field.value.length (by omega)
    rw [Span.bytes, show pre.length + field.text.length - (pre.length + field.name.length + 2) =
      field.value.length by omega, Nat.add_assoc, this, HttpHeaderView.sub_text_value.2]
  have htrim : (Span.mk (pre.length + field.name.length + 1) (pre.length + field.text.length)).trimOws
      (pre ++ field.text ++ tail) = ⟨pre.length + field.name.length + 2, pre.length + field.text.length⟩ := by
    simp only [Span.trimOws, hpiece, h.trim.1, h.trim.2, Span.mk.injEq]
    exact ⟨trivial, by omega⟩
  have hcolon : field.text[field.name.length]? = some colon := by
    rw [HttpHeaderView.text, List.append_assoc, List.getElem?_append_right le_rfl, Nat.sub_self]
    rfl
  have hname : field.text.take field.name.length = field.name := by
    rw [HttpHeaderView.text, List.append_assoc]
    exact List.take_left
  have hnonempty : ¬ (pre ++ field.text ++ tail).length ≤ pre.length := by
    simp only [List.length_append]
    omega
  have hguard : ¬ (field.name.length = 0 ∨ field.text[field.name.length]? ≠ some colon) := by
    rintro (hzero | hne)
    · exact h.name_ne (List.eq_nil_of_length_eq_zero hzero)
    · exact hne hcolon
  rw [visitTrailerFields, if_neg hnonempty]
  simp only [hline, hstop, htext, h.tokenPrefix]
  rw [if_neg hguard, htrim, hname, visitFieldPieces_reject (by rw [hvalue]; exact List.all_eq_true.mpr h.value_bytes)]
  simp only [Span.size, show pre.length + field.text.length - (pre.length + field.name.length + 2) =
    field.value.length by omega, hcharge, hkept, hvalue, keepField, Bool.false_eq_true, if_false, Bool.true_eq_false]
  cases lineEnd <;> rfl

/-- The budget behind a list of fields. -/
def HttpFieldSectionBudget.addFields (budget : HttpFieldSectionBudget) :
    List HttpHeaderView → Option HttpFieldSectionBudget
  | [] => some budget
  | field :: fields =>
    match budget.addField field.name.length field.value.length with
    | none => none
    | some charged => charged.addFields fields

/-- The fields of a written block are visited one after the other. -/
theorem visitTrailerFields_written {fields : List HttpHeaderView} {pre : Bytes}
    {budget charged : HttpFieldSectionBudget} {fuel : Nat} {s : σ} (hne : fields ≠ [])
    (hfields : ∀ field ∈ fields, field.Generated ∧ discardedName field.name = false)
    (hfuel : fields.length ≤ fuel) (hcharge : budget.addFields fields = some charged) :
    visitTrailerFields (pre ++ trailerBlock fields) .reject discardedName (keepField next) fuel pre.length budget s =
      (.ok, charged, fields.foldl next s) := by
  induction fields generalizing pre budget fuel s with
  | nil => exact absurd rfl hne
  | cons field fields ih =>
    obtain ⟨fuel, rfl⟩ : ∃ n, fuel = n + 1 := ⟨fuel - 1, by rw [List.length_cons] at hfuel; omega⟩
    obtain ⟨hfield, hkept⟩ := hfields field List.mem_cons_self
    rw [addFields] at hcharge
    cases hadd : budget.addField field.name.length field.value.length with
    | none =>
      rw [hadd] at hcharge
      cases hcharge
    | some first =>
      rw [hadd] at hcharge
      cases fields with
      | nil =>
        cases hcharge
        have hblock : pre ++ trailerBlock [field] = pre ++ field.text ++ [] := by
          rw [List.append_nil]
          rfl
        have hnone : findCrlf (pre ++ field.text ++ []) pre.length = none := by
          rw [List.append_nil]
          exact findCrlf_last hfield.cr_not_mem
        rw [hblock, visitTrailerFields_field hfield hkept hnone (by simp) hadd]
        rfl
      | cons second fields =>
        have hblock : pre ++ trailerBlock (field :: second :: fields) =
            pre ++ field.text ++ ([cr, lf] ++ trailerBlock (second :: fields)) := by
          rw [trailerBlock, emitHttp1FieldLine_eq]
          simp only [List.append_assoc]
        have hline := @findCrlf_line pre _ hfield.cr_not_mem (trailerBlock (second :: fields))
        rw [List.append_assoc _ [cr, lf]] at hline
        rw [hblock, visitTrailerFields_field hfield hkept hline rfl hadd]
        have hrest := @ih (pre ++ field.text ++ [cr, lf]) first fuel (next s field) (List.cons_ne_nil _ _)
          (fun f hf => hfields f (List.mem_cons_of_mem _ hf)) (Nat.le_of_succ_le_succ hfuel) hcharge
        simp only [List.length_append, List.length_cons, List.length_nil, List.append_assoc, Nat.add_assoc,
          Nat.zero_add] at hrest ⊢
        exact hrest

/-- A section that starts from a smaller charge fits as well. -/
theorem addFields_of_le {fields : List HttpHeaderView} {budget smaller charged : HttpFieldSectionBudget}
    (h : budget.addFields fields = some charged) (hbytes : smaller.bytes ≤ budget.bytes)
    (hcount : smaller.fields = budget.fields) : ∃ less, smaller.addFields fields = some less := by
  induction fields generalizing budget smaller with
  | nil => exact ⟨smaller, rfl⟩
  | cons field fields ih =>
    rw [addFields] at h
    cases hadd : budget.addField field.name.length field.value.length with
    | none =>
      rw [hadd] at h
      cases h
    | some first =>
      rw [hadd] at h
      unfold addField at hadd
      dsimp only at hadd
      split at hadd
      · cases hadd
      · rename_i hfits
        cases hadd
        have hless : smaller.addField field.name.length field.value.length =
            some ⟨smaller.bytes + (field.name.length + field.value.length + httpFieldLineOverhead),
              smaller.fields + 1⟩ := by
          unfold addField
          rw [if_neg (by omega)]
        rw [addFields, hless]
        exact ih h (Nat.add_le_add_right hbytes _) (by rw [hcount])

/-- **A written block is visited as its fields**, in the order they were written. -/
theorem visitHttp1TrailerBlock_written {fields : List HttpHeaderView} {budget charged : HttpFieldSectionBudget}
    {s : σ} (hfields : ∀ field ∈ fields, field.Generated ∧ discardedName field.name = false)
    (hlength : (trailerBlock fields).length ≤ maxHttpHeaderBytes)
    (hcharge : budget.addFields fields = some charged) :
    visitHttp1TrailerBlock (trailerBlock fields) .reject discardedName budget (keepField next) s =
      (.ok, charged, fields.foldl next s) := by
  rw [visitHttp1TrailerBlock, if_neg (Nat.not_lt.mpr hlength)]
  by_cases hne : fields = []
  · subst hne
    cases hcharge
    rfl
  · have hfuel : fields.length ≤ (trailerBlock fields).length + 1 :=
      (length_le_trailerBlock fields).trans (Nat.le_succ _)
    exact @visitTrailerFields_written _ next _ fields [] budget charged _ s hne hfields hfuel hcharge

end

/-! ## The end of the section -/

/-- A nonempty line does not end the section. -/
theorem scanTrailerLines_line {pre text : Bytes} (h : lf ∉ text) (hne : text ≠ []) (rest : Bytes) (fuel : Nat) :
    scanTrailerLines (pre ++ text ++ [cr, lf] ++ rest) (fuel + 1) pre.length =
      scanTrailerLines (pre ++ text ++ [cr, lf] ++ rest) fuel (pre ++ text ++ [cr, lf]).length := by
  have hcr : (pre ++ text ++ [cr, lf] ++ rest)[(pre ++ text).length]? = some cr := by
    rw [List.append_assoc, List.getElem?_append_right le_rfl, Nat.sub_self]
    rfl
  have hback : (pre ++ text ++ [cr, lf] ++ rest)[(pre ++ text).length - 1]? ≠ some lf := by
    have hpos := List.length_pos_iff.mpr hne
    rw [List.append_assoc, List.getElem?_append_left (by rw [List.length_append]; omega),
      List.getElem?_append_right (by rw [List.length_append]; omega)]
    exact fun hlast => h (List.mem_of_getElem? hlast)
  rw [scanTrailerLines, findByte_lineFeed h]
  simp only [← List.length_append]
  rw [Nat.add_sub_cancel, if_neg (by rw [hcr]; simp), if_neg]
  · rw [@List.length_append _ (pre ++ text) [cr, lf]]
    rfl
  · rintro ⟨_, hlast⟩
    exact hback hlast

/-- The empty line behind a field line ends the section. -/
theorem scanTrailerLines_end (block rest : Bytes) (fuel : Nat) :
    scanTrailerLines (block ++ [cr, lf] ++ [cr, lf] ++ rest) (fuel + 1) (block ++ [cr, lf]).length =
      .section block.length := by
  have hfind := @findByte_lineFeed (block ++ [cr, lf]) [] List.not_mem_nil rest
  have hlength : (block ++ [cr, lf]).length = block.length + 2 := List.length_append
  have hat : ∀ j, (block ++ [cr, lf] ++ [cr, lf] ++ rest)[block.length + j]? = ([cr, lf, cr, lf] ++ rest)[j]? := by
    intro j
    rw [List.append_assoc, List.append_assoc, List.getElem?_append_right (Nat.le_add_right _ _),
      Nat.add_sub_cancel_left]
    rfl
  rw [List.append_nil, List.length_nil, Nat.add_zero, hlength] at hfind
  rw [scanTrailerLines, hlength, hfind]
  simp only [show block.length + 2 + 1 - 1 = block.length + 2 by omega,
    show block.length + 2 + 1 - 2 = block.length + 1 by omega, hat]
  rfl

/-- The scan runs over the written lines to the empty one. -/
theorem scanTrailerLines_written {fields : List HttpHeaderView} {pre : Bytes} (hne : fields ≠ [])
    (hfields : ∀ field ∈ fields, field.Generated) (rest : Bytes) (fuel : Nat) (hfuel : fields.length < fuel) :
    scanTrailerLines (pre ++ trailerBlock fields ++ [cr, lf] ++ [cr, lf] ++ rest) fuel pre.length =
      .section (pre ++ trailerBlock fields).length := by
  induction fields generalizing pre fuel with
  | nil => exact absurd rfl hne
  | cons field fields ih =>
    obtain ⟨fuel, rfl⟩ : ∃ n, fuel = n + 1 := ⟨fuel - 1, by omega⟩
    have hfield := hfields field List.mem_cons_self
    have htext : field.text ≠ [] := by
      intro hnil
      have := field.length_text
      rw [hnil, List.length_nil] at this
      omega
    cases fields with
    | nil =>
      obtain ⟨fuel, rfl⟩ : ∃ n, fuel = n + 1 := ⟨fuel - 1, by simp only [List.length_cons] at hfuel; omega⟩
      show scanTrailerLines (pre ++ field.text ++ [cr, lf] ++ [cr, lf] ++ rest) (fuel + 1 + 1) pre.length = _
      rw [List.append_assoc _ [cr, lf] rest, scanTrailerLines_line hfield.lf_not_mem htext,
        ← List.append_assoc _ [cr, lf] rest, scanTrailerLines_end]
      rfl
    | cons second fields =>
      have hblock : ∀ behind, pre ++ trailerBlock (field :: second :: fields) ++ behind =
          pre ++ field.text ++ [cr, lf] ++ (trailerBlock (second :: fields) ++ behind) := by
        intro behind
        rw [trailerBlock, emitHttp1FieldLine_eq]
        simp only [List.append_assoc]
      have hrest := @ih (pre ++ field.text ++ [cr, lf]) (List.cons_ne_nil _ _)
        (fun f hf => hfields f (List.mem_cons_of_mem _ hf)) fuel (Nat.lt_of_succ_lt_succ hfuel)
      have hpre : pre ++ trailerBlock (field :: second :: fields) =
          pre ++ field.text ++ [cr, lf] ++ trailerBlock (second :: fields) := by
        simpa only [List.append_nil] using hblock []
      rw [hpre] at hblock ⊢
      rw [← hrest]
      simp only [List.append_assoc] at hblock ⊢
      have hline := @scanTrailerLines_line pre field.text hfield.lf_not_mem htext
        (trailerBlock (second :: fields) ++ ([cr, lf] ++ ([cr, lf] ++ rest))) fuel
      simpa only [List.append_assoc] using hline

variable {fields : List HttpHeaderView}

theorem lines_eq_trailerBlock (hne : fields ≠ []) :
    (fields.map emitHttp1FieldLine).flatten = trailerBlock fields ++ [cr, lf] := by
  induction fields with
  | nil => exact absurd rfl hne
  | cons field fields ih =>
    cases fields with
    | nil => exact List.append_nil _
    | cons second fields =>
      rw [List.map_cons, List.flatten_cons, ih (List.cons_ne_nil _ _), trailerBlock, List.append_assoc]

theorem trailerBlock_head (hne : fields ≠ []) (hfields : ∀ field ∈ fields, field.Generated) :
    ∃ b behind, trailerBlock fields = b :: behind ∧ b ≠ cr := by
  cases fields with
  | nil => exact absurd rfl hne
  | cons field fields =>
    have hfield := hfields field List.mem_cons_self
    obtain ⟨b, name, hname⟩ := List.exists_cons_of_ne_nil hfield.name_ne
    have hcr : b ≠ cr := by
      rintro rfl
      have := hfield.name_token cr (hname ▸ List.mem_cons_self)
      revert this
      decide
    cases fields with
    | nil => exact ⟨b, name ++ [colon, sp] ++ field.value, by rw [trailerBlock, hname]; rfl, hcr⟩
    | cons second fields =>
      exact ⟨b, _, by rw [trailerBlock, emitHttp1FieldLine, hname]; rfl, hcr⟩

/-- **The decoder ends behind a written section** and publishes its block. -/
theorem trailersOutcome_written (hfields : ∀ field ∈ fields, field.Generated)
    (hlength : ((fields.map emitHttp1FieldLine).flatten ++ http1TrailerSectionTerminator).length ≤ maxHttpHeaderBytes)
    (hvalid : trailersValid .reject (trailerBlock fields) = true) (rest : Bytes) :
    trailersOutcome .reject ((fields.map emitHttp1FieldLine).flatten ++ http1TrailerSectionTerminator ++ rest) =
      .complete [] ((fields.map emitHttp1FieldLine).flatten ++ http1TrailerSectionTerminator).length
        (trailerBlock fields) := by
  unfold trailersOutcome
  rw [List.take_append, List.take_of_length_le hlength]
  generalize rest.take _ = tail
  by_cases hne : fields = []
  · subst hne
    rfl
  · obtain ⟨b, behind, hhead, hcr⟩ := trailerBlock_head hne hfields
    have hwire : (fields.map emitHttp1FieldLine).flatten ++ http1TrailerSectionTerminator ++ tail =
        trailerBlock fields ++ [cr, lf] ++ [cr, lf] ++ tail := by
      rw [lines_eq_trailerBlock hne]
      rfl
    have hprefix : [cr, lf].isPrefixOf (trailerBlock fields ++ [cr, lf] ++ [cr, lf] ++ tail) = false := by
      rw [hhead, List.cons_append, List.cons_append, List.cons_append, List.isPrefixOf,
        beq_eq_false_iff_ne.mpr hcr.symm, Bool.false_and]
    have hscan : scanTrailers (trailerBlock fields ++ [cr, lf] ++ [cr, lf] ++ tail) 0 =
        .section (trailerBlock fields).length := by
      have hcount := length_le_trailerBlock fields
      have := @scanTrailerLines_written fields [] hne hfields tail
        ((trailerBlock fields ++ [cr, lf] ++ [cr, lf] ++ tail).length + 1)
        (by simp only [List.length_append]; omega)
      rw [scanTrailers]
      simpa only [List.nil_append, List.length_nil] using this
    have htake : (trailerBlock fields ++ [cr, lf] ++ [cr, lf] ++ tail).take (trailerBlock fields).length =
        trailerBlock fields := by
      simp only [List.append_assoc]
      exact List.take_left
    simp only [hwire, hprefix, hscan, htake, hvalid, Bool.false_eq_true, Bool.true_eq_false, if_false]
    rw [lines_eq_trailerBlock hne]
    simp only [http1TrailerSectionTerminator, List.length_append, List.length_cons, List.length_nil]

/-! ## What an accepted section is -/

/-- **What an accepted section says**: every field may be sent, the fields fit the budget, and the budget
    counts the bytes of their lines. -/
theorem chargeHttpRequestTrailerFields_ok {budget charged : HttpFieldSectionBudget}
    (hbudget : budget.bytes ≤ maxHttpHeaderBytes) (h : chargeHttpRequestTrailerFields budget fields = .ok charged) :
    (∀ field ∈ fields, field.Generated) ∧ budget.addFields fields = some charged ∧
      charged.bytes = budget.bytes + (fields.map emitHttp1FieldLine).flatten.length ∧
      charged.bytes ≤ maxHttpHeaderBytes := by
  induction fields generalizing budget with
  | nil =>
    cases h
    exact ⟨fun _ hmem => absurd hmem List.not_mem_nil, rfl, rfl, hbudget⟩
  | cons field fields ih =>
    rw [chargeHttpRequestTrailerFields] at h
    cases hcharge : chargeHttpRequestTrailerField budget field with
    | error error =>
      rw [hcharge] at h
      cases h
    | ok first =>
      rw [hcharge] at h
      obtain ⟨hfield, hadd⟩ := chargeHttpRequestTrailerField_ok hcharge
      have hfirst : first.bytes = budget.bytes + (emitHttp1FieldLine field).length ∧
          first.bytes ≤ maxHttpHeaderBytes := by
        unfold addField at hadd
        dsimp only at hadd
        split at hadd
        · cases hadd
        · rename_i hfits
          cases hadd
          rw [emitHttp1FieldLine_eq, List.length_append, field.length_text]
          simp only [httpFieldLineOverhead, List.length_cons, List.length_nil] at hfits ⊢
          omega
      obtain ⟨hfields, hadds, hbytes, hmax⟩ := ih hfirst.2 h
      refine ⟨fun f hf => ?_, ?_, ?_, hmax⟩
      · rcases List.mem_cons.mp hf with rfl | hf
        · exact hfield
        · exact hfields f hf
      · rw [addFields, hadd]
        exact hadds
      · rw [hbytes, hfirst.1, List.map_cons, List.flatten_cons, List.length_append, Nat.add_assoc]

/-- The visitor that collects the fields. -/
def collectFields (s : List HttpHeaderView) (field : HttpHeaderView) : List HttpHeaderView := s ++ [field]

theorem foldl_collectFields (fields s : List HttpHeaderView) : fields.foldl collectFields s = s ++ fields := by
  induction fields generalizing s with
  | nil => exact (List.append_nil s).symm
  | cons field fields ih =>
    rw [List.foldl_cons, ih, collectFields, List.append_assoc]
    rfl

/-- The fields a recipient takes from a published block. -/
def publishedFields (block : Bytes) : HttpTrailerBlockStatus × List HttpHeaderView :=
  let (status, _, fields) := visitHttp1TrailerBlock block .reject isForbiddenHttpRequestTrailerName
    httpTrailerSectionBudget (keepField collectFields) []
  (status, fields)

end Ruvia.Http
