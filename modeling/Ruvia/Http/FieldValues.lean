import Ruvia.Http.Syntax

/-!
# `Http.FieldValues` — the quote-aware scans of field values

`http_field_values.h` and the list walks of `http_field_list_grammar.h`. A delimiter inside a quoted-string
never splits; every scan restarts unquoted behind a delimiter. The visitor loops of the source become lists
of members (`httpCommaSeparatedQuotedFieldItems`, `httpAllParameters`) and early-stopping folds over them.
-/

namespace Ruvia.Http

open Library

/-! ## Unquoted delimiters -/

/-- The scan of `http_find_unquoted_delimiter` from position `index`, inside a quoted-string iff `quoted`. -/
def httpFindUnquotedDelimiterFrom (start : Nat) (delimiter : UInt8) : Bool → Nat → Bytes → Nat
  | _, index, [] => index
  | true, index, ch :: rest =>
    if ch = backslash then
      match rest with
      | [] => index + 1
      | _ :: rest' => httpFindUnquotedDelimiterFrom start delimiter true (index + 2) rest'
    else httpFindUnquotedDelimiterFrom start delimiter (ch != dquote) (index + 1) rest
  | false, index, ch :: rest =>
    if ch = dquote then httpFindUnquotedDelimiterFrom start delimiter true (index + 1) rest
    else if ch = delimiter ∧ start ≤ index then index
    else httpFindUnquotedDelimiterFrom start delimiter false (index + 1) rest

/-- Index of the next unquoted `delimiter` at or after `start`, or the size when there is none. -/
def httpFindUnquotedDelimiter (value : Bytes) (start : Nat) (delimiter : UInt8) : Nat :=
  if value.length ≤ start then value.length
  else httpFindUnquotedDelimiterFrom start delimiter false 0 value

/-- The segments between unquoted delimiters; `fuel` bounds their number. -/
def httpSplitUnquoted (delimiter : UInt8) : Nat → Bytes → List Bytes
  | 0, _ => []
  | fuel + 1, value =>
    let stop := httpFindUnquotedDelimiter value 0 delimiter
    value.take stop ::
      if stop = value.length then [] else httpSplitUnquoted delimiter fuel (value.drop (stop + 1))

/-- The members `http_visit_comma_separated_quoted_field_items` reports, empty ones included. -/
def httpCommaSeparatedQuotedFieldItems (value : Bytes) : List Bytes :=
  (httpSplitUnquoted comma (value.length + 1) value).map httpTrimOws

theorem httpTrimOws_of_mem_items {value item : Bytes}
    (h : item ∈ httpCommaSeparatedQuotedFieldItems value) : httpTrimOws item = item := by
  obtain ⟨part, _, rfl⟩ := List.mem_map.mp h
  exact httpTrimOws_idem part

/-- Every `;`-separated parameter behind the leading token satisfies `predicate`. -/
def httpAllParameters (value : Bytes) (predicate : Bytes → Bool) : Bool :=
  ((httpSplitUnquoted semicolon (value.length + 1) value).drop 1).all fun part =>
    predicate (httpTrimOws part)

/-! ## List members -/

inductive HttpFieldListRole where
  | recipient
  | sender
  deriving DecidableEq, Repr

inductive HttpFieldListParseStatus where
  | ok
  | malformed
  | rejected
  deriving DecidableEq, Repr

/-- The walk of `http_visit_list_members` over the members `items`, threading the visitor's state. -/
def httpVisitMembers {σ : Type} (role : HttpFieldListRole)
    (visitor : σ → Bytes → σ × HttpFieldListParseStatus) :
    σ → List Bytes → σ × HttpFieldListParseStatus
  | s, [] => (s, .ok)
  | s, member :: items =>
    if member.isEmpty then
      match role with
      | .sender => (s, .malformed)
      | .recipient => httpVisitMembers role visitor s items
    else
      match visitor s member with
      | (s', .ok) => httpVisitMembers role visitor s' items
      | stopped => stopped

def httpVisitListMembers {σ : Type} (value : Bytes) (role : HttpFieldListRole) (init : σ)
    (visitor : σ → Bytes → σ × HttpFieldListParseStatus) : σ × HttpFieldListParseStatus :=
  httpVisitMembers role visitor init (httpCommaSeparatedQuotedFieldItems value)

/-- `#token` lists: a member that is no token is malformed, a visitor without result rejects. -/
def httpVisitTokenList {σ : Type} (value : Bytes) (role : HttpFieldListRole) (init : σ)
    (visitor : σ → Bytes → Option σ) : σ × HttpFieldListParseStatus :=
  httpVisitListMembers value role init fun s member =>
    if isValidHttpHeaderName member then
      match visitor s member with
      | some s' => (s', .ok)
      | none => (s, .rejected)
    else (s, .malformed)

/-! ## Quoted strings and parameters -/

/-- `http_quoted_string_cursor` behind the opening quote: the position behind the closing one. -/
def httpQuotedStringEnd : Nat → Bytes → Option Nat
  | _, [] => none
  | position, byte :: rest =>
    if byte = dquote then some (position + 1)
    else if byte = backslash then
      match rest with
      | [] => none
      | escaped :: rest' =>
        if isHttpFieldValueChar escaped then httpQuotedStringEnd (position + 2) rest' else none
    else if isHttpFieldValueChar byte then httpQuotedStringEnd (position + 1) rest
    else none

/-- Length of the well-formed quoted-string that starts `input`, or 0. -/
def httpQuotedStringSize : Bytes → Nat
  | [] => 0
  | first :: rest => if first = dquote then (httpQuotedStringEnd 1 rest).getD 0 else 0

def httpIsQuotedString (value : Bytes) : Bool :=
  !value.isEmpty && httpQuotedStringSize value == value.length

def isHttpTokenOrQuotedString (value : Bytes) : Bool :=
  match value with
  | [] => false
  | first :: _ => if first = dquote then httpIsQuotedString value else isValidHttpHeaderName value

/-- `token BWS "=" BWS ( token / quoted-string )`. -/
def isValidHttpTransferParameter (part : Bytes) : Bool :=
  match findByte equalsSign part 0 with
  | none => false
  | some equals =>
    isValidHttpHeaderName (httpTrimOws (part.take equals)) &&
      isHttpTokenOrQuotedString (httpTrimOws (part.drop (equals + 1)))

end Ruvia.Http
