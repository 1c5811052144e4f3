import Ruvia.Http.ContentLength
import Ruvia.Http.RequestHeaderKind
import Ruvia.Http.TransferEncoding

/-!
# `Http.RequestFields` — what a received request field may say

The recipient side of `validate_request_field` over HTTP/1, with the grammars it asks (`Expect`, `TE`,
`Host`), and the incremental list parsers of `Connection`, `Upgrade` and `Expect`. For a recipient the
other kinds of `is_valid_value` accept every value, so they have no definition here.
-/

namespace Ruvia.Http

open Library

/-! ## Expect -/

/-- Parameter without whitespace around `=`. -/
def isExactHttpParameter (part : Bytes) : Bool :=
  match findByte equalsSign part 0 with
  | none => false
  | some equals =>
    isValidHttpHeaderName (part.take equals) && isHttpTokenOrQuotedString (part.drop (equals + 1))

def httpExpectationItem (item : Bytes) : Bool :=
  let item := httpTrimOws item
  if item.isEmpty then false
  else
    let parametersStart := httpFindUnquotedDelimiter item 0 semicolon
    let leading := httpTrimOws (item.take parametersStart)
    if (findByte equalsSign leading 0).isNone then
      parametersStart == item.length && isValidHttpHeaderName leading
    else
      isExactHttpParameter leading &&
        httpAllParameters item fun parameter => parameter.isEmpty || isExactHttpParameter parameter

/-- A list whose every nonempty member satisfies `isMember`. -/
def isHttpListOf (isMember : Bytes → Bool) (value : Bytes) : Bool :=
  (httpVisitListMembers value .recipient () fun s member =>
    (s, if isMember member then .ok else .malformed)).2 == .ok

def isValidReceivedHttpExpectFieldValue (value : Bytes) : Bool := isHttpListOf httpExpectationItem value

/-- `http_request_expectations`: the two facts of its flag byte. -/
structure HttpRequestExpectations where
  hasContinue : Bool := false
  hasUnsupported : Bool := false
  deriving DecidableEq, Repr

namespace HttpRequestExpectations

def parseField (expectations : HttpRequestExpectations) (value : Bytes) : HttpRequestExpectations :=
  ((httpCommaSeparatedQuotedFieldItems value).filter (!·.isEmpty)).foldl
    (fun e member =>
      if httpAsciiEqualsIgnoreCase member (lit "100-continue") then { e with hasContinue := true }
      else { e with hasUnsupported := true })
    expectations

def ignoreContinue (expectations : HttpRequestExpectations) : HttpRequestExpectations :=
  { expectations with hasContinue := false }

end HttpRequestExpectations

/-! ## TE -/

/-- `http_parse_quality_value`; `none` where the source answers -1. -/
def httpParseQualityValue (value : Bytes) : Option Nat :=
  let value := httpTrimOws value
  if value = lit "1" then some 1000
  else if value = lit "0" then some 0
  else
    match value with
    | first :: d :: digits =>
      if d ≠ dot then none
      else if first = 0x31 then
        if digits.length ≤ 3 ∧ digits.all (· == 0x30) then some 1000 else none
      else if first = 0x30 then
        if digits.length ≤ 3 ∧ digits.all isDigit then
          some (decimalValue digits * 10 ^ (3 - digits.length))
        else none
      else none
    | _ => none

/-- The parameter walk of `is_valid_http_te_field_item` for a recipient; the state is `quality_seen`. -/
def teParametersValid (qualitySeen : Bool) : List Bytes → Bool
  | [] => true
  | parameter :: parameters =>
    match findByte equalsSign parameter 0 with
    | none => false
    | some equals =>
      let rawName := parameter.take equals
      let rawValue := parameter.drop (equals + 1)
      let name := httpTrimOws rawName
      let value := httpTrimOws rawValue
      if httpAsciiEqualsIgnoreCase name (lit "q") then
        if qualitySeen || rawName != name || rawValue != value || (httpParseQualityValue value).isNone then
          false
        else teParametersValid true parameters
      else isValidHttpTransferParameter parameter && teParametersValid qualitySeen parameters

def isValidReceivedHttpTeFieldItem (item : Bytes) : Bool :=
  let firstSemicolon := httpFindUnquotedDelimiter item 0 semicolon
  let coding := httpTrimOws (item.take firstSemicolon)
  if isValidHttpHeaderName coding = false then false
  else if httpAsciiEqualsIgnoreCase coding (lit "trailers") then firstSemicolon == item.length
  else
    let parameters := item.drop firstSemicolon
    teParametersValid false
      (((httpSplitUnquoted semicolon (parameters.length + 1) parameters).drop 1).map httpTrimOws)

def isValidReceivedHttpTeFieldValue (value : Bytes) : Bool :=
  (httpTrimOws value).isEmpty || isHttpListOf isValidReceivedHttpTeFieldItem value

/-! ## Connection and Upgrade -/

/-- `http_connection_options`: the recognised options, and whether the field was present. -/
structure HttpConnectionOptions where
  close : Bool := false
  keepAlive : Bool := false
  upgrade : Bool := false
  te : Bool := false
  hasField : Bool := false
  deriving DecidableEq, Repr

/-- `http_connection_option_names_protected_field` for the recipient of a request. -/
def httpConnectionOptionNamesProtectedField (option : Bytes) : Bool :=
  match classifyRequestHeader option with
  | .contentLength | .transferEncoding | .host | .authorization | .cookie | .origin => true
  | _ => httpAsciiEqualsIgnoreCase option (lit "Set-Cookie")

namespace HttpConnectionOptions

/-- `parse_field` for the recipient of a request; the options change only when the whole line is valid. -/
def parseField (options : HttpConnectionOptions) (fieldValue : Bytes) :
    HttpConnectionOptions × HttpFieldListParseStatus :=
  let (parsed, status) := httpVisitTokenList fieldValue .recipient options fun bits option =>
    if httpConnectionOptionNamesProtectedField option then none
    else if httpAsciiEqualsIgnoreCase option (lit "close") then some { bits with close := true }
    else if httpAsciiEqualsIgnoreCase option (lit "keep-alive") then some { bits with keepAlive := true }
    else if httpAsciiEqualsIgnoreCase option (lit "Upgrade") then some { bits with upgrade := true }
    else if httpAsciiEqualsIgnoreCase option (lit "TE") then some { bits with te := true }
    else some bits
  if status = .ok then ({ parsed with hasField := true }, .ok) else (options, status)

end HttpConnectionOptions

/-- `http_parse_upgrade_protocol`: `token [ "/" token ]`. -/
def isHttpUpgradeProtocol (value : Bytes) : Bool :=
  match findByte slash value 0 with
  | none => isValidHttpHeaderName value
  | some separator =>
    isValidHttpHeaderName (value.take separator) && isValidHttpHeaderName (value.drop (separator + 1)) &&
      (findByte slash (value.drop (separator + 1)) 0).isNone

/-- `http_upgrade_protocols::parse_field` succeeds for a recipient. -/
def isValidReceivedHttpUpgradeFieldValue (value : Bytes) : Bool := isHttpListOf isHttpUpgradeProtocol value

/-! ## The field check -/

inductive RequestFieldStatus where
  | ok
  | invalid
  deriving DecidableEq, Repr

/-- `singleton_request_header_bit` or Host: the kinds that may occur once. -/
def isOnceOnly : RequestHeaderKind → Bool
  | .accessControlRequestMethod | .authorization | .contentType | .ifModifiedSince | .ifRange
  | .ifUnmodifiedSince | .origin | .range | .secWebsocketKey | .secWebsocketVersion | .userAgent
  | .host => true
  | _ => false

/-- `request_field_state`: the once-only kinds seen. -/
structure RequestFieldState where
  seen : List RequestHeaderKind := []
  deriving DecidableEq, Repr

/-- `is_valid_value` for a recipient over HTTP/1. -/
def isValidReceivedValue (kind : RequestHeaderKind) (value : Bytes) : Bool :=
  match kind with
  | .te => isValidReceivedHttpTeFieldValue value
  | .expect => isValidReceivedHttpExpectFieldValue value
  | .host => isValidHostHeader value
  | _ => true

/-- `validate_request_field` for a recipient over HTTP/1. -/
def validateRequestField (kind : RequestHeaderKind) (value : Bytes) (state : RequestFieldState) :
    RequestFieldState × RequestFieldStatus :=
  if isValidReceivedValue kind value = false then (state, .invalid)
  else if kind = .ifModifiedSince ∨ kind = .ifUnmodifiedSince ∨ kind = .userAgent then (state, .ok)
  else if isOnceOnly kind then
    if kind ∈ state.seen then (state, .invalid) else ({ state with seen := kind :: state.seen }, .ok)
  else (state, .ok)

example : isValidReceivedHttpTeFieldValue (lit "gzip;q=0.5, trailers") = true := by decide +kernel
example : isValidReceivedHttpExpectFieldValue (lit "a=b;c") = false := by decide +kernel

end Ruvia.Http
