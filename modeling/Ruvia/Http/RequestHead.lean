import Ruvia.Http.HeaderBlock
import Ruvia.Http.RequestTarget

/-!
# `Http.RequestHead` — `http1_server_request_parse_state::parse_head`

The request, its body plan and its connection plan. `parseHead` finds the head, from the offsets an earlier
call saved, and parses it; `finishHead` is what it makes of a parsed block.
-/

namespace Ruvia.Http

open Library

/-! ## Plans -/

inductive Http1RequestFraming where
  | withoutBody
  | knownLength (contentLength : Nat)
  | chunked (transferCodings : List HttpTransferCoding)
  deriving DecidableEq, Repr

structure Http1RequestBodyPlan where
  framing : Http1RequestFraming := .withoutBody
  expectations : HttpRequestExpectations := {}
  deriving DecidableEq, Repr

inductive Http1ClosePolicy where
  | allowReuse
  | closeAfterResponse
  deriving DecidableEq, Repr

structure Http1RequestConnectionPlan where
  version : HttpProtocolVersion
  disposition : Http1ClosePolicy
  tunnelRequest : Bool := false
  deriving DecidableEq, Repr

namespace Http1RequestConnectionPlan

def http11Close : Http1RequestConnectionPlan := ⟨.http11, .closeAfterResponse, false⟩

def requireClose (plan : Http1RequestConnectionPlan) : Http1RequestConnectionPlan :=
  { plan with disposition := .closeAfterResponse }

def planHttp10 (close keepAlive : Bool) : Http1RequestConnectionPlan :=
  ⟨.http10, if !close && keepAlive then .allowReuse else .closeAfterResponse, false⟩

def planHttp11 (close : Bool) : Http1RequestConnectionPlan :=
  ⟨.http11, if close then .closeAfterResponse else .allowReuse, false⟩

end Http1RequestConnectionPlan

/-! ## The parse state -/

/-- `http_request`, as far as a head determines it. -/
structure HttpRequest where
  method : Bytes := []
  knownMethod : HttpKnownMethod := .unknown
  target : Bytes := []
  scheme : Bytes := []
  authority : Bytes := []
  path : Bytes := []
  queryString : Bytes := []
  protocolVersion : HttpProtocolVersion := .http11
  targetForm : HttpRequestTargetForm := .origin
  headers : List ParsedRequestHeader := []
  deriving DecidableEq, Repr

/-- `http1_server_need_request_head`: what has been scanned already. -/
structure Http1ServerNeedRequestHead where
  leadingBytes : Nat := 0
  requestLineEnd : Nat := 0
  deriving DecidableEq, Repr

inductive Http1ServerRequestProgress where
  | needRequestHead (scan : Http1ServerNeedRequestHead)
  | headReady (headerBytes : Nat)
  | failure (error : HttpParseError)
  deriving DecidableEq, Repr

structure Http1ServerRequestParseState where
  request : HttpRequest := {}
  bodyPlan : Http1RequestBodyPlan := {}
  connectionPlan : Http1RequestConnectionPlan := .http11Close
  progress : Http1ServerRequestProgress := .needRequestHead {}
  deriving DecidableEq, Repr

/-- The lambda `fail` of `parse_head`: nothing but the version and the tunnel mark survives. -/
def failHead (error : HttpParseError) (connectionPlan : Http1RequestConnectionPlan := .http11Close) :
    Http1ServerRequestParseState :=
  { connectionPlan := connectionPlan.requireClose, progress := .failure error }

/-- The cap was hit in front of the end of the request line, or behind it. -/
def classifyHeadCap (buffer : Bytes) (leadingBytes requestLineEnd : Nat) : HttpParseError :=
  let buffer := buffer.take maxHttpHeaderBytes
  if requestLineEnd ≠ 0 ∨ buffer.length ≤ leadingBytes then .headerTooLarge
  else
    let line := buffer.drop leadingBytes
    match findByte sp line 0 with
    | none => .headerTooLarge
    | some methodEnd =>
      if (line.drop (methodEnd + 1)).all isTargetByte then .uriTooLong else .headerTooLarge

/-- `bound_host_field_value`: an absolute or authority form is the Host value. -/
def boundHostFieldValue (targetView : RequestTargetView) (value : Bytes) : Bytes :=
  if targetView.form = .absolute ∨ targetView.form = .authority then targetView.authority else value

/-- The published fields: those of the block, with the Host field bound to the target. -/
def bindHeaders (targetView : RequestTargetView) (hostHeaderIndex : Option Nat)
    (headers : List ParsedRequestHeader) : List ParsedRequestHeader :=
  headers.mapIdx fun i header =>
    if hostHeaderIndex = some i then { header with value := boundHostFieldValue targetView header.value }
    else header

/-- The connection plan a parsed head starts with. -/
def headConnectionPlan (block : ParsedRequestHeaderBlock) (method : HttpKnownMethod) :
    Http1RequestConnectionPlan :=
  let plan :=
    match block.protocolVersion with
    | .http11 => Http1RequestConnectionPlan.planHttp11 block.connectionOptions.close
    | .http10 =>
      Http1RequestConnectionPlan.planHttp10 block.connectionOptions.close block.connectionOptions.keepAlive
  if method = .connect then { plan with tunnelRequest := true } else plan

/-- What framing the fields decide on, or why the message boundary would be ambiguous. -/
def decideFraming (block : ParsedRequestHeaderBlock) (method : HttpKnownMethod) :
    Except HttpParseError Http1RequestFraming :=
  match block.transferEncoding.value, block.contentLength.value with
  | some _, some _ => .error .invalidTransferEncoding
  | some transferEncoding, none =>
    if method = .connect then .error .invalidTransferEncoding
    else if transferEncoding.finalChunked = false then .error .invalidTransferEncoding
    else if block.protocolVersion = .http10 then .error .invalidTransferEncoding
    else if block.transferEncoding.unsupported then .error .unsupportedTransferEncoding
    else .ok (.chunked transferEncoding.transferCodings)
  | none, some contentLength =>
    if method = .connect ∧ contentLength ≠ 0 then .error .invalidContentLength
    else if block.transferEncoding.unsupported then .error .unsupportedTransferEncoding
    else .ok (.knownLength contentLength)
  | none, none =>
    if block.transferEncoding.unsupported then .error .unsupportedTransferEncoding else .ok .withoutBody

/-- The part of `parse_head` behind `parse_http_header_block`. A block never holds more fields than
`add_header` has room for, and a content length always fits a `std::size_t`. -/
def finishHead (block : ParsedRequestHeaderBlock) (headerBytes : Nat) : Http1ServerRequestParseState :=
  let knownMethod := classifyHttpMethod block.method
  let connectionPlan := headConnectionPlan block knownMethod
  match parseRequestTarget knownMethod block.target with
  | none => failHead .invalidRequestTarget connectionPlan
  | some targetView =>
    if block.protocolVersion = .http11 ∧ block.hostHeaderIndex = none then
      failHead .missingHost connectionPlan
    else
      match decideFraming block knownMethod with
      | .error error => failHead error connectionPlan
      | .ok framing =>
        { request :=
            { method := block.method
              knownMethod
              target := block.target
              scheme := targetView.scheme
              authority := targetView.authority
              path := targetView.path
              queryString := targetView.query
              protocolVersion := block.protocolVersion
              targetForm := targetView.form
              headers := bindHeaders targetView block.hostHeaderIndex block.headers }
          bodyPlan :=
            { framing
              expectations :=
                if block.protocolVersion = .http10 then block.expectations.ignoreContinue
                else block.expectations }
          connectionPlan
          progress := .headReady headerBytes }

/-- The scan progress a call starts with: an earlier search offset discards what lies behind it. -/
def resumeScan (progress : Http1ServerRequestProgress) (headerSearchOffset : Nat) :
    Http1ServerNeedRequestHead :=
  let scan :=
    match progress with
    | .needRequestHead scan => scan
    | _ => {}
  { leadingBytes := min scan.leadingBytes headerSearchOffset
    requestLineEnd := if scan.requestLineEnd ≤ headerSearchOffset then scan.requestLineEnd else 0 }

/-- The end of the request line once the head is known to be incomplete, or an early rejection. -/
def advanceRequestLine (buffer : Bytes) (leadingBytes requestLineEnd headerSearchOffset : Nat) :
    Except HttpParseError Nat :=
  if requestLineEnd = 0 then
    (classifyHttpRequestLinePrefix buffer leadingBytes headerSearchOffset).map fun found => found.getD 0
  else .ok requestLineEnd

/-- The part of `parse_head` for a buffer without a complete head. -/
def awaitHead (buffer : Bytes) (leadingBytes requestLineEnd headerSearchOffset : Nat) :
    Http1ServerRequestParseState :=
  match advanceRequestLine buffer leadingBytes requestLineEnd headerSearchOffset with
  | .error error => failHead error
  | .ok requestLineEnd =>
    if requestLineEnd ≠ 0 ∧ hasHttpBareLineFeed buffer (max requestLineEnd headerSearchOffset) then
      failHead .invalidHeader
    else if maxHttpHeaderBytes ≤ buffer.length then
      failHead (classifyHeadCap buffer leadingBytes requestLineEnd)
    else { progress := .needRequestHead { leadingBytes, requestLineEnd } }

namespace Http1ServerRequestParseState

def parseHead (state : Http1ServerRequestParseState) (buffer : Bytes) (headerSearchOffset : Nat) :
    Http1ServerRequestParseState :=
  let scan := resumeScan state.progress headerSearchOffset
  match findHttpRequestHeadEnd buffer scan.leadingBytes headerSearchOffset with
  | (leadingBytes, none) => awaitHead buffer leadingBytes scan.requestLineEnd headerSearchOffset
  | (leadingBytes, some headerBytes) =>
    match parseHttpHeaderBlock buffer leadingBytes headerBytes with
    | .error error => failHead error
    | .ok block => finishHead block headerBytes

end Http1ServerRequestParseState

/-- A call on a fresh state, with nothing scanned before. -/
def parseHeadOnce (buffer : Bytes) : Http1ServerRequestParseState :=
  Http1ServerRequestParseState.parseHead {} buffer 0

example : (parseHeadOnce (lit "\r\nGET /a?b HTTP/1.1\r\nHost: x\r\nContent-Length: 3, 3\r\n\r\nabc")).bodyPlan =
    { framing := .knownLength 3 } := by decide +kernel

end Ruvia.Http
