import Ruvia.Http.RequestFields

/-!
# `Http.HeaderBlock` — finding and parsing a request head

`http_header_block_parser.cpp` and `scan_http1_field_line`. The scans keep the source's offsets; a parser
that walks a cursor through `buffer.substr(0, headers_end)` takes the text from the cursor on and returns
the text behind what it read.
-/

namespace Ruvia.Http

open Library

inductive HttpParseError where
  | headerTooLarge
  | uriTooLong
  | invalidRequestLine
  | unsupportedHttpVersion
  | invalidRequestTarget
  | invalidHeader
  | invalidConnection
  | invalidUpgrade
  | missingHost
  | invalidHost
  | invalidContentLength
  | conflictingContentLength
  | invalidTransferEncoding
  | unsupportedTransferEncoding
  deriving DecidableEq, Repr

inductive HttpProtocolVersion where
  | http10
  | http11
  deriving DecidableEq, Repr

/-! ## Scans -/

/-- The LF loop of `find_http_header_end`; every round moves the cursor. -/
def findHttpHeaderEndLoop (buffer : Bytes) : Nat → Nat → Option Nat
  | 0, _ => none
  | fuel + 1, cursor =>
    if buffer.length ≤ cursor then none
    else
      match if buffer[cursor]? = some lf then some cursor else findByte lf buffer (cursor + 1) with
      | none => none
      | some i =>
        if buffer[i - 1]? = some cr then
          if buffer[i - 2]? = some lf ∧ buffer[i - 3]? = some cr then some (i + 1)
          else if i + 2 < buffer.length ∧ buffer[i + 1]? = some cr ∧ buffer[i + 2]? = some lf then
            some (i + 3)
          else findHttpHeaderEndLoop buffer fuel (i + 3)
        else findHttpHeaderEndLoop buffer fuel (i + 1)

def findHttpHeaderEnd (buffer : Bytes) (searchOffset : Nat) : Option Nat :=
  let buffer := buffer.take maxHttpHeaderBytes
  if buffer.length < 4 then none
  else findHttpHeaderEndLoop buffer (buffer.length + 1) (max 3 searchOffset)

/-- An LF behind `searchOffset` that no CR precedes. -/
def hasHttpBareLineFeedLoop (buffer : Bytes) : Nat → Nat → Bool
  | 0, _ => false
  | fuel + 1, offset =>
    match findByte lf buffer offset with
    | none => false
    | some lineFeed =>
      if buffer[lineFeed - 1]? ≠ some cr then true else hasHttpBareLineFeedLoop buffer fuel (lineFeed + 1)

def hasHttpBareLineFeed (buffer : Bytes) (searchOffset : Nat) : Bool :=
  let buffer := buffer.take maxHttpHeaderBytes
  hasHttpBareLineFeedLoop buffer (buffer.length + 1) (max searchOffset 1)

/-- Bytes of the empty lines at the front. -/
def emptyLineBytes : Bytes → Nat
  | [] => 0
  | [b] => if b = lf then 1 else 0
  | b :: c :: rest =>
    if b = lf then 1 + emptyLineBytes (c :: rest)
    else if b = cr ∧ c = lf then 2 + emptyLineBytes rest
    else 0

def httpRequestLeadingEmptyLineBytes (buffer : Bytes) (skipped : Nat) : Nat :=
  let buffer := buffer.take maxHttpHeaderBytes
  let cursor := min skipped buffer.length
  cursor + emptyLineBytes (buffer.drop cursor)

/-- The new `leading_bytes`, and the end of the head measured from the start of the buffer. -/
def findHttpRequestHeadEnd (buffer : Bytes) (leadingBytes searchOffset : Nat) : Nat × Option Nat :=
  let leadingBytes := httpRequestLeadingEmptyLineBytes buffer leadingBytes
  if maxHttpHeaderBytes ≤ leadingBytes then (leadingBytes, none)
  else
    (leadingBytes,
      (findHttpHeaderEnd (sub buffer leadingBytes (maxHttpHeaderBytes - leadingBytes))
        (searchOffset - leadingBytes)).map (leadingBytes + ·))

/-! ## The request line -/

structure ParsedRequestLine where
  method : Bytes
  target : Bytes
  protocolVersion : HttpProtocolVersion
  deriving DecidableEq, Repr

/-- `HTTP/1.x`; a higher minor version is processed as HTTP/1.1. -/
def parseHttpVersion : Bytes → Except HttpParseError HttpProtocolVersion
  | [h, t, t', p, s, major, d, minor] =>
    if [h, t, t', p, s] ≠ lit "HTTP/" ∨ isDigit major = false ∨ d ≠ dot ∨ isDigit minor = false then
      .error .invalidRequestLine
    else if major ≠ 0x31 then .error .unsupportedHttpVersion
    else .ok (if minor = 0x30 then .http10 else .http11)
  | _ => .error .invalidRequestLine

def isTargetByte (b : UInt8) : Bool := b != sp && b != cr && b != lf

/-- `parse_request_line` on the text from the cursor on; the text behind the line's CRLF. -/
def parseRequestLine (text : Bytes) : Except HttpParseError (ParsedRequestLine × Bytes) :=
  let method := text.takeWhile isHttpTokenChar
  match text.dropWhile isHttpTokenChar with
  | [] => .error .invalidRequestLine
  | c :: afterMethod =>
    if method.isEmpty ∨ c ≠ sp then .error .invalidRequestLine
    else
      let target := afterMethod.takeWhile isTargetByte
      match afterMethod.dropWhile isTargetByte with
      | [] => .error .invalidRequestLine
      | d :: afterTarget =>
        if target.isEmpty ∨ d ≠ sp then .error .invalidRequestLine
        else
          let version := afterTarget.takeWhile isTargetByte
          match afterTarget.dropWhile isTargetByte with
          | e :: f :: rest =>
            if version.isEmpty ∨ e ≠ cr ∨ f ≠ lf then .error .invalidRequestLine
            else
              match parseHttpVersion version with
              | .error error => .error error
              | .ok protocolVersion => .ok (⟨method, target, protocolVersion⟩, rest)
          | _ => .error .invalidRequestLine

/-- `classify_http_request_line_prefix`: an error, or the end of an accepted line if it is there. -/
def classifyHttpRequestLinePrefix (buffer : Bytes) (leadingBytes searchOffset : Nat) :
    Except HttpParseError (Option Nat) :=
  let buffer := buffer.take maxHttpHeaderBytes
  match buffer[leadingBytes]? with
  | none => .ok none
  | some first =>
    if first = cr ∧ leadingBytes + 1 = buffer.length then .ok none
    else if isHttpTokenChar first = false then .error .invalidRequestLine
    else
      match findByte lf buffer (max leadingBytes searchOffset) with
      | none => .ok none
      | some lineFeed =>
        match parseRequestLine ((buffer.take (lineFeed + 1)).drop leadingBytes) with
        | .error error => .error error
        | .ok (_, rest) => .ok (some (lineFeed + 1 - rest.length))

/-! ## Fields -/

/-- One received field: `parsed_request_header_slot` with its slices bound. -/
structure ParsedRequestHeader where
  name : Bytes
  value : Bytes
  kind : RequestHeaderKind
  deriving DecidableEq, Repr

structure ParsedRequestHeaderBlock where
  method : Bytes := []
  target : Bytes := []
  protocolVersion : HttpProtocolVersion := .http11
  headers : List ParsedRequestHeader := []
  hostHeaderIndex : Option Nat := none
  connectionOptions : HttpConnectionOptions := {}
  contentLength : HttpContentLengthState := {}
  fields : RequestFieldState := {}
  transferEncoding : HttpTransferEncodingState := {}
  expectations : HttpRequestExpectations := {}
  deriving DecidableEq, Repr

/-- `scan_http1_field_line` on the text from the cursor on: name, value and the text behind the CRLF. -/
def scanHttp1FieldLine (text : Bytes) : Option (Bytes × Bytes × Bytes) :=
  let nameSize := httpTokenPrefixSize text
  if nameSize = 0 ∨ text[nameSize]? ≠ some colon then none
  else
    let behind := (text.drop (nameSize + 1)).dropWhile isHttpOwsChar
    let valueSize := httpFieldValuePrefixSize behind
    match behind.drop valueSize with
    | c :: l :: rest =>
      if c = cr ∧ l = lf then
        some (text.take nameSize, (behind.take valueSize).rdropWhile isHttpOwsChar, rest)
      else none
    | _ => none

/-- What one field means on HTTP/1. -/
def applyRequestHeader (kind : RequestHeaderKind) (value : Bytes) (ignoreUpgrade : Bool)
    (block : ParsedRequestHeaderBlock) : Except HttpParseError ParsedRequestHeaderBlock :=
  match validateRequestField kind value block.fields with
  | (_, .invalid) => .error (if kind = .host then .invalidHost else .invalidHeader)
  | (fields, .ok) =>
    let block := { block with fields }
    match kind with
    | .contentLength =>
      match block.contentLength.parseField value with
      | (contentLength, .ok) => .ok { block with contentLength }
      | (_, .invalid) => .error .invalidContentLength
      | (_, .conflicting) => .error .conflictingContentLength
    | .transferEncoding =>
      match block.transferEncoding.parseField value with
      | (_, .malformed) => .error .invalidTransferEncoding
      | (transferEncoding, _) => .ok { block with transferEncoding }
    | .connection =>
      match block.connectionOptions.parseField value with
      | (connectionOptions, .ok) => .ok { block with connectionOptions }
      | _ => .error .invalidConnection
    | .expect => .ok { block with expectations := block.expectations.parseField value }
    | .upgrade =>
      if !ignoreUpgrade && !isValidReceivedHttpUpgradeFieldValue value then .error .invalidUpgrade
      else .ok block
    | _ => .ok block

/-- The loop of `parse_header_fields`; every field line takes at least a byte. -/
def parseHeaderFields (ignoreUpgrade : Bool) :
    Nat → Bytes → ParsedRequestHeaderBlock → Except HttpParseError ParsedRequestHeaderBlock
  | 0, _, _ => .error .invalidHeader
  | fuel + 1, text, block =>
    if text.isEmpty then .ok block
    else if block.headers.length = maxHttpHeaderFields then .error .headerTooLarge
    else
      match scanHttp1FieldLine text with
      | none => .error .invalidHeader
      | some (name, value, rest) =>
        let kind := classifyRequestHeader name
        match applyRequestHeader kind value ignoreUpgrade block with
        | .error error => .error error
        | .ok applied =>
          parseHeaderFields ignoreUpgrade fuel rest
            { applied with
              headers := applied.headers ++ [⟨name, value, kind⟩]
              hostHeaderIndex :=
                if kind = .host then some applied.headers.length else applied.hostHeaderIndex }

/-- The text of the head from the request line to the last field line. -/
def headText (buffer : Bytes) (leadingBytes headerBytes : Nat) : Bytes :=
  (buffer.take (headerBytes - 2)).drop leadingBytes

/-- The request line, and the fields behind it. -/
def parseHeadText (text : Bytes) : Except HttpParseError ParsedRequestHeaderBlock :=
  match parseRequestLine text with
  | .error error => .error error
  | .ok (line, fields) =>
    parseHeaderFields (line.protocolVersion == .http10) (fields.length + 1) fields
      { method := line.method, target := line.target, protocolVersion := line.protocolVersion }

def parseHttpHeaderBlock (buffer : Bytes) (leadingBytes headerBytes : Nat) :
    Except HttpParseError ParsedRequestHeaderBlock :=
  parseHeadText (headText buffer leadingBytes headerBytes)

end Ruvia.Http
