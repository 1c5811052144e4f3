import Ruvia.Http.ChunkSizeLine
import Ruvia.Http.TrailerBlock

/-!
# `Http.ChunkedDecoder` — `http1_chunked_body_decoder`

The incremental chunk framing decoder, state by state. Each `break` of the source's `for (;;)` over the
progress states becomes a call of the next state's handler: a call of `decode` passes through at most a
delimiter, a size line and one returning state, so the handlers need no loop.

The two LF searches resume at a saved offset; `scanSizeLine` and `scanTrailers` take that offset as an
argument, so that "resumed" and "from the start" are the same function.
-/

namespace Ruvia.Http

open Library

inductive Http1ChunkDecodeError where
  | invalidFraming
  | bodyLimitExceeded
  | framingLimitExceeded
  deriving DecidableEq, Repr

inductive Http1ChunkDecodeResult where
  | needMore (consumedBytes : Nat)
  | bodyChunk (consumedBytes : Nat) (bytes : Bytes)
  | complete (consumedBytes : Nat) (trailers : Bytes)
  | failure (consumedBytes : Nat) (error : Http1ChunkDecodeError)
  deriving DecidableEq, Repr

structure Http1ChunkedBodyDecoderConfig where
  bodyLimit : ProtocolByteLimit := .unlimited
  obsFold : Http1TrailerObsFold := .reject

inductive Progress where
  | sizeLine
  | body
  | delimiter
  | trailers
  | complete
  deriving DecidableEq, Repr

/-- `http1_chunked_body_decoder`; `state` is the variant of a progress and a final error. -/
structure Http1ChunkedBodyDecoder where
  config : Http1ChunkedBodyDecoderConfig
  state : Except Http1ChunkDecodeError Progress := .ok .sizeLine
  sizeLineSearchOffset : Nat := 0
  trailerSearchOffset : Nat := 0
  remaining : Nat := 0
  decodedBytes : Nat := 0
  framingOverheadBytes : Nat := 0

/-! ## Scans -/

/-- Where the size line ends, in the window the decoder looks at. -/
inductive SizeLineScan where
  | needMore
  | limit
  | bareLineFeed
  | line (lineEnd : Nat)
  deriving DecidableEq, Repr

/-- The LF search of the size line; every LF must end a CRLF. -/
def scanSizeLine (window : Bytes) (offset : Nat) : SizeLineScan :=
  match findByte lf window offset with
  | none => if maxHttpHeaderBytes ≤ window.length then .limit else .needMore
  | some lineFeed =>
    if lineFeed = 0 ∨ window[lineFeed - 1]? ≠ some cr then .bareLineFeed else .line (lineFeed - 1)

inductive TrailerScan where
  | needMore
  | limit
  | bareLineFeed
  | section (trailerEnd : Nat)
  deriving DecidableEq, Repr

/-- The LF loop over the trailer window; an LF directly behind a CRLF ends the section. -/
def scanTrailerLines (trailers : Bytes) : Nat → Nat → TrailerScan
  | 0, _ => .needMore
  | fuel + 1, offset =>
    match findByte lf trailers offset with
    | none => if maxHttpHeaderBytes ≤ trailers.length then .limit else .needMore
    | some lineFeed =>
      if lineFeed = 0 ∨ trailers[lineFeed - 1]? ≠ some cr then .bareLineFeed
      else if 3 ≤ lineFeed ∧ trailers[lineFeed - 2]? = some lf then .section (lineFeed - 3)
      else scanTrailerLines trailers fuel (lineFeed + 1)

def scanTrailers (trailers : Bytes) (offset : Nat) : TrailerScan :=
  scanTrailerLines trailers (trailers.length + 1) offset

/-- `trailers_valid`: no name is discarded and every field is accepted. -/
def trailersValid (obsFold : Http1TrailerObsFold) (trailers : Bytes) : Bool :=
  (visitHttp1TrailerBlock trailers obsFold (fun _ => false) httpTrailerSectionBudget
    (fun (s : Unit) _ _ => (s, true)) ()).1 == .ok

/-! ## The states -/

namespace Http1ChunkedBodyDecoder

def fail (d : Http1ChunkedBodyDecoder) (consumedBytes : Nat) (error : Http1ChunkDecodeError) :
    Http1ChunkedBodyDecoder × Http1ChunkDecodeResult :=
  ({ d with state := .error error }, .failure consumedBytes error)

/-- `consume_delimiter`: CRLF at `cursor`, or nothing. -/
def consumeDelimiter (available : Bytes) (cursor : Nat) : Bool :=
  [cr, lf].isPrefixOf (available.drop cursor)

/-- `case progress::body`. -/
def decodeBody (d : Http1ChunkedBodyDecoder) (available : Bytes) (cursor maxBodyBytes : Nat) :
    Http1ChunkedBodyDecoder × Http1ChunkDecodeResult :=
  let bytesValue := min d.remaining (min (available.length - cursor) maxBodyBytes)
  if bytesValue = 0 then (d, .needMore cursor)
  else
    let body := sub available cursor bytesValue
    let cursor := cursor + bytesValue
    let d := { d with remaining := d.remaining - bytesValue }
    if d.remaining = 0 then
      if 2 ≤ available.length - cursor then
        if consumeDelimiter available cursor then
          ({ d with state := .ok .sizeLine }, .bodyChunk (cursor + 2) body)
        else fail { d with state := .ok .delimiter } cursor .invalidFraming
      else ({ d with state := .ok .delimiter }, .bodyChunk cursor body)
    else (d, .bodyChunk cursor body)

/-- `case progress::trailers`. -/
def decodeTrailers (d : Http1ChunkedBodyDecoder) (available : Bytes) (cursor : Nat) :
    Http1ChunkedBodyDecoder × Http1ChunkDecodeResult :=
  let trailers := sub available cursor maxHttpHeaderBytes
  if [cr, lf].isPrefixOf trailers then
    ({ d with state := .ok .complete }, .complete (cursor + 2) [])
  else
    match scanTrailers trailers d.trailerSearchOffset with
    | .bareLineFeed => fail d cursor .invalidFraming
    | .limit => fail d cursor .framingLimitExceeded
    | .needMore => ({ d with trailerSearchOffset := trailers.length }, .needMore cursor)
    | .section trailerEnd =>
      if trailersValid d.config.obsFold (trailers.take trailerEnd) = false then
        fail d cursor .invalidFraming
      else
        ({ d with state := .ok .complete }, .complete (cursor + (trailerEnd + 4)) (trailers.take trailerEnd))

/-- `case progress::size_line`. -/
def decodeSizeLine (d : Http1ChunkedBodyDecoder) (available : Bytes) (cursor maxBodyBytes : Nat) :
    Http1ChunkedBodyDecoder × Http1ChunkDecodeResult :=
  let line := sub available cursor maxHttpHeaderBytes
  match scanSizeLine line d.sizeLineSearchOffset with
  | .limit => fail d cursor .framingLimitExceeded
  | .needMore => ({ d with sizeLineSearchOffset := line.length }, .needMore cursor)
  | .bareLineFeed => fail d cursor .invalidFraming
  | .line lineEnd =>
    let d := { d with sizeLineSearchOffset := 0 }
    match parseHttpChunkSizeLine (line.take lineEnd) with
    | none => fail d cursor .invalidFraming
    | some sizeLine =>
      if maxHttpHeaderBytes - d.framingOverheadBytes < sizeLine.overheadBytes then
        fail d cursor .framingLimitExceeded
      else
        let d := { d with framingOverheadBytes := d.framingOverheadBytes + sizeLine.overheadBytes }
        let cursor := cursor + (lineEnd + 2)
        if sizeLine.size = 0 then
          decodeTrailers { d with state := .ok .trailers, trailerSearchOffset := 0 } available cursor
        else if d.config.bodyLimit.additionExceeds d.decodedBytes sizeLine.size then
          fail d cursor .bodyLimitExceeded
        else
          decodeBody
            { d with
              decodedBytes := d.decodedBytes + sizeLine.size
              remaining := sizeLine.size
              state := .ok .body } available cursor maxBodyBytes

/-- `case progress::delimiter`. -/
def decodeDelimiter (d : Http1ChunkedBodyDecoder) (available : Bytes) (cursor maxBodyBytes : Nat) :
    Http1ChunkedBodyDecoder × Http1ChunkDecodeResult :=
  if available.length - cursor < 2 then (d, .needMore cursor)
  else if consumeDelimiter available cursor then
    decodeSizeLine { d with state := .ok .sizeLine } available (cursor + 2) maxBodyBytes
  else fail d cursor .invalidFraming

/-- `decode(available, max_body_bytes)`; the quota is positive, as the source's guard demands. -/
def decode (d : Http1ChunkedBodyDecoder) (available : Bytes) (maxBodyBytes : Nat) :
    Http1ChunkedBodyDecoder × Http1ChunkDecodeResult :=
  match d.state with
  | .error error => (d, .failure 0 error)
  | .ok .sizeLine => decodeSizeLine d available 0 maxBodyBytes
  | .ok .body => decodeBody d available 0 maxBodyBytes
  | .ok .delimiter => decodeDelimiter d available 0 maxBodyBytes
  | .ok .trailers => decodeTrailers d available 0
  | .ok .complete => (d, .complete 0 [])

end Http1ChunkedBodyDecoder

end Ruvia.Http
