import Ruvia.Http.ByteRange
import Ruvia.Http.MediaTypes

/-!
# `Http.MultipartRangePlan` — the multipart/byteranges plan

`make_http_multipart_byte_range_plan`: the lengths are counted first, part by part, and then the metadata is written
once, with segments that point into it and into the file. Sizes are 64-bit; where the program's arithmetic would wrap or
an array would be written beyond its end the model ends in `fault`.
-/

namespace Ruvia.Http

open Library

/-- A `std::string_view`: no object is larger than half of the address space. -/
abbrev StringView := { text : Bytes // text.length < 2 ^ 63 }

/-! ## Boundaries -/

/-- `non_space_char`. -/
def isBoundaryNonSpaceChar (byte : UInt8) : Bool :=
  isDigit byte || isUpper byte || isLower byte || (lit "'()+_,-./:=?").contains byte

def maxBoundarySize : Nat := 70

/-- `multipart_boundary::valid`. -/
def isValidMultipartBoundary (value : Bytes) : Bool :=
  if value = [] ∨ maxBoundarySize < value.length ∨ value.getLast? = some sp then false
  else value.all fun byte => byte == sp || isBoundaryNonSpaceChar byte

/-- The bytes that `http_quoted_string_cursor` yields behind the opening quote. -/
def quotedStringBytes : Bytes → Bytes
  | [] => []
  | byte :: rest =>
    if byte = dquote then []
    else if byte = backslash then
      match rest with
      | [] => []
      | escaped :: rest' => if isHttpFieldValueChar escaped then escaped :: quotedStringBytes rest' else []
    else if isHttpFieldValueChar byte then byte :: quotedStringBytes rest
    else []

/-- `decode_multipart_boundary_parameter`: the boundary that a parameter value stands for. -/
def decodeMultipartBoundaryParameter (parameter : Bytes) : Option Bytes :=
  if parameter.head? ≠ some dquote then
    if maxBoundarySize < parameter.length then none else some parameter
  else
    let decoded := quotedStringBytes parameter.tail
    if maxBoundarySize < decoded.length then none else some decoded

/-! ## The plan -/

/-- A fragment of the body: bytes of the metadata or bytes of the file. -/
inductive Segment where
  | metadata (offset length : Nat)
  | file (offset length : Nat)
  deriving DecidableEq, Repr

def Segment.isMetadata : Segment → Bool
  | .metadata _ _ => true
  | .file _ _ => false

def Segment.length : Segment → Nat
  | .metadata _ length => length
  | .file _ length => length

/-- `http_multipart_byte_range_plan`. -/
structure HttpMultipartByteRangePlan where
  contentType : Bytes
  metadata : Bytes
  segments : List Segment
  contentLength : Nat
  deriving DecidableEq, Repr

/-- The elements of the array of segments. -/
def maxSegments : Nat := HttpByteRangeSet.capacity * 2 + 1

inductive PlanFailure where
  | invalidArgument (message : String)
  | lengthError (message : String)
  | fault
  deriving DecidableEq, Repr

def orFault {α : Type} : Option α → Except PlanFailure α
  | some a => .ok a
  | none => .error .fault

/-! ## Sizes -/

/-- `http_unsigned_decimal_size`. -/
def httpUnsignedDecimalSize (value : Nat) : Nat :=
  if 10 ≤ value then httpUnsignedDecimalSize (value / 10) + 1 else 1

/-- The last position of a range. -/
def lastPosition (range : HttpByteRange) : Option Nat := do
  let stop ← checkedAdd range.offset range.length
  checkedSub stop 1

def partMetadataSize (boundarySize mediaTypeSize representationLength : Nat) (range : HttpByteRange) : Option Nat := do
  let last ← lastPosition range
  [2, boundarySize, 16, mediaTypeSize, 23, httpUnsignedDecimalSize range.offset, 1, httpUnsignedDecimalSize last, 1,
    httpUnsignedDecimalSize representationLength, 6].foldlM checkedAdd 0

structure PlanSizes where
  metadataSize : Nat
  totalContentLength : Nat
  deriving DecidableEq, Repr

/-- One round of the loop that counts. -/
def addPartSize (boundarySize mediaTypeSize representationLength : Nat) (sizes : PlanSizes) (range : HttpByteRange) :
    Except PlanFailure PlanSizes :=
  if range.length = 0 ∨ representationLength < range.offset ∨ representationLength - range.offset < range.length then
    .error (.invalidArgument "multipart range is outside the representation")
  else do
    let partSize ← orFault (partMetadataSize boundarySize mediaTypeSize representationLength range)
    if 2 ^ 64 - 1 - sizes.metadataSize < partSize then
      .error (.lengthError "multipart response metadata size overflows size_t")
    else do
      let metadataSize ← orFault (checkedAdd sizes.metadataSize partSize)
      -- the second sum is formed only where the first comparison has shown that it fits
      if 2 ^ 64 - 1 - partSize < sizes.totalContentLength ∨
          2 ^ 64 - 1 - range.length < sizes.totalContentLength + partSize then
        .error (.lengthError "multipart response content length overflows uint64_t")
      else do
        let added ← orFault (checkedAdd partSize range.length)
        let total ← orFault (checkedAdd sizes.totalContentLength added)
        .ok ⟨metadataSize, total⟩

/-- The sizes of the whole body, the closing delimiter first. -/
def planSizes (boundarySize mediaTypeSize representationLength : Nat) (ranges : List HttpByteRange) :
    Except PlanFailure PlanSizes :=
  ranges.foldlM (addPartSize boundarySize mediaTypeSize representationLength)
    ⟨2 + boundarySize + 4, 2 + boundarySize + 4⟩

/-! ## Writing -/

/-- The metadata written so far and the segments. -/
structure PlanStorage where
  metadata : Bytes := []
  segments : List Segment := []
  deriving DecidableEq, Repr

def PlanStorage.pushSegment (storage : PlanStorage) (segment : Segment) : Except PlanFailure PlanStorage :=
  if storage.segments.length < maxSegments then .ok { storage with segments := storage.segments ++ [segment] }
  else .error .fault

def PlanStorage.append (storage : PlanStorage) (text : Bytes) : PlanStorage :=
  { storage with metadata := storage.metadata ++ text }

/-- `record_metadata`: extends the last segment where it is metadata that ends at `offset`. -/
def PlanStorage.recordMetadata (storage : PlanStorage) (offset : Nat) : Except PlanFailure PlanStorage :=
  match storage.segments.getLast? with
  | some (.metadata previousOffset previousLength) =>
    if previousOffset + previousLength = offset then
      .ok { storage with
        segments := storage.segments.dropLast ++ [.metadata previousOffset (storage.metadata.length - previousOffset)] }
    else storage.pushSegment (.metadata offset (storage.metadata.length - offset))
  | _ => storage.pushSegment (.metadata offset (storage.metadata.length - offset))

/-- What is written in front of the bytes of a range. -/
def partHeader (boundary mediaType : Bytes) (representationLength offset last : Nat) : Bytes :=
  lit "--" ++ boundary ++ lit "\r\nContent-Type: " ++ mediaType ++ lit "\r\nContent-Range: bytes " ++ decimal offset ++
    [hyphen] ++ decimal last ++ [slash] ++ decimal representationLength ++ lit "\r\n\r\n"

/-- One round of the loop that writes. -/
def writePart (boundary mediaType : Bytes) (representationLength : Nat) (storage : PlanStorage)
    (range : HttpByteRange) : Except PlanFailure PlanStorage := do
  let last ← orFault (lastPosition range)
  let written := storage.append (partHeader boundary mediaType representationLength range.offset last)
  let storage ← written.recordMetadata storage.metadata.length
  let storage ← storage.pushSegment (.file range.offset range.length)
  (storage.append (lit "\r\n")).recordMetadata storage.metadata.length

def closing (boundary : Bytes) : Bytes := lit "--" ++ boundary ++ lit "--\r\n"

def writeParts (boundary mediaType : Bytes) (representationLength : Nat) (ranges : List HttpByteRange) :
    Except PlanFailure PlanStorage := do
  let storage ← ranges.foldlM (writePart boundary mediaType representationLength) {}
  (storage.append (closing boundary)).recordMetadata storage.metadata.length

/-- The value of the Content-Type field; a boundary that is not a token is quoted. -/
def planContentType (boundary : Bytes) : Bytes :=
  lit "multipart/byteranges; boundary=" ++
    if httpTokenPrefixSize boundary = boundary.length then boundary else dquote :: (boundary ++ [dquote])

/-- `make_http_multipart_byte_range_plan`; `resource` says that there is a memory resource. -/
def makeHttpMultipartByteRangePlan (ranges : HttpByteRangeSet) (representationLength : Nat) (mediaType : StringView)
    (boundary : Bytes) (resource : Bool) : Except PlanFailure HttpMultipartByteRangePlan :=
  if ranges.ignored ∨ ranges.unsatisfiable ∨ ranges.ranges.length < 2 ∨
      HttpByteRangeSet.capacity < ranges.ranges.length ∨ representationLength = 0 ∨
      isValidHttpContentTypeFieldValue mediaType.val = false ∨ isValidMultipartBoundary boundary = false ∨
      resource = false then
    .error (.invalidArgument "invalid multipart byte-range plan input")
  else do
    let sizes ← planSizes boundary.length mediaType.val.length representationLength ranges.ranges
    let storage ← writeParts boundary mediaType.val representationLength ranges.ranges
    .ok {
      contentType := planContentType boundary
      metadata := storage.metadata
      segments := storage.segments
      contentLength := sizes.totalContentLength }

end Ruvia.Http
