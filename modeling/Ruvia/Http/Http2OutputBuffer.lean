import Ruvia.Library.ByteString

/-!
# `Http.Http2OutputBuffer` — the outbound bytes of a connection

`http2_output_buffer.h`. Every frame is appended as one segment: its bytes go to the end of one byte store, and a record
says where they begin and end. Batches are cut off in front; what they hold stays in the store until the prefix is
erased, and their records stay while an observer is under way. The queue that this implements is `pending`: the segments
behind the cursor, each with its bytes. Sizes are 64-bit, a payload size is reduced to them.
-/

namespace Ruvia.Http.Http2OutputBuffer

open Library

def frameHeaderBytes : Nat := 9

/-- `segment_type`. -/
structure SegmentRecord where
  start : Nat
  stop : Nat
  streamId : Nat
  isData : Bool
  deriving DecidableEq, Repr

end Ruvia.Http.Http2OutputBuffer

namespace Ruvia.Http

open Library Http2OutputBuffer

/-- `http2_output_buffer`. -/
structure Http2OutputBuffer where
  bytes : Bytes := []
  segments : List SegmentRecord := []
  segmentOffset : Nat := 0
  consumed : Nat := 0
  observerDepth : Nat := 0
  deriving DecidableEq, Repr

namespace Http2OutputBuffer

/-- The length of a record's bytes less the frame header, in 64 bits. -/
def payloadSize (length : Nat) : Nat := (length + (2 ^ 64 - frameHeaderBytes)) % 2 ^ 64

def wantsWrite (buffer : Http2OutputBuffer) : Bool := decide (buffer.consumed < buffer.bytes.length)

/-- `compact_consumed_prefix`. -/
def compactConsumedPrefix (buffer : Http2OutputBuffer) : Http2OutputBuffer :=
  if buffer.observerDepth ≠ 0 ∨ buffer.consumed < 64 * 1024 ∨
      buffer.consumed < buffer.bytes.length - buffer.consumed then
    buffer
  else
    { buffer with
      bytes := buffer.bytes.drop buffer.consumed
      segments := (buffer.segments.drop buffer.segmentOffset).map fun segment =>
        { segment with
          start := if buffer.consumed < segment.start then segment.start - buffer.consumed else 0
          stop := segment.stop - buffer.consumed }
      segmentOffset := 0
      consumed := 0 }

/-- `reset_after_drain`. -/
def resetAfterDrain (buffer : Http2OutputBuffer) : Http2OutputBuffer :=
  if buffer.observerDepth = 0 then { buffer with bytes := [], segments := [], segmentOffset := 0, consumed := 0 }
  else { buffer with bytes := [], segmentOffset := buffer.segments.length, consumed := 0 }

/-- `consume_batch`. -/
def consumeBatch (buffer : Http2OutputBuffer) (size count : Nat) : Http2OutputBuffer :=
  if size = buffer.bytes.length - buffer.consumed then buffer.resetAfterDrain
  else
    { buffer with
      consumed := buffer.consumed + size
      segmentOffset := buffer.segmentOffset + count }.compactConsumedPrefix

/-- The front of `reserve_segment`: records of segments already taken are moved away. -/
def dropTakenRecords (buffer : Http2OutputBuffer) : Http2OutputBuffer :=
  if buffer.observerDepth = 0 ∧ 32 ≤ buffer.segmentOffset ∧
      buffer.segments.length - buffer.segmentOffset ≤ buffer.segmentOffset then
    { buffer with segments := buffer.segments.drop buffer.segmentOffset, segmentOffset := 0 }
  else buffer

inductive AppendStatus where
  | ignored
  | appended
  | failed
  deriving DecidableEq, Repr

/-- `append_segment`; the two reservations may fail, and `maxSize` is that of the byte store. -/
def appendSegment (maxSize : Nat) (buffer : Http2OutputBuffer) (bytes : Bytes) (streamId : Nat) (isData : Bool)
    (recordReserved bytesReserved : Bool) : Http2OutputBuffer × AppendStatus :=
  if bytes = [] then (buffer, .ignored)
  else
    let buffer := buffer.dropTakenRecords
    if recordReserved = false then (buffer, .failed)
    else if maxSize - buffer.bytes.length < bytes.length then (buffer, .failed)
    else if bytesReserved = false then (buffer, .failed)
    else
      ({ buffer with
        bytes := buffer.bytes ++ bytes
        segments := buffer.segments ++
          [⟨buffer.bytes.length, buffer.bytes.length + bytes.length, streamId, isData⟩] }, .appended)

/-- The loop that cuts a batch: where it ends and how many segments it has. -/
def cutBatch (maxBytes consumed : Nat) (stop count : Nat) : List SegmentRecord → Nat × Nat
  | [] => (stop, count)
  | segment :: rest =>
    if count ≠ 0 ∧ maxBytes < segment.stop - consumed then (stop, count)
    else if maxBytes ≤ segment.stop - consumed then (segment.stop, count + 1)
    else cutBatch maxBytes consumed segment.stop (count + 1) rest

/-- What a `take_batch` is called with; `appendFails` says that copying the batch out throws. -/
structure TakeRequest where
  maxBytes : Nat
  into : Bytes
  sameAllocator : Bool
  observed : Bool
  appendFails : Bool
  deriving DecidableEq, Repr

/-- Where a batch has been cut, before its observer is called. -/
structure Taken where
  buffer : Http2OutputBuffer
  into : Bytes
  first : Nat
  count : Nat
  size : Nat
  deriving DecidableEq, Repr

inductive TakeResult where
  | empty
  | failed
  | taken (taken : Taken)
  deriving DecidableEq, Repr

/-- `take_batch` up to its observer. -/
def takeBatch (buffer : Http2OutputBuffer) (request : TakeRequest) : TakeResult :=
  if buffer.consumed = buffer.bytes.length then .empty
  else
    let cut := cutBatch request.maxBytes buffer.consumed buffer.consumed 0 (buffer.segments.drop buffer.segmentOffset)
    let size := cut.1 - buffer.consumed
    let observing := if request.observed then buffer.observerDepth + 1 else buffer.observerDepth
    if buffer.consumed = 0 ∧ cut.1 = buffer.bytes.length ∧ request.into = [] ∧ request.sameAllocator then
      -- the two strings change places
      .taken {
        buffer := { buffer with bytes := request.into, observerDepth := observing }.resetAfterDrain
        into := buffer.bytes
        first := buffer.segmentOffset
        count := cut.2
        size := size }
    else if request.appendFails then .failed
    else
      .taken {
        buffer := { buffer with observerDepth := observing }.consumeBatch size cut.2
        into := request.into ++ sub buffer.bytes buffer.consumed size
        first := buffer.segmentOffset
        count := cut.2
        size := size }

/-- `observer_depth_guard`, at the end of an observed `take_batch`. -/
def endObserver (buffer : Http2OutputBuffer) : Http2OutputBuffer :=
  let buffer := { buffer with observerDepth := buffer.observerDepth - 1 }
  if buffer.observerDepth = 0 then
    if buffer.segmentOffset = buffer.segments.length then { buffer with segments := [], segmentOffset := 0 }
    else buffer.compactConsumedPrefix
  else buffer

/-- `pending_data_bytes`. -/
def pendingDataBytes (buffer : Http2OutputBuffer) (streamId : Nat) : Nat :=
  (buffer.segments.drop buffer.segmentOffset).foldl (fun total segment =>
    if segment.isData ∧ segment.streamId = streamId then (total + payloadSize (segment.stop - segment.start)) % 2 ^ 64
    else total) 0

end Http2OutputBuffer

end Ruvia.Http
