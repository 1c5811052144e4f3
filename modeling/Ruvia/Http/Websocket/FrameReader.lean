import Ruvia.Http.Websocket.FrameCodec
import Ruvia.Http.Websocket.Masking

/-!
# `Http.Websocket.FrameReader` — one frame from the front of the input

`websocket_try_read_frame` of `http_websocket_frame_reader.h`, on the bytes behind the frame that was
returned last. A frame reports its total size, which the caller drops before it reads on.
-/

namespace Ruvia.Http

open Library

/-- `http_websocket_frame_view.h`. -/
structure WebsocketFrameView where
  kind : WebsocketFrameKind
  payload : Bytes
  final : Bool
  compressed : Bool
  deriving DecidableEq, Repr

inductive WebsocketFrameReadResult where
  | needInput (missingBytes : Nat)
  /-- A frame and the bytes it occupies, the new `pending_consume`. -/
  | frame (frame : WebsocketFrameView) (totalFrameBytes : Nat)
  | failure (error : WebsocketProtocolFailure)
  deriving DecidableEq, Repr

/-- What the reader is told about the connection. -/
structure WebsocketFrameReader where
  messageLimit : ProtocolByteLimit
  permessageDeflate : Bool
  expectMasked : Bool

namespace WebsocketFrameReader

/-- The length field: the payload length and the size of the header up to the mask. -/
inductive LengthRead where
  | needInput
  | length (length headerSize : Nat)
  | failure (error : WebsocketProtocolFailure)
  deriving DecidableEq, Repr

def readLength (buffer : Bytes) (second : UInt8) : LengthRead :=
  let length := (second &&& 0x7F).toNat
  let headerSize := 2
  if length = 126 then
    if buffer.length < headerSize + 2 then .needInput
    else .length (readWebsocketUint16 (buffer.drop headerSize)) (headerSize + 2)
  else if length = 127 then
    if buffer.length < headerSize + 8 then .needInput
    else
      match readWebsocketUint64 (buffer.drop headerSize) with
      | .error error => .failure error
      | .ok length => .length length (headerSize + 8)
  else .length length headerSize

/-- The payload of a frame whose bytes have all arrived. -/
def readPayload (reader : WebsocketFrameReader) (buffer : Bytes) (headerSize length : Nat) : Bytes :=
  if reader.expectMasked then
    decodeMaskedWebsocketPayload hostByteOrder (sub buffer (headerSize + 4) length) (sub buffer headerSize 4)
  else sub buffer headerSize length

/-- The frame behind a complete header. -/
def readFrame (reader : WebsocketFrameReader) (buffer : Bytes) (frameStart : WebsocketFrameStart)
    (length headerSize : Nat) : WebsocketFrameReadResult :=
  if isInvalidWebsocketControlFrame frameStart length then .failure .protocolError
  else if websocketFrameExceedsMessageLimit frameStart.kind length reader.messageLimit then
    .failure .messageTooLarge
  else
    let maskBytes := if reader.expectMasked then 4 else 0
    if sizeTypeCount - 1 - headerSize - maskBytes < length then .failure .protocolError
    else
      let totalFrameBytes := headerSize + maskBytes + length
      if buffer.length < totalFrameBytes then .needInput (totalFrameBytes - buffer.length)
      else
        let payload := reader.readPayload buffer headerSize length
        match if frameStart.kind = .close then websocketClosePayloadFailure payload else none with
        | some error => .failure error
        | none => .frame ⟨frameStart.kind, payload, frameStart.final, frameStart.compressed⟩ totalFrameBytes

/-- `websocket_try_read_frame`. -/
def read (reader : WebsocketFrameReader) (buffer : Bytes) : WebsocketFrameReadResult :=
  match buffer with
  | first :: second :: _ =>
    match decodeWebsocketFrameStart first second reader.permessageDeflate reader.expectMasked with
    | none => .failure .protocolError
    | some frameStart =>
      match readLength buffer second with
      | .needInput => .needInput 0
      | .failure error => .failure error
      | .length length headerSize => reader.readFrame buffer frameStart length headerSize
  | _ => .needInput 0

/-! ## The size of a frame -/

variable {reader : WebsocketFrameReader} {buffer : Bytes}

variable {length headerSize : Nat}

theorem readLength_headerSize {second : UInt8} (h : readLength buffer second = .length length headerSize) :
    2 ≤ headerSize := by
  unfold readLength at h
  dsimp only at h
  split_ifs at h
  · cases h
    omega
  · split at h
    · cases h
    · cases h
      omega
  · cases h
    exact le_rfl

variable {total : Nat} {frame : WebsocketFrameView}

variable {frameStart : WebsocketFrameStart}

theorem readFrame_bounds (h : reader.readFrame buffer frameStart length headerSize = .frame frame total) :
    headerSize ≤ total ∧ total ≤ buffer.length := by
  unfold readFrame at h
  dsimp only at h
  split_ifs at h with hcontrol hlimit hsize hmissing
  all_goals
    split at h
    · cases h
    · cases h
      omega

/-- A frame has at least two bytes, all of them in the input. -/
theorem read_bounds (h : reader.read buffer = .frame frame total) : 2 ≤ total ∧ total ≤ buffer.length := by
  unfold read at h
  split at h
  · rename_i first second rest
    split at h
    · cases h
    · split at h
      · cases h
      · cases h
      · rename_i length headerSize hlength
        have hheader := readLength_headerSize hlength
        have hbounds := readFrame_bounds h
        omega
  · cases h

theorem readFrame_close (h : reader.readFrame buffer frameStart length headerSize = .frame frame total)
    (hkind : frame.kind = .close) :
    websocketClosePayloadFailure frame.payload = none := by
  unfold readFrame at h
  dsimp only at h
  split_ifs at h with hcontrol hlimit hsize hmissing
  all_goals
    split at h
    · cases h
    · rename_i hclose
      cases h
      first | exact hclose | exact absurd hkind (by assumption)

/-- The payload of a Close frame has been checked. -/
theorem read_close (h : reader.read buffer = .frame frame total) (hkind : frame.kind = .close) :
    websocketClosePayloadFailure frame.payload = none := by
  unfold read at h
  split at h
  · split at h
    · cases h
    · split at h
      · cases h
      · cases h
      · exact readFrame_close h hkind
  · cases h

end WebsocketFrameReader

end Ruvia.Http
