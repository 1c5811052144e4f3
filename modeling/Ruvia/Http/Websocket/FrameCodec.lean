import Ruvia.Http.Utf8
import Ruvia.Http.Websocket.Protocol
import Mathlib.Tactic.Ring

/-!
# `Http.Websocket.FrameCodec` — the wire vocabulary of RFC 6455 section 5.2

`http_websocket_frame_codec.h` and `websocket_close_payload.cpp`: what the first two bytes of a frame mean,
the three length forms and the payload of a Close frame. Everything is a pure function of bytes.
-/

namespace Ruvia.Http

open Library

/-! ## Frame starts -/

inductive WebsocketProtocolFailure where
  | protocolError
  | invalidPayloadData
  | messageTooLarge
  deriving DecidableEq, Repr

/-- `websocket_protocol_failure_close_code`. -/
def WebsocketProtocolFailure.closeCode : WebsocketProtocolFailure → Nat
  | .protocolError => 1002
  | .invalidPayloadData => 1007
  | .messageTooLarge => 1009

theorem WebsocketProtocolFailure.closeCode_valid (failure : WebsocketProtocolFailure) :
    isValidCloseCode failure.closeCode = true := by
  cases failure <;> decide

inductive WebsocketFrameKind where
  | continuation
  | text
  | binary
  | close
  | ping
  | pong
  deriving DecidableEq, Repr

/-- `static_cast<websocket_frame_kind>` on the opcodes that are not reserved
    (`is_invalid_websocket_raw_opcode`). -/
def WebsocketFrameKind.ofRawOpcode (rawOpcode : UInt8) : Option WebsocketFrameKind :=
  if rawOpcode = 0x0 then some .continuation
  else if rawOpcode = 0x1 then some .text
  else if rawOpcode = 0x2 then some .binary
  else if rawOpcode = 0x8 then some .close
  else if rawOpcode = 0x9 then some .ping
  else if rawOpcode = 0xA then some .pong
  else none

def WebsocketFrameKind.isControl : WebsocketFrameKind → Bool
  | .continuation | .text | .binary => false
  | .close | .ping | .pong => true

/-- The kind a frame of an opcode has. -/
def WebsocketOpcode.kind : WebsocketOpcode → WebsocketFrameKind
  | .text => .text
  | .binary => .binary
  | .close => .close
  | .ping => .ping
  | .pong => .pong

structure WebsocketFrameStart where
  kind : WebsocketFrameKind
  final : Bool
  compressed : Bool
  deriving DecidableEq, Repr

def decodeWebsocketFrameStart (first second : UInt8) (allowRsv1 expectMasked : Bool) :
    Option WebsocketFrameStart :=
  let rawOpcode := first &&& 0x0F
  let rsv1 := decide (first &&& 0x40 ≠ 0)
  if first &&& 0x30 ≠ 0 ∨ decide (second &&& 0x80 ≠ 0) ≠ expectMasked then none
  else
    match WebsocketFrameKind.ofRawOpcode rawOpcode with
    | none => none
    | some kind =>
      if rsv1 = true ∧ (allowRsv1 = false ∨ rawOpcode = 0 ∨ 0x8 ≤ rawOpcode) then none
      else some ⟨kind, decide (first &&& 0x80 ≠ 0), rsv1⟩

def isInvalidWebsocketControlFrame (frame : WebsocketFrameStart) (payloadSize : Nat) : Bool :=
  frame.kind.isControl && (!frame.final || decide (125 < payloadSize))

/-- Control frames are never measured against the message limit. -/
def websocketFrameExceedsMessageLimit (kind : WebsocketFrameKind) (payloadSize : Nat)
    (messageLimit : ProtocolByteLimit) : Bool :=
  !kind.isControl && (decide (sizeTypeCount - 1 < payloadSize) || messageLimit.exceeds payloadSize)

/-! ## Lengths -/

/-- The number a big-endian byte string spells. -/
def readBigEndian (bytes : Bytes) : Nat := bytes.foldl (fun value byte => value * 256 + byte.toNat) 0

/-- The `size` bytes of a number, most significant first. -/
def writeBigEndian (size value : Nat) : Bytes :=
  match size with
  | 0 => []
  | size + 1 => UInt8.ofNat (value >>> (8 * size) &&& 0xFF) :: writeBigEndian size value

theorem readBigEndian_foldl (bytes : Bytes) (value : Nat) :
    bytes.foldl (fun value byte => value * 256 + byte.toNat) value =
      value * 256 ^ bytes.length + readBigEndian bytes := by
  induction bytes generalizing value with
  | nil => simp [readBigEndian]
  | cons byte bytes ih =>
    rw [readBigEndian, List.foldl_cons, List.foldl_cons, ih, ih, List.length_cons, Nat.pow_succ]
    ring

theorem readBigEndian_cons (byte : UInt8) (bytes : Bytes) :
    readBigEndian (byte :: bytes) = byte.toNat * 256 ^ bytes.length + readBigEndian bytes := by
  rw [readBigEndian, List.foldl_cons, readBigEndian_foldl, Nat.zero_mul, Nat.zero_add]

theorem readBigEndian_lt (bytes : Bytes) : readBigEndian bytes < 256 ^ bytes.length := by
  induction bytes with
  | nil => decide
  | cons byte bytes ih =>
    have hbyte := byte.toNat_lt
    rw [readBigEndian_cons, List.length_cons, Nat.pow_succ]
    have hmul : byte.toNat * 256 ^ bytes.length ≤ 255 * 256 ^ bytes.length := Nat.mul_le_mul_right _ (by omega)
    omega

/-- One byte of a number. -/
theorem bigEndian_byte (size value : Nat) : value >>> (8 * size) &&& 0xFF = value / 256 ^ size % 256 := by
  rw [Nat.shiftRight_eq_div_pow, Nat.pow_mul]
  exact Nat.and_two_pow_sub_one_eq_mod _ 8

/-- Only the lower bytes of a number are written. -/
theorem writeBigEndian_add_mul (size value k : Nat) :
    writeBigEndian size (k * 256 ^ size + value) = writeBigEndian size value := by
  induction size generalizing k with
  | zero => rfl
  | succ size ih =>
    have hsplit : k * 256 ^ (size + 1) + value = (k * 256) * 256 ^ size + value := by ring
    have hpos : 0 < 256 ^ size := Nat.pow_pos (by decide)
    have hbyte : (k * 256 * 256 ^ size + value) / 256 ^ size % 256 = value / 256 ^ size % 256 := by
      rw [Nat.add_comm, Nat.add_mul_div_right _ _ hpos, Nat.add_mul_mod_self_right]
    rw [writeBigEndian, writeBigEndian, bigEndian_byte, bigEndian_byte, hsplit, ih, hbyte]

theorem writeBigEndian_readBigEndian (bytes : Bytes) : writeBigEndian bytes.length (readBigEndian bytes) = bytes := by
  induction bytes with
  | nil => rfl
  | cons byte bytes ih =>
    have hpos : 0 < 256 ^ bytes.length := Nat.pow_pos (by decide)
    have hbyte : (byte.toNat * 256 ^ bytes.length + readBigEndian bytes) / 256 ^ bytes.length % 256 = byte.toNat := by
      rw [Nat.add_comm, Nat.add_mul_div_right _ _ hpos, Nat.div_eq_of_lt (readBigEndian_lt bytes), Nat.zero_add,
        Nat.mod_eq_of_lt byte.toNat_lt]
    rw [List.length_cons, writeBigEndian, readBigEndian_cons, writeBigEndian_add_mul, ih, bigEndian_byte, hbyte,
      UInt8.ofNat_toNat]

def readWebsocketUint16 (data : Bytes) : Nat := readBigEndian (data.take 2)

/-- The most significant bit of the eight-byte length must be clear. -/
def readWebsocketUint64 (data : Bytes) : Except WebsocketProtocolFailure Nat :=
  if data.getD 0 0 &&& 0x80 ≠ 0 then .error .protocolError else .ok (readBigEndian (data.take 8))

/-- FIN is always set: a frame carries a whole message. -/
def encodeWebsocketFrameHeader (opcode : WebsocketOpcode) (payloadSize : Nat) (rsv1 masked : Bool) : Bytes :=
  let first := 0x80 ||| (if rsv1 then 0x40 else 0) ||| opcode.value
  let maskBit : UInt8 := if masked then 0x80 else 0
  if payloadSize ≤ 125 then [first, maskBit ||| UInt8.ofNat payloadSize]
  else if payloadSize ≤ 0xFFFF then first :: (maskBit ||| 126) :: writeBigEndian 2 payloadSize
  else first :: (maskBit ||| 127) :: writeBigEndian 8 payloadSize

/-! ## Close payloads -/

inductive WebsocketClosePayloadEncodeError where
  | invalidReason
  | reasonTooLarge
  deriving DecidableEq, Repr

def encodeWebsocketClosePayload (code : WebsocketCloseCode) (reason : Bytes) :
    Except WebsocketClosePayloadEncodeError Bytes :=
  if 123 < reason.length then .error .reasonTooLarge
  else if isValidUtf8 reason = false then .error .invalidReason
  else .ok (writeBigEndian 2 code.value ++ reason)

/-- The failure a received Close payload commits, if any. -/
def websocketClosePayloadFailure (payload : Bytes) : Option WebsocketProtocolFailure :=
  if payload.length = 1 then some .protocolError
  else if payload.length < 2 then none
  else if isValidCloseCode (readWebsocketUint16 payload) = false then some .protocolError
  else if isValidUtf8 (payload.drop 2) = false then some .invalidPayloadData
  else none

end Ruvia.Http
