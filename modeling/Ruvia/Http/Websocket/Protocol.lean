import Ruvia.Http.FieldSection

/-!
# `Http.Websocket.Protocol` — the vocabulary of a WebSocket connection

`websocket_protocol.h`: roles, opcodes, Close codes, the events a connection reports and the statuses its
operations answer with.
-/

namespace Ruvia.Http

open Library

inductive WebsocketConnectionRole where
  | server
  | client
  deriving DecidableEq, Repr

inductive WebsocketOpcode where
  | text
  | binary
  | close
  | ping
  | pong
  deriving DecidableEq, Repr

/-- The enumerator's value, the low nibble of a frame's first byte. -/
def WebsocketOpcode.value : WebsocketOpcode → UInt8
  | .text => 0x1
  | .binary => 0x2
  | .close => 0x8
  | .ping => 0x9
  | .pong => 0xA

/-- The opcodes that carry application data. -/
def WebsocketOpcode.isData : WebsocketOpcode → Bool
  | .text | .binary => true
  | .close | .ping | .pong => false

/-- `websocket_close_code::is_valid_value`. -/
def isValidCloseCode (value : Nat) : Bool :=
  (1000 ≤ value && value ≤ 1003) || (1007 ≤ value && value ≤ 1014) || (3000 ≤ value && value ≤ 4999)

/-- A Close status code that may stand on the wire. -/
structure WebsocketCloseCode where
  value : Nat
  valid : isValidCloseCode value = true

/-- `websocket_mask_key_type`. -/
abbrev WebsocketMaskKey := { key : Bytes // key.length = 4 }

inductive WebsocketEvent where
  | message (opcode : WebsocketOpcode) (payload : Bytes)
  | ping (payload : Bytes)
  | pong (payload : Bytes)
  | close (closeCode : Nat) (reason : Bytes)
  | protocolError (closeCode : Nat)
  | transportEnd
  deriving DecidableEq, Repr

inductive WebsocketFeedStatus where
  | accepted
  | inactive
  | backpressured
  deriving DecidableEq, Repr

inductive WebsocketFrameSubmitStatus where
  | accepted
  | notOpen
  | invalidOpcode
  | messageTooLarge
  | invalidTextPayload
  | controlFrameTooLarge
  deriving DecidableEq, Repr

inductive WebsocketCloseSubmitStatus where
  | accepted
  | alreadyClosing
  | closed
  | invalidCode
  | invalidReason
  | reasonTooLarge
  deriving DecidableEq, Repr

inductive WebsocketOutputConsumeStatus where
  | pending
  | drained
  | outOfRange
  deriving DecidableEq, Repr

inductive WebsocketAbortDisposition where
  | abortTransport
  | noTransportAction
  deriving DecidableEq, Repr

inductive WebsocketTransportDisposition where
  | keepOpen
  | endTransport
  deriving DecidableEq, Repr

inductive WebsocketLivenessMode where
  | open
  | awaitingPeerClose
  | awaitingPeerEof
  | inactive
  deriving DecidableEq, Repr

end Ruvia.Http
