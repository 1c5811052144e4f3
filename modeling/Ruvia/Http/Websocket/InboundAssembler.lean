import Ruvia.Http.Websocket.FrameReader

/-!
# `Http.Websocket.InboundAssembler` — from frames to messages

`http_websocket_inbound_assembler.h`: control frames pass through, the fragments of a message are collected
up to its final continuation, and a complete text message is checked to be UTF-8. A compressed message is
handed on unchecked; its text is checked behind the inflater.
-/

namespace Ruvia.Http

open Library

inductive WebsocketInboundContentEncoding where
  | identity
  | perMessageDeflate
  deriving DecidableEq, Repr

inductive WebsocketInboundState where
  | idle
  | fragmented (opcode : WebsocketOpcode) (encoding : WebsocketInboundContentEncoding)
  deriving DecidableEq, Repr

inductive WebsocketInboundResult where
  | continueReading
  | controlFrame (opcode : WebsocketOpcode) (payload : Bytes)
  | message (opcode : WebsocketOpcode) (payload : Bytes) (contentEncoding : WebsocketInboundContentEncoding)
  | failure (error : WebsocketProtocolFailure)
  deriving DecidableEq, Repr

structure WebsocketInboundAssembler where
  message : Bytes := []
  state : WebsocketInboundState := .idle
  deriving DecidableEq, Repr

namespace WebsocketInboundAssembler

/-- A delivered message expires; a fragmented one stays until its final continuation. -/
def releaseCompleted (assembler : WebsocketInboundAssembler) : WebsocketInboundAssembler :=
  match assembler.state with
  | .idle => { assembler with message := [] }
  | .fragmented _ _ => assembler

/-- The result for a message whose last frame has arrived. -/
def completed (opcode : WebsocketOpcode) (payload : Bytes) (encoding : WebsocketInboundContentEncoding) :
    WebsocketInboundResult :=
  match encoding with
  | .perMessageDeflate => .message opcode payload .perMessageDeflate
  | .identity =>
    if opcode = .text ∧ isValidUtf8 payload = false then .failure .invalidPayloadData
    else .message opcode payload .identity

def acceptContinuation (assembler : WebsocketInboundAssembler) (frame : WebsocketFrameView)
    (messageLimit : ProtocolByteLimit) : WebsocketInboundAssembler × WebsocketInboundResult :=
  match assembler.state with
  | .idle => (assembler, .failure .protocolError)
  | .fragmented opcode encoding =>
    if messageLimit.additionExceeds assembler.message.length frame.payload.length then
      (assembler, .failure .messageTooLarge)
    else
      let message := assembler.message ++ frame.payload
      if frame.final then (⟨message, .idle⟩, completed opcode message encoding)
      else (⟨message, assembler.state⟩, .continueReading)

/-- The first frame of a message; the reader has measured it already. -/
def acceptData (assembler : WebsocketInboundAssembler) (opcode : WebsocketOpcode) (frame : WebsocketFrameView) :
    WebsocketInboundAssembler × WebsocketInboundResult :=
  let encoding := if frame.compressed then .perMessageDeflate else .identity
  match assembler.state with
  | .fragmented _ _ => (assembler, .failure .protocolError)
  | .idle =>
    if frame.final then (assembler, completed opcode frame.payload encoding)
    else (⟨frame.payload, .fragmented opcode encoding⟩, .continueReading)

def accept (assembler : WebsocketInboundAssembler) (frame : WebsocketFrameView)
    (messageLimit : ProtocolByteLimit) : WebsocketInboundAssembler × WebsocketInboundResult :=
  match frame.kind with
  | .close => (assembler, .controlFrame .close frame.payload)
  | .ping => (assembler, .controlFrame .ping frame.payload)
  | .pong => (assembler, .controlFrame .pong frame.payload)
  | .continuation => assembler.acceptContinuation frame messageLimit
  | .text => assembler.acceptData .text frame
  | .binary => assembler.acceptData .binary frame

end WebsocketInboundAssembler

end Ruvia.Http
