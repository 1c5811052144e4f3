import Ruvia.Http.Websocket.InboundAssembler

/-!
# `Http.Websocket.Connection` — the sans-I/O connection

`websocket_connection.cpp`. A connection reads frames from its input, answers pings and Closes by itself, and
queues frames in an output buffer whose last payload may be borrowed from the caller.

Two parts of the connection are not its own. The permessage-deflate codec (zlib) and the generator of mask
keys are parameters with a state each; either may fail. A call of the connection that throws returns `none`
(or `WebsocketPoll.thrown`) beside the state it leaves behind.

`sentFrames` is a history variable: the frames that have entered the output, oldest first. No operation
reads it.
-/

namespace Ruvia.Http

open Library

/-! ## Configuration -/

inductive WebsocketDeflateResult where
  | compressed (output : Bytes)
  | failed
  | thrown

inductive WebsocketInflateResult where
  | ok (inflated : Bytes)
  | tooLarge
  | error
  | thrown

/-- `websocket_deflate` on codec states `D`; `discardCompression` answers `false` when it throws. -/
structure WebsocketDeflate (D : Type) where
  compress : D → Bytes → D × WebsocketDeflateResult
  decompress : D → Bytes → ProtocolByteLimit → D × WebsocketInflateResult
  discardCompression : D → D × Bool

/-- `websocket_connection_options` with a codec on `D` and a mask key generator on the context `M`. -/
structure WebsocketConnectionOptions (D M : Type) where
  role : WebsocketConnectionRole
  messageLimit : ProtocolByteLimit
  maxBufferedInputBytes : Nat
  deflate : WebsocketDeflate D
  maskKeyGenerator : M → M × Option WebsocketMaskKey

/-! ## State -/

inductive WebsocketPayloadStorage where
  | copy
  | borrow
  deriving DecidableEq, Repr

/-- The phases in the order of the enumeration. -/
inductive WebsocketClosePhase where
  | open
  | localCloseQueued
  | awaitingPeerClose
  | finalOutputQueued
  | handshakeOutputQueued
  | awaitingPeerEof
  | transportEndReady
  | closed
  deriving DecidableEq, Repr

/-- The enumerator's value. -/
def WebsocketClosePhase.toNat : WebsocketClosePhase → Nat
  | .open => 0
  | .localCloseQueued => 1
  | .awaitingPeerClose => 2
  | .finalOutputQueued => 3
  | .handshakeOutputQueued => 4
  | .awaitingPeerEof => 5
  | .transportEndReady => 6
  | .closed => 7

/-- A frame as it stands on the wire. -/
structure WebsocketSentFrame where
  opcode : WebsocketOpcode
  payload : Bytes
  rsv1 : Bool
  mask : Option WebsocketMaskKey
  deriving DecidableEq

structure WebsocketConnection (D M : Type) where
  input : Bytes := []
  pendingConsume : Nat := 0
  neededInputBytes : Nat := 0
  outBuffer : Bytes := []
  outOffset : Nat := 0
  borrowedOutput : Bytes := []
  assembler : WebsocketInboundAssembler := {}
  deflate : Option D
  maskKeyContext : M
  closePhase : WebsocketClosePhase := .open
  sentFrames : List WebsocketSentFrame := []

inductive WebsocketPoll where
  | event (event : WebsocketEvent)
  | none
  | thrown
  deriving DecidableEq, Repr

structure WebsocketOutputPlan where
  bytes : Bytes
  borrowedBytes : Bytes
  disposition : WebsocketTransportDisposition

def WebsocketOutputPlan.size (plan : WebsocketOutputPlan) : Nat :=
  plan.bytes.length + plan.borrowedBytes.length

namespace WebsocketConnection

variable {D M : Type} (options : WebsocketConnectionOptions D M) (c : WebsocketConnection D M)

def livenessMode : WebsocketLivenessMode :=
  match c.closePhase with
  | .open => .open
  | .localCloseQueued | .awaitingPeerClose => .awaitingPeerClose
  | .handshakeOutputQueued | .awaitingPeerEof => .awaitingPeerEof
  | .finalOutputQueued | .transportEndReady | .closed => .inactive

/-! ## Output -/

/-- A buffer of which at least half is consumed gives that part up. -/
def compactOutput : WebsocketConnection D M :=
  if 0 < c.outOffset ∧ c.outBuffer.length - c.outOffset ≤ c.outOffset then
    { c with outBuffer := c.outBuffer.drop c.outOffset, outOffset := 0 }
  else c

/-- The appends behind the transaction boundary. An earlier borrowed payload precedes the frame. -/
def queueFrame (frame : WebsocketSentFrame) (borrow : Bool) : WebsocketConnection D M :=
  let header := encodeWebsocketFrameHeader frame.opcode frame.payload.length frame.rsv1 frame.mask.isSome
  let outBuffer := c.outBuffer ++ c.borrowedOutput ++ header
  let c := { c with sentFrames := c.sentFrames ++ [frame] }
  match frame.mask with
  | some mask =>
    let masked := decodeMaskedWebsocketPayload hostByteOrder frame.payload mask
    { c with outBuffer := outBuffer ++ mask ++ masked, borrowedOutput := [] }
  | none =>
    if borrow then { c with outBuffer, borrowedOutput := frame.payload }
    else { c with outBuffer := outBuffer ++ frame.payload, borrowedOutput := [] }

/-- `append_frame`; `aliases` tells that the payload lies in the output buffer. -/
def appendFrame (opcode : WebsocketOpcode) (payload : Bytes) (rsv1 : Bool) (storage : WebsocketPayloadStorage)
    (aliases : Bool) : WebsocketConnection D M × Bool :=
  let storage := if aliases then .copy else storage
  let c := c.compactOutput
  match options.role with
  | .client =>
    match options.maskKeyGenerator c.maskKeyContext with
    | (context, none) => ({ c with maskKeyContext := context }, false)
    | (context, some mask) =>
      ({ c with maskKeyContext := context }.queueFrame ⟨opcode, payload, rsv1, some mask⟩ false, true)
  | .server => (c.queueFrame ⟨opcode, payload, rsv1, none⟩ (storage = .borrow), true)

def outputQueued : Bool := decide (c.outOffset < c.outBuffer.length) || !c.borrowedOutput.isEmpty

def outputPlan : WebsocketOutputPlan :=
  match c.closePhase with
  | .transportEndReady => ⟨[], [], .endTransport⟩
  | .closed => ⟨[], [], .keepOpen⟩
  | .finalOutputQueued => ⟨c.outBuffer.drop c.outOffset, c.borrowedOutput, .endTransport⟩
  | _ => ⟨c.outBuffer.drop c.outOffset, c.borrowedOutput, .keepOpen⟩

/-- The phase behind the one whose queued output has been flushed. -/
def phaseAfterDrain : WebsocketClosePhase :=
  match c.closePhase with
  | .localCloseQueued => .awaitingPeerClose
  | .finalOutputQueued => .transportEndReady
  | .handshakeOutputQueued => .awaitingPeerEof
  | phase => phase

def consumeOutput (bytes : Nat) : WebsocketConnection D M × WebsocketOutputConsumeStatus :=
  if bytes = 0 ∧ (c.closePhase = .transportEndReady ∨ c.closePhase = .closed) then (c, .drained)
  else
    let owned := c.outBuffer.length - c.outOffset
    if owned < bytes ∧ c.borrowedOutput.length < bytes - owned then (c, .outOfRange)
    else if bytes < owned then ({ c with outOffset := c.outOffset + bytes }, .pending)
    else
      let c := { c with outBuffer := [], outOffset := 0 }
      if bytes - owned < c.borrowedOutput.length then
        ({ c with borrowedOutput := c.borrowedOutput.drop (bytes - owned) }, .pending)
      else ({ c with borrowedOutput := [], closePhase := c.phaseAfterDrain }, .drained)

/-! ## Closing -/

def fail (failure : WebsocketProtocolFailure) : WebsocketConnection D M × Bool :=
  match c.closePhase with
  | .open =>
    match encodeWebsocketClosePayload ⟨failure.closeCode, failure.closeCode_valid⟩ [] with
    | .error _ => (c, false)
    | .ok payload =>
      match c.appendFrame options .close payload false .copy false with
      | (c, false) => (c, false)
      | (c, true) => ({ c with closePhase := .finalOutputQueued }, true)
  | .localCloseQueued => ({ c with closePhase := .finalOutputQueued }, true)
  | .awaitingPeerClose =>
    ({ c with closePhase := if c.outputQueued then .finalOutputQueued else .transportEndReady }, true)
  | _ => (c, true)

def handshakeCompletePhase : WebsocketClosePhase :=
  match options.role with
  | .client => if c.outputQueued then .handshakeOutputQueued else .awaitingPeerEof
  | .server => if c.outputQueued then .finalOutputQueued else .transportEndReady

def receivePeerClose : WebsocketConnection D M :=
  if c.closePhase = .localCloseQueued ∨ c.closePhase = .awaitingPeerClose then
    { c with closePhase := c.handshakeCompletePhase options }
  else c

/-! ## Submitting -/

/-- The handler of `submit_frame`: a trial that was not sent must not enter the peer's dictionary. -/
def discardTrial (deflate : D) : WebsocketConnection D M :=
  match options.deflate.discardCompression deflate with
  | (deflate, true) => { c with deflate := some deflate }
  | (deflate, false) => { c with deflate := some deflate, closePhase := .transportEndReady }

/-- The append of a frame whose payload went through the compressor, whatever came of the trial. -/
def appendTrial (deflate : D) (opcode : WebsocketOpcode) (payload : Bytes) (rsv1 : Bool)
    (storage : WebsocketPayloadStorage) (aliases : Bool) :
    WebsocketConnection D M × Option WebsocketFrameSubmitStatus :=
  match { c with deflate := some deflate }.appendFrame options opcode payload rsv1 storage aliases with
  | (c, true) => (c, some .accepted)
  | (c, false) => (c.discardTrial options deflate, none)

/-- The part of `submit_frame` behind a compression attempt. -/
def submitCompressed (deflate : D) (opcode : WebsocketOpcode) (payload : Bytes)
    (storage : WebsocketPayloadStorage) (aliases : Bool) :
    WebsocketConnection D M × Option WebsocketFrameSubmitStatus :=
  let discarded (deflate : D) :=
    match options.deflate.discardCompression deflate with
    | (deflate, false) => (c.discardTrial options deflate, none)
    | (deflate, true) => c.appendTrial options deflate opcode payload false storage aliases
  match options.deflate.compress deflate payload with
  | (deflate, .thrown) => (c.discardTrial options deflate, none)
  | (deflate, .failed) => discarded deflate
  | (deflate, .compressed output) =>
    if output.length < payload.length then c.appendTrial options deflate opcode output true .copy false
    else discarded deflate

/-- `submit_frame` and `submit_borrowed_frame`. -/
def submitFrame (opcode : WebsocketOpcode) (payload : Bytes) (compress : Bool)
    (storage : WebsocketPayloadStorage) (aliases : Bool) :
    WebsocketConnection D M × Option WebsocketFrameSubmitStatus :=
  if c.closePhase ≠ .open then (c, some .notOpen)
  else
    let dataFrame := opcode = .text ∨ opcode = .binary
    let controlFrame := opcode = .ping ∨ opcode = .pong
    if ¬ dataFrame ∧ ¬ controlFrame then (c, some .invalidOpcode)
    else if dataFrame ∧ options.messageLimit.exceeds payload.length = true then (c, some .messageTooLarge)
    else if opcode = .text ∧ isValidUtf8 payload = false then (c, some .invalidTextPayload)
    else if controlFrame ∧ 125 < payload.length then (c, some .controlFrameTooLarge)
    else
      match if dataFrame ∧ compress = true then c.deflate else none with
      | some deflate => c.submitCompressed options deflate opcode payload storage aliases
      | none =>
        match c.appendFrame options opcode payload false storage aliases with
        | (c, true) => (c, some .accepted)
        | (c, false) => (c, none)

def submitClose (code : WebsocketCloseCode) (reason : Bytes) :
    WebsocketConnection D M × Option WebsocketCloseSubmitStatus :=
  if c.closePhase = .closed then (c, some .closed)
  else if c.closePhase ≠ .open then (c, some .alreadyClosing)
  else if options.role = .server ∧ code.value = 1010 then (c, some .invalidCode)
  else
    match encodeWebsocketClosePayload code reason with
    | .error .invalidReason => (c, some .invalidReason)
    | .error .reasonTooLarge => (c, some .reasonTooLarge)
    | .ok payload =>
      match c.appendFrame options .close payload false .copy false with
      | (c, false) => (c, none)
      | (c, true) => ({ c with closePhase := .localCloseQueued }, some .accepted)

end WebsocketConnection

end Ruvia.Http
