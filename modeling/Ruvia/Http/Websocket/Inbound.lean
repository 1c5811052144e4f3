import Ruvia.Http.Websocket.Connection

/-!
# `Http.Websocket.Inbound` — feeding and polling a connection

The receiving half of `websocket_connection.cpp`. `nextEvent` reads frames until one of them is an event. What
a frame means is decided by `receiveFrame` from the assembler and the codec alone; `actOn` is what the
connection does about it.
-/

namespace Ruvia.Http

open Library

/-- What a complete frame amounts to. -/
inductive WebsocketInboundAction where
  | continueReading
  | controlFrame (opcode : WebsocketOpcode) (payload : Bytes)
  | message (opcode : WebsocketOpcode) (payload : Bytes)
  | failure (error : WebsocketProtocolFailure)
  | thrown

namespace WebsocketConnection

variable {D M : Type} (options : WebsocketConnectionOptions D M) (c : WebsocketConnection D M)

/-! ## Feeding -/

def pendingInputBytes : Nat := c.input.length - c.pendingConsume

/-- `release_consumed_input` and `consume_websocket_read_frame`: the frame returned last is dropped. -/
def releaseConsumedInput : WebsocketConnection D M :=
  { c with input := c.input.drop c.pendingConsume, pendingConsume := 0 }

def discardInput : WebsocketConnection D M := { c with pendingConsume := 0, input := [] }

def feed (input : Bytes) : WebsocketConnection D M × WebsocketFeedStatus :=
  match c.livenessMode with
  | .inactive => (c, .inactive)
  | .awaitingPeerEof => (c, .accepted)
  | .open | .awaitingPeerClose =>
    if options.maxBufferedInputBytes < c.input.length ∨
        options.maxBufferedInputBytes - c.input.length < input.length then
      if options.maxBufferedInputBytes < c.pendingInputBytes ∨
          options.maxBufferedInputBytes - c.pendingInputBytes < input.length then (c, .backpressured)
      else
        -- the bound covers bytes awaiting a poll, not the frame already returned
        let c := c.releaseConsumedInput
        ({ c with input := c.input ++ input }, .accepted)
    else ({ c with input := c.input ++ input }, .accepted)

/-! ## Polling -/

/-- The handler of `next_event`: the frame is half processed, so the transport has to end. -/
def pollThrown : WebsocketConnection D M × WebsocketPoll :=
  (if c.closePhase ≠ .closed then { c with closePhase := .transportEndReady } else c, .thrown)

def protocolFailureEvent (failure : WebsocketProtocolFailure) : WebsocketConnection D M × WebsocketPoll :=
  match c.fail options failure with
  | (c, true) => (c, .event (.protocolError failure.closeCode))
  | (c, false) => c.pollThrown

/-- A complete message behind the inflater. -/
def inflateMessage (deflate : D) (opcode : WebsocketOpcode) (payload : Bytes) : D × WebsocketInboundAction :=
  match options.deflate.decompress deflate payload options.messageLimit with
  | (deflate, .thrown) => (deflate, .thrown)
  | (deflate, .tooLarge) => (deflate, .failure .messageTooLarge)
  | (deflate, .error) => (deflate, .failure .protocolError)
  | (deflate, .ok inflated) =>
    if opcode = .text ∧ isValidUtf8 inflated = false then (deflate, .failure .invalidPayloadData)
    else (deflate, .message opcode inflated)

/-- The meaning of one frame: the assembler's result, inflated where the message is compressed. -/
def receiveFrame (assembler : WebsocketInboundAssembler) (deflate : Option D) (frame : WebsocketFrameView) :
    WebsocketInboundAssembler × Option D × WebsocketInboundAction :=
  match assembler.accept frame options.messageLimit with
  | (assembler, .failure error) => (assembler, deflate, .failure error)
  | (assembler, .continueReading) => (assembler, deflate, .continueReading)
  | (assembler, .controlFrame opcode payload) => (assembler, deflate, .controlFrame opcode payload)
  | (assembler, .message opcode payload .identity) => (assembler, deflate, .message opcode payload)
  | (assembler, .message opcode payload .perMessageDeflate) =>
    match deflate with
    -- only a negotiated codec admits a compressed frame
    | none => (assembler, none, .failure .protocolError)
    | some deflate =>
      let (deflate, action) := inflateMessage options deflate opcode payload
      (assembler, some deflate, action)

/-- A Close frame of the peer: the first one is echoed. -/
def peerClose (payload : Bytes) : WebsocketConnection D M × WebsocketPoll :=
  let code := if 2 ≤ payload.length then readWebsocketUint16 payload else 1005
  let reason := if 2 < payload.length then payload.drop 2 else []
  if c.closePhase = .open then
    match c.appendFrame options .close payload false .copy false with
    | (c, false) => c.pollThrown
    | (c, true) => ({ c with closePhase := c.handshakeCompletePhase options }, .event (.close code reason))
  else (c.receivePeerClose options, .event (.close code reason))

/-- What the connection does about a frame; `none` reads on. -/
def actOn (action : WebsocketInboundAction) : WebsocketConnection D M × Option WebsocketPoll :=
  match action with
  | .continueReading => (c, none)
  | .failure error => (c.protocolFailureEvent options error).map id some
  | .thrown => c.pollThrown.map id some
  | .controlFrame .ping payload =>
    -- a Pong stays legal while a locally initiated Close waits for its answer
    match c.appendFrame options .pong payload false .copy false with
    | (c, false) => c.pollThrown.map id some
    | (c, true) => (c, some (.event (.ping payload)))
  | .controlFrame .pong payload => (c, some (.event (.pong payload)))
  | .controlFrame _ payload => (c.peerClose options payload).map id some
  | .message opcode payload =>
    if c.closePhase ≠ .open then ({ c with assembler := c.assembler.releaseCompleted }, none)
    else (c, some (.event (.message opcode payload)))

/-- One complete frame, which stays in the input until the next read. -/
def acceptFrame (frame : WebsocketFrameView) (totalFrameBytes : Nat) :
    WebsocketConnection D M × Option WebsocketPoll :=
  let (assembler, deflate, action) := receiveFrame options c.assembler c.deflate frame
  { c with pendingConsume := totalFrameBytes, assembler, deflate }.actOn options action

/-- The frame reader of the connection. -/
def reader : WebsocketFrameReader where
  messageLimit := options.messageLimit
  permessageDeflate := c.deflate.isSome
  expectMasked := options.role = .server

/-- An action that reads on changes at most the assembler. -/
theorem actOn_none {options : WebsocketConnectionOptions D M} {c d : WebsocketConnection D M}
    {action : WebsocketInboundAction} (h : c.actOn options action = (d, none)) :
    (action = .continueReading ∧ d = c) ∨
      (c.closePhase ≠ .open ∧ d = { c with assembler := c.assembler.releaseCompleted } ∧
        ∃ opcode payload, action = .message opcode payload) := by
  unfold actOn at h
  split at h
  · exact .inl ⟨rfl, (congrArg Prod.fst h).symm⟩
  · exact absurd (congrArg Prod.snd h) (by simp)
  · exact absurd (congrArg Prod.snd h) (by simp)
  · split at h <;> exact absurd (congrArg Prod.snd h) (by simp)
  · exact absurd (congrArg Prod.snd h) (by simp)
  · exact absurd (congrArg Prod.snd h) (by simp)
  · rename_i opcode payload
    split at h
    · rename_i hphase
      exact .inr ⟨hphase, (congrArg Prod.fst h).symm, opcode, payload, rfl⟩
    · exact absurd (congrArg Prod.snd h) (by simp)

theorem acceptFrame_none {options : WebsocketConnectionOptions D M} {c d : WebsocketConnection D M}
    {frame : WebsocketFrameView} {total : Nat} (h : c.acceptFrame options frame total = (d, none)) :
    d.input = c.input ∧ d.pendingConsume = total := by
  rcases actOn_none h with ⟨_, rfl⟩ | ⟨_, rfl, _⟩ <;> exact ⟨rfl, rfl⟩

/-- The loop of `next_event`: frames are read until one of them is an event. -/
def readFrames (options : WebsocketConnectionOptions D M) (c : WebsocketConnection D M) :
    WebsocketConnection D M × WebsocketPoll :=
  let released := c.releaseConsumedInput
  match _hread : (c.reader options).read released.input with
  | .needInput missing => ({ released with neededInputBytes := missing }, .none)
  | .failure error => released.protocolFailureEvent options error
  | .frame frame total =>
    match _haccept : released.acceptFrame options frame total with
    | (d, some poll) => (d, poll)
    | (d, none) => readFrames options d
termination_by c.pendingInputBytes
decreasing_by
  obtain ⟨hinput, hpending⟩ := acceptFrame_none _haccept
  obtain ⟨htwo, hle⟩ := WebsocketFrameReader.read_bounds _hread
  have hlen : d.input.length = c.input.length - c.pendingConsume := by
    rw [hinput]
    exact List.length_drop
  rw [pendingInputBytes, pendingInputBytes, hlen, hpending]
  have hrel : released.input.length = c.input.length - c.pendingConsume := List.length_drop
  omega

def nextEvent : WebsocketConnection D M × WebsocketPoll :=
  let c := { c with assembler := c.assembler.releaseCompleted, neededInputBytes := 0 }
  match c.closePhase with
  | .finalOutputQueued | .transportEndReady | .closed => (c, .event .transportEnd)
  -- queued output may still borrow input bytes: they are dropped once it is flushed
  | .handshakeOutputQueued => (c, .none)
  | .awaitingPeerEof => (c.discardInput, .none)
  | .open | .localCloseQueued | .awaitingPeerClose => c.readFrames options

/-! ## The end of the transport -/

def commitTransportEnd : WebsocketConnection D M :=
  if c.closePhase = .transportEndReady then { c with closePhase := .closed } else c

def notifyTransportEof : WebsocketConnection D M :=
  if c.closePhase ≠ .closed then { c with closePhase := .transportEndReady } else c

def abort : WebsocketConnection D M × WebsocketAbortDisposition :=
  if c.closePhase = .closed then (c, .noTransportAction)
  else ({ c with closePhase := .closed }, .abortTransport)

end WebsocketConnection

end Ruvia.Http
