import Ruvia.Http.Websocket.OutputQueue

/-!
# `Http.Websocket.Operations` — what one operation of a connection can do

The operations of a connection as one step function, and the single statement every invariant of its runs is
derived from. An operation other than writing appends at most one frame to the output, moves the close phase
along an edge of `CloseStep`, and the frame it appends is the one its answer tells of (`queuedBy`).
-/

namespace Ruvia.Http

open Library

/-- The phases in which frames are still read. -/
def WebsocketClosePhase.isReading : WebsocketClosePhase → Bool
  | .open | .localCloseQueued | .awaitingPeerClose => true
  | _ => false

/-- The phases in which the output is out of reach. -/
def WebsocketClosePhase.isEnded : WebsocketClosePhase → Bool
  | .transportEndReady | .closed => true
  | _ => false

/-- The phases behind which only the end of the transport is reported. -/
def WebsocketClosePhase.isFinal : WebsocketClosePhase → Bool
  | .finalOutputQueued | .transportEndReady | .closed => true
  | _ => false

variable {phase : WebsocketClosePhase}

theorem WebsocketClosePhase.not_ended_of_reading (h : phase.isReading = true) : phase.isEnded = false := by
  cases phase <;> first | rfl | cases h

theorem WebsocketClosePhase.isEnded_iff : phase.isEnded = true ↔ phase = .transportEndReady ∨ phase = .closed := by
  cases phase <;> simp [isEnded]

/-- The edges of the close machine, with the frames that enter the output along them. -/
inductive CloseStep : WebsocketClosePhase → List WebsocketSentFrame → WebsocketClosePhase → Prop
  | advance {phase next : WebsocketClosePhase} (h : phase.toNat ≤ next.toNat)
      (hfinal : phase.isFinal = true → next.isFinal = true) : CloseStep phase [] next
  | data {frame : WebsocketSentFrame} (h : frame.opcode ≠ .close) : CloseStep .open [frame] .open
  | pong {phase : WebsocketClosePhase} {frame : WebsocketSentFrame} (h : frame.opcode = .pong)
      (hphase : phase.isReading = true) : CloseStep phase [frame] phase
  | close {frame : WebsocketSentFrame} {next : WebsocketClosePhase} (h : frame.opcode = .close)
      (hnext : next ≠ .open) : CloseStep .open [frame] next

/-- Behind the end of the transport no frame enters the output. -/
theorem CloseStep.none_of_ended {next : WebsocketClosePhase} {frames : List WebsocketSentFrame}
    (h : CloseStep phase frames next) (hended : phase.isEnded = true) : frames = [] := by
  cases h with
  | advance _ _ => rfl
  | data _ | close _ _ => cases hended
  | pong _ hreading =>
    rw [WebsocketClosePhase.not_ended_of_reading hreading] at hended
    cases hended

namespace WebsocketConnection

variable {D M : Type} (options : WebsocketConnectionOptions D M)

/-! ## The step function -/

inductive Operation where
  | submitFrame (opcode : WebsocketOpcode) (payload : Bytes) (compress : Bool)
      (storage : WebsocketPayloadStorage) (aliases : Bool)
  | submitClose (code : WebsocketCloseCode) (reason : Bytes)
  | feed (input : Bytes)
  | nextEvent
  | consumeOutput (bytes : Nat)
  | commitTransportEnd
  | notifyTransportEof
  | abort

/-- What an operation answers. -/
inductive Answer where
  | submitted (status : Option WebsocketFrameSubmitStatus)
  | closeSubmitted (status : Option WebsocketCloseSubmitStatus)
  | fed (status : WebsocketFeedStatus)
  | polled (poll : WebsocketPoll)
  | consumed (status : WebsocketOutputConsumeStatus)
  | done
  | aborted (disposition : WebsocketAbortDisposition)
  deriving DecidableEq

def step (c : WebsocketConnection D M) : Operation → WebsocketConnection D M × Answer
  | .submitFrame opcode payload compress storage aliases =>
    (c.submitFrame options opcode payload compress storage aliases).map id .submitted
  | .submitClose code reason => (c.submitClose options code reason).map id .closeSubmitted
  | .feed input => (c.feed options input).map id .fed
  | .nextEvent => (c.nextEvent options).map id .polled
  | .consumeOutput bytes => (c.consumeOutput bytes).map id .consumed
  | .commitTransportEnd => (c.commitTransportEnd, .done)
  | .notifyTransportEof => (c.notifyTransportEof, .done)
  | .abort => c.abort.map id .aborted

/-- The operation threw. -/
def Answer.isThrown : Answer → Bool
  | .submitted none | .closeSubmitted none | .polled .thrown => true
  | _ => false

/-! ## What an answer tells about the output -/

/-- The payload of the Close frame an event was made from. -/
def closeEventPayload (closeCode : Nat) (reason : Bytes) : Bytes :=
  if closeCode = 1005 then [] else writeBigEndian 2 closeCode ++ reason

/-- The opcode and the payload of the frames a poll has queued, read off the event it returns. -/
def polledFrames (phase : WebsocketClosePhase) : WebsocketPoll → List (WebsocketOpcode × Bytes)
  | .event (.ping payload) => [(.pong, payload)]
  | .event (.close closeCode reason) =>
    if phase = .open then [(.close, closeEventPayload closeCode reason)] else []
  | .event (.protocolError closeCode) =>
    if phase = .open then [(.close, writeBigEndian 2 closeCode)] else []
  | _ => []

/-- The opcode and the payload of the frames an operation has queued, read off its answer. -/
def queuedBy (phase : WebsocketClosePhase) : Operation → Answer → List (WebsocketOpcode × Bytes)
  | .submitFrame opcode payload _ _ _, .submitted status =>
    if status = some .accepted then [(opcode, payload)] else []
  | .submitClose code reason, .closeSubmitted status =>
    if status = some .accepted then [(.close, writeBigEndian 2 code.value ++ reason)] else []
  | .nextEvent, .polled poll => polledFrames phase poll
  | _, _ => []

/-- A frame carries a payload: as it is, or compressed. -/
def Carries (entry : WebsocketOpcode × Bytes) (frame : WebsocketSentFrame) : Prop :=
  frame.opcode = entry.1 ∧ MaskOf options frame.mask ∧
    (frame.rsv1 = false ∧ frame.payload = entry.2 ∨
      frame.rsv1 = true ∧ ∃ before after,
        options.deflate.compress before entry.2 = (after, .compressed frame.payload))

/-- **The effect of an operation that writes nothing.** -/
structure Effect (c d : WebsocketConnection D M) (log : List (WebsocketOpcode × Bytes)) (threw : Bool) :
    Prop where
  frames : ∃ frames, Appended c d frames ∧ CloseStep c.closePhase frames d.closePhase ∧
    List.Forall₂ (Carries options) log frames
  /-- Nothing is given up when the output gets out of reach without a failure. -/
  ended : d.closePhase.isEnded = true → threw = false →
    c.closePhase.isEnded = true ∨ d.queuedOutput = []

variable {options} {c d e : WebsocketConnection D M}

theorem CloseStep_refl (phase : WebsocketClosePhase) : CloseStep phase [] phase := .advance le_rfl id

/-- A step that leaves the output and the phase alone. -/
theorem Effect.of_same (happ : Appended c d []) (hphase : d.closePhase = c.closePhase) (threw : Bool) :
    Effect options c d [] threw :=
  ⟨⟨[], happ, hphase ▸ CloseStep_refl _, .nil⟩, fun hended _ => .inl (hphase ▸ hended)⟩

/-- A step that leaves the output and the phase alone may come first. -/
theorem Effect.after {log : List (WebsocketOpcode × Bytes)} {threw : Bool}
    (h : Effect options d e log threw) (happ : Appended c d []) (hphase : d.closePhase = c.closePhase) :
    Effect options c e log threw := by
  obtain ⟨⟨frames, happ', hstep, hcarries⟩, hended⟩ := h
  exact ⟨⟨frames, happ.after happ', hphase ▸ hstep, hcarries⟩, hphase ▸ hended⟩

theorem queuedOutput_of_outputQueued (h : c.outputQueued = false) : c.queuedOutput = [] := by
  unfold outputQueued at h
  unfold queuedOutput
  rw [Bool.or_eq_false_iff, decide_eq_false_iff_not, Bool.not_eq_false', List.isEmpty_iff] at h
  rw [h.2, List.append_nil, List.drop_eq_nil_iff]
  omega

/-- A phase chosen by what is still queued. -/
theorem ended_of_outputQueued {queued drained : WebsocketClosePhase} (hq : queued.isEnded = false)
    (h : d.closePhase = if c.outputQueued then queued else drained) (hsame : d.queuedOutput = c.queuedOutput)
    (hended : d.closePhase.isEnded = true) : d.queuedOutput = [] := by
  cases hout : c.outputQueued with
  | true =>
    rw [hout, if_pos rfl] at h
    rw [h, hq] at hended
    cases hended
  | false => rw [hsame, queuedOutput_of_outputQueued hout]

/-! ## Appends -/

variable {opcode : WebsocketOpcode} {payload : Bytes}

/-- The phase plays no part in the output. -/
theorem Appended.withPhase {frames : List WebsocketSentFrame} (h : Appended c d frames)
    (phase : WebsocketClosePhase) : Appended c { d with closePhase := phase } frames :=
  ⟨h.1, h.2, h.3⟩

variable {rsv1 aliases : Bool} {storage : WebsocketPayloadStorage}

/-- A failed append. -/
theorem appendFrame_failed (h : c.appendFrame options opcode payload rsv1 storage aliases = (d, false)) :
    Appended c d [] ∧ d.closePhase = c.closePhase := by
  obtain ⟨hsame, happ⟩ := appendFrame_spec h
  exact ⟨happ, hsame.closePhase⟩

/-- An append that goes with a move of the phase. -/
theorem appendFrame_effect {phase : WebsocketClosePhase}
    (h : c.appendFrame options opcode payload false storage aliases = (d, true))
    (hstep : ∀ mask, CloseStep c.closePhase [⟨opcode, payload, false, mask⟩] phase)
    (hended : phase.isEnded = true → d.queuedOutput = []) :
    Effect options c { d with closePhase := phase } [(opcode, payload)] false := by
  obtain ⟨_, mask, hmask, happ⟩ := appendFrame_spec h
  refine ⟨⟨_, happ.withPhase phase, hstep mask, .cons ⟨rfl, hmask, .inl ⟨rfl, rfl⟩⟩ .nil⟩, fun hend _ => .inr ?_⟩
  exact hended hend

/-! ## Polls -/

/-- The effect of a poll with its result. -/
def PollEffect (options : WebsocketConnectionOptions D M) (c : WebsocketConnection D M)
    (result : WebsocketConnection D M × WebsocketPoll) : Prop :=
  Effect options c result.1 (polledFrames c.closePhase result.2) (result.2 = .thrown)

theorem PollEffect.after {result : WebsocketConnection D M × WebsocketPoll}
    (h : PollEffect options d result) (happ : Appended c d []) (hphase : d.closePhase = c.closePhase) :
    PollEffect options c result := by
  unfold PollEffect at h ⊢
  rw [hphase] at h
  exact Effect.after h happ hphase

/-- An event that tells of no frame. -/
theorem pollEffect_quiet {poll : WebsocketPoll} (happ : Appended c d []) (hphase : d.closePhase = c.closePhase)
    (hpoll : polledFrames c.closePhase poll = []) : PollEffect options c (d, poll) := by
  unfold PollEffect
  rw [hpoll]
  exact Effect.of_same happ hphase _

theorem pollThrown_effect (c : WebsocketConnection D M) : PollEffect options c c.pollThrown := by
  unfold PollEffect pollThrown
  split
  · rename_i hphase
    refine ⟨⟨[], Appended.of_same_output rfl rfl rfl rfl, .advance ?_ (fun _ => rfl), .nil⟩, ?_⟩
    · show c.closePhase.toNat ≤ 6
      cases hp : c.closePhase <;> first | exact absurd hp hphase | decide
    · intro _ hthrew
      simp at hthrew
  · exact Effect.of_same (Appended.refl c) rfl _

/-- A failed append inside a poll. -/
theorem pollThrown_after (happ : Appended c d [] ∧ d.closePhase = c.closePhase) : PollEffect options c d.pollThrown :=
  (pollThrown_effect d).after happ.1 happ.2

theorem encodeWebsocketClosePayload_nil (code : WebsocketCloseCode) :
    encodeWebsocketClosePayload code [] = .ok (writeBigEndian 2 code.value) := by
  have hutf8 : isValidUtf8 [] = true := by
    unfold isValidUtf8 isValidUtf8From
    rfl
  unfold encodeWebsocketClosePayload
  rw [if_neg (by simp), if_neg (by rw [hutf8]; simp), List.append_nil]

theorem fail_effect {failure : WebsocketProtocolFailure} {ok : Bool} (h : c.fail options failure = (d, ok)) :
    if ok then
      Effect options c d (polledFrames c.closePhase (.event (.protocolError failure.closeCode))) false
    else Appended c d [] ∧ d.closePhase = c.closePhase := by
  unfold fail at h
  unfold polledFrames
  split at h
  · rename_i hphase
    rw [encodeWebsocketClosePayload_nil] at h
    dsimp only at h
    split at h
    · rename_i happ
      obtain ⟨rfl, rfl⟩ := Prod.mk.inj h
      exact appendFrame_failed happ
    · rename_i happ
      obtain ⟨rfl, rfl⟩ := Prod.mk.inj h
      dsimp only
      rw [if_pos rfl, if_pos hphase]
      refine appendFrame_effect happ (fun mask => ?_) (by intro h; cases h)
      rw [hphase]
      exact .close rfl (by decide)
  · rename_i hphase
    obtain ⟨rfl, rfl⟩ := Prod.mk.inj h
    rw [if_pos rfl, hphase]
    refine ⟨⟨[], (Appended.refl c).withPhase _, ?_, .nil⟩, by intro h; cases h⟩
    rw [hphase]
    refine CloseStep.advance ?_ (fun _ => rfl)
    show 1 ≤ 3
    decide
  · rename_i hphase
    obtain ⟨rfl, rfl⟩ := Prod.mk.inj h
    rw [if_pos rfl, hphase]
    refine ⟨⟨[], (Appended.refl c).withPhase _, ?_, .nil⟩, fun hend _ => .inr ?_⟩
    · rw [hphase]
      refine CloseStep.advance ?_ (by intro hfinal; cases hfinal)
      dsimp only
      split <;> decide
    · exact ended_of_outputQueued rfl rfl rfl hend
  · rename_i hopen _ _
    obtain ⟨rfl, rfl⟩ := Prod.mk.inj h
    dsimp only
    rw [if_neg hopen]
    exact Effect.of_same (Appended.refl c) rfl _

theorem protocolFailureEvent_effect (failure : WebsocketProtocolFailure) :
    PollEffect options c (c.protocolFailureEvent options failure) := by
  unfold protocolFailureEvent
  split
  · rename_i d hfail
    exact fail_effect hfail
  · rename_i d hfail
    exact pollThrown_after (fail_effect hfail)

/-- The event of a Close frame determines its payload: 1005 never stands on the wire. -/
theorem closeEventPayload_of_checked (h : websocketClosePayloadFailure payload = none) :
    closeEventPayload (if 2 ≤ payload.length then readWebsocketUint16 payload else 1005)
      (if 2 < payload.length then payload.drop 2 else []) = payload := by
  match payload with
  | [] => rfl
  | [_] => exact absurd h (by simp [websocketClosePayloadFailure])
  | a :: b :: reason =>
    have hvalid : isValidCloseCode (readWebsocketUint16 (a :: b :: reason)) = true := by
      by_contra hbad
      rw [Bool.not_eq_true] at hbad
      simp [websocketClosePayloadFailure, hbad] at h
    have hcode : readWebsocketUint16 (a :: b :: reason) ≠ 1005 := by
      intro heq
      rw [heq] at hvalid
      exact absurd hvalid (by decide)
    have hreason : (if 2 < (a :: b :: reason).length then (a :: b :: reason).drop 2 else []) = reason := by
      cases reason <;> simp
    have hwrite : writeBigEndian 2 (readWebsocketUint16 (a :: b :: reason)) = [a, b] :=
      writeBigEndian_readBigEndian [a, b]
    have htwo : 2 ≤ (a :: b :: reason).length := by simp
    unfold closeEventPayload
    rw [hreason, if_pos htwo, if_neg hcode, hwrite]
    rfl

theorem peerClose_effect (hchecked : websocketClosePayloadFailure payload = none) :
    PollEffect options c (c.peerClose options payload) := by
  unfold peerClose
  dsimp only
  split
  · rename_i hopen
    split
    · rename_i d happ
      exact pollThrown_after (appendFrame_failed happ)
    · rename_i d happ
      unfold PollEffect polledFrames
      dsimp only
      rw [if_pos hopen, closeEventPayload_of_checked hchecked]
      refine appendFrame_effect happ (fun mask => ?_) (fun hend => ?_)
      · rw [hopen]
        refine .close rfl ?_
        unfold handshakeCompletePhase
        split <;> split <;> decide
      · unfold handshakeCompletePhase at hend
        cases hout : d.outputQueued with
        | true => cases hrole : options.role <;> rw [hout, hrole] at hend <;> cases hend
        | false => exact queuedOutput_of_outputQueued hout
  · rename_i hopen
    unfold receivePeerClose PollEffect polledFrames
    dsimp only
    split
    · rename_i hphase
      refine ⟨⟨[], (Appended.refl c).withPhase _, .advance ?_ ?_, .nil⟩, fun hend _ => .inr ?_⟩
      · show c.closePhase.toNat ≤ (c.handshakeCompletePhase options).toNat
        have hle : c.closePhase.toNat ≤ 2 := by rcases hphase with h | h <;> rw [h] <;> decide
        have hge : 3 ≤ (c.handshakeCompletePhase options).toNat := by
          unfold handshakeCompletePhase
          split <;> split <;> decide
        omega
      · intro hfinal
        rcases hphase with h | h <;> rw [h] at hfinal <;> cases hfinal
      · unfold handshakeCompletePhase at hend
        cases hout : c.outputQueued with
        | true => cases hrole : options.role <;> rw [hout, hrole] at hend <;> cases hend
        | false => exact queuedOutput_of_outputQueued hout
    · exact Effect.of_same (Appended.refl c) rfl _

/-- The control frames that are neither pings nor pongs are checked Close frames. -/
def WebsocketInboundAction.Checked (action : WebsocketInboundAction) : Prop :=
  ∀ opcode payload, action = .controlFrame opcode payload → opcode ≠ .ping → opcode ≠ .pong →
    websocketClosePayloadFailure payload = none

/-- The effect of a frame: that of a poll, or none at all when the loop reads on. -/
def FrameEffect (options : WebsocketConnectionOptions D M) (c : WebsocketConnection D M) :
    WebsocketConnection D M × Option WebsocketPoll → Prop
  | (d, some poll) => PollEffect options c (d, poll)
  | (d, none) => Appended c d [] ∧ d.closePhase = c.closePhase

theorem FrameEffect.after {result : WebsocketConnection D M × Option WebsocketPoll}
    (h : FrameEffect options d result) (happ : Appended c d []) (hphase : d.closePhase = c.closePhase) :
    FrameEffect options c result := by
  obtain ⟨e, _ | poll⟩ := result
  · exact ⟨happ.after h.1, h.2.trans hphase⟩
  · exact PollEffect.after h happ hphase

theorem actOn_effect {action : WebsocketInboundAction} (hreading : c.closePhase.isReading = true)
    (hchecked : WebsocketInboundAction.Checked action) : FrameEffect options c (c.actOn options action) := by
  unfold actOn
  split
  · exact ⟨Appended.refl c, rfl⟩
  · exact protocolFailureEvent_effect _
  · exact pollThrown_effect c
  · rename_i payload
    split
    · rename_i d happ
      exact pollThrown_after (appendFrame_failed happ)
    · rename_i d happ
      have hphase := (appendFrame_spec happ).1.closePhase
      refine appendFrame_effect happ (fun mask => ?_) (fun hend => ?_)
      · rw [hphase]
        exact .pong rfl hreading
      · rw [hphase, WebsocketClosePhase.not_ended_of_reading hreading] at hend
        cases hend
  · exact pollEffect_quiet (Appended.refl c) rfl rfl
  · rename_i opcode payload hping hpong
    exact peerClose_effect (hchecked opcode payload rfl (fun h => hping h) (fun h => hpong h))
  · split
    · exact ⟨Appended.of_same_output rfl rfl rfl rfl, rfl⟩
    · exact pollEffect_quiet (Appended.refl c) rfl rfl

/-- A control frame keeps its payload on the way through the assembler. -/
theorem receiveFrame_checked {assembler : WebsocketInboundAssembler} {deflate : Option D}
    {frame : WebsocketFrameView} (h : frame.kind = .close → websocketClosePayloadFailure frame.payload = none) :
    WebsocketInboundAction.Checked (receiveFrame options assembler deflate frame).2.2 := by
  intro opcode payload haction hping hpong
  have hcompleted : ∀ (a : WebsocketInboundAssembler) (op : WebsocketOpcode) (bytes : Bytes)
      (encoding : WebsocketInboundContentEncoding),
      WebsocketInboundAssembler.completed op bytes encoding ≠ .controlFrame opcode payload := by
    intro _ op bytes encoding
    unfold WebsocketInboundAssembler.completed
    split
    · simp
    · split <;> simp
  have hcontrol : (assembler.accept frame options.messageLimit).2 = .controlFrame opcode payload := by
    unfold receiveFrame at haction
    split at haction <;> rename_i hresult <;> rw [hresult]
    · cases haction
    · cases haction
    · cases haction
      rfl
    · cases haction
    · split at haction
      · cases haction
      · unfold inflateMessage at haction
        dsimp only at haction
        split at haction <;> first | cases haction | (split at haction <;> cases haction)
  unfold WebsocketInboundAssembler.accept at hcontrol
  split at hcontrol
  · rename_i hkind
    cases hcontrol
    exact h hkind
  · cases hcontrol
    exact absurd rfl hping
  · cases hcontrol
    exact absurd rfl hpong
  · unfold WebsocketInboundAssembler.acceptContinuation at hcontrol
    split at hcontrol
    · cases hcontrol
    · split at hcontrol
      · cases hcontrol
      · split at hcontrol
        · exact absurd hcontrol (hcompleted assembler _ _ _)
        · cases hcontrol
  all_goals
    unfold WebsocketInboundAssembler.acceptData at hcontrol
    dsimp only at hcontrol
    split at hcontrol
    · cases hcontrol
    · split at hcontrol
      · exact absurd hcontrol (hcompleted assembler _ _ _)
      · cases hcontrol

theorem acceptFrame_effect {frame : WebsocketFrameView} {total : Nat}
    (hreading : c.closePhase.isReading = true)
    (h : frame.kind = .close → websocketClosePayloadFailure frame.payload = none) :
    FrameEffect options c (c.acceptFrame options frame total) := by
  have hact := @actOn_effect D M options
    { c with
      pendingConsume := total
      assembler := (receiveFrame options c.assembler c.deflate frame).1
      deflate := (receiveFrame options c.assembler c.deflate frame).2.1 }
    (receiveFrame options c.assembler c.deflate frame).2.2 hreading (receiveFrame_checked h)
  exact FrameEffect.after hact (Appended.of_same_output rfl rfl rfl rfl) rfl

/-- The reading loop: every round but the last leaves the output and the phase alone. -/
theorem readFrames_effect (hreading : c.closePhase.isReading = true) :
    PollEffect options c (c.readFrames options) := by
  fun_induction readFrames options c with
  | case1 c released missing hread =>
    exact pollEffect_quiet (Appended.of_same_output rfl rfl rfl rfl) rfl rfl
  | case2 c released error hread =>
    exact (protocolFailureEvent_effect error).after (Appended.of_same_output rfl rfl rfl rfl) rfl
  | case3 c released frame total hread d poll haccept =>
    have heffect := @acceptFrame_effect D M options released frame total hreading
      (WebsocketFrameReader.read_close hread)
    rw [haccept] at heffect
    exact PollEffect.after heffect (Appended.of_same_output rfl rfl rfl rfl) rfl
  | case4 c released frame total hread d haccept ih =>
    have heffect := @acceptFrame_effect D M options released frame total hreading
      (WebsocketFrameReader.read_close hread)
    rw [haccept] at heffect
    obtain ⟨happ, hphase⟩ := heffect
    have hreleased : Appended c released [] := Appended.of_same_output rfl rfl rfl rfl
    exact (ih (hphase ▸ hreading)).after (hreleased.after happ) hphase

theorem nextEvent_effect (c : WebsocketConnection D M) : PollEffect options c (c.nextEvent options) := by
  unfold nextEvent
  dsimp only
  split
  iterate 5 exact pollEffect_quiet (Appended.of_same_output rfl rfl rfl rfl) rfl rfl
  all_goals
    rename_i hphase
    refine PollEffect.after (readFrames_effect ?_) (Appended.of_same_output rfl rfl rfl rfl) rfl
    rw [hphase]
    rfl

/-! ## Submissions -/

/-- The effect of a submission of `entry`. -/
def SubmitEffect (options : WebsocketConnectionOptions D M) (c : WebsocketConnection D M)
    (entry : WebsocketOpcode × Bytes)
    (result : WebsocketConnection D M × Option WebsocketFrameSubmitStatus) : Prop :=
  Effect options c result.1 (if result.2 = some .accepted then [entry] else []) (result.2 = none)

variable {entry : WebsocketOpcode × Bytes}

theorem submitEffect_refused {status : WebsocketFrameSubmitStatus} (h : status ≠ .accepted) :
    SubmitEffect options c entry (c, some status) := by
  unfold SubmitEffect
  rw [if_neg (fun heq => h (Option.some.inj heq))]
  exact Effect.of_same (Appended.refl c) rfl _

variable {deflate : D}

/-- The handler keeps the output; when it fails, too, the connection ends. -/
theorem discardTrial_effect (hopen : c.closePhase = .open) (happ : Appended c d [])
    (hphase : d.closePhase = c.closePhase) :
    SubmitEffect options c entry (d.discardTrial options deflate, none) := by
  unfold SubmitEffect discardTrial
  split
  · apply Effect.of_same
    · exact happ.after (Appended.of_same_output rfl rfl rfl rfl)
    · exact hphase
  · refine ⟨⟨[], happ.after (Appended.of_same_output rfl rfl rfl rfl), .advance ?_ (fun _ => rfl), .nil⟩, ?_⟩
    · rw [hopen]
      exact Nat.zero_le _
    · intro _ hthrew
      simp at hthrew

/-- An accepted append of a data or control frame. -/
theorem submitEffect_accepted {sent : Bytes} (h : c.appendFrame options opcode sent rsv1 storage aliases = (d, true))
    (hopen : c.closePhase = .open) (hopcode : opcode ≠ .close)
    (hcarries : rsv1 = false ∧ sent = payload ∨ rsv1 = true ∧ ∃ before after,
      options.deflate.compress before payload = (after, .compressed sent)) :
    SubmitEffect options c (opcode, payload) (d, some .accepted) := by
  obtain ⟨hsame, mask, hmask, happ⟩ := appendFrame_spec h
  have hphase : d.closePhase = .open := hsame.closePhase.trans hopen
  unfold SubmitEffect
  refine ⟨⟨_, happ, ?_, .cons ⟨rfl, hmask, hcarries⟩ .nil⟩, fun hend _ => ?_⟩
  · rw [hopen, hphase]
    exact .data hopcode
  · rw [hphase] at hend
    cases hend

theorem appendTrial_effect {sent : Bytes} (hopen : c.closePhase = .open) (hopcode : opcode ≠ .close)
    (hcarries : rsv1 = false ∧ sent = payload ∨ rsv1 = true ∧ ∃ before after,
      options.deflate.compress before payload = (after, .compressed sent)) :
    SubmitEffect options c (opcode, payload)
      (c.appendTrial options deflate opcode sent rsv1 storage aliases) := by
  have hset : Appended c { c with deflate := some deflate } [] := Appended.of_same_output rfl rfl rfl rfl
  unfold appendTrial
  split
  · rename_i d happ
    exact Effect.after (submitEffect_accepted happ hopen hopcode hcarries) hset rfl
  · rename_i d happ
    obtain ⟨hkept, hphase⟩ := appendFrame_failed happ
    exact discardTrial_effect hopen (hset.after hkept) hphase

theorem submitCompressed_effect (hopen : c.closePhase = .open) (hopcode : opcode ≠ .close) :
    SubmitEffect options c (opcode, payload)
      (c.submitCompressed options deflate opcode payload storage aliases) := by
  have hthrown : ∀ trial : D, SubmitEffect options c (opcode, payload) (c.discardTrial options trial, none) :=
    fun trial => discardTrial_effect hopen (Appended.refl c) rfl
  unfold submitCompressed
  dsimp only
  split
  · exact hthrown _
  · split
    · exact hthrown _
    · exact appendTrial_effect hopen hopcode (.inl ⟨rfl, rfl⟩)
  · rename_i after output hcompress
    split
    · exact appendTrial_effect hopen hopcode (.inr ⟨rfl, deflate, after, hcompress⟩)
    · split
      · exact hthrown _
      · exact appendTrial_effect hopen hopcode (.inl ⟨rfl, rfl⟩)

theorem submitFrame_effect (opcode : WebsocketOpcode) (payload : Bytes) (compress : Bool)
    (storage : WebsocketPayloadStorage) (aliases : Bool) :
    SubmitEffect options c (opcode, payload)
      (c.submitFrame options opcode payload compress storage aliases) := by
  unfold submitFrame
  dsimp only
  by_cases hopen : c.closePhase = .open
  · rw [if_neg (not_not.mpr hopen)]
    split
    · exact submitEffect_refused (by decide)
    · rename_i hvalid
      have hopcode : opcode ≠ .close := by
        rintro rfl
        exact hvalid (by decide)
      split
      · exact submitEffect_refused (by decide)
      · split
        · exact submitEffect_refused (by decide)
        · split
          · exact submitEffect_refused (by decide)
          · split
            · exact submitCompressed_effect hopen hopcode
            · split
              · rename_i d happ
                exact submitEffect_accepted happ hopen hopcode (.inl ⟨rfl, rfl⟩)
              · rename_i d happ
                obtain ⟨hkept, hphase⟩ := appendFrame_failed happ
                exact Effect.of_same hkept hphase _
  · rw [if_pos hopen]
    exact submitEffect_refused (by decide)

theorem encodeWebsocketClosePayload_ok {code : WebsocketCloseCode} {reason : Bytes}
    (h : encodeWebsocketClosePayload code reason = .ok payload) :
    payload = writeBigEndian 2 code.value ++ reason := by
  unfold encodeWebsocketClosePayload at h
  split_ifs at h
  exact (Except.ok.inj h).symm

/-- The effect of the submission of a Close frame. -/
def CloseSubmitEffect (options : WebsocketConnectionOptions D M) (c : WebsocketConnection D M)
    (payload : Bytes) (result : WebsocketConnection D M × Option WebsocketCloseSubmitStatus) : Prop :=
  Effect options c result.1 (if result.2 = some .accepted then [(.close, payload)] else []) (result.2 = none)

theorem closeSubmitEffect_refused {status : Option WebsocketCloseSubmitStatus} (happ : Appended c d [])
    (hphase : d.closePhase = c.closePhase) (h : status ≠ some .accepted) :
    CloseSubmitEffect options c payload (d, status) := by
  unfold CloseSubmitEffect
  rw [if_neg h]
  exact Effect.of_same happ hphase _

theorem submitClose_effect (code : WebsocketCloseCode) (reason : Bytes) :
    CloseSubmitEffect options c (writeBigEndian 2 code.value ++ reason) (c.submitClose options code reason) := by
  have hrefused : ∀ status, status ≠ some .accepted →
      CloseSubmitEffect options c (writeBigEndian 2 code.value ++ reason) (c, status) :=
    fun status h => closeSubmitEffect_refused (Appended.refl c) rfl h
  unfold submitClose
  split
  · exact hrefused _ (by decide)
  · split
    · exact hrefused _ (by decide)
    · rename_i hopen
      rw [not_not] at hopen
      split
      · exact hrefused _ (by decide)
      · split
        · exact hrefused _ (by decide)
        · exact hrefused _ (by decide)
        · rename_i payload hpayload
          split
          · rename_i d happ
            obtain ⟨hkept, hphase⟩ := appendFrame_failed happ
            exact closeSubmitEffect_refused hkept hphase (by decide)
          · rename_i d happ
            unfold CloseSubmitEffect
            rw [if_pos rfl, ← encodeWebsocketClosePayload_ok hpayload]
            refine appendFrame_effect happ (fun mask => ?_) (by intro h; cases h)
            rw [hopen]
            exact .close rfl (by decide)

/-! ## Feeding and the end of the transport -/

theorem feed_effect (input : Bytes) : Effect options c (c.feed options input).1 [] false := by
  unfold feed
  split
  · exact Effect.of_same (Appended.refl c) rfl _
  · exact Effect.of_same (Appended.refl c) rfl _
  all_goals
    split
    · split
      · exact Effect.of_same (Appended.refl c) rfl _
      · apply Effect.of_same
        · exact Appended.of_same_output rfl rfl rfl rfl
        · rfl
    · apply Effect.of_same
      · exact Appended.of_same_output rfl rfl rfl rfl
      · rfl

theorem commitTransportEnd_effect : Effect options c c.commitTransportEnd [] false := by
  unfold commitTransportEnd
  split
  · rename_i hphase
    refine ⟨⟨[], (Appended.refl c).withPhase _, .advance ?_ (fun _ => rfl), .nil⟩,
      fun _ _ => .inl (by rw [hphase]; rfl)⟩
    rw [hphase]
    show 6 ≤ 7
    decide
  · exact Effect.of_same (Appended.refl c) rfl _

theorem notifyTransportEof_effect : Effect options c c.notifyTransportEof [] true := by
  unfold notifyTransportEof
  split
  · rename_i hphase
    refine ⟨⟨[], (Appended.refl c).withPhase _, .advance ?_ (fun _ => rfl), .nil⟩, by simp⟩
    show c.closePhase.toNat ≤ 6
    cases hp : c.closePhase <;> first | exact absurd hp hphase | decide
  · exact Effect.of_same (Appended.refl c) rfl _

theorem abort_effect : Effect options c c.abort.1 [] true := by
  unfold abort
  split
  · exact Effect.of_same (Appended.refl c) rfl _
  · refine ⟨⟨[], (Appended.refl c).withPhase _, .advance ?_ (fun _ => rfl), .nil⟩, by simp⟩
    show c.closePhase.toNat ≤ 7
    cases c.closePhase <;> decide

/-! ## Every operation -/

/-- The operations after which discarded output is out of reach: the transport is gone, or the call threw. -/
def discards : Operation → Answer → Bool
  | .notifyTransportEof, _ | .abort, _ => true
  | _, answer => answer.isThrown

theorem isThrown_submitted (status : Option WebsocketFrameSubmitStatus) :
    (Answer.submitted status).isThrown = decide (status = none) := by
  cases status <;> rfl

theorem isThrown_closeSubmitted (status : Option WebsocketCloseSubmitStatus) :
    (Answer.closeSubmitted status).isThrown = decide (status = none) := by
  cases status <;> rfl

theorem isThrown_polled (poll : WebsocketPoll) : (Answer.polled poll).isThrown = decide (poll = .thrown) := by
  cases poll <;> rfl

/-- **What an operation other than writing does.** -/
theorem step_effect {operation : Operation} (h : ∀ bytes, operation ≠ .consumeOutput bytes) :
    Effect options c (c.step options operation).1
      (queuedBy c.closePhase operation (c.step options operation).2)
      (discards operation (c.step options operation).2) := by
  cases operation with
  | submitFrame opcode payload compress storage aliases =>
    unfold discards step
    dsimp only [Prod.map]
    rw [isThrown_submitted]
    exact submitFrame_effect opcode payload compress storage aliases
  | submitClose code reason =>
    unfold discards step
    dsimp only [Prod.map]
    rw [isThrown_closeSubmitted]
    exact submitClose_effect code reason
  | feed input => exact feed_effect input
  | nextEvent =>
    unfold discards step
    dsimp only [Prod.map]
    rw [isThrown_polled]
    exact nextEvent_effect c
  | consumeOutput bytes => exact absurd rfl (h bytes)
  | commitTransportEnd => exact commitTransportEnd_effect
  | notifyTransportEof => exact notifyTransportEof_effect
  | abort => exact abort_effect

end WebsocketConnection

end Ruvia.Http
