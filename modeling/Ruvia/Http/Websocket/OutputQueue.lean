import Ruvia.Http.Websocket.Inbound

/-!
# `Http.Websocket.OutputQueue` — what an append does

The output of a connection is a byte queue kept in three pieces: a buffer, the offset up to which it has been
written, and a payload borrowed from the caller that follows the buffer. `queuedOutput` is that queue.

`appendFrame_spec` is the only fact about `append_frame` the other modules use: it appends the wire bytes of
one frame to the queue and to the history, or it fails and appends nothing; compaction is invisible, and
nothing but the output and the state of the key generator changes.
-/

namespace Ruvia.Http

open Library

/-- The bytes of a frame on the wire, masked byte by byte. -/
def WebsocketSentFrame.wire (frame : WebsocketSentFrame) : Bytes :=
  encodeWebsocketFrameHeader frame.opcode frame.payload.length frame.rsv1 frame.mask.isSome ++
    match frame.mask with
    | none => frame.payload
    | some mask => mask ++ xorMask mask frame.payload

namespace WebsocketConnection

variable {D M : Type} {options : WebsocketConnectionOptions D M} {c d : WebsocketConnection D M}

/-- The bytes that have entered the output and have not been written. -/
def queuedOutput (c : WebsocketConnection D M) : Bytes := c.outBuffer.drop c.outOffset ++ c.borrowedOutput

/-- The offset lies inside the buffer. -/
def OffsetInside (c : WebsocketConnection D M) : Prop := c.outOffset ≤ c.outBuffer.length

/-- Everything but the output and the state of the key generator. -/
structure SameButOutput (c d : WebsocketConnection D M) : Prop where
  input : d.input = c.input
  pendingConsume : d.pendingConsume = c.pendingConsume
  neededInputBytes : d.neededInputBytes = c.neededInputBytes
  assembler : d.assembler = c.assembler
  deflate : d.deflate = c.deflate
  closePhase : d.closePhase = c.closePhase

variable {e : WebsocketConnection D M}

theorem SameButOutput.trans (h : SameButOutput c d) (h' : SameButOutput d e) : SameButOutput c e :=
  ⟨h'.1.trans h.1, h'.2.trans h.2, h'.3.trans h.3, h'.4.trans h.4, h'.5.trans h.5, h'.6.trans h.6⟩

/-- `frames` have entered the output. -/
structure Appended (c d : WebsocketConnection D M) (frames : List WebsocketSentFrame) : Prop where
  sentFrames : d.sentFrames = c.sentFrames ++ frames
  offset : c.OffsetInside → d.OffsetInside
  queued : c.OffsetInside → d.queuedOutput = c.queuedOutput ++ frames.flatMap WebsocketSentFrame.wire

theorem Appended.refl (c : WebsocketConnection D M) : Appended c c [] :=
  ⟨(List.append_nil _).symm, id, fun _ => (List.append_nil _).symm⟩

/-- The output of a state that differs elsewhere. -/
theorem Appended.of_same_output (hsent : d.sentFrames = c.sentFrames) (hbuffer : d.outBuffer = c.outBuffer)
    (hoffset : d.outOffset = c.outOffset) (hborrowed : d.borrowedOutput = c.borrowedOutput) :
    Appended c d [] := by
  refine ⟨?_, ?_, ?_⟩
  · rw [hsent, List.append_nil]
  · unfold OffsetInside
    rw [hbuffer, hoffset]
    exact id
  · intro _
    unfold queuedOutput
    rw [hbuffer, hoffset, hborrowed, List.flatMap_nil, List.append_nil]

theorem Appended.trans {frames more : List WebsocketSentFrame} (h : Appended c d frames) (h' : Appended d e more) :
    Appended c e (frames ++ more) := by
  refine ⟨?_, fun hc => h'.offset (h.offset hc), fun hc => ?_⟩
  · rw [h'.sentFrames, h.sentFrames, List.append_assoc]
  · rw [h'.queued (h.offset hc), h.queued hc, List.flatMap_append, List.append_assoc]

/-- A step that queues nothing may come first. -/
theorem Appended.after {frames : List WebsocketSentFrame} (h : Appended c d []) (h' : Appended d e frames) :
    Appended c e frames := by
  have htrans := h.trans h'
  rwa [List.nil_append] at htrans

/-! ## Compaction -/

theorem compactOutput_appended (c : WebsocketConnection D M) : Appended c c.compactOutput [] := by
  unfold compactOutput
  split
  · refine ⟨(List.append_nil _).symm, fun _ => Nat.zero_le _, fun _ => ?_⟩
    show (c.outBuffer.drop c.outOffset).drop 0 ++ c.borrowedOutput = _
    rw [List.drop_zero, List.flatMap_nil, List.append_nil]
    rfl
  · exact Appended.refl c

theorem compactOutput_same (c : WebsocketConnection D M) : SameButOutput c c.compactOutput := by
  unfold compactOutput
  split <;> exact ⟨rfl, rfl, rfl, rfl, rfl, rfl⟩

/-! ## Appending -/

theorem queueFrame_same (c : WebsocketConnection D M) (frame : WebsocketSentFrame) (borrow : Bool) :
    SameButOutput c (c.queueFrame frame borrow) := by
  unfold queueFrame
  split
  · exact ⟨rfl, rfl, rfl, rfl, rfl, rfl⟩
  · split <;> exact ⟨rfl, rfl, rfl, rfl, rfl, rfl⟩

/-- The frame lands behind the queue, with the earlier borrowed payload in front of it. -/
theorem queueFrame_appended (c : WebsocketConnection D M) (frame : WebsocketSentFrame) (borrow : Bool) :
    Appended c (c.queueFrame frame borrow) [frame] := by
  unfold queueFrame
  split
  · rename_i mask hmask
    refine ⟨rfl, fun hc => ?_, fun hc => ?_⟩
    · unfold OffsetInside at hc ⊢
      simp only [List.length_append]
      omega
    · unfold OffsetInside at hc
      unfold queuedOutput
      rw [decodeMaskedWebsocketPayload_eq _ _ _ mask.2, List.flatMap_singleton, WebsocketSentFrame.wire, hmask]
      simp only [List.append_assoc, List.append_nil]
      rw [List.drop_append_of_le_length hc]
  · rename_i hmask
    cases borrow with
    | false =>
      refine ⟨rfl, fun hc => ?_, fun hc => ?_⟩
      · unfold OffsetInside at hc ⊢
        simp only [Bool.false_eq_true, if_false, List.length_append]
        omega
      · unfold OffsetInside at hc
        unfold queuedOutput
        simp only [Bool.false_eq_true, if_false, List.flatMap_singleton, WebsocketSentFrame.wire, hmask,
          List.append_assoc, List.append_nil]
        rw [List.drop_append_of_le_length hc]
    | true =>
      refine ⟨rfl, fun hc => ?_, fun hc => ?_⟩
      · unfold OffsetInside at hc ⊢
        simp only [if_true, List.length_append]
        omega
      · unfold OffsetInside at hc
        unfold queuedOutput
        simp only [if_true, List.flatMap_singleton, WebsocketSentFrame.wire, hmask, List.append_assoc]
        rw [List.drop_append_of_le_length hc]
        simp only [List.append_assoc]

/-- The masks a role puts on its frames. -/
def MaskOf (options : WebsocketConnectionOptions D M) (mask : Option WebsocketMaskKey) : Prop :=
  mask.isSome = decide (options.role = .client)

/-- **What `append_frame` does**: one frame enters the output, or the key generator failed and none does. -/
theorem appendFrame_spec {opcode : WebsocketOpcode} {payload : Bytes} {rsv1 : Bool}
    {storage : WebsocketPayloadStorage} {aliases sent : Bool}
    (h : c.appendFrame options opcode payload rsv1 storage aliases = (d, sent)) :
    SameButOutput c d ∧
      if sent then ∃ mask, MaskOf options mask ∧ Appended c d [⟨opcode, payload, rsv1, mask⟩]
      else Appended c d [] := by
  unfold appendFrame at h
  have hcompact := compactOutput_appended c
  have hsame := compactOutput_same c
  cases hrole : options.role with
  | client =>
    rw [hrole] at h
    dsimp only at h
    cases hmask : options.maskKeyGenerator c.compactOutput.maskKeyContext with
    | mk context key =>
      rw [hmask] at h
      cases key with
      | none =>
        obtain ⟨rfl, rfl⟩ := Prod.mk.inj h
        refine ⟨⟨hsame.1, hsame.2, hsame.3, hsame.4, hsame.5, hsame.6⟩, ?_⟩
        exact hcompact.after (Appended.of_same_output rfl rfl rfl rfl)
      | some mask =>
        obtain ⟨rfl, rfl⟩ := Prod.mk.inj h
        refine ⟨hsame.trans (SameButOutput.trans ?_ (queueFrame_same _ _ _)), some mask, ?_, ?_⟩
        · exact ⟨rfl, rfl, rfl, rfl, rfl, rfl⟩
        · rw [MaskOf, hrole]
          rfl
        · apply hcompact.after (Appended.after ?_ (queueFrame_appended _ _ _))
          exact Appended.of_same_output rfl rfl rfl rfl
  | server =>
    rw [hrole] at h
    obtain ⟨rfl, rfl⟩ := Prod.mk.inj h
    refine ⟨hsame.trans (queueFrame_same _ _ _), none, ?_, hcompact.after (queueFrame_appended _ _ _)⟩
    rw [MaskOf, hrole]
    rfl

end WebsocketConnection

end Ruvia.Http
