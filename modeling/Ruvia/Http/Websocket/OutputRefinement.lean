import Ruvia.Http.Websocket.Operations
import Mathlib.Data.List.Forall2

/-!
# `Http.Websocket.OutputRefinement` — the output is a byte queue

`runOutput` drives a connection through any operations and writes what `output_plan` shows, in pieces of any
size. Beside the connection it keeps what the outside sees: the frames the answers told of, and the bytes
written so far.

`output_refines_queue`: at every moment the bytes written, followed by the bytes that are queued, are the wire
bytes of the accepted frames in the order of their acceptance. Compaction, the spilling of a borrowed payload
and clearing are invisible. The plan shows all queued bytes until a failure or the end of the transport puts
them out of reach.
-/

namespace Ruvia.Http

open Library

/-- The planned bytes in the order they are written. -/
def WebsocketOutputPlan.text (plan : WebsocketOutputPlan) : Bytes := plan.bytes ++ plan.borrowedBytes

theorem WebsocketOutputPlan.text_length (plan : WebsocketOutputPlan) : plan.text.length = plan.size :=
  List.length_append

namespace WebsocketConnection

variable {D M : Type} {options : WebsocketConnectionOptions D M} {c : WebsocketConnection D M}

/-! ## Writing -/

/-- The plan shows the queue, until the output is out of reach. -/
theorem outputPlan_text (c : WebsocketConnection D M) :
    c.outputPlan.text = if c.closePhase.isEnded then [] else c.queuedOutput := by
  unfold outputPlan
  cases c.closePhase <;> rfl

/-- Writing moves the phase forward and adds no frame. -/
theorem consumeOutput_quiet (c : WebsocketConnection D M) (bytes : Nat) :
    (c.consumeOutput bytes).1.sentFrames = c.sentFrames ∧
      c.closePhase.toNat ≤ (c.consumeOutput bytes).1.closePhase.toNat ∧
      (c.closePhase.isFinal = true → (c.consumeOutput bytes).1.closePhase.isFinal = true) := by
  unfold consumeOutput
  dsimp only
  split
  · exact ⟨rfl, le_rfl, id⟩
  · split
    · exact ⟨rfl, le_rfl, id⟩
    · split
      · exact ⟨rfl, le_rfl, id⟩
      · split
        · exact ⟨rfl, le_rfl, id⟩
        · refine ⟨rfl, ?_, ?_⟩
          all_goals
            unfold phaseAfterDrain
            dsimp only
            cases c.closePhase <;> decide

/-- **Writing `bytes` planned bytes takes them off the front of the queue.** -/
theorem consumeOutput_queued {bytes : Nat} (hinside : c.OffsetInside) (h : bytes ≤ c.outputPlan.size) :
    (c.consumeOutput bytes).1.OffsetInside ∧
      (c.consumeOutput bytes).1.queuedOutput = c.queuedOutput.drop bytes ∧
      ((c.consumeOutput bytes).1.closePhase.isEnded = true →
        c.closePhase.isEnded = true ∨ (c.consumeOutput bytes).1.queuedOutput = []) := by
  rw [← WebsocketOutputPlan.text_length, outputPlan_text] at h
  have howned : (c.outBuffer.drop c.outOffset).length = c.outBuffer.length - c.outOffset := List.length_drop
  unfold consumeOutput
  dsimp only
  by_cases hended : c.closePhase.isEnded = true
  · -- nothing is planned, so nothing is written
    rw [if_pos hended] at h
    obtain rfl : bytes = 0 := Nat.le_zero.mp h
    rw [if_pos ⟨rfl, WebsocketClosePhase.isEnded_iff.mp hended⟩]
    exact ⟨hinside, rfl, .inl⟩
  · have hopen : ¬ (bytes = 0 ∧ (c.closePhase = .transportEndReady ∨ c.closePhase = .closed)) := by
      intro hzero
      exact hended (WebsocketClosePhase.isEnded_iff.mpr hzero.2)
    rw [if_neg hended] at h
    unfold queuedOutput at h ⊢
    rw [List.length_append, howned] at h
    rw [if_neg hopen, if_neg (by omega)]
    split
    · rename_i hfew
      refine ⟨?_, ?_, .inl⟩
      · show c.outOffset + bytes ≤ c.outBuffer.length
        omega
      · show c.outBuffer.drop (c.outOffset + bytes) ++ c.borrowedOutput = _
        rw [List.drop_append_of_le_length (by omega), List.drop_drop]
    · rename_i hmany
      have hdrop : (c.outBuffer.drop c.outOffset ++ c.borrowedOutput).drop bytes =
          c.borrowedOutput.drop (bytes - (c.outBuffer.length - c.outOffset)) := by
        rw [List.drop_append, List.drop_eq_nil_of_le (by omega), List.nil_append, howned]
      split
      · exact ⟨le_rfl, hdrop.symm, .inl⟩
      · refine ⟨le_rfl, ?_, fun _ => .inr rfl⟩
        rw [hdrop]
        exact (List.drop_eq_nil_of_le (by omega)).symm

/-! ## Runs -/

/-- A connection before its first operation; input may be left over from the handshake. -/
def fresh (input : Bytes) (deflate : Option D) (maskKeyContext : M) : WebsocketConnection D M :=
  { input, deflate, maskKeyContext }

/-- A connection and what the outside has seen of its output. -/
structure OutputRun (D M : Type) where
  connection : WebsocketConnection D M
  /-- The opcodes and payloads of the accepted frames, read off the answers. -/
  accepted : List (WebsocketOpcode × Bytes) := []
  /-- The bytes written. -/
  consumed : Bytes := []
  /-- A call threw, or the transport ended from outside. -/
  discarded : Bool := false

/-- One operation; a write takes at most the planned bytes. -/
def OutputRun.perform (options : WebsocketConnectionOptions D M) (r : OutputRun D M) (operation : Operation) :
    OutputRun D M :=
  match operation with
  | .consumeOutput bytes =>
    let plan := r.connection.outputPlan
    let written := min bytes plan.size
    { r with
      connection := (r.connection.step options (.consumeOutput written)).1
      consumed := r.consumed ++ plan.text.take written }
  | operation =>
    let (connection, answer) := r.connection.step options operation
    { r with
      connection
      accepted := r.accepted ++ queuedBy r.connection.closePhase operation answer
      discarded := r.discarded || discards operation answer }

def runOutput (options : WebsocketConnectionOptions D M) (c : WebsocketConnection D M)
    (operations : List Operation) : OutputRun D M :=
  operations.foldl (OutputRun.perform options) { connection := c }

/-- What holds of a run at every moment. -/
structure OutputRun.Holds (options : WebsocketConnectionOptions D M) (r : OutputRun D M) : Prop where
  offset : r.connection.OffsetInside
  carries : List.Forall₂ (Carries options) r.accepted r.connection.sentFrames
  stream : r.consumed ++ r.connection.queuedOutput =
    r.connection.sentFrames.flatMap WebsocketSentFrame.wire
  reachable : r.discarded = false → r.connection.closePhase.isEnded = true →
    r.connection.queuedOutput = []

theorem OutputRun.Holds.write {r : OutputRun D M} (h : r.Holds options) (bytes : Nat) :
    (r.perform options (.consumeOutput bytes)).Holds options := by
  have hsize : min bytes r.connection.outputPlan.size ≤ r.connection.outputPlan.size := Nat.min_le_right _ _
  obtain ⟨hinside, hqueued, hended⟩ := consumeOutput_queued h.offset hsize
  obtain ⟨hsent, _, _⟩ := consumeOutput_quiet r.connection (min bytes r.connection.outputPlan.size)
  refine ⟨hinside, ?_, ?_, fun hdiscarded hphase => ?_⟩
  · show List.Forall₂ _ r.accepted (r.connection.consumeOutput _).1.sentFrames
    rw [hsent]
    exact h.carries
  · show r.consumed ++ r.connection.outputPlan.text.take _ ++ (r.connection.consumeOutput _).1.queuedOutput =
      (r.connection.consumeOutput _).1.sentFrames.flatMap _
    have htext : r.connection.outputPlan.text.take (min bytes r.connection.outputPlan.size) ++
        r.connection.queuedOutput.drop (min bytes r.connection.outputPlan.size) = r.connection.queuedOutput := by
      rw [← WebsocketOutputPlan.text_length, outputPlan_text]
      split
      · simp
      · exact List.take_append_drop _ _
    rw [hqueued, hsent, List.append_assoc, htext, h.stream]
  · rcases hended hphase with hbefore | hempty
    · show (r.connection.consumeOutput _).1.queuedOutput = []
      rw [hqueued, h.reachable hdiscarded hbefore, List.drop_nil]
    · exact hempty

theorem OutputRun.Holds.step {r : OutputRun D M} (h : r.Holds options) {operation : Operation}
    (hother : ∀ bytes, operation ≠ .consumeOutput bytes) : (r.perform options operation).Holds options := by
  obtain ⟨⟨frames, happ, hstep, hcarries⟩, hended⟩ := @step_effect D M options r.connection operation hother
  have hperform : r.perform options operation =
      { r with
        connection := (r.connection.step options operation).1
        accepted := r.accepted ++ queuedBy r.connection.closePhase operation (r.connection.step options operation).2
        discarded := r.discarded || discards operation (r.connection.step options operation).2 } := by
    unfold OutputRun.perform
    split
    · exact absurd rfl (hother _)
    · rfl
  rw [hperform]
  refine ⟨happ.offset h.offset, ?_, ?_, fun hdiscarded hphase => ?_⟩
  · rw [happ.sentFrames]
    exact List.rel_append h.carries hcarries
  · rw [happ.queued h.offset, happ.sentFrames, ← List.append_assoc, h.stream, List.flatMap_append]
  · rw [Bool.or_eq_false_iff] at hdiscarded
    rcases hended hphase hdiscarded.2 with hbefore | hempty
    · -- behind the end of the transport no frame is appended
      rw [happ.queued h.offset, h.reachable hdiscarded.1 hbefore, hstep.none_of_ended hbefore]
      rfl
    · exact hempty

theorem runOutput_holds (input : Bytes) (deflate : Option D) (maskKeyContext : M) (operations : List Operation) :
    (runOutput options (fresh input deflate maskKeyContext) operations).Holds options := by
  have hrun : ∀ (operations : List Operation) (r : OutputRun D M), r.Holds options →
      (operations.foldl (OutputRun.perform options) r).Holds options := by
    intro operations
    induction operations with
    | nil =>
      intro r h
      exact h
    | cons operation operations ih =>
      intro r h
      apply ih
      by_cases hwrite : ∃ bytes, operation = .consumeOutput bytes
      · obtain ⟨bytes, rfl⟩ := hwrite
        exact h.write bytes
      · exact h.step (fun bytes heq => hwrite ⟨bytes, heq⟩)
  apply hrun
  exact ⟨le_rfl, .nil, rfl, fun _ _ => rfl⟩

/-- **The output refines a byte queue.** Over any operations, the bytes written followed by the bytes queued
    are the wire bytes of the accepted frames in order; and as long as no call threw and the transport was
    not ended from outside, the queued bytes are the ones the plan shows. -/
theorem output_refines_queue (options : WebsocketConnectionOptions D M) (input : Bytes) (deflate : Option D)
    (maskKeyContext : M) (operations : List Operation) :
    let r := runOutput options (fresh input deflate maskKeyContext) operations
    List.Forall₂ (Carries options) r.accepted r.connection.sentFrames ∧
      r.consumed ++ r.connection.queuedOutput = r.connection.sentFrames.flatMap WebsocketSentFrame.wire ∧
      (r.discarded = false →
        r.consumed ++ r.connection.outputPlan.text =
          r.connection.sentFrames.flatMap WebsocketSentFrame.wire) := by
  intro r
  have h : r.Holds options := runOutput_holds input deflate maskKeyContext operations
  refine ⟨h.carries, h.stream, fun hdiscarded => ?_⟩
  rw [← h.stream, outputPlan_text]
  split
  · rename_i hended
    rw [h.reachable hdiscarded hended]
  · rfl

end WebsocketConnection

end Ruvia.Http
