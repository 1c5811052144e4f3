import Ruvia.Http.TrailerFields
import Ruvia.Http.ChunkedDelivery

/-!
# `Http.RequestContentWriter` — `http1_request_content_writer`

The writer of a streamed request body plans one write at a time; the caller transmits what was planned and
commits it. A `ContentTransmission` is the writer with everything that was planned so far. In chunked mode the
transmitted bytes are always the chunks of the accepted payloads, with the trailer section behind them once it
was planned (`Holds`), and the chunked decoder takes them back apart (`transmission_decodes`).
-/

namespace Ruvia.Http

open Library

inductive Http1RequestContentWriteError where
  | awaitingContinue
  | stopped
  | writePending
  | lengthOverflow
  | lengthMismatch
  | invalidTrailer
  | trailersRequireChunked
  | outputTooSmall
  | headerTooLarge
  deriving DecidableEq, Repr

/-- `http1_client_streaming_request_content`: the framing of a prepared request. -/
structure Http1ClientStreamingRequestContent where
  contentLength : Option Nat
  continueGated : Bool

/-- One planned chunk; known-length content has no prefix and no suffix. -/
structure Http1RequestContentChunk where
  prefixBytes : Bytes := []
  payload : Bytes := []
  suffix : Bytes := []
  deriving DecidableEq, Repr

structure Http1RequestContentWriter where
  length : Option Nat
  committed : Nat := 0
  pending : Nat := 0
  gated : Bool := false
  stopped : Bool := false
  writing : Bool := false
  finishing : Bool := false
  finished : Bool := false
  deriving DecidableEq, Repr

/-- The section budget of `plan_finish`: the last-chunk line shares it. -/
def http1ContentEndingBudget : HttpFieldSectionBudget :=
  (httpTrailerSectionBudget.add http1LastChunkPrefix.length).getD httpTrailerSectionBudget

namespace Http1RequestContentWriter

def init (plan : Http1ClientStreamingRequestContent) : Http1RequestContentWriter :=
  { length := plan.contentLength, gated := plan.continueGated }

variable (w : Http1RequestContentWriter)

def releaseContent : Http1RequestContentWriter := { w with gated := false }

def abort : Http1RequestContentWriter := { w with stopped := true, writing := false, finishing := false }

/-- `plan_chunk`. -/
def planChunk (payload : Bytes) :
    Http1RequestContentWriter × Except Http1RequestContentWriteError Http1RequestContentChunk :=
  if w.stopped || w.finished then (w, .error .stopped)
  else if w.gated then (w, .error .awaitingContinue)
  else if w.writing || w.finishing then (w, .error .writePending)
  else if sizeTypeCount - 1 - w.committed < payload.length then (w, .error .lengthOverflow)
  else if w.length.any (fun length => length - w.committed < payload.length) then (w, .error .lengthMismatch)
  else
    let chunk : Http1RequestContentChunk :=
      if w.length.isNone && !payload.isEmpty then
        ⟨http1ChunkHeader payload.length, payload, http1ChunkDataTerminator⟩
      else { payload }
    ({ w with writing := true, pending := payload.length }, .ok chunk)

/-- `commit_chunk`; `none` where the source throws. -/
def commitChunk : Option Http1RequestContentWriter :=
  if w.stopped || w.finished || !w.writing then none
  else some { w with committed := w.committed + w.pending, pending := 0, writing := false }

/-- `plan_finish`: the writer, the buffer behind the call, and the view into it. -/
def planFinish (buffer : Bytes) (trailers : List HttpHeaderView) :
    Http1RequestContentWriter × Bytes × Except Http1RequestContentWriteError Bytes :=
  if w.stopped || w.finished then (w, buffer, .error .stopped)
  else if w.gated then (w, buffer, .error .awaitingContinue)
  else if w.writing || w.finishing then (w, buffer, .error .writePending)
  else if w.length.any (fun length => w.committed ≠ length) then (w, buffer, .error .lengthMismatch)
  else if w.length.isSome && !trailers.isEmpty then (w, buffer, .error .trailersRequireChunked)
  else
    match chargeHttpRequestTrailerFields http1ContentEndingBudget trailers with
    | .error .sectionTooLarge => (w, buffer, .error .headerTooLarge)
    | .error _ => (w, buffer, .error .invalidTrailer)
    | .ok charged =>
      let required := if w.length.isSome then 0 else charged.bytes
      if buffer.length < required then (w, buffer, .error .outputTooSmall)
      else
        let buffer :=
          if w.length.isNone then writeChunkedTrailers trailers ++ buffer.drop required else buffer
        ({ w with finishing := true }, buffer, .ok (buffer.take required))

/-- `commit_finish`; `none` where the source throws. -/
def commitFinish : Option Http1RequestContentWriter :=
  if w.stopped || w.finished || !w.finishing then none
  else some { w with finishing := false, finished := true }

end Http1RequestContentWriter

/-! ## A transmission -/

inductive ContentOperation where
  | releaseContent
  | abort
  | planChunk (payload : Bytes)
  | commitChunk
  | planFinish (buffer : Bytes) (trailers : List HttpHeaderView)
  | commitFinish

/-- A writer with the bytes it planned; `payloads` and `trailers` record what it accepted. -/
structure ContentTransmission where
  writer : Http1RequestContentWriter
  output : Bytes := []
  payloads : List Bytes := []
  trailers : Option (List HttpHeaderView) := none

namespace ContentTransmission

def init (plan : Http1ClientStreamingRequestContent) : ContentTransmission := { writer := .init plan }

/-- One call; a refused plan and a commit that throws leave the transmission as it is. -/
def step (t : ContentTransmission) : ContentOperation → ContentTransmission
  | .releaseContent => { t with writer := t.writer.releaseContent }
  | .abort => { t with writer := t.writer.abort }
  | .planChunk payload =>
    match t.writer.planChunk payload with
    | (writer, .ok chunk) =>
      { t with
        writer
        output := t.output ++ (chunk.prefixBytes ++ chunk.payload ++ chunk.suffix)
        payloads := t.payloads ++ [payload] }
    | (writer, .error _) => { t with writer }
  | .commitChunk => { t with writer := t.writer.commitChunk.getD t.writer }
  | .planFinish buffer trailers =>
    match t.writer.planFinish buffer trailers with
    | (writer, _, .ok view) => { t with writer, output := t.output ++ view, trailers := some trailers }
    | (writer, _, .error _) => { t with writer }
  | .commitFinish => { t with writer := t.writer.commitFinish.getD t.writer }

def run (t : ContentTransmission) (operations : List ContentOperation) : ContentTransmission :=
  operations.foldl step t

end ContentTransmission

/-! ## One call -/

namespace Http1RequestContentWriter

variable {w w' : Http1RequestContentWriter} {payload buffer buffer' view : Bytes} {trailers : List HttpHeaderView}

/-- The calls that may plan a write. -/
structure Ready (w : Http1RequestContentWriter) : Prop where
  stopped : w.stopped = false
  finished : w.finished = false
  writing : w.writing = false
  finishing : w.finishing = false

variable {error : Http1RequestContentWriteError}

theorem planChunk_error (h : w.planChunk payload = (w', .error error)) : w' = w := by
  unfold planChunk at h
  repeat' split at h
  all_goals cases h
  all_goals rfl

/-- **An accepted chunk** is the payload on the wire, and nothing for an empty one. -/
theorem planChunk_ok {chunk : Http1RequestContentChunk} (hchunked : w.length = none)
    (h : w.planChunk payload = (w', .ok chunk)) :
    w.Ready ∧ ¬ sizeTypeCount - 1 - w.committed < payload.length ∧
      chunk.prefixBytes ++ chunk.payload ++ chunk.suffix = chunksWire [payload] ∧
      w' = { w with writing := true, pending := payload.length } := by
  unfold planChunk at h
  split at h
  · cases h
  · rename_i hended
    split at h
    · cases h
    · split at h
      · cases h
      · rename_i hpending
        split at h
        · cases h
        · rename_i hfits
          rw [hchunked, Option.any_none, if_neg Bool.false_ne_true, Option.isNone_none, Bool.true_and] at h
          simp only [Bool.or_eq_true, not_or, Bool.not_eq_true] at hended hpending
          refine ⟨⟨hended.1, hended.2, hpending.1, hpending.2⟩, hfits, ?_, (congrArg Prod.fst h).symm.trans ?_⟩
          · injection (congrArg Prod.snd h) with hchunk
            rw [← hchunk, chunksWire, List.map_singleton, List.flatten_singleton]
            cases payload <;> rfl
          · rw [← hchunked]

theorem commitChunk_some (h : w.commitChunk = some w') :
    w.writing = true ∧ w' = { w with committed := w.committed + w.pending, pending := 0, writing := false } := by
  unfold commitChunk at h
  split at h
  · cases h
  · rename_i hguard
    simp only [Bool.or_eq_true, Bool.not_eq_true', not_or, Bool.not_eq_true, Bool.not_eq_false] at hguard
    cases h
    exact ⟨hguard.2, rfl⟩

theorem commitFinish_some (h : w.commitFinish = some w') :
    w.finishing = true ∧ w' = { w with finishing := false, finished := true } := by
  unfold commitFinish at h
  split at h
  · cases h
  · rename_i hguard
    simp only [Bool.or_eq_true, Bool.not_eq_true', not_or, Bool.not_eq_true, Bool.not_eq_false] at hguard
    cases h
    exact ⟨hguard.2, rfl⟩

/-- A refused ending changes neither the writer nor the buffer. -/
theorem planFinish_error (h : w.planFinish buffer trailers = (w', buffer', .error error)) :
    w' = w ∧ buffer' = buffer := by
  unfold planFinish at h
  dsimp only at h
  repeat' split at h
  all_goals cases h
  all_goals exact ⟨rfl, rfl⟩

theorem length_writeChunkedTrailers {charged : HttpFieldSectionBudget}
    (h : chargeHttpRequestTrailerFields http1ContentEndingBudget trailers = .ok charged) :
    (writeChunkedTrailers trailers).length = charged.bytes := by
  obtain ⟨_, _, hbytes, _⟩ := chargeHttpRequestTrailerFields_ok (by decide) h
  rw [hbytes, writeChunkedTrailers, List.length_append, List.length_append, Nat.add_right_comm]
  rfl

/-- **An accepted ending** is the last chunk with the trailer section. -/
theorem planFinish_ok (hchunked : w.length = none) (h : w.planFinish buffer trailers = (w', buffer', .ok view)) :
    w.Ready ∧ view = writeChunkedTrailers trailers ∧ w' = { w with finishing := true } ∧
      ∃ charged, chargeHttpRequestTrailerFields http1ContentEndingBudget trailers = .ok charged := by
  unfold planFinish at h
  dsimp only at h
  split at h
  · cases h
  · rename_i hended
    split at h
    · cases h
    · split at h
      · cases h
      · rename_i hpending
        rw [hchunked, Option.any_none, if_neg Bool.false_ne_true, Option.isSome_none, Bool.false_and,
          if_neg Bool.false_ne_true] at h
        simp only [Bool.or_eq_true, not_or, Bool.not_eq_true] at hended hpending
        split at h
        · cases h
        · cases h
        · rename_i charged hcharge
          rw [if_neg Bool.false_ne_true, Option.isNone_none, if_pos rfl] at h
          split at h
          · cases h
          · cases h
            refine ⟨⟨hended.1, hended.2, hpending.1, hpending.2⟩, ?_, by rw [← hchunked], charged, hcharge⟩
            rw [← length_writeChunkedTrailers hcharge, List.take_left]

end Http1RequestContentWriter

/-! ## Every run -/

namespace ContentTransmission

variable {t : ContentTransmission}

/-- **What a chunked transmission keeps.** -/
structure Holds (t : ContentTransmission) : Prop where
  chunked : t.writer.length = none
  output : t.output = chunksWire t.payloads ++ (t.trailers.map writeChunkedTrailers).getD []
  size : t.payloads.flatten.length < sizeTypeCount
  committed : t.writer.stopped = false →
    t.payloads.flatten.length = t.writer.committed + if t.writer.writing then t.writer.pending else 0
  accepted : ∀ trailers ∈ t.trailers,
    ∃ charged, chargeHttpRequestTrailerFields http1ContentEndingBudget trailers = .ok charged
  ended : t.trailers.isSome = true →
    t.writer.stopped = true ∨ t.writer.finishing = true ∨ t.writer.finished = true

theorem init_holds (gated : Bool) : (init ⟨none, gated⟩).Holds where
  chunked := rfl
  output := rfl
  size := show 0 < sizeTypeCount by decide
  committed _ := rfl
  accepted _ h := by cases h
  ended h := by cases h

/-- A writer that may plan a write has not planned its ending. -/
theorem Holds.no_trailers (h : t.Holds) (hready : t.writer.Ready) : t.trailers = none := by
  cases htrailers : t.trailers with
  | none => rfl
  | some trailers =>
    rcases h.ended (by rw [htrailers]; rfl) with hended | hended | hended
    · rw [hready.stopped] at hended
      cases hended
    · rw [hready.finishing] at hended
      cases hended
    · rw [hready.finished] at hended
      cases hended

theorem Holds.planChunk (h : t.Holds) (payload : Bytes) : (t.step (.planChunk payload)).Holds := by
  unfold step
  dsimp only
  split
  · rename_i writer chunk hplan
    obtain ⟨hready, hfits, hwire, hwriter⟩ := Http1RequestContentWriter.planChunk_ok h.chunked hplan
    have hcommitted := h.committed hready.stopped
    have hsize := h.size
    rw [hready.writing, if_neg Bool.false_ne_true, Nat.add_zero] at hcommitted
    rw [hwire, hwriter]
    have hflatten : (t.payloads ++ [payload]).flatten.length = t.writer.committed + payload.length := by
      rw [List.flatten_append, List.length_append, hcommitted, List.flatten_singleton]
    refine ⟨h.chunked, ?_, ?_, fun _ => ?_, h.accepted, h.ended⟩
    · rw [h.output, h.no_trailers hready]
      simp [chunksWire]
    · rw [hflatten]
      omega
    · exact hflatten
  · rename_i writer error hplan
    rw [Http1RequestContentWriter.planChunk_error hplan]
    exact h

theorem Holds.planFinish (h : t.Holds) (buffer : Bytes) (trailers : List HttpHeaderView) :
    (t.step (.planFinish buffer trailers)).Holds := by
  unfold step
  dsimp only
  split
  · rename_i writer buffer' view hplan
    obtain ⟨hready, hview, hwriter, haccepted⟩ := Http1RequestContentWriter.planFinish_ok h.chunked hplan
    rw [hview, hwriter]
    refine ⟨h.chunked, ?_, h.size, h.committed, fun other hmem => ?_, fun _ => .inr (.inl rfl)⟩
    · rw [h.output, h.no_trailers hready]
      simp only [Option.map_none, Option.getD_none, List.append_nil, Option.map_some, Option.getD_some]
    · cases hmem
      exact haccepted
  · rename_i writer buffer' error hplan
    rw [(Http1RequestContentWriter.planFinish_error hplan).1]
    exact h

theorem Holds.step (h : t.Holds) (operation : ContentOperation) : (t.step operation).Holds := by
  cases operation with
  | releaseContent => exact ⟨h.chunked, h.output, h.size, h.committed, h.accepted, h.ended⟩
  | abort =>
    exact ⟨h.chunked, h.output, h.size, nofun, h.accepted, fun _ => .inl rfl⟩
  | planChunk payload => exact h.planChunk payload
  | planFinish buffer trailers => exact h.planFinish buffer trailers
  | commitChunk =>
    show ({ t with writer := t.writer.commitChunk.getD t.writer } : ContentTransmission).Holds
    cases hcommit : t.writer.commitChunk with
    | none => exact h
    | some writer =>
      obtain ⟨hwriting, rfl⟩ := Http1RequestContentWriter.commitChunk_some hcommit
      refine ⟨h.chunked, h.output, h.size, fun hstopped => ?_, h.accepted, h.ended⟩
      have hcommitted := h.committed hstopped
      rw [hwriting, if_pos rfl] at hcommitted
      exact hcommitted
  | commitFinish =>
    show ({ t with writer := t.writer.commitFinish.getD t.writer } : ContentTransmission).Holds
    cases hcommit : t.writer.commitFinish with
    | none => exact h
    | some writer =>
      obtain ⟨_, rfl⟩ := Http1RequestContentWriter.commitFinish_some hcommit
      exact ⟨h.chunked, h.output, h.size, h.committed, h.accepted, fun _ => .inr (.inr rfl)⟩

theorem run_holds (gated : Bool) (operations : List ContentOperation) :
    ((init ⟨none, gated⟩).run operations).Holds := by
  have hrun : ∀ t : ContentTransmission, t.Holds → (t.run operations).Holds := by
    induction operations with
    | nil => exact fun _ h => h
    | cons operation operations ih => exact fun t h => ih _ (h.step operation)
  exact hrun _ (init_holds gated)

/-- Behind the ending nothing is planned. -/
theorem Holds.silent (h : t.Holds) (hended : t.trailers.isSome = true) (operation : ContentOperation) :
    (t.step operation).output = t.output ∧ (t.step operation).trailers = t.trailers := by
  have hnone : t.writer.Ready → False := by
    intro hready
    rw [h.no_trailers hready] at hended
    cases hended
  cases operation with
  | planChunk payload =>
    unfold ContentTransmission.step
    dsimp only
    split
    · rename_i writer chunk hplan
      exact absurd (Http1RequestContentWriter.planChunk_ok h.chunked hplan).1 hnone
    · exact ⟨rfl, rfl⟩
  | planFinish buffer trailers =>
    unfold ContentTransmission.step
    dsimp only
    split
    · rename_i writer buffer' view hplan
      exact absurd (Http1RequestContentWriter.planFinish_ok h.chunked hplan).1 hnone
    · exact ⟨rfl, rfl⟩
  | releaseContent | abort | commitChunk | commitFinish => exact ⟨rfl, rfl⟩

/-! ## The decoder behind the writer -/

/-- The outcome of the transmitted bytes, at the start of the decoder. -/
theorem Holds.outcome (h : t.Holds) {trailers : List HttpHeaderView} (htrailers : t.trailers = some trailers) :
    Http1ChunkedBodyDecoder.outcome { config := {} } t.output =
      .complete t.payloads.flatten t.output.length (trailerBlock trailers) ∧
    publishedFields (trailerBlock trailers) = (.ok, trailers) := by
  obtain ⟨charged, hcharge⟩ := h.accepted trailers htrailers
  obtain ⟨hfields, hadds, hbytes, hmax⟩ := chargeHttpRequestTrailerFields_ok (by decide) hcharge
  have hsection : (trailers.map emitHttp1FieldLine).flatten.length + 2 ≤ maxHttpHeaderBytes := by
    have : http1ContentEndingBudget.bytes = 5 := by decide
    omega
  have hblock : (trailerBlock trailers).length ≤ maxHttpHeaderBytes := by
    by_cases hne : trailers = []
    · rw [hne]
      exact Nat.zero_le _
    · rw [lines_eq_trailerBlock hne, List.length_append] at hsection
      omega
  -- the decoder charges the section alone, without the last-chunk line
  obtain ⟨less, hless⟩ := @addFields_of_le _ _ httpTrailerSectionBudget _ hadds (by decide) rfl
  have hvalid : trailersValid .reject (trailerBlock trailers) = true := by
    have := @visitHttp1TrailerBlock_written Unit (fun s _ => s) (fun _ => false) trailers _ _ ()
      (fun field hmem => ⟨hfields field hmem, rfl⟩) hblock hless
    unfold trailersValid
    unfold keepField at this
    rw [this]
    rfl
  constructor
  · have hwire : t.output = chunksWire t.payloads ++ (http1LastChunkPrefix ++
        ((trailers.map emitHttp1FieldLine).flatten ++ http1TrailerSectionTerminator ++ [])) := by
      rw [h.output, htrailers, Option.map_some, Option.getD_some, writeChunkedTrailers, List.append_nil,
        List.append_assoc http1LastChunkPrefix]
    have hend := trailersOutcome_written hfields (by rw [List.length_append]; exact hsection) hvalid []
    show sizeLineOutcome {} 0 0 t.output = _
    rw [hwire, sizeLineOutcome_chunks rfl (by rw [Nat.zero_add]; exact h.size), sizeLineOutcome_lastChunk, hend]
    simp only [ChunkedOutcome.prepend, List.append_nil, List.length_append]
    rfl
  · unfold publishedFields
    rw [visitHttp1TrailerBlock_written (fun field hmem => ⟨hfields field hmem, (hfields field hmem).permitted⟩)
      hblock hless]
    simp only [foldl_collectFields, List.nil_append]

theorem Holds.silent_run (h : t.Holds) (hended : t.trailers.isSome = true) (operations : List ContentOperation) :
    (t.run operations).output = t.output := by
  induction operations generalizing t with
  | nil => rfl
  | cons operation operations ih =>
    obtain ⟨houtput, htrailers⟩ := h.silent hended operation
    exact (ih (h.step operation) (htrailers ▸ hended)).trans houtput

/-- **The chunked writer and the decoder are inverse.** After any calls on a chunked writer: once its ending was
    planned, the decoder completes on the transmitted bytes, however they arrive, with every byte consumed, with
    the payloads as the body and with the trailer fields in the block it publishes; a refused ending leaves
    everything as it was; and behind the ending nothing more is transmitted. -/
theorem transmission_decodes (gated : Bool) (operations : List ContentOperation) :
    let t := (init ⟨none, gated⟩).run operations
    (∀ trailers, t.trailers = some trailers →
      (ChunkedDriver.driveOnce {} t.output).Finished ∧
        ∀ acts, Action.delivered acts = t.output → (ChunkedDriver.drive {} acts).Finished →
          ∃ block, (ChunkedDriver.drive {} acts).status = .complete block ∧
            (ChunkedDriver.drive {} acts).body = t.payloads.flatten ∧
            (ChunkedDriver.drive {} acts).consumedBytes = t.output.length ∧
            publishedFields block = (.ok, trailers)) ∧
      (∀ buffer trailers writer buffer' error,
        t.writer.planFinish buffer trailers = (writer, buffer', .error error) →
          buffer' = buffer ∧ t.step (.planFinish buffer trailers) = t) ∧
      (t.trailers.isSome = true → ∀ more, (t.run more).output = t.output) := by
  intro t
  have h : t.Holds := run_holds gated operations
  refine ⟨fun trailers htrailers => ⟨ChunkedDriver.driveOnce_finished _ _, fun acts hacts hfinished => ?_⟩,
    fun buffer trailers writer buffer' error hplan => ?_, fun hended more => h.silent_run hended more⟩
  · obtain ⟨houtcome, hpublished⟩ := h.outcome htrailers
    have hvalue : (ChunkedDriver.drive {} acts).outcome [] =
        .complete t.payloads.flatten t.output.length (trailerBlock trailers) := by
      have hrun := ChunkedDriver.chunkedDriver_meaning.run_value (ChunkedDriver.init_sound {}) acts []
      rw [List.append_nil, hacts] at hrun
      refine hrun.trans ?_
      show ((Http1ChunkedBodyDecoder.outcome { config := {} } t.output)).prepend [] 0 = _
      rw [houtcome, ChunkedOutcome.prepend_nil_zero]
    rw [ChunkedDriver.outcome_of_finished (ChunkedDriver.drive_sound {} acts) hfinished] at hvalue
    split at hvalue
    · rename_i block hstatus
      obtain ⟨hbody, hconsumed, hblock⟩ := ChunkedOutcome.complete.inj hvalue
      exact ⟨block, hstatus, hbody, hconsumed, hblock ▸ hpublished⟩
    · cases hvalue
    · cases hvalue
    · cases hvalue
  · obtain ⟨hwriter, hbuffer⟩ := Http1RequestContentWriter.planFinish_error hplan
    refine ⟨hbuffer, ?_⟩
    unfold step
    dsimp only
    rw [hplan, hwriter]

/-- An empty payload between two others, and a trailer field. -/
example : ((init ⟨none, false⟩).run
    [.planChunk (lit "hello"), .commitChunk, .planChunk [], .commitChunk, .planChunk (lit "worldworldworldwo"),
      .commitChunk, .planFinish (List.replicate 64 0) [⟨lit "x-sum", lit "7"⟩], .commitFinish]).output =
    lit "5\r\nhello\r\n11\r\nworldworldworldwo\r\n0\r\nx-sum: 7\r\n\r\n" := by decide +kernel

end ContentTransmission

end Ruvia.Http
