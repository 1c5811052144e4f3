import Ruvia.Http.ChunkedOutcome
import Ruvia.Library.Delivery

/-!
# `Http.ChunkedDelivery` — the chunked decoder does not see how its input arrives

A driver retains what a call did not consume and presents it again in front of the bytes that arrive. The
outcome of its decoder, behind what it has collected, is a value no action changes
(`chunkedDriver_meaning`); delivery independence is then the library's `Meaning.delivery_independent`.
-/

namespace Ruvia.Http

open Library

/-- `max_body_bytes`: positive, and a `std::size_t`. -/
abbrev BodyQuota := { bytes : Nat // 0 < bytes ∧ bytes < sizeTypeCount }

def BodyQuota.unlimited : BodyQuota := ⟨sizeTypeCount - 1, by decide⟩

inductive ChunkedDriverStatus where
  | running
  | idle
  | complete (trailers : Bytes)
  | failed (error : Http1ChunkDecodeError)
  deriving DecidableEq, Repr

/-- A decoder with the input it retains, the body it has collected and the bytes it has dropped. -/
structure ChunkedDriver where
  decoder : Http1ChunkedBodyDecoder
  buffer : Bytes := []
  body : Bytes := []
  consumedBytes : Nat := 0
  status : ChunkedDriverStatus := .running

namespace ChunkedDriver

def init (config : Http1ChunkedBodyDecoderConfig) : ChunkedDriver := { decoder := { config } }

/-- No further progress is possible without further bytes. -/
def Finished (D : ChunkedDriver) : Prop := D.status ≠ .running

instance (D : ChunkedDriver) : Decidable D.Finished := inferInstanceAs (Decidable (_ ≠ _))

/-- Newly arrived bytes go behind the unconsumed tail. -/
def arrive (D : ChunkedDriver) (chunk : Bytes) : ChunkedDriver :=
  { D with
    buffer := D.buffer ++ chunk
    status := if D.status = .idle then .running else D.status }

/-- One call of the decoder; a final result is not followed by another call. -/
def call (D : ChunkedDriver) (quota : BodyQuota) : ChunkedDriver :=
  let (decoder, result) := D.decoder.decode D.buffer quota
  match result with
  | .needMore n =>
    { D with
      decoder, buffer := D.buffer.drop n, consumedBytes := D.consumedBytes + n, status := .idle }
  | .bodyChunk n bytes =>
    { decoder, buffer := D.buffer.drop n, body := D.body ++ bytes
      consumedBytes := D.consumedBytes + n, status := .running }
  | .complete n trailers =>
    { D with
      decoder, buffer := D.buffer.drop n, consumedBytes := D.consumedBytes + n
      status := .complete trailers }
  | .failure n error =>
    { D with
      decoder, buffer := D.buffer.drop n, consumedBytes := D.consumedBytes + n, status := .failed error }

def turn (D : ChunkedDriver) (quota : BodyQuota) : ChunkedDriver :=
  match D.status with
  | .complete _ | .failed _ => D
  | .running | .idle => D.call quota

def processor : Processor ChunkedDriver UInt8 BodyQuota := ⟨arrive, turn⟩

/-- The run of a schedule of arrivals and calls. -/
def drive (config : Http1ChunkedBodyDecoderConfig) (acts : List (Action UInt8 BodyQuota)) : ChunkedDriver :=
  processor.run (init config) acts

/-- The run that presents all of `wire` at once, with an unlimited quota for every call. -/
def driveOnce (config : Http1ChunkedBodyDecoderConfig) (wire : Bytes) : ChunkedDriver :=
  drive config (.arrive wire :: (List.replicate (wire.length + 1) BodyQuota.unlimited).map .turn)

/-! ## The outcome of a driver -/

/-- What the driver has collected, in front of what its decoder makes of everything still to come. -/
def outcome (D : ChunkedDriver) (wire : Bytes) : ChunkedOutcome :=
  match D.status with
  | .complete trailers => .complete D.body D.consumedBytes trailers
  | .failed error => .failed error
  | .running | .idle => (D.decoder.outcome (D.buffer ++ wire)).prepend D.body D.consumedBytes

/-- The saved offsets fit the retained bytes, and an idle driver has nothing left to read from them. -/
def Sound (D : ChunkedDriver) : Prop :=
  match D.status with
  | .running => D.decoder.Resumable D.buffer
  | .idle => D.decoder.Resumable D.buffer ∧ D.decoder.outcome D.buffer = .starved [] 0
  | .complete _ | .failed _ => True

variable {D : ChunkedDriver} {quota : BodyQuota}

theorem init_sound (config : Http1ChunkedBodyDecoderConfig) : (init config).Sound :=
  ⟨Nat.zero_le _, fun j hj => absurd hj (Nat.not_lt_zero j)⟩

theorem Sound.resumable (h : D.Sound) (hs : D.status = .running ∨ D.status = .idle) :
    D.decoder.Resumable D.buffer := by
  rcases hs with hs | hs <;> simp only [Sound, hs] at h
  · exact h
  · exact h.1

theorem arrive_sound {chunk : Bytes} (h : D.Sound) : (D.arrive chunk).Sound := by
  cases hs : D.status with
  | running =>
    have := (h.resumable (.inl hs)).append chunk
    simpa [Sound, arrive, hs] using this
  | idle =>
    have := (h.resumable (.inr hs)).append chunk
    simpa [Sound, arrive, hs] using this
  | complete trailers | failed error => simp [Sound, arrive, hs]

/-- The driver's state behind one call. -/
theorem call_spec (hs : D.status = .running ∨ D.status = .idle) (h : D.Sound) :
    (D.call quota).Sound ∧ (∀ wire, (D.call quota).outcome wire = D.outcome wire) ∧
      ((D.call quota).Finished ∨ (D.call quota).buffer.length < D.buffer.length) := by
  have hreports : ∀ wire, Http1ChunkedBodyDecoder.Reports (D.decoder.outcome (D.buffer ++ wire)) 0 D.buffer wire
      (D.decoder.decode D.buffer quota) := fun wire =>
    Http1ChunkedBodyDecoder.decode_reports (h.resumable hs) quota.2.1
  have houtcome : ∀ wire, D.outcome wire = (D.decoder.outcome (D.buffer ++ wire)).prepend D.body D.consumedBytes := by
    intro wire
    rcases hs with hs | hs <;> simp only [outcome, hs]
  simp only [houtcome, call]
  generalize D.decoder.decode D.buffer quota = out at hreports ⊢
  obtain ⟨decoder, result⟩ := out
  cases result with
  | needMore n =>
    obtain ⟨_, _, hres, hstarved, _⟩ := hreports []
    refine ⟨⟨hres, hstarved⟩, fun wire => ?_, .inl (by simp [Finished])⟩
    obtain ⟨_, _, _, _, hvalue⟩ := hreports wire
    rw [hvalue, ChunkedOutcome.prepend_prepend, List.append_nil, Nat.sub_zero]
    rfl
  | bodyChunk n bytes =>
    obtain ⟨hpos, hle, hres, _⟩ := hreports []
    refine ⟨hres, fun wire => ?_, .inr (by simp only [List.length_drop]; omega)⟩
    obtain ⟨_, _, _, hvalue⟩ := hreports wire
    rw [hvalue, ChunkedOutcome.prepend_prepend, Nat.sub_zero]
    rfl
  | complete n trailers =>
    refine ⟨trivial, fun wire => ?_, .inl (by simp [Finished])⟩
    obtain ⟨_, _, hvalue⟩ := hreports wire
    simp [hvalue, outcome, ChunkedOutcome.prepend]
  | failure n error =>
    refine ⟨trivial, fun wire => ?_, .inl (by simp [Finished])⟩
    have hvalue : D.decoder.outcome (D.buffer ++ wire) = .failed error := hreports wire
    simp [hvalue, outcome, ChunkedOutcome.prepend]

theorem turn_of_final (hs : ¬ (D.status = .running ∨ D.status = .idle)) : D.turn quota = D := by
  cases h : D.status <;> simp_all [turn]

theorem turn_of_open (hs : D.status = .running ∨ D.status = .idle) : D.turn quota = D.call quota := by
  rcases hs with hs | hs <;> simp only [turn, hs]

/-- **The outcome is a meaning of the driver**: neither an arrival nor a call changes it. -/
theorem chunkedDriver_meaning : processor.Meaning Sound outcome where
  inv_arrive := arrive_sound
  inv_turn {D quota} h := by
    change (D.turn quota).Sound
    by_cases hs : D.status = .running ∨ D.status = .idle
    · rw [turn_of_open hs]
      exact (call_spec hs h).1
    · rw [turn_of_final hs]
      exact h
  value_arrive {D chunk} wire _ := by
    change (D.arrive chunk).outcome wire = D.outcome (chunk ++ wire)
    cases hs : D.status <;> simp [outcome, arrive, hs]
  value_turn {D quota} wire h := by
    change (D.turn quota).outcome wire = D.outcome wire
    by_cases hs : D.status = .running ∨ D.status = .idle
    · rw [turn_of_open hs]
      exact (call_spec hs h).2.1 wire
    · rw [turn_of_final hs]

theorem drive_sound (config : Http1ChunkedBodyDecoderConfig) (acts : List (Action UInt8 BodyQuota)) :
    (drive config acts).Sound := chunkedDriver_meaning.inv_run (init_sound config) acts

/-! ## Progress -/

/-- A finished driver stays finished: an idle one can only report "need more" again. -/
theorem turn_finished (h : D.Sound) (hf : D.Finished) : (D.turn quota).Finished := by
  by_cases hs : D.status = .running ∨ D.status = .idle
  · have hidle : D.status = .idle := hs.resolve_left hf
    simp only [Sound, hidle] at h
    obtain ⟨hres, hstarved⟩ := h
    have hreports : Http1ChunkedBodyDecoder.Reports (D.decoder.outcome (D.buffer ++ [])) 0 D.buffer []
        (D.decoder.decode D.buffer quota) :=
      Http1ChunkedBodyDecoder.decode_reports hres quota.2.1
    rw [List.append_nil, hstarved] at hreports
    rw [turn_of_open hs, call]
    generalize D.decoder.decode D.buffer quota = out at hreports ⊢
    obtain ⟨decoder, result⟩ := out
    cases result with
    | bodyChunk n bytes =>
      obtain ⟨hpos, _, _, hvalue⟩ := hreports
      cases hd : decoder.outcome (D.buffer.drop n ++ []) <;> rw [hd] at hvalue <;>
        simp [ChunkedOutcome.prepend] at hvalue
      omega
    | needMore n | complete n trailers | failure n error => simp [Finished]
  · rw [turn_of_final hs]
    exact hf

theorem turns_finished (h : D.Sound) (hf : D.Finished) (quotas : List BodyQuota) :
    (processor.run D (quotas.map .turn)).Finished := by
  induction quotas generalizing D with
  | nil => exact hf
  | cons quota quotas ih => exact ih (chunkedDriver_meaning.inv_turn h) (turn_finished h hf)

/-- More calls than retained bytes leave nothing to be done. -/
theorem finished_of_turns (h : D.Sound) (quotas : List BodyQuota)
    (hlen : D.buffer.length < quotas.length) : (processor.run D (quotas.map .turn)).Finished := by
  induction quotas generalizing D with
  | nil => exact absurd hlen (Nat.not_lt_zero _)
  | cons quota quotas ih =>
    have hsound : (D.turn quota).Sound := chunkedDriver_meaning.inv_turn h
    have hprogress : (D.turn quota).Finished ∨ (D.turn quota).buffer.length < D.buffer.length := by
      by_cases hs : D.status = .running ∨ D.status = .idle
      · rw [turn_of_open hs]
        exact (call_spec hs h).2.2
      · rw [turn_of_final hs]
        exact .inl fun hr => hs (.inl hr)
    rcases hprogress with hf | hlt
    · exact turns_finished hsound hf quotas
    · rw [List.length_cons] at hlen
      exact ih hsound (show (D.turn quota).buffer.length < quotas.length by omega)

theorem driveOnce_finished (config : Http1ChunkedBodyDecoderConfig) (wire : Bytes) :
    (driveOnce config wire).Finished :=
  finished_of_turns (chunkedDriver_meaning.inv_arrive (init_sound config)) _
    (by simp [processor, arrive, init])

/-! ## Delivery independence -/

/-- A finished driver shows its outcome. -/
theorem outcome_of_finished (h : D.Sound) (hf : D.Finished) :
    D.outcome [] =
      match D.status with
      | .complete trailers => .complete D.body D.consumedBytes trailers
      | .failed error => .failed error
      | .running | .idle => .starved D.body D.consumedBytes := by
  cases hs : D.status with
  | running => exact absurd hs hf
  | idle =>
    simp only [Sound, hs] at h
    simp [outcome, hs, h.2, ChunkedOutcome.prepend]
  | complete trailers | failed error => simp [outcome, hs]

theorem driveOnce_outcome (config : Http1ChunkedBodyDecoderConfig)
    (acts : List (Action UInt8 BodyQuota)) :
    (drive config acts).outcome [] = (driveOnce config (Action.delivered acts)).outcome [] :=
  chunkedDriver_meaning.delivery_independent (init_sound config)
    (by rw [Action.delivered, Action.delivered_map_turn, List.append_nil])

/-- **Arrival independence of the chunked decoder.** Every schedule can be driven to its end, by any calls;
and a schedule driven to its end completes, or fails, as the one-shot run does: with the same body, the same
number of consumed bytes and the same trailer block, or with the same error. -/
theorem decode_arrival_independent (config : Http1ChunkedBodyDecoderConfig)
    (acts : List (Action UInt8 BodyQuota)) :
    (∀ quotas : List BodyQuota, (drive config acts).buffer.length < quotas.length →
      (drive config (acts ++ quotas.map .turn)).Finished) ∧
    (driveOnce config (Action.delivered acts)).Finished ∧
    ((drive config acts).Finished →
      (∀ trailers, (drive config acts).status = .complete trailers ↔
        (driveOnce config (Action.delivered acts)).status = .complete trailers) ∧
      (∀ trailers, (drive config acts).status = .complete trailers →
        (drive config acts).body = (driveOnce config (Action.delivered acts)).body ∧
        (drive config acts).consumedBytes = (driveOnce config (Action.delivered acts)).consumedBytes) ∧
      (∀ error, (drive config acts).status = .failed error ↔
        (driveOnce config (Action.delivered acts)).status = .failed error)) := by
  refine ⟨fun quotas hlen => ?_, driveOnce_finished config _, fun hf => ?_⟩
  · rw [drive, Processor.run_append]
    exact finished_of_turns (drive_sound config acts) quotas hlen
  · have hsame := driveOnce_outcome config acts
    have hdone := driveOnce_finished config (Action.delivered acts)
    have hsound : (driveOnce config (Action.delivered acts)).Sound := drive_sound config _
    rw [outcome_of_finished (drive_sound config acts) hf, outcome_of_finished hsound hdone] at hsame
    cases hs : (drive config acts).status <;>
      cases ho : (driveOnce config (Action.delivered acts)).status <;> simp_all

/-- A chunk cut inside its size line, its data and its CRLF, read two bytes a call. -/
def cutDelivery : List (Action UInt8 BodyQuota) :=
  [.arrive (lit "3;x\r"), .turn ⟨2, by decide⟩, .arrive (lit "\nabc\r"), .turn ⟨2, by decide⟩,
    .turn ⟨2, by decide⟩, .turn ⟨2, by decide⟩, .arrive (lit "\n0\r\na:b\r\n\r"), .turn ⟨2, by decide⟩,
    .arrive (lit "\nGET"), .turn ⟨2, by decide⟩]

theorem cutDelivery_arrival_independent :
    (driveOnce {} (Action.delivered cutDelivery)).status = .complete (lit "a:b") ∧
      (driveOnce {} (Action.delivered cutDelivery)).body = lit "abc" := by
  have hend : (drive {} cutDelivery).status = .complete (lit "a:b") := by decide +kernel
  have hbody : (drive {} cutDelivery).body = lit "abc" := by decide +kernel
  have hrun := (decode_arrival_independent {} cutDelivery).2.2 (by simp [Finished, hend])
  exact ⟨(hrun.1 _).mp hend, (hrun.2.1 _ hend).1.symm.trans hbody⟩

end ChunkedDriver

end Ruvia.Http
