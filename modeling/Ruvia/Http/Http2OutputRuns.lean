import Ruvia.Http.Http2OutputQueue
import Ruvia.Library.StateMachine

/-!
# `Http.Http2OutputRuns` — every run of the outbound buffer

Frames are appended and batches cut in any order. A batch with an observer is gone through segment by segment; between
two of these steps the observer may do whatever it likes, so that appends and further batches stand anywhere, and the
batches under way form a stack. History says what was appended, which batches were cut and what their observers were
told. A record that is read beyond the records is a `fault`.
-/

namespace Ruvia.Http.Http2OutputBuffer

open Library

/-! ## The machine -/

/-- A batch that has been cut: the caller's text before and after it, and the segments it took off the queue. -/
structure Batch where
  maxBytes : Nat
  before : Bytes
  after : Bytes
  size : Nat
  observed : Bool
  segments : List OutputSegment
  deriving DecidableEq, Repr

/-- What a batch put behind the caller's text. -/
def Batch.bytes (batch : Batch) : Bytes := batch.after.drop batch.before.length

/-- One call of an observer. -/
structure Report where
  batch : Nat
  streamId : Nat
  size : Nat
  deriving DecidableEq, Repr

/-- An observed batch under way. -/
structure Frame where
  batch : Nat
  first : Nat
  count : Nat
  position : Nat
  deriving DecidableEq, Repr

/-- The buffer, the batches under way, the innermost first, and the history. -/
structure Output where
  buffer : Http2OutputBuffer := {}
  frames : List Frame := []
  appended : List OutputSegment := []
  batches : List Batch := []
  reports : List Report := []
  fault : Bool := false
  deriving DecidableEq, Repr

inductive OutputAction where
  | append (bytes : Bytes) (streamId : Nat) (isData recordReserved bytesReserved : Bool)
  | take (request : TakeRequest)
  | advance
  deriving DecidableEq, Repr

def Output.append (maxSize : Nat) (s : Output) (bytes : Bytes) (streamId : Nat)
    (isData recordReserved bytesReserved : Bool) : Output :=
  let result := s.buffer.appendSegment maxSize bytes streamId isData recordReserved bytesReserved
  { s with
    buffer := result.1
    appended := if result.2 = .appended then s.appended ++ [⟨bytes, streamId, isData⟩] else s.appended }

/-- The batch that has been cut. -/
def Output.batchOf (s : Output) (request : TakeRequest) (taken : Taken) : Batch where
  maxBytes := request.maxBytes
  before := request.into
  after := taken.into
  size := taken.size
  observed := request.observed
  segments := s.buffer.pending.take taken.count

/-- A batch has been cut; with an observer it is under way from now on. -/
def Output.take (s : Output) (request : TakeRequest) (taken : Taken) : Output :=
  { s with
    buffer := taken.buffer
    frames := if request.observed then ⟨s.batches.length, taken.first, taken.count, 0⟩ :: s.frames else s.frames
    batches := s.batches ++ [s.batchOf request taken] }

/-- The call of the observer for a segment: one for DATA, none otherwise. -/
def Frame.reports (frame : Frame) (record : SegmentRecord) : List Report :=
  if record.isData then [⟨frame.batch, record.streamId, payloadSize (record.stop - record.start)⟩] else []

/-- The loop of `take_batch` over its segments, one of them. -/
def Output.report (s : Output) (frame : Frame) (frames : List Frame) : Output :=
  match s.buffer.segments[frame.first + frame.position]? with
  | none => { s with fault := true }
  | some record =>
    { s with
      frames := { frame with position := frame.position + 1 } :: frames
      reports := s.reports ++ frame.reports record }

def Output.step (maxSize : Nat) (s : Output) : OutputAction → Option Output
  | .append bytes streamId isData recordReserved bytesReserved =>
    some (s.append maxSize bytes streamId isData recordReserved bytesReserved)
  | .take request =>
    match s.buffer.takeBatch request with
    | .taken taken => some (s.take request taken)
    | .empty => some s
    | .failed => some s
  | .advance =>
    match s.frames with
    | [] => none
    | frame :: frames =>
      if frame.position < frame.count then some (s.report frame frames)
      else some { s with buffer := s.buffer.endObserver, frames := frames }

/-- The runs of a buffer whose byte store holds at most `maxSize` bytes. -/
def outputMachine (maxSize : Nat) : StateMachine Output OutputAction where
  init := fun s => s = {}
  step := Output.step maxSize

/-! ## What holds of every state -/

/-- What the calls told the observer of a batch. -/
def callsOf (reports : List Report) (batch : Nat) : List (Nat × Nat) :=
  (reports.filter fun report => report.batch == batch).map fun report => (report.streamId, report.size)

def Output.reportsOf (s : Output) (batch : Nat) : List (Nat × Nat) := callsOf s.reports batch

/-- What is to be told of some segments: one call for each DATA segment. -/
def dataReports (segments : List OutputSegment) : List (Nat × Nat) :=
  (segments.filter OutputSegment.isData).map fun segment => (segment.streamId, segment.payload)

def SegmentRecord.shape (record : SegmentRecord) : Nat × Bool × Nat :=
  (record.streamId, record.isData, record.stop - record.start)

def OutputSegment.shape (segment : OutputSegment) : Nat × Bool × Nat :=
  (segment.streamId, segment.isData, segment.bytes.length)

theorem shape_read {bytes : Bytes} {record : SegmentRecord} (hstart : record.start ≤ record.stop)
    (hstop : record.stop ≤ bytes.length) : (record.read bytes).shape = record.shape := by
  rw [OutputSegment.shape, length_read hstart hstop]
  rfl

theorem Sound.shape_front {buffer : Http2OutputBuffer} {front back : List SegmentRecord} (h : buffer.Sound)
    (hrecords : buffer.pendingRecords = front ++ back) :
    (front.map (SegmentRecord.read buffer.bytes)).map OutputSegment.shape = front.map SegmentRecord.shape := by
  rw [List.map_map]
  refine List.map_congr_left fun record hmem => ?_
  obtain ⟨-, hlt, hle⟩ := h.tiles.bounds (hrecords ▸ List.mem_append_left _ hmem)
  exact shape_read hlt.le hle

/-- A batch of whole segments, within the limit if it has more than one. -/
structure Batch.Whole (batch : Batch) : Prop where
  nonempty : batch.segments ≠ []
  after : batch.after = batch.before ++ wireOf batch.segments
  size : batch.size = (wireOf batch.segments).length
  limit : batch.segments.length = 1 ∨ batch.size ≤ batch.maxBytes

/-- A batch under way: its records are still where they were, and the segments passed have been reported. -/
structure Output.UnderWay (s : Output) (frame : Frame) (batch : Batch) : Prop where
  stands : s.batches[frame.batch]? = some batch
  observed : batch.observed = true
  position : frame.position ≤ frame.count
  records : (sub s.buffer.segments frame.first frame.count).map SegmentRecord.shape =
    batch.segments.map OutputSegment.shape
  count : batch.segments.length = frame.count
  reports : s.reportsOf frame.batch = dataReports (batch.segments.take frame.position)

structure Output.Consistent (maxSize : Nat) (s : Output) : Prop where
  fault : s.fault = false
  sound : s.buffer.Sound
  capacity : s.buffer.bytes.length ≤ maxSize
  depth : s.buffer.observerDepth = s.frames.length
  queue : s.appended = s.batches.flatMap Batch.segments ++ s.buffer.pending
  sizes : ∀ segment ∈ s.appended, segment.bytes.length ≤ maxSize
  whole : ∀ batch ∈ s.batches, batch.Whole
  underWay : ∀ frame ∈ s.frames, ∃ batch, s.UnderWay frame batch
  distinct : s.frames.Pairwise fun frame other => frame.batch ≠ other.batch
  ended : ∀ i batch, s.batches[i]? = some batch → (∀ frame ∈ s.frames, frame.batch ≠ i) →
    s.reportsOf i = if batch.observed then dataReports batch.segments else []
  reports : ∀ report ∈ s.reports, report.batch < s.batches.length

theorem getElem?_singleton_eq_some {α : Type*} {a b : α} {i : Nat} (h : [a][i]? = some b) : i = 0 ∧ a = b := by
  cases i with
  | zero => exact ⟨rfl, Option.some.inj h⟩
  | succ i => cases h

section

variable {s : Output} {request : TakeRequest} {taken : Taken} {frame : Frame}

theorem Output.frames_take_of_observed (h : request.observed = true) :
    (s.take request taken).frames = ⟨s.batches.length, taken.first, taken.count, 0⟩ :: s.frames := if_pos h

theorem Output.frames_take_of_not (h : ¬request.observed = true) : (s.take request taken).frames = s.frames := if_neg h

theorem Output.mem_frames_take (h : frame ∈ s.frames) : frame ∈ (s.take request taken).frames := by
  by_cases hobserved : request.observed = true
  · rw [Output.frames_take_of_observed hobserved]
    exact List.mem_cons_of_mem _ h
  · rwa [Output.frames_take_of_not hobserved]

end

section

variable {maxSize : Nat} {s t : Output} {frame : Frame} {frames : List Frame} {batch : Batch} {i : Nat}

theorem consistent_init : Output.Consistent maxSize {} where
  fault := rfl
  sound := sound_empty
  capacity := Nat.zero_le _
  depth := rfl
  queue := rfl
  sizes := List.forall_mem_nil _
  whole := List.forall_mem_nil _
  underWay := List.forall_mem_nil _
  distinct := .nil
  ended := by
    intro i batch h
    cases h
  reports := List.forall_mem_nil _

theorem mem_reportsOf {segment : Nat × Nat} (h : segment ∈ s.reportsOf i) : ∃ report ∈ s.reports, report.batch = i := by
  obtain ⟨report, hreport, -⟩ := List.mem_map.mp h
  obtain ⟨hmem, hbatch⟩ := List.mem_filter.mp hreport
  exact ⟨report, hmem, beq_iff_eq.mp hbatch⟩

theorem Output.Consistent.reportsOf_next (h : s.Consistent maxSize) : s.reportsOf s.batches.length = [] := by
  refine List.eq_nil_iff_forall_not_mem.mpr fun segment hmem => ?_
  obtain ⟨report, hreport, hbatch⟩ := mem_reportsOf hmem
  exact absurd hbatch (h.reports report hreport).ne

theorem Output.UnderWay.length_records (h : s.UnderWay frame batch) :
    (sub s.buffer.segments frame.first frame.count).length = frame.count := by
  have hlength := congrArg List.length h.records
  rwa [List.length_map, List.length_map, h.count] at hlength

/-- A batch stays under way while its records and what was reported stay. -/
theorem Output.UnderWay.keep (h : s.UnderWay frame batch) (hbatches : s.batches <+: t.batches)
    (hsegments : s.buffer.segments <+: t.buffer.segments)
    (hreports : t.reportsOf frame.batch = s.reportsOf frame.batch) : t.UnderWay frame batch := by
  obtain ⟨batches, hbatches⟩ := hbatches
  obtain ⟨segments, hsegments⟩ := hsegments
  refine ⟨?_, h.observed, h.position, ?_, h.count, hreports.trans h.reports⟩
  · rw [← hbatches]
    rw [List.getElem?_append_left (List.getElem?_eq_some_iff.mp h.stands).1]
    exact h.stands
  · rw [← hsegments, sub_append_of_length h.length_records]
    exact h.records

section

variable (h : s.Consistent maxSize)
include h

/-- While a batch is under way the observer depth is not zero. -/
theorem Output.Consistent.observed (hframe : frame ∈ s.frames) : s.buffer.observerDepth ≠ 0 := by
  rw [h.depth]
  exact (List.length_pos_of_mem hframe).ne'

/-- **The queue is kept**: an append that puts nothing behind it. -/
theorem Output.Consistent.keeps {buffer : Http2OutputBuffer}
    (hkeeps : Keeps s.buffer buffer) :
    Output.Consistent maxSize { s with buffer := buffer } where
  fault := h.fault
  sound := hkeeps.sound
  capacity := by rw [hkeeps.bytes]; exact h.capacity
  depth := hkeeps.depth.trans h.depth
  queue := by rw [hkeeps.pending]; exact h.queue
  sizes := h.sizes
  whole := h.whole
  underWay := by
    intro frame hframe
    obtain ⟨batch, hunder⟩ := h.underWay frame hframe
    have hsegments : s.buffer.segments <+: buffer.segments := by
      rw [hkeeps.records (h.observed hframe)]
    exact ⟨batch, hunder.keep (List.prefix_refl _) hsegments rfl⟩
  distinct := h.distinct
  ended := h.ended
  reports := h.reports

/-- **An append.** -/
theorem Output.Consistent.append (bytes : Bytes) (streamId : Nat)
    (isData recordReserved bytesReserved : Bool) :
    (s.append maxSize bytes streamId isData recordReserved bytesReserved).Consistent maxSize := by
  rw [Output.append]
  split_ifs with happended
  · obtain ⟨hsound, hpending, hdepth, hsegments, hsize, hcapacity⟩ := h.sound.append_appended happended
    refine ⟨h.fault, hsound, hcapacity h.capacity, hdepth.trans h.depth, ?_, ?_, h.whole, ?_, h.distinct, h.ended,
      h.reports⟩
    · rw [hpending, h.queue, List.append_assoc]
    · exact List.forall_mem_append.mpr ⟨h.sizes, List.forall_mem_singleton.mpr hsize⟩
    · intro frame hframe
      obtain ⟨batch, hunder⟩ := h.underWay frame hframe
      exact ⟨batch, hunder.keep (List.prefix_refl _) (hsegments (h.observed hframe)) rfl⟩
  · exact h.keeps (h.sound.keeps_append happended)

end

variable {request : TakeRequest} {taken : Taken}

/-- A batch that has just been cut, with its observer before the first segment. -/
theorem Output.Consistent.underWay_take {front back : List SegmentRecord} (h : s.Consistent maxSize)
    (hcuts : Cuts s.buffer request taken front back) (hobserved : request.observed = true) :
    ∃ batch, (s.take request taken).UnderWay ⟨s.batches.length, taken.first, taken.count, 0⟩ batch := by
  have hdepth : taken.buffer.observerDepth ≠ 0 := by
    rw [hcuts.depth, if_pos hobserved]
    exact Nat.succ_ne_zero _
  have hrecords : sub taken.buffer.segments taken.first taken.count = front := by
    rw [hcuts.kept hdepth, hcuts.first, hcuts.count, sub, ← pendingRecords, hcuts.records, List.take_left]
  refine ⟨_, List.getElem?_concat_length .., hobserved, Nat.zero_le _, ?_, ?_, ?_⟩
  · show (sub taken.buffer.segments _ _).map _ = (s.buffer.pending.take taken.count).map _
    rw [hrecords, hcuts.taken_segments, h.sound.shape_front hcuts.records]
  · show (s.buffer.pending.take taken.count).length = taken.count
    rw [hcuts.taken_segments, List.length_map, hcuts.count]
  · show s.reportsOf s.batches.length = _
    rw [h.reportsOf_next]
    rfl

/-- **A batch.** -/
theorem Output.Consistent.take (h : s.Consistent maxSize) (htaken : s.buffer.takeBatch request = .taken taken) :
    (s.take request taken).Consistent maxSize := by
  obtain ⟨front, back, hcuts⟩ := h.sound.take_taken htaken
  have hsegments := hcuts.taken_segments
  have hpending : s.buffer.pending = s.buffer.pending.take taken.count ++ taken.buffer.pending := by
    rw [hsegments, hcuts.pending, ← List.map_append, ← hcuts.records, pending]
  have hkeep : ∀ frame ∈ s.frames, ∃ batch, (s.take request taken).UnderWay frame batch := by
    intro frame hframe
    obtain ⟨batch, hunder⟩ := h.underWay frame hframe
    have hdepth : taken.buffer.observerDepth ≠ 0 := by
      have hobserved := h.observed hframe
      rw [hcuts.depth]
      split
      · exact Nat.succ_ne_zero _
      · exact hobserved
    have hprefixed : s.buffer.segments <+: taken.buffer.segments := by
      rw [hcuts.kept hdepth]
    exact ⟨batch, hunder.keep (List.prefix_append _ _) hprefixed rfl⟩
  have hlt : ∀ frame ∈ s.frames, frame.batch < s.batches.length := by
    intro frame hframe
    obtain ⟨batch, hunder⟩ := h.underWay frame hframe
    exact (List.getElem?_eq_some_iff.mp hunder.stands).1
  refine ⟨h.fault, hcuts.sound, hcuts.shrinks.trans h.capacity, ?_, ?_, h.sizes, ?_, ?_, ?_, ?_, ?_⟩
  · show taken.buffer.observerDepth = List.length (if _ then _ else _)
    rw [hcuts.depth, h.depth]
    split <;> rfl
  · show s.appended = (_ ++ [_]).flatMap _ ++ taken.buffer.pending
    rw [h.queue, List.flatMap_append, List.flatMap_singleton, List.append_assoc]
    exact congrArg _ hpending
  · refine List.forall_mem_append.mpr ⟨h.whole, List.forall_mem_singleton.mpr ⟨?_, ?_, ?_, ?_⟩⟩
    · show s.buffer.pending.take taken.count ≠ []
      rw [hsegments]
      exact fun hnil => hcuts.nonempty (List.map_eq_nil_iff.mp hnil)
    · show taken.into = request.into ++ wireOf (s.buffer.pending.take taken.count)
      rw [hsegments]
      exact hcuts.into
    · show taken.size = (wireOf (s.buffer.pending.take taken.count)).length
      rw [hsegments]
      exact hcuts.size
    · show (s.buffer.pending.take taken.count).length = 1 ∨ taken.size ≤ request.maxBytes
      rw [hsegments, List.length_map, ← hcuts.count]
      exact hcuts.limit
  · intro frame hframe
    by_cases hobserved : request.observed = true
    · rw [Output.frames_take_of_observed hobserved] at hframe
      rcases List.mem_cons.mp hframe with rfl | hframe
      · exact h.underWay_take hcuts hobserved
      · exact hkeep frame hframe
    · rw [Output.frames_take_of_not hobserved] at hframe
      exact hkeep frame hframe
  · show List.Pairwise _ (if _ then _ else _)
    split
    · exact List.pairwise_cons.mpr ⟨fun frame hframe => (hlt frame hframe).ne', h.distinct⟩
    · exact h.distinct
  · intro i batch hbatch hover
    by_cases hold : i < s.batches.length
    · rw [Output.take, List.getElem?_append_left hold] at hbatch
      refine h.ended i batch hbatch fun frame hframe => hover frame ?_
      exact Output.mem_frames_take hframe
    · rw [Output.take, List.getElem?_append_right (Nat.le_of_not_lt hold)] at hbatch
      obtain ⟨hlast, rfl⟩ := getElem?_singleton_eq_some hbatch
      obtain rfl : i = s.batches.length := by
        omega
      by_cases hobserved : request.observed = true
      · refine absurd rfl (hover ⟨s.batches.length, taken.first, taken.count, 0⟩ ?_)
        rw [Output.frames_take_of_observed hobserved]
        exact List.mem_cons_self
      · show s.reportsOf s.batches.length = if request.observed then _ else []
        rw [if_neg hobserved, h.reportsOf_next]
  · intro report hreport
    show report.batch < (_ ++ [_]).length
    rw [List.length_append]
    exact (h.reports report hreport).trans_le (Nat.le_add_right _ _)

/-- The record that the loop reads is there, and it says what its segment says. -/
theorem Output.UnderWay.record (h : s.UnderWay frame batch) (hlt : frame.position < frame.count) :
    ∃ record segment, s.buffer.segments[frame.first + frame.position]? = some record ∧
      batch.segments[frame.position]? = some segment ∧ record.shape = segment.shape := by
  have hrecord : frame.position < (sub s.buffer.segments frame.first frame.count).length := by
    rwa [h.length_records]
  have hsegment : frame.position < batch.segments.length := by
    rwa [h.count]
  have hshape := congrArg (·[frame.position]?) h.records
  simp only [List.getElem?_map, List.getElem?_eq_getElem hrecord, List.getElem?_eq_getElem hsegment, Option.map_some,
    Option.some.injEq] at hshape
  refine ⟨_, _, ?_, List.getElem?_eq_getElem hsegment, hshape⟩
  rw [← getElem?_sub hlt, List.getElem?_eq_getElem hrecord]

theorem report_eq {record : SegmentRecord} (hrecord : s.buffer.segments[frame.first + frame.position]? = some record) :
    s.report frame frames = { s with
      frames := { frame with position := frame.position + 1 } :: frames
      reports := s.reports ++ frame.reports record } := by
  rw [Output.report, hrecord]

theorem callsOf_append (reports more : List Report) (i : Nat) :
    callsOf (reports ++ more) i = callsOf reports i ++ callsOf more i := by
  rw [callsOf, List.filter_append, List.map_append]
  rfl

theorem callsOf_this (frame : Frame) (record : SegmentRecord) : callsOf (frame.reports record) frame.batch =
    if record.isData = true then [(record.streamId, payloadSize (record.stop - record.start))] else [] := by
  rw [Frame.reports]
  split_ifs
  · simp [callsOf]
  · rfl

theorem callsOf_other (record : SegmentRecord) (h : frame.batch ≠ i) : callsOf (frame.reports record) i = [] := by
  rw [Frame.reports]
  split_ifs
  · simp [callsOf, h]
  · rfl

theorem mem_reports {record : SegmentRecord} {report : Report} (h : report ∈ frame.reports record) :
    report.batch = frame.batch := by
  rw [Frame.reports] at h
  split_ifs at h
  · rw [List.mem_singleton.mp h]
  · cases h

theorem dataReports_take {segments : List OutputSegment} {segment : OutputSegment} {n : Nat}
    (h : segments[n]? = some segment) :
    dataReports (segments.take (n + 1)) =
      dataReports (segments.take n) ++ if segment.isData = true then [(segment.streamId, segment.payload)] else [] := by
  rw [List.take_add_one, h, dataReports, List.filter_append, List.map_append, ← dataReports]
  by_cases hdata : segment.isData = true
  · simp [hdata]
  · simp [hdata]

/-- **One step of the loop of an observer.** -/
theorem Output.Consistent.report (h : s.Consistent maxSize) (hframes : s.frames = frame :: frames)
    (hlt : frame.position < frame.count) : (s.report frame frames).Consistent maxSize := by
  obtain ⟨batch, hunder⟩ := h.underWay frame (hframes ▸ List.mem_cons_self)
  obtain ⟨record, segment, hrecord, hsegment, hshape⟩ := hunder.record hlt
  obtain ⟨hstream, hdata, hlength⟩ : record.streamId = segment.streamId ∧ record.isData = segment.isData ∧
      record.stop - record.start = segment.bytes.length := by
    rw [SegmentRecord.shape, OutputSegment.shape, Prod.mk.injEq, Prod.mk.injEq] at hshape
    exact hshape
  have hdistinct := h.distinct
  rw [hframes, List.pairwise_cons] at hdistinct
  -- the reports of the other batches stay, those of this one get its next segment
  have hother : ∀ i, frame.batch ≠ i → callsOf (s.reports ++ frame.reports record) i = s.reportsOf i := by
    intro i hi
    rw [callsOf_append, callsOf_other record hi, List.append_nil]
    rfl
  have hthis : callsOf (s.reports ++ frame.reports record) frame.batch =
      dataReports (batch.segments.take (frame.position + 1)) := by
    rw [callsOf_append, callsOf_this, dataReports_take hsegment, ← hunder.reports, OutputSegment.payload, ← hdata,
      ← hlength, ← hstream]
    rfl
  rw [report_eq hrecord]
  refine ⟨h.fault, h.sound, h.capacity, ?_, h.queue, h.sizes, h.whole, ?_, ?_, ?_, ?_⟩
  · rw [h.depth, hframes]
    rfl
  · intro next hnext
    rcases List.mem_cons.mp hnext with rfl | hnext
    · exact ⟨batch, hunder.stands, hunder.observed, hlt, hunder.records, hunder.count, hthis⟩
    · obtain ⟨batch, hunder⟩ := h.underWay next (hframes ▸ List.mem_cons_of_mem _ hnext)
      exact ⟨batch, hunder.keep (List.prefix_refl _) (List.prefix_refl _) (hother _ (hdistinct.1 next hnext))⟩
  · exact List.pairwise_cons.mpr hdistinct
  · intro i other hstands hover
    have hi : frame.batch ≠ i := hover { frame with position := frame.position + 1 } List.mem_cons_self
    show callsOf _ i = _
    rw [hother i hi]
    refine h.ended i other hstands fun frame' hframe' => ?_
    rw [hframes] at hframe'
    rcases List.mem_cons.mp hframe' with rfl | hframe'
    · exact hi
    · exact hover frame' (List.mem_cons_of_mem _ hframe')
  · refine List.forall_mem_append.mpr ⟨h.reports, fun report hreport => ?_⟩
    rw [mem_reports hreport]
    exact (List.getElem?_eq_some_iff.mp hunder.stands).1

/-- **The end of a batch.** -/
theorem Output.Consistent.finish (h : s.Consistent maxSize) (hframes : s.frames = frame :: frames)
    (hend : ¬frame.position < frame.count) :
    Output.Consistent maxSize { s with buffer := s.buffer.endObserver, frames := frames } := by
  obtain ⟨batch, hunder⟩ := h.underWay frame (hframes ▸ List.mem_cons_self)
  obtain ⟨hsound, hpending, hdepth, hkept, hshrinks⟩ := h.sound.endObserver
  have hdepth' : s.buffer.endObserver.observerDepth = frames.length := by
    rw [hdepth, h.depth, hframes, List.length_cons, Nat.add_sub_cancel]
  have hdistinct := h.distinct
  rw [hframes] at hdistinct
  refine ⟨h.fault, hsound, hshrinks.trans h.capacity, hdepth', ?_, h.sizes, h.whole, ?_,
    (List.pairwise_cons.mp hdistinct).2, ?_, h.reports⟩
  · rw [h.queue, hpending]
  · intro other hother
    obtain ⟨batch, hunder⟩ := h.underWay other (hframes ▸ List.mem_cons_of_mem _ hother)
    have hobserved : s.buffer.endObserver.observerDepth ≠ 0 := by
      rw [hdepth']
      exact (List.length_pos_of_mem hother).ne'
    have hsegments : s.buffer.segments <+: s.buffer.endObserver.segments := by
      rw [hkept hobserved]
    exact ⟨batch, hunder.keep (List.prefix_refl _) hsegments rfl⟩
  · intro i other hother hover
    by_cases hi : frame.batch = i
    · subst hi
      obtain rfl : batch = other := Option.some.inj (hunder.stands.symm.trans hother)
      have hposition : frame.position = batch.segments.length := by
        rw [hunder.count]
        exact Nat.le_antisymm hunder.position (Nat.le_of_not_lt hend)
      show s.reportsOf frame.batch = _
      rw [hunder.reports, hposition, List.take_length, if_pos hunder.observed]
    · refine h.ended i other hother fun frame' hframe' => ?_
      rw [hframes] at hframe'
      rcases List.mem_cons.mp hframe' with rfl | hframe'
      · exact hi
      · exact hover frame' hframe'

/-- **Every step keeps it.** -/
theorem Output.Consistent.step {action : OutputAction} (h : s.Consistent maxSize)
    (hstep : s.step maxSize action = some t) : t.Consistent maxSize := by
  cases action with
  | append bytes streamId isData recordReserved bytesReserved =>
    obtain rfl := Option.some.inj hstep
    exact h.append bytes streamId isData recordReserved bytesReserved
  | take request =>
    rw [Output.step] at hstep
    cases htake : s.buffer.takeBatch request with
    | taken taken =>
      rw [htake] at hstep
      obtain rfl := Option.some.inj hstep
      exact h.take htake
    | empty | failed =>
      rw [htake] at hstep
      obtain rfl := Option.some.inj hstep
      exact h
  | advance =>
    rw [Output.step] at hstep
    cases hframes : s.frames with
    | nil =>
      rw [hframes] at hstep
      cases hstep
    | cons frame frames =>
      rw [hframes] at hstep
      dsimp only at hstep
      split_ifs at hstep with hlt
      · obtain rfl := Option.some.inj hstep
        exact h.report hframes hlt
      · obtain rfl := Option.some.inj hstep
        exact h.finish hframes hlt

/-- **Every reachable state** is consistent. -/
theorem consistent_of_reachable (h : (outputMachine maxSize).Reachable s) : s.Consistent maxSize := by
  refine StateMachine.Reachable.invariant (P := Output.Consistent maxSize) ?_ ?_ h
  · rintro s rfl
    exact consistent_init
  · intro s action t hs hstep
    exact hs.step hstep

/-! ## The end of the observers -/

/-- The steps that the batches under way still take. -/
def Output.weight (s : Output) : Nat := (s.frames.map fun frame => frame.count - frame.position + 1).sum

/-- An observer that goes on comes closer to its end. -/
theorem Output.Consistent.advance (h : s.Consistent maxSize) (hframes : s.frames ≠ []) :
    ∃ t, s.step maxSize .advance = some t ∧ t.weight < s.weight := by
  obtain ⟨frame, frames, hframes⟩ := List.exists_cons_of_ne_nil hframes
  rw [Output.step, hframes, Output.weight, hframes, List.map_cons, List.sum_cons]
  dsimp only
  split_ifs with hlt
  · obtain ⟨batch, hunder⟩ := h.underWay frame (hframes ▸ List.mem_cons_self)
    obtain ⟨record, segment, hrecord, -, -⟩ := hunder.record hlt
    refine ⟨_, rfl, ?_⟩
    rw [report_eq hrecord, Output.weight, List.map_cons, List.sum_cons]
    show frame.count - (frame.position + 1) + 1 + _ < _
    omega
  · refine ⟨_, rfl, ?_⟩
    show (frames.map _).sum < _
    omega

/-- **The observers end**: going on leads to a state without a batch under way. -/
theorem Output.Consistent.exists_finished (h : s.Consistent maxSize) :
    ∃ n, ((outputMachine maxSize).run s (List.replicate n .advance)).frames = [] := by
  induction hweight : s.weight using Nat.strong_induction_on generalizing s with
  | _ weight ih =>
    by_cases hframes : s.frames = []
    · exact ⟨0, hframes⟩
    · obtain ⟨t, hstep, hlt⟩ := h.advance hframes
      obtain ⟨n, hn⟩ := ih t.weight (hweight ▸ hlt) (h.step hstep) rfl
      refine ⟨n + 1, ?_⟩
      have hrun : (outputMachine maxSize).run s (List.replicate (n + 1) .advance) =
          (outputMachine maxSize).run ((s.step maxSize .advance).getD s) (List.replicate n .advance) := rfl
      rw [hrun, hstep]
      exact hn

end

/-! ## The refinement -/

theorem wireOf_flatMap (batches : List Batch) (h : ∀ batch ∈ batches, batch.Whole) :
    wireOf (batches.flatMap Batch.segments) = batches.flatMap Batch.bytes := by
  rw [wireOf, List.flatMap_assoc]
  refine List.flatMap_congr fun batch hmem => ?_
  rw [Batch.bytes, (h batch hmem).after, List.drop_left]
  rfl

end Ruvia.Http.Http2OutputBuffer
