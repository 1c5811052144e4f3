import Mathlib.Algebra.GroupWithZero.Nat
import Ruvia.Http.Http2OutputBuffer

/-!
# `Http.Http2OutputQueue` — what the operations of the outbound buffer do to its queue

The records behind the cursor tile the store from the consumed prefix to its end (`Sound`). Every operation keeps that,
and says what it does to the queue that the buffer stands for: an append puts a segment behind it, a batch takes whole
segments off the front, and moving the store or the records leaves it as it is. While an observer is under way the
records of segments already taken stay where they are.
-/

namespace Ruvia.Http.Http2OutputBuffer

open Library

/-! ## The queue -/

/-- A segment of the queue: one frame, with the stream of a DATA frame. -/
structure OutputSegment where
  bytes : Bytes
  streamId : Nat
  isData : Bool
  deriving DecidableEq, Repr

/-- The segment that a record stands for. -/
def SegmentRecord.read (bytes : Bytes) (record : SegmentRecord) : OutputSegment :=
  ⟨sub bytes record.start (record.stop - record.start), record.streamId, record.isData⟩

/-- The bytes of some segments, one behind the other. -/
def wireOf (segments : List OutputSegment) : Bytes := segments.flatMap OutputSegment.bytes

/-- The records of the segments not yet taken. -/
def pendingRecords (buffer : Http2OutputBuffer) : List SegmentRecord := buffer.segments.drop buffer.segmentOffset

/-- **The queue**: the segments not yet taken. -/
def pending (buffer : Http2OutputBuffer) : List OutputSegment :=
  buffer.pendingRecords.map (SegmentRecord.read buffer.bytes)

/-- The records stand one behind the other, from one place of the store to another. -/
def Tiles : Nat → List SegmentRecord → Nat → Prop
  | start, [], stop => start = stop
  | start, record :: records, stop => record.start = start ∧ start < record.stop ∧ Tiles record.stop records stop

/-- The cursor stands where the first pending segment begins, and the last one ends with the store. -/
structure Sound (buffer : Http2OutputBuffer) : Prop where
  offset : buffer.segmentOffset ≤ buffer.segments.length
  tiles : Tiles buffer.consumed buffer.pendingRecords buffer.bytes.length

theorem sub_append_sub {start middle stop : Nat} (bytes : Bytes) (h : start ≤ middle) (h' : middle ≤ stop) :
    sub bytes start (middle - start) ++ sub bytes middle (stop - middle) = sub bytes start (stop - start) := by
  have hlength : stop - start = (middle - start) + (stop - middle) := by
    omega
  rw [sub, sub, sub, hlength, List.take_add, List.drop_drop, Nat.add_sub_cancel' h]

section

variable {start middle stop erased : Nat} {records front back : List SegmentRecord} {record : SegmentRecord}
  {bytes written : Bytes}

theorem Tiles.le (h : Tiles start records stop) : start ≤ stop := by
  induction records generalizing start with
  | nil => exact Nat.le_of_eq h
  | cons record records ih => exact h.2.1.le.trans (ih h.2.2)

theorem tiles_append :
    Tiles start (front ++ back) stop ↔ ∃ middle, Tiles start front middle ∧ Tiles middle back stop := by
  induction front generalizing start with
  | nil => exact ⟨fun h => ⟨start, rfl, h⟩, fun ⟨_, hstart, h⟩ => by rwa [show start = _ from hstart]⟩
  | cons record front ih =>
    simp only [List.cons_append, Tiles, ih]
    constructor
    · rintro ⟨hstart, hlt, middle, hfront, hback⟩
      exact ⟨middle, ⟨hstart, hlt, hfront⟩, hback⟩
    · rintro ⟨middle, ⟨hstart, hlt, hfront⟩, hback⟩
      exact ⟨hstart, hlt, middle, hfront, hback⟩

theorem Tiles.bounds (h : Tiles start records stop) (hmem : record ∈ records) :
    start ≤ record.start ∧ record.start < record.stop ∧ record.stop ≤ stop := by
  induction records generalizing start with
  | nil => cases hmem
  | cons first records ih =>
    obtain ⟨hstart, hlt, hrest⟩ := h
    rcases List.mem_cons.mp hmem with rfl | hmem
    · exact ⟨hstart.ge, hstart.trans_lt hlt, hrest.le⟩
    · obtain ⟨hle, hbounds⟩ := ih hrest hmem
      exact ⟨hlt.le.trans hle, hbounds⟩

theorem Tiles.eq_nil (h : Tiles start records start) : records = [] := by
  cases records with
  | nil => rfl
  | cons record records => exact absurd (h.2.1.trans_le h.2.2.le) (lt_irrefl _)

/-- **The bytes of the records** are the part of the store that they tile. -/
theorem Tiles.wireOf_read (h : Tiles start records stop) :
    wireOf (records.map (SegmentRecord.read bytes)) = sub bytes start (stop - start) := by
  induction records generalizing start with
  | nil => rw [show start = stop from h, Nat.sub_self, sub, List.take_zero]; rfl
  | cons record records ih =>
    obtain ⟨rfl, hlt, hrest⟩ := h
    rw [List.map_cons, wireOf, List.flatMap_cons, ← wireOf, ih hrest]
    exact sub_append_sub bytes hlt.le hrest.le

/-- A record with its places moved to the front. -/
def SegmentRecord.shift (erased : Nat) (record : SegmentRecord) : SegmentRecord :=
  { record with
    start := if erased < record.start then record.start - erased else 0
    stop := record.stop - erased }

theorem shift_start (h : erased ≤ record.start) : (record.shift erased).start = record.start - erased := by
  rw [SegmentRecord.shift]
  split
  · rfl
  · show 0 = _
    omega

theorem Tiles.shift (h : Tiles start records stop) (herased : erased ≤ start) :
    Tiles (start - erased) (records.map (SegmentRecord.shift erased)) (stop - erased) := by
  induction records generalizing start with
  | nil => exact congrArg (· - erased) h
  | cons record records ih =>
    obtain ⟨rfl, hlt, hrest⟩ := h
    refine ⟨shift_start herased, ?_, ih hrest (herased.trans hlt.le)⟩
    show record.start - erased < record.stop - erased
    omega

theorem read_shift (h : erased ≤ record.start) (hstop : record.start ≤ record.stop) :
    (record.shift erased).read (bytes.drop erased) = record.read bytes := by
  have hlength : record.stop - erased - (record.start - erased) = record.stop - record.start := by
    omega
  rw [SegmentRecord.read, shift_start h]
  show OutputSegment.mk (sub (bytes.drop erased) _ (record.stop - erased - (record.start - erased))) _ _ = _
  rw [hlength, sub, List.drop_drop, Nat.add_sub_cancel' h]
  rfl

theorem Tiles.map_read_shift (h : Tiles start records stop) (herased : erased ≤ start) :
    (records.map (SegmentRecord.shift erased)).map (SegmentRecord.read (bytes.drop erased)) =
      records.map (SegmentRecord.read bytes) := by
  rw [List.map_map]
  refine List.map_congr_left fun record hmem => ?_
  obtain ⟨hle, hlt, -⟩ := h.bounds hmem
  exact read_shift (herased.trans hle) hlt.le

/-- What is put behind the store does not change the segments in it. -/
theorem Tiles.map_read_append (h : Tiles start records stop) (hstop : stop ≤ bytes.length) :
    records.map (SegmentRecord.read (bytes ++ written)) = records.map (SegmentRecord.read bytes) := by
  refine List.map_congr_left fun record hmem => ?_
  obtain ⟨-, hlt, hle⟩ := h.bounds hmem
  rw [SegmentRecord.read, SegmentRecord.read, sub_append_of_full (by omega)]

end

/-! ## What the operations do to the queue -/

section

variable {buffer : Http2OutputBuffer} {records front back : List SegmentRecord}

theorem sound_empty : Sound {} := ⟨Nat.le_refl _, rfl⟩

@[simp] theorem observerDepth_compactConsumedPrefix :
    buffer.compactConsumedPrefix.observerDepth = buffer.observerDepth := by
  rw [compactConsumedPrefix]
  split <;> rfl

/-- **Erasing the prefix** leaves the queue as it is. -/
theorem Sound.compact (h : buffer.Sound) :
    buffer.compactConsumedPrefix.Sound ∧ buffer.compactConsumedPrefix.pending = buffer.pending := by
  rw [compactConsumedPrefix]
  split
  · exact ⟨h, rfl⟩
  · refine ⟨⟨Nat.zero_le _, ?_⟩, h.tiles.map_read_shift (Nat.le_refl _)⟩
    have htiles := h.tiles.shift (Nat.le_refl buffer.consumed)
    rw [Nat.sub_self] at htiles
    rw [List.length_drop]
    exact htiles

theorem length_compactConsumedPrefix_le : buffer.compactConsumedPrefix.bytes.length ≤ buffer.bytes.length := by
  rw [compactConsumedPrefix]
  split
  · exact Nat.le_refl _
  · exact List.drop_sublist _ _ |>.length_le

theorem length_resetAfterDrain : buffer.resetAfterDrain.bytes.length = 0 := by
  rw [resetAfterDrain]
  split <;> rfl

theorem pendingRecords_resetAfterDrain : buffer.resetAfterDrain.pendingRecords = [] := by
  rw [resetAfterDrain]
  split
  · rfl
  · exact List.drop_length

theorem resetAfterDrain_sound : buffer.resetAfterDrain.Sound ∧ buffer.resetAfterDrain.pending = [] := by
  have hnil : buffer.resetAfterDrain.pendingRecords = [] := pendingRecords_resetAfterDrain
  refine ⟨⟨?_, ?_⟩, by rw [pending, hnil]; rfl⟩
  · rw [resetAfterDrain]
    split
    · exact Nat.le_refl 0
    · exact Nat.le_refl _
  · rw [hnil, resetAfterDrain]
    split <;> rfl

theorem segments_resetAfterDrain (h : buffer.observerDepth ≠ 0) :
    buffer.resetAfterDrain.segments = buffer.segments := by
  rw [resetAfterDrain, if_neg h]

@[simp] theorem observerDepth_resetAfterDrain :
    buffer.resetAfterDrain.observerDepth = buffer.observerDepth := by
  rw [resetAfterDrain]
  split <;> rfl

/-- **Consuming whole segments** takes them off the front of the queue. -/
theorem Sound.consumeBatch {middle : Nat} (h : buffer.Sound) (hrecords : buffer.pendingRecords = front ++ back)
    (hfront : Tiles buffer.consumed front middle) (hback : Tiles middle back buffer.bytes.length) :
    (buffer.consumeBatch (middle - buffer.consumed) front.length).Sound ∧
      (buffer.consumeBatch (middle - buffer.consumed) front.length).pending =
        back.map (SegmentRecord.read buffer.bytes) := by
  have hle := hfront.le
  have hle' := hback.le
  rw [Http2OutputBuffer.consumeBatch]
  split
  · rename_i hdrained
    obtain rfl : middle = buffer.bytes.length := by
      omega
    rw [hback.eq_nil]
    exact resetAfterDrain_sound
  · have hdrop : buffer.segments.drop (buffer.segmentOffset + front.length) = back := by
      rw [← List.drop_drop, ← pendingRecords, hrecords, List.drop_left]
    have hoffset : buffer.segmentOffset + front.length ≤ buffer.segments.length := by
      have hlength := congrArg List.length hrecords
      rw [pendingRecords, List.length_drop, List.length_append] at hlength
      have := h.offset
      omega
    have hnext : Sound { buffer with
        consumed := buffer.consumed + (middle - buffer.consumed)
        segmentOffset := buffer.segmentOffset + front.length } := by
      refine ⟨hoffset, ?_⟩
      show Tiles (buffer.consumed + (middle - buffer.consumed)) (buffer.segments.drop _) buffer.bytes.length
      rw [hdrop, Nat.add_sub_cancel' hle]
      exact hback
    obtain ⟨hsound, hpending⟩ := hnext.compact
    refine ⟨hsound, hpending.trans ?_⟩
    show (buffer.segments.drop _).map (SegmentRecord.read buffer.bytes) = _
    rw [hdrop]

theorem segments_consumeBatch (h : buffer.observerDepth ≠ 0) (size count : Nat) :
    (buffer.consumeBatch size count).segments = buffer.segments := by
  rw [consumeBatch]
  split
  · exact segments_resetAfterDrain h
  · rw [compactConsumedPrefix, if_pos (.inl h)]

@[simp] theorem observerDepth_consumeBatch (size count : Nat) :
    (buffer.consumeBatch size count).observerDepth = buffer.observerDepth := by
  rw [consumeBatch]
  split
  · exact observerDepth_resetAfterDrain
  · exact observerDepth_compactConsumedPrefix

theorem length_consumeBatch_le (size count : Nat) :
    (buffer.consumeBatch size count).bytes.length ≤ buffer.bytes.length := by
  rw [consumeBatch]
  split
  · exact length_resetAfterDrain.trans_le (Nat.zero_le _)
  · exact length_compactConsumedPrefix_le

/-- What `dropTakenRecords` leaves as it is. -/
theorem Sound.dropTaken (h : buffer.Sound) :
    buffer.dropTakenRecords.Sound ∧ buffer.dropTakenRecords.pendingRecords = buffer.pendingRecords ∧
      buffer.dropTakenRecords.bytes = buffer.bytes ∧ buffer.dropTakenRecords.consumed = buffer.consumed ∧
      buffer.dropTakenRecords.observerDepth = buffer.observerDepth := by
  rw [dropTakenRecords]
  split
  · exact ⟨⟨Nat.zero_le _, h.tiles⟩, rfl, rfl, rfl, rfl⟩
  · exact ⟨h, rfl, rfl, rfl, rfl⟩

/-- An operation that keeps the queue, and the records of segments already taken while an observer is under way. -/
structure Keeps (buffer buffer' : Http2OutputBuffer) : Prop where
  sound : buffer'.Sound
  pending : buffer'.pending = buffer.pending
  depth : buffer'.observerDepth = buffer.observerDepth
  bytes : buffer'.bytes = buffer.bytes
  consumed : buffer'.consumed = buffer.consumed
  records : buffer.observerDepth ≠ 0 → buffer'.segments = buffer.segments

variable {maxSize streamId : Nat} {bytes : Bytes} {isData recordReserved bytesReserved : Bool}

theorem Sound.keeps_dropTaken (h : buffer.Sound) : Keeps buffer buffer.dropTakenRecords := by
  obtain ⟨hsound, hrecords, hbytes, hconsumed, hdepth⟩ := h.dropTaken
  refine ⟨hsound, by rw [pending, hrecords, hbytes, pending], hdepth, hbytes, hconsumed, fun hobserved => ?_⟩
  rw [dropTakenRecords, if_neg fun hdrop => hobserved hdrop.1]

/-- **A failed append** leaves the queue and the store as they are. -/
theorem Sound.append_failed (h : buffer.Sound)
    (hfailed : (buffer.appendSegment maxSize bytes streamId isData recordReserved bytesReserved).2 = .failed) :
    Keeps buffer (buffer.appendSegment maxSize bytes streamId isData recordReserved bytesReserved).1 := by
  simp only [appendSegment] at hfailed ⊢
  split_ifs at hfailed ⊢
  all_goals exact h.keeps_dropTaken

theorem append_ignored
    (hignored : (buffer.appendSegment maxSize bytes streamId isData recordReserved bytesReserved).2 = .ignored) :
    bytes = [] ∧ (buffer.appendSegment maxSize bytes streamId isData recordReserved bytesReserved).1 = buffer := by
  simp only [appendSegment] at hignored ⊢
  split_ifs at hignored ⊢ with hnil
  exact ⟨hnil, rfl⟩

/-- **An append that does not take place** leaves the queue and the store as they are. -/
theorem Sound.keeps_append (h : buffer.Sound)
    (hnot : (buffer.appendSegment maxSize bytes streamId isData recordReserved bytesReserved).2 ≠ .appended) :
    Keeps buffer (buffer.appendSegment maxSize bytes streamId isData recordReserved bytesReserved).1 := by
  cases hstatus : (buffer.appendSegment maxSize bytes streamId isData recordReserved bytesReserved).2 with
  | ignored =>
    rw [(append_ignored hstatus).2]
    exact ⟨h, rfl, rfl, rfl, rfl, fun _ => rfl⟩
  | appended => exact absurd hstatus hnot
  | failed => exact h.append_failed hstatus

/-- **An append** puts a segment behind the queue. -/
theorem Sound.append_appended (h : buffer.Sound)
    (happended : (buffer.appendSegment maxSize bytes streamId isData recordReserved bytesReserved).2 = .appended) :
    let buffer' := (buffer.appendSegment maxSize bytes streamId isData recordReserved bytesReserved).1
    buffer'.Sound ∧ buffer'.pending = buffer.pending ++ [⟨bytes, streamId, isData⟩] ∧
      buffer'.observerDepth = buffer.observerDepth ∧
      (buffer.observerDepth ≠ 0 → buffer.segments <+: buffer'.segments) ∧ bytes.length ≤ maxSize ∧
      (buffer.bytes.length ≤ maxSize → buffer'.bytes.length ≤ maxSize) := by
  obtain ⟨hsound, hrecords, hbytes, hconsumed, hdepth⟩ := h.dropTaken
  simp only [appendSegment] at happended ⊢
  split_ifs at happended ⊢ with hnil hrecord hfull hreserved
  have hpos : 0 < bytes.length := List.length_pos_iff.mpr hnil
  have hdrop : ∀ record : SegmentRecord, (buffer.dropTakenRecords.segments ++ [record]).drop
      buffer.dropTakenRecords.segmentOffset = buffer.pendingRecords ++ [record] := by
    intro record
    rw [List.drop_append_of_le_length hsound.offset, ← pendingRecords, hrecords]
  refine ⟨⟨?_, ?_⟩, ?_, hdepth, fun hobserved => ?_, by omega, fun hle => ?_⟩
  · rw [List.length_append]
    exact hsound.offset.trans (Nat.le_add_right _ _)
  · show Tiles _ (List.drop _ (_ ++ [_])) (_ ++ bytes).length
    rw [hdrop, tiles_append, List.length_append, hbytes, hconsumed]
    exact ⟨_, h.tiles, rfl, Nat.lt_add_of_pos_right hpos, rfl⟩
  · show (List.drop _ (_ ++ [_])).map (SegmentRecord.read (_ ++ bytes)) = _
    rw [hdrop, List.map_append, hbytes, h.tiles.map_read_append (Nat.le_refl _), List.map_singleton, ← pending,
      SegmentRecord.read, sub]
    simp only [List.drop_left, Nat.add_sub_cancel_left, List.take_length]
  · rw [dropTakenRecords, if_neg fun hdrop => hobserved hdrop.1]
    exact List.prefix_append _ _
  · rw [List.length_append]
    omega

/-! ## Cutting a batch -/

/-- **The loop** cuts whole records off the front, at least one, and more than one only within the limit. -/
theorem cutBatch_spec {maxBytes consumed start count stop : Nat} (htiles : Tiles start records stop)
    (hconsumed : consumed ≤ start) (hlimit : count = 0 ∨ start - consumed ≤ maxBytes) :
    ∃ front back, records = front ++ back ∧
      (cutBatch maxBytes consumed start count records).2 = count + front.length ∧
      Tiles start front (cutBatch maxBytes consumed start count records).1 ∧
      Tiles (cutBatch maxBytes consumed start count records).1 back stop ∧
      (count = 0 → records ≠ [] → front ≠ []) ∧
      (count + front.length ≤ 1 ∨ (cutBatch maxBytes consumed start count records).1 - consumed ≤ maxBytes) := by
  induction records generalizing start count with
  | nil => exact ⟨[], [], rfl, rfl, rfl, htiles, fun _ hne => absurd rfl hne, hlimit.imp (by rintro rfl; simp) id⟩
  | cons record records ih =>
    obtain ⟨hstart, hlt, hrest⟩ := htiles
    rw [cutBatch]
    split
    · rename_i hfull
      exact ⟨[], record :: records, rfl, rfl, rfl, ⟨hstart, hlt, hrest⟩, fun hzero => absurd hzero hfull.1,
        .inr (hlimit.resolve_left hfull.1)⟩
    · rename_i hroom
      split
      · refine ⟨[record], records, rfl, rfl, ⟨hstart, hlt, rfl⟩, hrest, fun _ _ => List.cons_ne_nil _ _, ?_⟩
        rw [List.length_singleton]
        omega
      · rename_i hless
        obtain ⟨front, back, hrecords, hcount, hfront, hback, -, hbound⟩ :=
          ih hrest (hconsumed.trans hlt.le) (.inr (Nat.le_of_not_le hless))
        refine ⟨record :: front, back, by rw [hrecords, List.cons_append], ?_, ⟨hstart, hlt, hfront⟩, hback,
          fun _ _ => List.cons_ne_nil _ _, ?_⟩
        · rw [hcount, List.length_cons]
          omega
        · rw [List.length_cons]
          exact hbound.imp (by omega) id

/-- **A batch that has been cut**: whole segments off the front of the queue, copied behind the caller's text. -/
structure Cuts (buffer : Http2OutputBuffer) (request : TakeRequest) (taken : Taken) (front back : List SegmentRecord) :
    Prop where
  records : buffer.pendingRecords = front ++ back
  nonempty : front ≠ []
  sound : taken.buffer.Sound
  pending : taken.buffer.pending = back.map (SegmentRecord.read buffer.bytes)
  count : taken.count = front.length
  first : taken.first = buffer.segmentOffset
  size : taken.size = (wireOf (front.map (SegmentRecord.read buffer.bytes))).length
  into : taken.into = request.into ++ wireOf (front.map (SegmentRecord.read buffer.bytes))
  limit : taken.count = 1 ∨ taken.size ≤ request.maxBytes
  depth : taken.buffer.observerDepth = if request.observed then buffer.observerDepth + 1 else buffer.observerDepth
  kept : taken.buffer.observerDepth ≠ 0 → taken.buffer.segments = buffer.segments
  shrinks : taken.buffer.bytes.length ≤ buffer.bytes.length

variable {request : TakeRequest} {taken : Taken}

/-- The segments of the batch. -/
theorem Cuts.taken_segments (h : Cuts buffer request taken front back) :
    buffer.pending.take taken.count = front.map (SegmentRecord.read buffer.bytes) := by
  rw [Http2OutputBuffer.pending, h.records, h.count, List.map_append, List.take_left' (List.length_map _)]

section

variable (h : buffer.Sound)
include h

theorem Sound.pending_eq_nil_iff : buffer.pending = [] ↔ buffer.consumed = buffer.bytes.length := by
  rw [pending, List.map_eq_nil_iff]
  constructor
  · intro hnil
    have htiles := h.tiles
    rw [hnil] at htiles
    exact htiles
  · intro hdrained
    have htiles := h.tiles
    rw [← hdrained] at htiles
    exact htiles.eq_nil

theorem Sound.wants_write : buffer.wantsWrite = true ↔ buffer.pending ≠ [] := by
  have hle := h.tiles.le
  rw [wantsWrite, decide_eq_true_iff, ne_eq, h.pending_eq_nil_iff]
  omega

theorem Sound.take_empty : buffer.takeBatch request = .empty ↔ buffer.pending = [] := by
  rw [h.pending_eq_nil_iff]
  by_cases hdrained : buffer.consumed = buffer.bytes.length
  · exact iff_of_true (if_pos hdrained) hdrained
  · refine iff_of_false (fun hempty => ?_) hdrained
    rw [takeBatch, if_neg hdrained] at hempty
    dsimp only at hempty
    split_ifs at hempty

/-- **Taking a batch** cuts whole segments off the front of the queue. -/
theorem Sound.take_taken (htaken : buffer.takeBatch request = .taken taken) :
    ∃ front back, Cuts buffer request taken front back := by
  have hdrained : buffer.consumed ≠ buffer.bytes.length := by
    intro hdrained
    rw [takeBatch, if_pos hdrained] at htaken
    cases htaken
  have hsome : buffer.pendingRecords ≠ [] := by
    intro hnil
    exact hdrained (h.pending_eq_nil_iff.mp (by rw [pending, hnil]; rfl))
  obtain ⟨front, back, hrecords, hcount, hfront, hback, hnonempty, hbound⟩ :=
    @cutBatch_spec _ request.maxBytes buffer.consumed _ 0 _ h.tiles (Nat.le_refl _) (.inl rfl)
  have hne := hnonempty rfl hsome
  rw [takeBatch, if_neg hdrained, ← pendingRecords] at htaken
  generalize cutBatch request.maxBytes buffer.consumed buffer.consumed 0 buffer.pendingRecords = cut at *
  obtain ⟨stop, count⟩ := cut
  dsimp only at *
  rw [Nat.zero_add] at hcount hbound
  have hwire : wireOf (front.map (SegmentRecord.read buffer.bytes)) =
      sub buffer.bytes buffer.consumed (stop - buffer.consumed) := hfront.wireOf_read
  have hsize : stop - buffer.consumed = (wireOf (front.map (SegmentRecord.read buffer.bytes))).length := by
    have hle' := hback.le
    rw [hwire, length_sub]
    omega
  have hlimit : count = 1 ∨ stop - buffer.consumed ≤ request.maxBytes := by
    have hpos := List.length_pos_iff.mpr hne
    exact hbound.imp (by omega) id
  generalize hobserving : (if request.observed then buffer.observerDepth + 1 else buffer.observerDepth) = depth at *
  split_ifs at htaken with hswap
  · obtain ⟨hzero, hstop, hinto, -⟩ := hswap
    obtain rfl := TakeResult.taken.inj htaken
    obtain ⟨hsound, hpending⟩ :=
      @resetAfterDrain_sound { buffer with bytes := request.into, observerDepth := depth }
    refine ⟨front, back, hrecords, hne, hsound, ?_, hcount, rfl, hsize, ?_, hlimit, ?_, fun hobserved => ?_,
      length_resetAfterDrain.trans_le (Nat.zero_le _)⟩
    · rw [hstop] at hback
      rw [hback.eq_nil]
      exact hpending
    · rw [hinto, List.nil_append, hwire, hzero, Nat.sub_zero, hstop, sub, List.drop_zero, List.take_length]
    · rw [observerDepth_resetAfterDrain, hobserving]
    · rw [observerDepth_resetAfterDrain] at hobserved
      exact segments_resetAfterDrain hobserved
  · obtain rfl := TakeResult.taken.inj htaken
    have hobs : Sound { buffer with observerDepth := depth } := ⟨h.offset, h.tiles⟩
    obtain ⟨hsound, hpending⟩ := hobs.consumeBatch hrecords hfront hback
    rw [hcount]
    refine ⟨front, back, hrecords, hne, hsound, hpending, rfl, rfl, hsize, by rw [hwire], by rwa [← hcount], ?_,
      fun hobserved => ?_, length_consumeBatch_le _ _⟩
    · rw [observerDepth_consumeBatch, hobserving]
    · rw [observerDepth_consumeBatch] at hobserved
      exact segments_consumeBatch hobserved _ _

/-- **The end of an observer** leaves the queue as it is. -/
theorem Sound.endObserver :
    buffer.endObserver.Sound ∧ buffer.endObserver.pending = buffer.pending ∧
      buffer.endObserver.observerDepth = buffer.observerDepth - 1 ∧
      (buffer.endObserver.observerDepth ≠ 0 → buffer.endObserver.segments = buffer.segments) ∧
      buffer.endObserver.bytes.length ≤ buffer.bytes.length := by
  have hnext : Sound { buffer with observerDepth := buffer.observerDepth - 1 } := ⟨h.offset, h.tiles⟩
  rw [Http2OutputBuffer.endObserver]
  split_ifs with hzero hdrained
  · have hnil : buffer.pendingRecords = [] := List.drop_eq_nil_of_le hdrained.ge
    refine ⟨⟨Nat.le_refl 0, ?_⟩, ?_, rfl, fun hne => absurd hzero hne, Nat.le_refl _⟩
    · have htiles := h.tiles
      rw [hnil] at htiles
      exact htiles
    · rw [pending, pending, hnil]
      rfl
  · obtain ⟨hsound, hpending⟩ := hnext.compact
    refine ⟨hsound, hpending, observerDepth_compactConsumedPrefix, fun hne => ?_, length_compactConsumedPrefix_le⟩
    rw [observerDepth_compactConsumedPrefix] at hne
    exact absurd hzero hne
  · exact ⟨hnext, rfl, rfl, fun _ => rfl, Nat.le_refl _⟩

end

/-! ## The count of pending bytes -/

/-- What a DATA segment counts for. -/
def OutputSegment.payload (segment : OutputSegment) : Nat := payloadSize segment.bytes.length

/-- The DATA segments of a stream. -/
def dataOf (streamId : Nat) (segments : List OutputSegment) : List OutputSegment :=
  segments.filter fun segment => segment.isData && decide (segment.streamId = streamId)

theorem dataOf_cons_of_data {segment : OutputSegment} {segments : List OutputSegment} (hdata : segment.isData = true)
    (hstream : segment.streamId = streamId) :
    dataOf streamId (segment :: segments) = segment :: dataOf streamId segments :=
  List.filter_cons_of_pos (by rw [hdata, decide_eq_true hstream]; rfl)

theorem dataOf_cons_of_not {segment : OutputSegment} {segments : List OutputSegment}
    (h : ¬(segment.isData = true ∧ segment.streamId = streamId)) :
    dataOf streamId (segment :: segments) = dataOf streamId segments :=
  List.filter_cons_of_neg (by simpa using h)

theorem length_read {bytes : Bytes} {record : SegmentRecord} (hstart : record.start ≤ record.stop)
    (hstop : record.stop ≤ bytes.length) : (record.read bytes).bytes.length = record.stop - record.start := by
  rw [SegmentRecord.read, length_sub]
  omega

theorem foldl_pending {bytes : Bytes} {start stop total : Nat} (h : Tiles start records stop)
    (hstop : stop ≤ bytes.length) (htotal : total < 2 ^ 64) :
    records.foldl (fun total segment =>
        if segment.isData ∧ segment.streamId = streamId then
          (total + payloadSize (segment.stop - segment.start)) % 2 ^ 64
        else total) total =
      (total + ((dataOf streamId (records.map (SegmentRecord.read bytes))).map OutputSegment.payload).sum) %
        2 ^ 64 := by
  induction records generalizing start total with
  | nil => exact (Nat.mod_eq_of_lt htotal).symm
  | cons record records ih =>
    obtain ⟨rfl, hlt, hrest⟩ := h
    have hlength := length_read hlt.le (hrest.le.trans hstop)
    rw [List.foldl_cons, List.map_cons]
    by_cases hdata : record.isData ∧ record.streamId = streamId
    · rw [if_pos hdata, ih hrest (Nat.mod_lt _ (by decide)),
        @dataOf_cons_of_data _ (record.read bytes) _ hdata.1 hdata.2, List.map_cons, List.sum_cons,
        OutputSegment.payload, hlength]
      omega
    · rw [if_neg hdata, ih hrest htotal, @dataOf_cons_of_not _ (record.read bytes) _ hdata]

/-- **The count of pending bytes** is the sum over the DATA segments of the stream in the queue. -/
theorem Sound.pendingDataBytes_eq (h : buffer.Sound) (streamId : Nat) :
    buffer.pendingDataBytes streamId =
      ((dataOf streamId buffer.pending).map OutputSegment.payload).sum % 2 ^ 64 := by
  have hfold := @foldl_pending _ streamId _ _ _ 0 h.tiles (Nat.le_refl _) (by decide)
  rw [Nat.zero_add] at hfold
  exact hfold

theorem payloadSize_of_frame {length : Nat} (hframe : frameHeaderBytes ≤ length) (hlt : length < 2 ^ 64) :
    payloadSize length = length - frameHeaderBytes := by
  rw [payloadSize]
  rw [frameHeaderBytes] at *
  omega

theorem length_wireOf_cons (segment : OutputSegment) (segments : List OutputSegment) :
    (wireOf (segment :: segments)).length = segment.bytes.length + (wireOf segments).length := by
  rw [wireOf, List.flatMap_cons, List.length_append, ← wireOf]

/-- Complete frames in a store of bounded size: the sum of their payloads does not wrap. -/
theorem sum_payload_of_frames {segments : List OutputSegment} (hlt : (wireOf segments).length < 2 ^ 64)
    (hframes : ∀ segment ∈ segments, segment.isData = true → frameHeaderBytes ≤ segment.bytes.length) :
    ((dataOf streamId segments).map OutputSegment.payload).sum =
        ((dataOf streamId segments).map fun segment => segment.bytes.length - frameHeaderBytes).sum ∧
      ((dataOf streamId segments).map OutputSegment.payload).sum ≤ (wireOf segments).length := by
  induction segments with
  | nil => simp [dataOf]
  | cons segment segments ih =>
    rw [length_wireOf_cons] at hlt ⊢
    obtain ⟨heq, hle⟩ := ih (by omega) fun other hmem => hframes other (List.mem_cons_of_mem _ hmem)
    by_cases hdata : segment.isData = true ∧ segment.streamId = streamId
    · have hpayload : segment.payload = segment.bytes.length - frameHeaderBytes :=
        payloadSize_of_frame (hframes segment List.mem_cons_self hdata.1) (by omega)
      rw [dataOf_cons_of_data hdata.1 hdata.2]
      simp only [List.map_cons, List.sum_cons]
      omega
    · rw [dataOf_cons_of_not hdata]
      omega

/-- **The exact count**, when every DATA segment is a complete frame. -/
theorem Sound.pendingDataBytes_of_frames (h : buffer.Sound) (hlt : buffer.bytes.length < 2 ^ 64)
    (hframes : ∀ segment ∈ buffer.pending, segment.isData = true → frameHeaderBytes ≤ segment.bytes.length) :
    buffer.pendingDataBytes streamId =
      ((dataOf streamId buffer.pending).map fun segment => segment.bytes.length - frameHeaderBytes).sum := by
  have hwire : (wireOf buffer.pending).length ≤ buffer.bytes.length := by
    have hle := h.tiles.le
    rw [pending, h.tiles.wireOf_read, length_sub]
    omega
  obtain ⟨heq, hle⟩ := @sum_payload_of_frames streamId _ (hwire.trans_lt hlt) hframes
  rw [h.pendingDataBytes_eq, Nat.mod_eq_of_lt (hle.trans_lt (hwire.trans_lt hlt)), heq]

end

end Ruvia.Http.Http2OutputBuffer
