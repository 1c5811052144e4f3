import Ruvia.Http.MultipartGrammar
import Ruvia.Http.MultipartRangeSizes

/-!
# `Http.MultipartRangeBody` — the body that a plan describes

The segments of a plan, taken from the metadata and from the representation, are the multipart/byteranges form of the
ranges in their order (`make_http_multipart_byte_range_plan`). The loop that writes keeps `Laid`: the segments written
so far are the text so far, they alternate, and the last one ends where the metadata ends.
-/

namespace Ruvia.Http

open Library

/-- The bytes of a segment. -/
def Segment.bytes (metadata representation : Bytes) : Segment → Bytes
  | .metadata offset length => sub metadata offset length
  | .file offset length => sub representation offset length

/-- The body: the segments one behind the other. -/
def wire (metadata representation : Bytes) (segments : List Segment) : Bytes :=
  segments.flatMap (Segment.bytes metadata representation)

/-- The bytes of a range. -/
def HttpByteRange.slice (representation : Bytes) (range : HttpByteRange) : Bytes :=
  sub representation range.offset range.length

/-- A part of the body: boundary, header fields, the bytes of the range. -/
def rangePart (boundary mediaType representation : Bytes) (range : HttpByteRange) : Bytes :=
  partHeader boundary mediaType representation.length range.offset (range.offset + range.length - 1) ++
    (range.slice representation ++ lit "\r\n")

/-- **The multipart/byteranges form** of some ranges of a representation. -/
def multipartByteRanges (boundary mediaType representation : Bytes) (ranges : List HttpByteRange) : Bytes :=
  ranges.flatMap (rangePart boundary mediaType representation) ++ closing boundary

/-- The segment lies inside what it is taken from. -/
def Segment.Inside (metadataLength representationLength : Nat) : Segment → Prop
  | .metadata offset length => offset + length ≤ metadataLength
  | .file offset length => offset + length ≤ representationLength

/-- Neighbours are taken from different texts. -/
def Alternate (segments : List Segment) : Prop :=
  segments.IsChain fun a b => a.isMetadata ≠ b.isMetadata

/-- The segments written so far are the text so far. -/
structure Laid (representation : Bytes) (storage : PlanStorage) (text : Bytes) (count : Nat) : Prop where
  wire : wire storage.metadata representation storage.segments = text
  inside : ∀ segment ∈ storage.segments, segment.Inside storage.metadata.length representation.length
  alternate : Alternate storage.segments
  reach : ∀ offset length, storage.segments.getLast? = some (.metadata offset length) →
    offset + length = storage.metadata.length
  count : storage.segments.length = count

/-- The last segment is metadata. -/
def EndsOpen (storage : PlanStorage) : Prop :=
  ∃ offset length, storage.segments.getLast? = some (.metadata offset length)

section

variable {representation text written metadata : Bytes} {storage : PlanStorage} {count offset length : Nat}
  {segments : List Segment} {segment : Segment}

theorem Segment.length_bytes (h : segment.Inside metadata.length representation.length) :
    (segment.bytes metadata representation).length = segment.length := by
  cases segment with
  | metadata offset length =>
    have hle : offset + length ≤ metadata.length := h
    rw [Segment.bytes, length_sub, Segment.length]
    omega
  | file offset length =>
    have hle : offset + length ≤ representation.length := h
    rw [Segment.bytes, length_sub, Segment.length]
    omega

/-- What is written behind the metadata does not change the segments written before. -/
theorem wire_append (h : ∀ segment ∈ segments, segment.Inside metadata.length representation.length) :
    wire (metadata ++ written) representation segments = wire metadata representation segments := by
  refine List.flatMap_congr fun segment hmem => ?_
  cases segment with
  | metadata offset length => exact sub_append_of_full (h _ hmem)
  | file offset length => rfl

theorem Segment.Inside.append (h : segment.Inside metadata.length representation.length) :
    segment.Inside (metadata ++ written).length representation.length := by
  cases segment with
  | metadata offset length =>
    have hle : offset + length ≤ metadata.length := h
    show offset + length ≤ (metadata ++ written).length
    rw [List.length_append]
    omega
  | file offset length => exact h

theorem Laid.nil (representation : Bytes) : Laid representation {} [] 0 :=
  ⟨rfl, fun _ h => absurd h List.not_mem_nil, List.isChain_nil, fun _ _ h => absurd h (Option.some_ne_none _).symm, rfl⟩

/-- One more segment behind those of a state. -/
theorem laid_append {front : List Segment} {last : Segment} {before behind : Bytes}
    (hwire : wire metadata representation front = before)
    (hinside : ∀ segment ∈ front, segment.Inside metadata.length representation.length) (halternate : Alternate front)
    (hlast : ∀ segment ∈ front.getLast?, segment.isMetadata ≠ last.isMetadata)
    (hlastInside : last.Inside metadata.length representation.length)
    (hbytes : last.bytes metadata representation = behind)
    (hreach : ∀ offset length, last = .metadata offset length → offset + length = metadata.length) :
    Laid representation ⟨metadata, front ++ [last]⟩ (before ++ behind) (front.length + 1) where
  wire := by
    rw [← hwire, ← hbytes, Http.wire, List.flatMap_append, List.flatMap_singleton]
    rfl
  inside := List.forall_mem_append.mpr ⟨hinside, List.forall_mem_singleton.mpr hlastInside⟩
  alternate := by
    refine List.isChain_append.mpr ⟨halternate, List.isChain_singleton _, fun a ha b hb => ?_⟩
    rw [← Option.some.inj hb]
    exact hlast a ha
  reach offset length h := by
    rw [List.getLast?_concat] at h
    exact hreach offset length (Option.some.inj h)
  count := by rw [List.length_append, List.length_singleton]

/-- The text from a place on, with what is written behind it. -/
theorem sub_to_end (h : offset + length = metadata.length) (written : Bytes) :
    sub (metadata ++ written) offset ((metadata ++ written).length - offset) =
      sub metadata offset length ++ written := by
  have hle : offset ≤ metadata.length := by
    omega
  have hlength : (metadata.drop offset).length = length := by
    rw [List.length_drop]
    omega
  rw [sub, sub, List.drop_append_of_le_length hle, List.take_of_length_le, ← hlength, List.take_length]
  rw [List.length_append, List.length_append, List.length_drop]
  omega

/-- **Metadata behind metadata** extends the last segment. -/
theorem Laid.extend (h : Laid representation storage text count) (hopen : EndsOpen storage) (written : Bytes) :
    ∃ storage', (storage.append written).recordMetadata storage.metadata.length = .ok storage' ∧
      Laid representation storage' (text ++ written) count ∧ EndsOpen storage' ∧
      storage'.metadata = storage.metadata ++ written := by
  obtain ⟨metadata, segments⟩ := storage
  obtain ⟨offset, length, hlast⟩ := hopen
  have hreach := h.reach offset length hlast
  obtain ⟨front, rfl⟩ := List.getLast?_eq_some_iff.mp hlast
  simp only at hreach
  have hinside := (List.forall_mem_append.mp h.inside).1
  obtain ⟨hfront, -, hneighbours⟩ := List.isChain_append.mp h.alternate
  refine ⟨⟨metadata ++ written, front ++ [.metadata offset ((metadata ++ written).length - offset)]⟩, ?_, ?_,
    ⟨offset, _, List.getLast?_concat⟩, rfl⟩
  · simp only [PlanStorage.recordMetadata, PlanStorage.append, List.getLast?_concat, if_pos hreach,
      List.dropLast_concat]
  · have hwire := h.wire
    rw [Http.wire, List.flatMap_append, List.flatMap_singleton] at hwire
    have hcount : front.length + 1 = count := by
      rw [← h.count, List.length_append, List.length_singleton]
    rw [← hwire, List.append_assoc, ← hcount]
    refine laid_append (wire_append hinside) (fun segment hmem => (hinside segment hmem).append) hfront
      (fun segment hmem => hneighbours segment hmem (.metadata offset length) rfl) ?_ (sub_to_end hreach written) ?_
    · show offset + ((metadata ++ written).length - offset) ≤ (metadata ++ written).length
      rw [List.length_append]
      omega
    · intro offset' length' heq
      obtain ⟨rfl, rfl⟩ := Segment.metadata.inj heq
      rw [List.length_append]
      omega

/-- **Metadata behind bytes of the file**, or at the front, makes a segment. -/
theorem Laid.start (h : Laid representation storage text count) (hclosed : ¬EndsOpen storage)
    (hroom : count < maxSegments) (written : Bytes) :
    ∃ storage', (storage.append written).recordMetadata storage.metadata.length = .ok storage' ∧
      Laid representation storage' (text ++ written) (count + 1) ∧ EndsOpen storage' ∧
      storage'.metadata = storage.metadata ++ written := by
  obtain ⟨metadata, segments⟩ := storage
  have hcount : segments.length = count := h.count
  have hclosed : ∀ segment ∈ segments.getLast?, segment.isMetadata = false := by
    intro segment hlast
    cases segment with
    | metadata offset length => exact absurd ⟨offset, length, hlast⟩ hclosed
    | file offset length => rfl
  have hrecord : (PlanStorage.append ⟨metadata, segments⟩ written).recordMetadata metadata.length =
      .ok ⟨metadata ++ written,
        segments ++ [.metadata metadata.length ((metadata ++ written).length - metadata.length)]⟩ := by
    rw [PlanStorage.recordMetadata]
    split
    · rename_i hlast
      exact absurd (hclosed _ hlast) (by simp [Segment.isMetadata])
    · exact if_pos (hcount.trans_lt hroom)
  refine ⟨_, hrecord, ?_, ⟨_, _, List.getLast?_concat⟩, rfl⟩
  rw [← hcount]
  refine laid_append ((wire_append h.inside).trans h.wire) (fun segment hmem => (h.inside segment hmem).append)
    h.alternate (fun segment hmem => ?_) ?_ ?_ ?_
  · rw [hclosed segment hmem]
    exact Bool.false_ne_true
  · show metadata.length + _ ≤ (metadata ++ written).length
    rw [List.length_append]
    omega
  · rw [Segment.bytes, sub_to_end (Nat.add_zero _) written, sub, List.take_zero, List.nil_append]
  · intro offset' length' heq
    obtain ⟨rfl, rfl⟩ := Segment.metadata.inj heq
    rw [List.length_append]
    omega

/-- **Bytes of the file** behind metadata. -/
theorem Laid.file (h : Laid representation storage text count) (hopen : EndsOpen storage)
    (hroom : count < maxSegments) (hfits : offset + length ≤ representation.length) :
    ∃ storage', storage.pushSegment (.file offset length) = .ok storage' ∧
      Laid representation storage' (text ++ sub representation offset length) (count + 1) ∧ ¬EndsOpen storage' ∧
      storage'.metadata = storage.metadata := by
  obtain ⟨metadata, segments⟩ := storage
  obtain ⟨lastOffset, lastLength, hlast⟩ := hopen
  have hcount : segments.length = count := h.count
  refine ⟨_, if_pos (hcount.trans_lt hroom), ?_, ?_, rfl⟩
  · rw [← hcount]
    refine laid_append h.wire h.inside h.alternate (fun segment hmem => ?_) hfits rfl ?_
    · rw [Option.some.inj ((Option.mem_def.mp hmem).symm.trans hlast)]
      exact Bool.false_ne_true.symm
    · intro _ _ heq
      cases heq
  · rintro ⟨offset', length', hmetadata⟩
    rw [List.getLast?_concat] at hmetadata
    cases hmetadata

/-! ## The loop -/

variable {boundary mediaType : Bytes} {range : HttpByteRange} {ranges : List HttpByteRange}

/-- How many segments there are behind some parts. -/
def segmentCount : Nat → Nat
  | 0 => 0
  | parts + 1 => 2 * (parts + 1) + 1

/-- Behind some parts: all that is written ends with metadata, unless nothing is. -/
structure PartsWritten (boundary mediaType representation : Bytes) (storage : PlanStorage) (done : List HttpByteRange) :
    Prop where
  laid : Laid representation storage (done.flatMap (rangePart boundary mediaType representation))
    (segmentCount done.length)
  open_iff : EndsOpen storage ↔ done ≠ []
  metadata : storage.metadata = partsMetadata boundary mediaType representation.length done

theorem PartsWritten.nil : PartsWritten boundary mediaType representation {} [] :=
  ⟨Laid.nil representation, ⟨fun ⟨_, _, h⟩ => absurd h (Option.some_ne_none _).symm, fun h => absurd rfl h⟩, rfl⟩

/-- Text written behind some parts goes into the open segment or makes the first one. -/
theorem PartsWritten.record {done : List HttpByteRange}
    (h : PartsWritten boundary mediaType representation storage done) (written : Bytes) :
    ∃ storage', (storage.append written).recordMetadata storage.metadata.length = .ok storage' ∧
      Laid representation storage' (done.flatMap (rangePart boundary mediaType representation) ++ written)
        (2 * done.length + 1) ∧ EndsOpen storage' ∧ storage'.metadata = storage.metadata ++ written := by
  cases done with
  | nil => exact h.laid.start (fun hopen => h.open_iff.mp hopen rfl) (by decide) written
  | cons first others => exact h.laid.extend (h.open_iff.mpr (List.cons_ne_nil _ _)) written

/-- **One round** of the loop that writes. -/
theorem PartsWritten.step {done : List HttpByteRange} (hlength : representation.length < 2 ^ 64)
    (h : PartsWritten boundary mediaType representation storage done) (hfits : range.Fits representation.length)
    (hroom : done.length < HttpByteRangeSet.capacity) :
    ∃ storage', writePart boundary mediaType representation.length storage range = .ok storage' ∧
      PartsWritten boundary mediaType representation storage' (done ++ [range]) := by
  rw [HttpByteRangeSet.capacity] at hroom
  obtain ⟨headed, hheaded, hlaid, hopen, hmetadata⟩ := h.record
    (partHeader boundary mediaType representation.length range.offset (range.offset + range.length - 1))
  obtain ⟨filed, hfiled, hlaid, hclosed, hsame⟩ := hlaid.file hopen
    (by rw [maxSegments, HttpByteRangeSet.capacity]; omega) hfits.2
  obtain ⟨storage', hstorage, hlaid, hopen, hmetadata'⟩ := hlaid.start hclosed
    (by rw [maxSegments, HttpByteRangeSet.capacity]; omega) (lit "\r\n")
  refine ⟨storage', ?_, ?_, ?_, ?_⟩
  · simp only [writePart, lastPosition_eq hlength hfits, orFault, bind, Except.bind, hheaded, hfiled, hstorage]
  · rw [List.length_append, List.length_singleton, segmentCount, List.flatMap_append, List.flatMap_singleton, rangePart]
    rw [List.append_assoc, List.append_assoc] at hlaid
    exact hlaid
  · exact ⟨fun _ => by simp, fun _ => hopen⟩
  · rw [hmetadata', hsame, hmetadata, h.metadata, partsMetadata, partsMetadata, List.flatMap_append,
      List.flatMap_singleton, partMetadata, List.append_assoc]

theorem PartsWritten.foldlM {done : List HttpByteRange} (hlength : representation.length < 2 ^ 64)
    (h : PartsWritten boundary mediaType representation storage done)
    (hfits : ∀ range ∈ ranges, range.Fits representation.length)
    (hroom : done.length + ranges.length ≤ HttpByteRangeSet.capacity) :
    ∃ storage', ranges.foldlM (writePart boundary mediaType representation.length) storage = .ok storage' ∧
      PartsWritten boundary mediaType representation storage' (done ++ ranges) := by
  induction ranges generalizing storage done with
  | nil => exact ⟨storage, rfl, by rwa [List.append_nil]⟩
  | cons range ranges ih =>
    obtain ⟨hfit, hfits⟩ := List.forall_mem_cons.mp hfits
    rw [List.length_cons] at hroom
    obtain ⟨next, hstep, hnext⟩ := h.step hlength hfit (by omega)
    obtain ⟨storage', hrest, hdone⟩ := ih hnext hfits (by rw [List.length_append, List.length_singleton]; omega)
    refine ⟨storage', by rw [List.foldlM_cons, hstep]; exact hrest, ?_⟩
    rwa [List.append_assoc, List.singleton_append] at hdone

/-- **What is written** for ranges inside the representation. -/
theorem writeParts_eq (boundary mediaType : Bytes) (hlength : representation.length < 2 ^ 64)
    (hfits : ∀ range ∈ ranges, range.Fits representation.length) (hroom : ranges.length ≤ HttpByteRangeSet.capacity) :
    ∃ storage, writeParts boundary mediaType representation.length ranges = .ok storage ∧
      Laid representation storage (multipartByteRanges boundary mediaType representation ranges)
        (2 * ranges.length + 1) ∧
      storage.metadata = partsMetadata boundary mediaType representation.length ranges ++ closing boundary := by
  have hnil : PartsWritten boundary mediaType representation {} [] := PartsWritten.nil
  obtain ⟨parts, hparts, hdone⟩ := hnil.foldlM hlength hfits (by simpa using hroom)
  rw [List.nil_append] at hdone
  obtain ⟨storage, hstorage, hlaid, -, hmetadata⟩ := hdone.record (closing boundary)
  refine ⟨storage, ?_, hlaid, by rw [hmetadata, hdone.metadata]⟩
  rw [writeParts, hparts]
  exact hstorage

end

end Ruvia.Http
