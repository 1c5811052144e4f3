import Ruvia.Http.MultipartRangePlan
import Mathlib.Algebra.GroupWithZero.Nat

/-!
# `Http.MultipartRangeSizes` — the lengths counted for the plan

The loop that counts the lengths counts the text that the loop that writes will write: for ranges inside the
representation it ends with the length of the body, or refuses it where that length does not fit into 64 bits, and no
arithmetic wraps.
-/

namespace Ruvia.Http

open Library

/-- The range is not empty and lies inside a representation. -/
def HttpByteRange.Fits (representationLength : Nat) (range : HttpByteRange) : Prop :=
  0 < range.length ∧ range.offset + range.length ≤ representationLength

/-- The metadata of a part: its header and the line break behind its bytes. -/
def partMetadata (boundary mediaType : Bytes) (representationLength : Nat) (range : HttpByteRange) : Bytes :=
  partHeader boundary mediaType representationLength range.offset (range.offset + range.length - 1) ++ lit "\r\n"

section

variable {boundary mediaType : Bytes} {representationLength a n : Nat} {range : HttpByteRange}
  {ranges : List HttpByteRange} {sizes : PlanSizes} {terms : List Nat}

/-- **The digits counted** are those written. -/
theorem httpUnsignedDecimalSize_eq (n : Nat) : httpUnsignedDecimalSize n = (decimal n).length := by
  fun_induction httpUnsignedDecimalSize n with
  | case1 n h ih => rw [ih, decimal_of_le h, List.length_append, List.length_singleton]
  | case2 n h => rw [decimal_of_lt (Nat.lt_of_not_le h), List.length_singleton]

theorem length_decimal_le_twenty (h : n < 2 ^ 64) : (decimal n).length ≤ 20 :=
  length_decimal_le (by decide) (h.trans (by decide))

theorem foldlM_checkedAdd (h : a + terms.sum < 2 ^ 64) : terms.foldlM checkedAdd a = some (a + terms.sum) := by
  induction terms generalizing a with
  | nil => rfl
  | cons term terms ih =>
    rw [List.sum_cons] at h ⊢
    rw [List.foldlM_cons, checkedAdd_of_lt (by omega), Option.bind_eq_bind, Option.bind_some, ih (by omega),
      Nat.add_assoc]

theorem lastPosition_eq (hlength : representationLength < 2 ^ 64) (h : range.Fits representationLength) :
    lastPosition range = some (range.offset + range.length - 1) := by
  obtain ⟨hpos, hle⟩ := h
  rw [lastPosition, checkedAdd_of_lt (by omega), Option.bind_eq_bind, Option.bind_some, checkedSub_of_le (by omega)]

theorem length_partMetadata : (partMetadata boundary mediaType representationLength range).length =
    2 + boundary.length + 16 + mediaType.length + 23 + (decimal range.offset).length + 1 +
      (decimal (range.offset + range.length - 1)).length + 1 + (decimal representationLength).length + 6 := by
  have hdashes : (lit "--").length = 2 := rfl
  have htype : (lit "\r\nContent-Type: ").length = 16 := rfl
  have hrange : (lit "\r\nContent-Range: bytes ").length = 23 := rfl
  have hend : (lit "\r\n\r\n").length = 4 := rfl
  have hbreak : (lit "\r\n").length = 2 := rfl
  simp only [partMetadata, partHeader, List.length_append, List.length_singleton, hdashes, htype, hrange, hend, hbreak]

theorem partMetadataSize_eq (hboundary : boundary.length ≤ maxBoundarySize) (hmedia : mediaType.length < 2 ^ 63)
    (hlength : representationLength < 2 ^ 64) (h : range.Fits representationLength) :
    partMetadataSize boundary.length mediaType.length representationLength range =
      some (partMetadata boundary mediaType representationLength range).length := by
  obtain ⟨hpos, hle⟩ := h
  have hoffset := length_decimal_le_twenty (n := range.offset) (by omega)
  have hlast := length_decimal_le_twenty (n := range.offset + range.length - 1) (by omega)
  have hwhole := length_decimal_le_twenty hlength
  rw [maxBoundarySize] at hboundary
  rw [partMetadataSize, lastPosition_eq hlength ⟨hpos, hle⟩, Option.bind_eq_bind, Option.bind_some]
  simp only [httpUnsignedDecimalSize_eq]
  rw [foldlM_checkedAdd, length_partMetadata]
  · simp only [List.sum_cons, List.sum_nil]
    congr 1
    omega
  · simp only [List.sum_cons, List.sum_nil]
    omega

/-- The bytes that a part adds to the body. -/
def partLength (boundary mediaType : Bytes) (representationLength : Nat) (range : HttpByteRange) : Nat :=
  (partMetadata boundary mediaType representationLength range).length + range.length

/-- **One round** of the loop that counts. -/
theorem addPartSize_cases (range : HttpByteRange) (hboundary : boundary.length ≤ maxBoundarySize)
    (hmedia : mediaType.length < 2 ^ 63) (hlength : representationLength < 2 ^ 64)
    (hsizes : sizes.metadataSize ≤ sizes.totalContentLength) (htotal : sizes.totalContentLength < 2 ^ 64) :
    (range.Fits representationLength ∧
      sizes.totalContentLength + partLength boundary mediaType representationLength range < 2 ^ 64 ∧
      addPartSize boundary.length mediaType.length representationLength sizes range =
        .ok ⟨sizes.metadataSize + (partMetadata boundary mediaType representationLength range).length,
          sizes.totalContentLength + partLength boundary mediaType representationLength range⟩) ∨
    (2 ^ 64 ≤ sizes.totalContentLength + partLength boundary mediaType representationLength range ∧
      ∃ message, addPartSize boundary.length mediaType.length representationLength sizes range =
        .error (.lengthError message)) ∨
    (¬range.Fits representationLength ∧
      ∃ message, addPartSize boundary.length mediaType.length representationLength sizes range =
        .error (.invalidArgument message)) := by
  by_cases hfits : range.Fits representationLength
  · have hsize := partMetadataSize_eq hboundary hmedia hlength hfits
    obtain ⟨hpos, hle⟩ := hfits
    have hinside : ¬(range.length = 0 ∨ representationLength < range.offset ∨
        representationLength - range.offset < range.length) := by
      omega
    simp only [addPartSize, if_neg hinside, hsize, orFault, bind, Except.bind, partLength]
    generalize (partMetadata boundary mediaType representationLength range).length = part at *
    by_cases hmetadata : 2 ^ 64 - 1 - sizes.metadataSize < part
    · rw [if_pos hmetadata]
      exact .inr (.inl ⟨by omega, _, rfl⟩)
    · rw [if_neg hmetadata, checkedAdd_of_lt (by omega)]
      by_cases hover : 2 ^ 64 - 1 - part < sizes.totalContentLength ∨
          2 ^ 64 - 1 - range.length < sizes.totalContentLength + part
      · simp only [if_pos hover]
        exact .inr (.inl ⟨by omega, _, rfl⟩)
      · simp only [if_neg hover]
        rw [checkedAdd_of_lt (by omega)]
        simp only
        rw [checkedAdd_of_lt (by omega)]
        exact .inl ⟨⟨hpos, hle⟩, by omega, rfl⟩
  · have hout : range.length = 0 ∨ representationLength < range.offset ∨
        representationLength - range.offset < range.length := by
      rw [HttpByteRange.Fits] at hfits
      omega
    exact .inr (.inr ⟨hfits, _, if_pos hout⟩)

/-- The bytes that the parts add. -/
def partsLength (boundary mediaType : Bytes) (representationLength : Nat) (ranges : List HttpByteRange) : Nat :=
  (ranges.map (partLength boundary mediaType representationLength)).sum

/-- The metadata of the parts. -/
def partsMetadata (boundary mediaType : Bytes) (representationLength : Nat) (ranges : List HttpByteRange) : Bytes :=
  ranges.flatMap (partMetadata boundary mediaType representationLength)

theorem foldlM_addPartSize_cases (hboundary : boundary.length ≤ maxBoundarySize) (hmedia : mediaType.length < 2 ^ 63)
    (hlength : representationLength < 2 ^ 64) (hsizes : sizes.metadataSize ≤ sizes.totalContentLength)
    (htotal : sizes.totalContentLength < 2 ^ 64) :
    ((∀ range ∈ ranges, range.Fits representationLength) ∧
      sizes.totalContentLength + partsLength boundary mediaType representationLength ranges < 2 ^ 64 ∧
      ranges.foldlM (addPartSize boundary.length mediaType.length representationLength) sizes =
        .ok ⟨sizes.metadataSize + (partsMetadata boundary mediaType representationLength ranges).length,
          sizes.totalContentLength + partsLength boundary mediaType representationLength ranges⟩) ∨
    (2 ^ 64 ≤ sizes.totalContentLength + partsLength boundary mediaType representationLength ranges ∧
      ∃ message, ranges.foldlM (addPartSize boundary.length mediaType.length representationLength) sizes =
        .error (.lengthError message)) ∨
    ((∃ range ∈ ranges, ¬range.Fits representationLength) ∧
      ∃ message, ranges.foldlM (addPartSize boundary.length mediaType.length representationLength) sizes =
        .error (.invalidArgument message)) := by
  induction ranges generalizing sizes with
  | nil => exact .inl ⟨fun range h => absurd h List.not_mem_nil, by simpa [partsLength] using htotal, rfl⟩
  | cons range ranges ih =>
    have hsum : partsLength boundary mediaType representationLength (range :: ranges) =
        partLength boundary mediaType representationLength range +
          partsLength boundary mediaType representationLength ranges := by
      rw [partsLength, List.map_cons, List.sum_cons, partsLength]
    have hmeta : (partsMetadata boundary mediaType representationLength (range :: ranges)).length =
        (partMetadata boundary mediaType representationLength range).length +
          (partsMetadata boundary mediaType representationLength ranges).length := by
      rw [partsMetadata, List.flatMap_cons, List.length_append, partsMetadata]
    rw [hsum, hmeta, List.foldlM_cons]
    rcases addPartSize_cases range hboundary hmedia hlength hsizes htotal with
      ⟨hfits, hroom, hstep⟩ | ⟨hover, message, hstep⟩ | ⟨hout, message, hstep⟩
    · rw [hstep]
      have hle : sizes.metadataSize + (partMetadata boundary mediaType representationLength range).length ≤
          sizes.totalContentLength + partLength boundary mediaType representationLength range := by
        rw [partLength]
        omega
      rcases @ih ⟨_, _⟩ hle hroom with ⟨hfit, hsmall, hrest⟩ | ⟨hover, hrest⟩ | ⟨⟨bad, hbad, hout⟩, hrest⟩
      · refine .inl ⟨List.forall_mem_cons.mpr ⟨hfits, hfit⟩, by simp only at hsmall; omega, hrest.trans ?_⟩
        simp only [Nat.add_assoc]
      · exact .inr (.inl ⟨by simp only at hover; omega, hrest⟩)
      · exact .inr (.inr ⟨⟨bad, List.mem_cons_of_mem _ hbad, hout⟩, hrest⟩)
    · exact .inr (.inl ⟨by omega, message, by rw [hstep]; rfl⟩)
    · exact .inr (.inr ⟨⟨range, List.mem_cons_self, hout⟩, message, by rw [hstep]; rfl⟩)

/-- **The sizes of the body**, or the reason why there are none. -/
theorem planSizes_cases (ranges : List HttpByteRange) (hboundary : boundary.length ≤ maxBoundarySize)
    (hmedia : mediaType.length < 2 ^ 63) (hlength : representationLength < 2 ^ 64) :
    ((∀ range ∈ ranges, range.Fits representationLength) ∧
      2 + boundary.length + 4 + partsLength boundary mediaType representationLength ranges < 2 ^ 64 ∧
      planSizes boundary.length mediaType.length representationLength ranges =
        .ok ⟨2 + boundary.length + 4 + (partsMetadata boundary mediaType representationLength ranges).length,
          2 + boundary.length + 4 + partsLength boundary mediaType representationLength ranges⟩) ∨
    (2 ^ 64 ≤ 2 + boundary.length + 4 + partsLength boundary mediaType representationLength ranges ∧
      ∃ message, planSizes boundary.length mediaType.length representationLength ranges =
        .error (.lengthError message)) ∨
    ((∃ range ∈ ranges, ¬range.Fits representationLength) ∧
      ∃ message, planSizes boundary.length mediaType.length representationLength ranges =
        .error (.invalidArgument message)) := by
  have hsmall : 2 + boundary.length + 4 < 2 ^ 64 := by
    rw [maxBoundarySize] at hboundary
    omega
  exact @foldlM_addPartSize_cases boundary mediaType representationLength ranges
    ⟨2 + boundary.length + 4, 2 + boundary.length + 4⟩ hboundary hmedia hlength (Nat.le_refl _) hsmall

end

end Ruvia.Http
