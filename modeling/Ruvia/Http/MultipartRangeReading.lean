import Ruvia.Http.MultipartRangeBody
import Ruvia.Http.ByteRangeResolution

/-!
# `Http.MultipartRangeReading` — reading a multipart/byteranges response

A reader of the multipart grammar finds the ranges in the body, where their bytes do not hold the boundary
(`body_multipartByteRanges`), and the boundary in the Content-Type (`read_planContentType`).
-/

namespace Ruvia.Http

open Library Multipart

/-- The value of a Content-Range field. -/
def contentRange (offset last representationLength : Nat) : Bytes :=
  lit "bytes " ++ (decimal offset ++ hyphen :: (decimal last ++ slash :: decimal representationLength))

/-- A Content-Range value for these positions and this length. -/
def IsContentRange (value : Bytes) (first last complete : Nat) : Prop :=
  ∃ firstDigits lastDigits completeDigits, IsDigits firstDigits ∧ IsDigits lastDigits ∧ IsDigits completeDigits ∧
    value = lit "bytes " ++ (firstDigits ++ hyphen :: (lastDigits ++ slash :: completeDigits)) ∧
    decimalNumber firstDigits = first ∧ decimalNumber lastDigits = last ∧ decimalNumber completeDigits = complete

/-- The part that a reader finds for a range. -/
def rangeBodyPart (mediaType representation : Bytes) (range : HttpByteRange) : BodyPart where
  fields := [(lit "Content-Type", httpTrimOws mediaType),
    (lit "Content-Range", contentRange range.offset (range.offset + range.length - 1) representation.length)]
  content := range.slice representation

section

variable {boundary mediaType representation text : Bytes} {range : HttpByteRange} {ranges : List HttpByteRange}
  {first last complete n : Nat}

theorem isDigits_decimal (n : Nat) : IsDigits (decimal n) :=
  ⟨decimal_ne_nil n, fun _ hmem => isDecimalDigit_of_mem_decimal hmem⟩

theorem slash_not_mem (h : IsDigits text) : slash ∉ text := fun hmem => absurd (h.2 slash hmem) (by decide)

/-- **A Content-Range value** has one reading. -/
theorem isContentRange_contentRange_iff {offset end' length : Nat} :
    IsContentRange (contentRange offset end' length) first last complete ↔
      first = offset ∧ last = end' ∧ complete = length := by
  constructor
  · rintro ⟨firstDigits, lastDigits, completeDigits, hfirst, hlast, -, hvalue, rfl, rfl, rfl⟩
    obtain ⟨hoffset, hrest⟩ := append_cons_inj_of_first (hyphen_not_mem (isDigits_decimal offset).2)
      (hyphen_not_mem hfirst.2) (List.append_cancel_left hvalue)
    obtain ⟨hend, hlength⟩ := append_cons_inj_of_first (slash_not_mem (isDigits_decimal end')) (slash_not_mem hlast)
      hrest
    rw [← hoffset, ← hend, ← hlength]
    simp
  · rintro ⟨rfl, rfl, rfl⟩
    exact ⟨_, _, _, isDigits_decimal _, isDigits_decimal _, isDigits_decimal _, rfl, decimalNumber_decimal _,
      decimalNumber_decimal _, decimalNumber_decimal _⟩

theorem isHttpFieldValueChar_decimal (n : Nat) : ∀ byte ∈ decimal n, isHttpFieldValueChar byte = true := by
  intro byte hmem
  obtain ⟨hlow, hhigh⟩ := decimal_digits n byte hmem
  exact isHttpFieldValueChar_of_range (by omega) (by omega)

theorem isHttpFieldValueChar_contentRange (first last complete : Nat) :
    ∀ byte ∈ contentRange first last complete, isHttpFieldValueChar byte = true := by
  have hunit : ∀ byte ∈ lit "bytes ", isHttpFieldValueChar byte = true := List.all_eq_true.mp (by decide)
  exact List.forall_mem_append.mpr ⟨hunit, List.forall_mem_append.mpr ⟨isHttpFieldValueChar_decimal first,
    List.forall_mem_cons.mpr ⟨rfl, List.forall_mem_append.mpr ⟨isHttpFieldValueChar_decimal last,
      List.forall_mem_cons.mpr ⟨rfl, isHttpFieldValueChar_decimal complete⟩⟩⟩⟩⟩

/-- A blank in front of a value is trimmed away. -/
theorem httpTrimOws_sp_cons (text : Bytes) : httpTrimOws (sp :: text) = httpTrimOws text := rfl

variable {byte : UInt8}

/-- A text between two bytes that are no whitespace is trimmed already. -/
theorem httpTrimOws_append {front back : Bytes} (hhead : isHttpOwsChar byte = false) (hne : back ≠ [])
    (hback : ∀ byte ∈ back, isHttpOwsChar byte = false) :
    httpTrimOws (byte :: (front ++ back)) = byte :: (front ++ back) := by
  refine httpTrimOws_of_ends (by simpa using hhead) fun last hlast => hback last ?_
  rw [← List.cons_append, List.getLast?_append_of_ne_nil _ hne] at hlast
  exact List.mem_of_getLast? hlast

theorem httpTrimOws_contentRange (first last complete : Nat) :
    httpTrimOws (contentRange first last complete) = contentRange first last complete := by
  have hunit : lit "bytes " = 0x62 :: lit "ytes " := by decide
  have hdigits : ∀ byte ∈ decimal complete, isHttpOwsChar byte = false := by
    intro byte hmem
    rw [← Bool.not_eq_true]
    intro hows
    obtain ⟨hlow, -⟩ := decimal_digits complete byte hmem
    rcases Bool.or_eq_true_iff.mp hows with h | h
    all_goals
      rw [beq_iff_eq.mp h] at hlow
      exact absurd hlow (by decide)
  have hsplit : contentRange first last complete =
      0x62 :: ((lit "ytes " ++ (decimal first ++ hyphen :: (decimal last ++ [slash]))) ++ decimal complete) := by
    rw [contentRange, hunit]
    simp only [List.cons_append, List.append_assoc, List.nil_append]
  rw [hsplit]
  exact httpTrimOws_append (by decide) (decimal_ne_nil complete) hdigits

/-- The header fields and the bytes of a part, as a text. -/
def spelledPart (mediaType representation : Bytes) (range : HttpByteRange) : Bytes :=
  lit "Content-Type" ++ colon :: ((sp :: mediaType) ++ cr :: lf :: (lit "Content-Range" ++
    colon :: ((sp :: contentRange range.offset (range.offset + range.length - 1) representation.length) ++
      cr :: lf :: (cr :: lf :: range.slice representation))))

theorem spelled_rangeBodyPart (hmedia : ∀ byte ∈ mediaType, isHttpFieldValueChar byte = true) :
    (rangeBodyPart mediaType representation range).Spelled (spelledPart mediaType representation range) := by
  have htype : isValidHttpHeaderName (lit "Content-Type") = true := by decide
  have hrange : isValidHttpHeaderName (lit "Content-Range") = true := by decide
  rw [rangeBodyPart, ← httpTrimOws_sp_cons, ← httpTrimOws_contentRange, ← httpTrimOws_sp_cons (contentRange _ _ _)]
  refine .field htype (List.forall_mem_cons.mpr ⟨rfl, hmedia⟩) (.field hrange ?_ (.content _))
  exact List.forall_mem_cons.mpr ⟨rfl, isHttpFieldValueChar_contentRange _ _ _⟩

/-- A line that does not begin with hyphens keeps the delimiter away. -/
theorem delimiter_not_inside_line {line rest : Bytes} (hline : cr ∉ line)
    (hhead : ¬dashBoundary boundary <+: line ++ rest) (hrest : ¬delimiter boundary <:+: rest) :
    ¬delimiter boundary <:+: cr :: lf :: (line ++ rest) := by
  intro hinside
  rcases List.infix_cons_iff.mp hinside with hfits | hinside
  · exact hhead (List.cons_prefix_cons.mp (List.cons_prefix_cons.mp hfits).2).2
  · have hnot : cr ∉ lf :: line := by
      rw [List.mem_cons, not_or]
      exact ⟨by decide, hline⟩
    rw [← List.cons_append] at hinside
    exact hrest ((mark_infix_append_iff hnot).mp hinside)

theorem dashBoundary_not_front (byte : UInt8) {rest : Bytes} (h : byte ≠ dash) :
    ¬dashBoundary boundary <+: byte :: rest := fun hfits =>
  h (List.cons_prefix_cons.mp hfits).1.symm

/-- The boundary stands nowhere in a part whose bytes do not hold it. -/
theorem delimiter_not_inside (hmedia : ∀ byte ∈ mediaType, isHttpFieldValueChar byte = true)
    (hfree : ¬dashBoundary boundary <:+: range.slice representation) :
    ¬delimiter boundary <:+: cr :: lf :: spelledPart mediaType representation range := by
  have htype : cr ∉ lit "Content-Type" ++ colon :: sp :: mediaType := by
    have hname : cr ∉ lit "Content-Type" := by decide
    have hcolon : cr ≠ colon := by decide
    have hsp : cr ≠ sp := by decide
    simp only [List.mem_append, List.mem_cons, not_or]
    exact ⟨hname, hcolon, hsp, cr_not_mem_value hmedia⟩
  have hrange : cr ∉ lit "Content-Range" ++ colon :: sp ::
      contentRange range.offset (range.offset + range.length - 1) representation.length := by
    have hname : cr ∉ lit "Content-Range" := by decide
    have hcolon : cr ≠ colon := by decide
    have hsp : cr ≠ sp := by decide
    simp only [List.mem_append, List.mem_cons, not_or]
    exact ⟨hname, hcolon, hsp, cr_not_mem_value (isHttpFieldValueChar_contentRange _ _ _)⟩
  have hcontent : ¬delimiter boundary <:+: cr :: lf :: range.slice representation := by
    refine delimiter_not_inside_line List.not_mem_nil (fun hfits => hfree hfits.isInfix) fun hinside => ?_
    exact hfree (List.IsInfix.trans ⟨[cr, lf], [], by simp [delimiter]⟩ hinside)
  have hblank : ¬delimiter boundary <:+: cr :: lf :: (cr :: lf :: range.slice representation) := by
    exact delimiter_not_inside_line List.not_mem_nil (dashBoundary_not_front cr (by decide)) hcontent
  have hfirst := delimiter_not_inside_line htype (dashBoundary_not_front 0x43 (by decide))
    (delimiter_not_inside_line hrange (dashBoundary_not_front 0x43 (by decide)) hblank)
  exact hfirst

theorem rangePart_eq (boundary mediaType representation : Bytes) (range : HttpByteRange) :
    rangePart boundary mediaType representation range =
      dashBoundary boundary ++ cr :: lf :: (spelledPart mediaType representation range ++ [cr, lf]) := by
  have htype : lit "\r\nContent-Type: " = cr :: lf :: (lit "Content-Type" ++ [colon, sp]) := by decide
  have hrange : lit "\r\nContent-Range: bytes " =
      cr :: lf :: (lit "Content-Range" ++ (colon :: sp :: lit "bytes ")) := by
    decide
  have hend : lit "\r\n\r\n" = [cr, lf, cr, lf] := by decide
  have hbreak : lit "\r\n" = [cr, lf] := by decide
  have hdashes : lit "--" = [dash, dash] := by decide
  simp only [rangePart, partHeader, htype, hrange, hend, hbreak, hdashes, spelledPart, contentRange, dashBoundary,
    List.append_assoc, List.cons_append, List.nil_append]

section

variable (hmedia : ∀ byte ∈ mediaType, isHttpFieldValueChar byte = true)
include hmedia

theorem exists_encapsulated
    (hfree : ∀ range ∈ ranges, ¬dashBoundary boundary <:+: range.slice representation) :
    ∃ rest, multipartByteRanges boundary mediaType representation ranges = dashBoundary boundary ++ rest ∧
      Encapsulated boundary (ranges.map (rangeBodyPart mediaType representation)) rest := by
  induction ranges with
  | nil =>
    have hdashes : lit "--" = [dash, dash] := by decide
    have hend : lit "--\r\n" = dash :: dash :: ([] ++ [cr, lf]) := by decide
    refine ⟨dash :: dash :: ([] ++ [cr, lf]), ?_, .close fun byte hmem => absurd hmem List.not_mem_nil⟩
    rfl
  | cons range ranges ih =>
    obtain ⟨hrange, hranges⟩ := List.forall_mem_cons.mp hfree
    obtain ⟨rest, hrest, hencapsulated⟩ := ih hranges
    refine ⟨[] ++ cr :: lf :: (spelledPart mediaType representation range ++ (delimiter boundary ++ rest)), ?_, ?_⟩
    · rw [multipartByteRanges, List.flatMap_cons, List.append_assoc, ← multipartByteRanges, hrest, rangePart_eq]
      simp only [delimiter, List.append_assoc, List.cons_append, List.nil_append]
    · exact .part (fun byte hmem => absurd hmem List.not_mem_nil) (spelled_rangeBodyPart hmedia)
        (delimiter_not_inside hmedia hrange) hencapsulated

/-- **A reader of the multipart grammar** finds the ranges. -/
theorem body_multipartByteRanges
    (hfree : ∀ range ∈ ranges, ¬dashBoundary boundary <:+: range.slice representation) :
    Body boundary (ranges.map (rangeBodyPart mediaType representation))
      (multipartByteRanges boundary mediaType representation ranges) := by
  obtain ⟨rest, htext, hencapsulated⟩ := exists_encapsulated hmedia hfree
  refine ⟨[], rest, by rw [htext]; rfl, ?_, hencapsulated⟩
  intro hinside
  exact absurd (List.infix_nil.mp hinside) (List.cons_ne_nil _ _)

end

/-! ## The Content-Type -/

section

variable (h : isValidMultipartBoundary boundary = true)
include h

/-- What the bytes of a boundary are. -/
theorem boundary_byte : ∀ byte ∈ boundary, byte = sp ∨ isBoundaryNonSpaceChar byte = true := by
  rw [isValidMultipartBoundary] at h
  split at h
  · cases h
  · intro byte hmem
    have hbyte := List.all_eq_true.mp h byte hmem
    rwa [Bool.or_eq_true, beq_iff_eq] at hbyte

theorem boundary_length : boundary ≠ [] ∧ boundary.length ≤ maxBoundarySize := by
  rw [isValidMultipartBoundary] at h
  split at h
  · cases h
  · rename_i hbounds
    rw [not_or, not_or, Nat.not_lt] at hbounds
    exact ⟨hbounds.1, hbounds.2.1⟩

/-- A byte that no boundary holds. -/
theorem not_mem_boundary (hsp : byte ≠ sp) (hbyte : isBoundaryNonSpaceChar byte = false) :
    byte ∉ boundary := fun hmem =>
  (boundary_byte h byte hmem).elim hsp fun htrue => absurd (htrue.symm.trans hbyte) (by decide)

theorem isHttpFieldValueChar_boundary : ∀ byte ∈ boundary, isHttpFieldValueChar byte = true := by
  have hspecial : ∀ byte ∈ lit "'()+_,-./:=?", isHttpFieldValueChar byte = true :=
    List.all_eq_true.mp (by decide)
  intro byte hmem
  rcases boundary_byte h byte hmem with rfl | hbyte
  · rfl
  · rcases Bool.or_eq_true_iff.mp hbyte with hbyte | hspecials
    · exact isHttpFieldValueChar_of_alphanumeric hbyte
    · exact hspecial byte (List.contains_iff_mem.mp hspecials)

end

theorem quotedText_of_bytes (h : ∀ byte ∈ text, isHttpFieldValueChar byte = true) (hquote : dquote ∉ text)
    (hescape : backslash ∉ text) : QuotedText text := by
  induction text with
  | nil => exact .nil
  | cons byte rest ih =>
    rw [List.mem_cons, not_or] at hquote hescape
    obtain ⟨hbyte, hrest⟩ := List.forall_mem_cons.mp h
    exact .text hbyte ⟨Ne.symm hquote.1, Ne.symm hescape.1⟩ (ih hrest hquote.2 hescape.2)

theorem quotedStringBytes_cons (hbyte : isHttpFieldValueChar byte = true) (hquote : byte ≠ dquote)
    (hescape : byte ≠ backslash) : quotedStringBytes (byte :: text) = byte :: quotedStringBytes text := by
  rw [quotedStringBytes.eq_def]
  simp only [if_neg hquote, if_neg hescape, if_pos hbyte]

/-- The cursor reads plain bytes as they are. -/
theorem quotedStringBytes_append (h : ∀ byte ∈ text, isHttpFieldValueChar byte = true) (hquote : dquote ∉ text)
    (hescape : backslash ∉ text) : quotedStringBytes (text ++ [dquote]) = text := by
  induction text with
  | nil => rfl
  | cons byte rest ih =>
    rw [List.mem_cons, not_or] at hquote hescape
    obtain ⟨hbyte, hrest⟩ := List.forall_mem_cons.mp h
    rw [List.cons_append, quotedStringBytes_cons hbyte (Ne.symm hquote.1) (Ne.symm hescape.1),
      ih hrest hquote.2 hescape.2]

/-- A parameter value for the boundary. -/
structure IsBoundaryValue (boundary value : Bytes) : Prop where
  grammar : isHttpTokenOrQuotedString value = true
  trimmed : httpTrimOws value = value
  trimmed_behind : ∀ byte front, isHttpOwsChar byte = false →
    httpTrimOws (byte :: (front ++ value)) = byte :: (front ++ value)
  ne_nil : value ≠ []
  plain : semicolon ∉ value
  decoded : decodeMultipartBoundaryParameter value = some boundary

theorem isBoundaryValue_token (h : isValidMultipartBoundary boundary = true)
    (htoken : httpTokenPrefixSize boundary = boundary.length) : IsBoundaryValue boundary boundary := by
  obtain ⟨hne, hlength⟩ := boundary_length h
  have hname : isValidHttpHeaderName boundary = true := by
    rw [isValidHttpHeaderName, htoken]
    simpa using hne
  have hbytes := (isValidHttpHeaderName_iff.mp hname).2
  have hows : ∀ byte ∈ boundary, isHttpOwsChar byte = false := by
    intro byte hmem
    rw [← Bool.not_eq_true]
    intro hows
    have hbyte := hbytes byte hmem
    rcases Bool.or_eq_true_iff.mp hows with heq | heq
    all_goals
      rw [beq_iff_eq.mp heq] at hbyte
      exact absurd hbyte (by decide)
  have hquote : dquote ∉ boundary := not_mem_boundary h (by decide) (by decide)
  obtain ⟨first, rest, rfl⟩ := List.exists_cons_of_ne_nil hne
  have hfirst : first ≠ dquote := fun heq => hquote (heq ▸ List.mem_cons_self)
  refine ⟨?_, ?_, fun byte front hbyte => httpTrimOws_append hbyte hne hows, hne,
    not_mem_boundary h (by decide) (by decide), ?_⟩
  · rw [isHttpTokenOrQuotedString, if_neg hfirst, hname]
  · rw [httpTrimOws, List.dropWhile_cons_of_neg (by rw [hows first List.mem_cons_self]; exact Bool.false_ne_true),
      List.rdropWhile_eq_self_iff]
    intro hl
    rw [hows _ (List.getLast_mem hl)]
    exact Bool.false_ne_true
  · have hhead : (first :: rest).head? ≠ some dquote := fun heq => hfirst (Option.some.inj heq)
    rw [decodeMultipartBoundaryParameter, if_pos hhead, if_neg (by omega)]

theorem isBoundaryValue_quoted (h : isValidMultipartBoundary boundary = true) :
    IsBoundaryValue boundary (dquote :: (boundary ++ [dquote])) := by
  obtain ⟨hne, hlength⟩ := boundary_length h
  have hbytes := isHttpFieldValueChar_boundary h
  have hquote : dquote ∉ boundary := not_mem_boundary h (by decide) (by decide)
  have hescape : backslash ∉ boundary := not_mem_boundary h (by decide) (by decide)
  have hsemicolon : semicolon ∉ boundary := not_mem_boundary h (by decide) (by decide)
  have hend : ∀ byte ∈ [dquote], isHttpOwsChar byte = false := List.forall_mem_singleton.mpr (by decide)
  refine ⟨?_, httpTrimOws_append (by decide) (List.cons_ne_nil _ _) hend, fun byte front hbyte => ?_,
    List.cons_ne_nil _ _, ?_, ?_⟩
  · have hquoted : IsQuotedString (dquote :: (boundary ++ [dquote])) :=
      ⟨boundary, quotedText_of_bytes hbytes hquote hescape, rfl⟩
    have hsize : httpQuotedStringSize (dquote :: (boundary ++ [dquote]) ++ []) = _ := hquoted.size
    rw [List.append_nil] at hsize
    rw [isHttpTokenOrQuotedString, if_pos rfl, httpIsQuotedString, hsize]
    simp
  · have hsplit : front ++ dquote :: (boundary ++ [dquote]) = (front ++ dquote :: boundary) ++ [dquote] := by simp
    rw [hsplit]
    exact httpTrimOws_append hbyte (List.cons_ne_nil _ _) hend
  · simp only [List.mem_cons, List.mem_append, List.not_mem_nil, or_false, not_or]
    exact ⟨by decide, hsemicolon, by decide⟩
  · rw [decodeMultipartBoundaryParameter, if_neg (by simp), List.tail_cons,
      quotedStringBytes_append hbytes hquote hescape]
    simp only
    rw [if_neg (by omega)]

/-- A text without the delimiter is one segment. -/
theorem segments_of_not_mem {delimiter : UInt8} {state : QuoteState} (h : delimiter ∉ text) :
    segments delimiter state text = [text] := by
  induction text generalizing state with
  | nil => rfl
  | cons byte rest ih =>
    rw [List.mem_cons, not_or] at h
    rw [segments_cons, if_neg fun hsplit => h.1 hsplit.2.symm, ih h.2]
    rfl

/-- **The Content-Type** has one parameter, which stands for the boundary. -/
theorem read_planContentType (h : isValidMultipartBoundary boundary = true) :
    httpParseMediaTypeParts (planContentType boundary) = some (lit "multipart", lit "byteranges") ∧
      ∃ value, parseMediaTypeParameters (planContentType boundary) = some [(lit "boundary", value)] ∧
        decodeMultipartBoundaryParameter value = some boundary := by
  obtain ⟨value, hcontentType, hvalue⟩ : ∃ value,
      planContentType boundary = lit "multipart/byteranges" ++ semicolon :: (sp :: (lit "boundary=" ++ value)) ∧
        IsBoundaryValue boundary value := by
    have hsplit : lit "multipart/byteranges; boundary=" =
        lit "multipart/byteranges" ++ semicolon :: (sp :: lit "boundary=") := by decide
    rw [planContentType, hsplit]
    split
    · rename_i htoken
      exact ⟨boundary, by simp, isBoundaryValue_token h htoken⟩
    · exact ⟨_, by simp, isBoundaryValue_quoted h⟩
  have hrun : ∀ byte ∈ lit "multipart/byteranges", (byte != semicolon) = true :=
    List.all_eq_true.mp (by decide)
  have hstop : ∀ byte, (semicolon :: (sp :: (lit "boundary=" ++ value))).head? = some byte →
      (byte != semicolon) = false := fun byte hhead => by simpa using (Option.some.inj hhead).symm
  refine ⟨?_, value, ?_, hvalue.decoded⟩
  · rw [hcontentType, httpParseMediaTypeParts, httpHeaderTokenBeforeParameters, takeWhile_run_stop hrun hstop]
    decide
  · have hquote : dquote ∉ lit "multipart/byteranges" := by decide
    have hplain : semicolon ∉ lit "multipart/byteranges" := by decide
    have hbehind : semicolon ∉ sp :: (lit "boundary=" ++ value) := by
      have hname : semicolon ∉ lit "boundary=" := by decide
      simp only [List.mem_cons, List.mem_append, not_or]
      exact ⟨by decide, hname, hvalue.plain⟩
    have hname : lit "boundary=" = 0x62 :: lit "oundary=" := by decide
    have hpart : httpTrimOws (sp :: (lit "boundary=" ++ value)) = lit "boundary=" ++ value := by
      exact hvalue.trimmed_behind 0x62 _ (by decide)
    have hequals : findByte equalsSign (lit "boundary=" ++ value) 0 = some 8 :=
      findByte_append_of_some (by decide)
    have htake : (lit "boundary=" ++ value).take 8 = lit "boundary" := rfl
    have hdrop : (lit "boundary=" ++ value).drop 9 = value := rfl
    have hfull : ¬(([] : List (Bytes × Bytes)).length = maxMediaTypeParameters) := by decide
    have hvalid : isValidHttpHeaderName (lit "boundary") = true := by decide
    rw [parseMediaTypeParameters, httpSplitUnquoted_eq (by decide) (Nat.lt_succ_self _), hcontentType,
      segments_append (by decide) (behind_of_no_quote hquote), segments_of_not_mem hplain, segments_of_not_mem hbehind]
    rw [show ([lit "multipart/byteranges"] ++ [sp :: (lit "boundary=" ++ value)]).drop 1 =
      [sp :: (lit "boundary=" ++ value)] from rfl, List.map_singleton, hpart, parseMediaTypeParts,
      if_neg (by rw [hname]; exact List.cons_ne_nil _ _), hequals]
    simp only [htake, hdrop, if_neg hfull, hvalid, hvalue.trimmed, hvalue.grammar, hvalue.ne_nil, ne_eq,
      not_true_eq_false, or_self, Bool.true_eq_false, if_false, List.any_nil, Bool.false_eq_true, parseMediaTypeParts,
      List.nil_append]

/-! ## The plan as a whole -/

/-- What the planner accepts. -/
structure PlanInput (ranges : HttpByteRangeSet) (representationLength : Nat) (mediaType boundary : Bytes)
    (resource : Bool) : Prop where
  used : ranges.ignored = false
  several : 2 ≤ ranges.ranges.length
  room : ranges.ranges.length ≤ HttpByteRangeSet.capacity
  mediaType : isValidHttpContentTypeFieldValue mediaType = true
  boundary : isValidMultipartBoundary boundary = true
  resource : resource = true
  fits : ∀ range ∈ ranges.ranges, range.Fits representationLength

/-- The plan is one for these ranges of a representation. -/
structure PlanFor (ranges : List HttpByteRange) (representation mediaType boundary : Bytes)
    (plan : HttpMultipartByteRangePlan) : Prop where
  /-- The declared length is that of the segments, and the sizes counted are those written. -/
  contentLength : plan.contentLength = (plan.segments.map Segment.length).sum
  sizes : planSizes boundary.length mediaType.length representation.length ranges =
    .ok ⟨plan.metadata.length, plan.contentLength⟩
  room : plan.segments.length ≤ maxSegments
  inside : ∀ segment ∈ plan.segments, segment.Inside plan.metadata.length representation.length
  alternate : Alternate plan.segments
  wire : wire plan.metadata representation plan.segments = multipartByteRanges boundary mediaType representation ranges
  /-- Where the bytes do not hold the boundary the multipart grammar gives the ranges back, and nothing else. -/
  reading : (∀ range ∈ ranges, ¬dashBoundary boundary <:+: range.slice representation) → ∀ parts,
    Body boundary parts (Http.wire plan.metadata representation plan.segments) ↔
      parts = ranges.map (rangeBodyPart mediaType representation)
  positions : ∀ range ∈ ranges, ∀ first last complete,
    IsContentRange (contentRange range.offset (range.offset + range.length - 1) representation.length)
      first last complete ↔
      first = range.offset ∧ last + 1 = range.offset + range.length ∧ complete = representation.length
  contentType : httpParseMediaTypeParts plan.contentType = some (lit "multipart", lit "byteranges") ∧
    ∃ value, parseMediaTypeParameters plan.contentType = some [(lit "boundary", value)] ∧
      decodeMultipartBoundaryParameter value = some boundary

theorem length_rangePart (hfits : range.Fits representation.length) :
    (rangePart boundary mediaType representation range).length =
      partLength boundary mediaType representation.length range := by
  have hslice : (range.slice representation).length = range.length := by
    have := hfits.2
    rw [HttpByteRange.slice, length_sub]
    omega
  rw [rangePart, partLength, partMetadata, List.length_append, List.length_append, List.length_append, hslice]
  omega

/-- **The length of the body.** -/
theorem length_multipartByteRanges (hfits : ∀ range ∈ ranges, range.Fits representation.length) :
    (multipartByteRanges boundary mediaType representation ranges).length =
      2 + boundary.length + 4 + partsLength boundary mediaType representation.length ranges := by
  have hclosing : (closing boundary).length = 2 + boundary.length + 4 := by
    rw [closing, List.length_append, List.length_append]
    rfl
  have hparts : (ranges.flatMap (rangePart boundary mediaType representation)).length =
      partsLength boundary mediaType representation.length ranges := by
    rw [List.length_flatMap, partsLength]
    exact congrArg List.sum (List.map_congr_left fun range hmem => length_rangePart (hfits range hmem))
  rw [multipartByteRanges, List.length_append, hparts, hclosing, Nat.add_comm]

theorem length_wire {metadata : Bytes} {segments : List Segment}
    (h : ∀ segment ∈ segments, segment.Inside metadata.length representation.length) :
    (wire metadata representation segments).length = (segments.map Segment.length).sum := by
  rw [wire, List.length_flatMap]
  exact congrArg List.sum (List.map_congr_left fun segment hmem => Segment.length_bytes (h segment hmem))

end

section

variable {ranges : HttpByteRangeSet} {representation boundary : Bytes} {mediaType : StringView} {resource : Bool}

/-- What the checks in front of the loops let through. -/
structure Checked (ranges : HttpByteRangeSet) (representationLength : Nat) (mediaType boundary : Bytes)
    (resource : Bool) : Prop where
  used : ranges.ignored = false
  several : 2 ≤ ranges.ranges.length
  room : ranges.ranges.length ≤ HttpByteRangeSet.capacity
  length : representationLength ≠ 0
  mediaType : isValidHttpContentTypeFieldValue mediaType = true
  boundary : isValidMultipartBoundary boundary = true
  resource : resource = true

variable {representationLength : Nat} {media : Bytes}

theorem PlanInput.checked (h : PlanInput ranges representationLength media boundary resource) :
    Checked ranges representationLength media boundary resource := by
  refine ⟨h.used, h.several, h.room, ?_, h.mediaType, h.boundary, h.resource⟩
  rintro rfl
  obtain ⟨range, hmem⟩ := List.exists_mem_of_length_pos (Nat.lt_of_lt_of_le Nat.zero_lt_two h.several)
  have hfits := h.fits range hmem
  exact absurd hfits.1 (by have := hfits.2; omega)

theorem make_of_not_checked (h : ¬Checked ranges representationLength mediaType.val boundary resource) :
    ∃ message, makeHttpMultipartByteRangePlan ranges representationLength mediaType boundary resource =
      .error (.invalidArgument message) := by
  refine ⟨_, if_pos ?_⟩
  by_contra hnone
  simp only [not_or, Bool.not_eq_true, Bool.not_eq_false, Nat.not_lt] at hnone
  obtain ⟨hused, -, hseveral, hroom, hlength, hmedia, hboundary, hresource⟩ := hnone
  exact h ⟨hused, hseveral, hroom, hlength, hmedia, hboundary, hresource⟩

theorem Checked.satisfiable (h : Checked ranges representationLength mediaType.val boundary resource) :
    ranges.unsatisfiable = false := by
  have hne : ranges.ranges ≠ [] := List.ne_nil_of_length_pos (Nat.lt_of_lt_of_le Nat.zero_lt_two h.several)
  simp [HttpByteRangeSet.unsatisfiable, hne]

/-- The plan made of what is written for ranges inside the representation. -/
theorem planFor_of_written {ranges : List HttpByteRange} {storage : PlanStorage}
    (hmedia : isValidHttpContentTypeFieldValue media = true) (hboundary : isValidMultipartBoundary boundary = true)
    (hroom : ranges.length ≤ HttpByteRangeSet.capacity) (hfits : ∀ range ∈ ranges, range.Fits representation.length)
    (hsizes : planSizes boundary.length media.length representation.length ranges =
      .ok ⟨2 + boundary.length + 4 + (partsMetadata boundary media representation.length ranges).length,
        2 + boundary.length + 4 + partsLength boundary media representation.length ranges⟩)
    (hlaid : Laid representation storage (multipartByteRanges boundary media representation ranges)
      (2 * ranges.length + 1))
    (hmetadata : storage.metadata = partsMetadata boundary media representation.length ranges ++ closing boundary) :
    PlanFor ranges representation media boundary
      ⟨planContentType boundary, storage.metadata, storage.segments,
        2 + boundary.length + 4 + partsLength boundary media representation.length ranges⟩ where
  contentLength := by
    rw [← length_wire hlaid.inside, hlaid.wire, length_multipartByteRanges hfits]
  sizes := by
    have hclosing : (closing boundary).length = 2 + boundary.length + 4 := by
      rw [closing, List.length_append, List.length_append]
      rfl
    rw [hsizes, hmetadata, List.length_append, hclosing, Nat.add_comm (partsMetadata ..).length]
  room := by
    rw [hlaid.count, maxSegments]
    omega
  inside := hlaid.inside
  alternate := hlaid.alternate
  wire := hlaid.wire
  reading hfree parts := by
    have hchars := isHttpFieldValueChar_of_valid hmedia
    have hcr : cr ∉ boundary := not_mem_boundary hboundary (by decide) (by decide)
    rw [hlaid.wire]
    constructor
    · exact fun hbody => hbody.unique hcr (body_multipartByteRanges hchars hfree)
    · rintro rfl
      exact body_multipartByteRanges hchars hfree
  positions range hmem first last complete := by
    have hpos := (hfits range hmem).1
    rw [isContentRange_contentRange_iff]
    refine and_congr_right fun _ => and_congr_left fun _ => ?_
    omega
  contentType := read_planContentType hboundary

/-- **The planner** on what it accepts, and on what it refuses. -/
theorem make_cases (ranges : HttpByteRangeSet) (boundary : Bytes) (mediaType : StringView) (resource : Bool)
    (hlength : representation.length < 2 ^ 64) :
    (PlanInput ranges representation.length mediaType.val boundary resource ∧
      (multipartByteRanges boundary mediaType.val representation ranges.ranges).length < 2 ^ 64 ∧
      ∃ plan, makeHttpMultipartByteRangePlan ranges representation.length mediaType boundary resource = .ok plan ∧
        PlanFor ranges.ranges representation mediaType.val boundary plan) ∨
    ((PlanInput ranges representation.length mediaType.val boundary resource →
        2 ^ 64 ≤ (multipartByteRanges boundary mediaType.val representation ranges.ranges).length) ∧
      ∃ message, makeHttpMultipartByteRangePlan ranges representation.length mediaType boundary resource =
        .error (.lengthError message)) ∨
    (¬PlanInput ranges representation.length mediaType.val boundary resource ∧
      ∃ message, makeHttpMultipartByteRangePlan ranges representation.length mediaType boundary resource =
        .error (.invalidArgument message)) := by
  by_cases hchecked : Checked ranges representation.length mediaType.val boundary resource
  · rw [makeHttpMultipartByteRangePlan, if_neg (by grind [Checked.satisfiable, Checked])]
    have hsmall := (boundary_length hchecked.boundary).2
    rcases planSizes_cases ranges.ranges hsmall mediaType.property hlength with
      ⟨hfits, htotal, hsizes⟩ | ⟨htotal, message, hsizes⟩ | ⟨⟨bad, hbad, hout⟩, message, hsizes⟩
    · obtain ⟨storage, hwritten, hlaid, hmetadata⟩ :=
        writeParts_eq boundary mediaType.val hlength hfits hchecked.room
      have hplan := planFor_of_written hchecked.mediaType hchecked.boundary hchecked.room hfits hsizes hlaid hmetadata
      refine .inl ⟨⟨hchecked.used, hchecked.several, hchecked.room, hchecked.mediaType, hchecked.boundary,
        hchecked.resource, hfits⟩, ?_, _, ?_, hplan⟩
      · rw [length_multipartByteRanges hfits]
        exact htotal
      · rw [hplan.sizes, hwritten]
        rfl
    · refine .inr (.inl ⟨fun hinput => ?_, message, ?_⟩)
      · rw [length_multipartByteRanges hinput.fits]
        exact htotal
      · rw [hsizes]
        rfl
    · refine .inr (.inr ⟨fun hinput => hout (hinput.fits bad hbad), message, ?_⟩)
      rw [hsizes]
      rfl
  · exact .inr (.inr ⟨fun hinput => hchecked hinput.checked, make_of_not_checked hchecked⟩)

/-- **The multipart byte-range plan.** The planner makes a plan exactly for an accepted input whose body has a length in
64 bits, refuses a longer body as such, and never runs into a fault; and the plan it makes is one for these ranges. -/
theorem make_http_multipart_byte_range_plan (ranges : HttpByteRangeSet) (representation boundary : Bytes)
    (mediaType : StringView) (resource : Bool) (hlength : representation.length < 2 ^ 64) :
    (∀ plan, makeHttpMultipartByteRangePlan ranges representation.length mediaType boundary resource = .ok plan →
      PlanFor ranges.ranges representation mediaType.val boundary plan) ∧
    ((∃ plan, makeHttpMultipartByteRangePlan ranges representation.length mediaType boundary resource = .ok plan) ↔
      PlanInput ranges representation.length mediaType.val boundary resource ∧
        (multipartByteRanges boundary mediaType.val representation ranges.ranges).length < 2 ^ 64) ∧
    (PlanInput ranges representation.length mediaType.val boundary resource →
      2 ^ 64 ≤ (multipartByteRanges boundary mediaType.val representation ranges.ranges).length →
      ∃ message, makeHttpMultipartByteRangePlan ranges representation.length mediaType boundary resource =
        .error (.lengthError message)) ∧
    makeHttpMultipartByteRangePlan ranges representation.length mediaType boundary resource ≠ .error .fault := by
  have hno : ∀ {failure : PlanFailure} {plan : HttpMultipartByteRangePlan},
      (.error failure : Except PlanFailure HttpMultipartByteRangePlan) ≠ .ok plan := by
    intro failure plan h
    cases h
  rcases make_cases ranges boundary mediaType resource hlength with
    ⟨hinput, hfits, plan, hplan, hfor⟩ | ⟨hlong, message, herror⟩ | ⟨hnot, message, herror⟩
  · refine ⟨fun other hother => ?_, ⟨fun _ => ⟨hinput, hfits⟩, fun _ => ⟨plan, hplan⟩⟩, fun _ hlong => ?_, ?_⟩
    · rw [hplan] at hother
      rw [← Except.ok.inj hother]
      exact hfor
    · exact absurd hlong (Nat.not_le.mpr hfits)
    · rw [hplan]
      exact hno.symm
  · rw [herror]
    refine ⟨fun _ h => absurd h hno, ⟨fun ⟨_, h⟩ => absurd h hno, fun ⟨hinput, hfits⟩ => ?_⟩,
      fun _ _ => ⟨message, rfl⟩, by simp⟩
    exact absurd (hlong hinput) (Nat.not_le.mpr hfits)
  · rw [herror]
    exact ⟨fun _ h => absurd h hno, ⟨fun ⟨_, h⟩ => absurd h hno, fun ⟨hinput, _⟩ => absurd hinput hnot⟩,
      fun hinput => absurd hinput hnot, by simp⟩

/-- Two bytes of three. -/
theorem make_http_multipart_byte_range_plan_two :
    ∃ plan, makeHttpMultipartByteRangePlan ⟨[⟨2, 1⟩, ⟨0, 1⟩], false⟩ (lit "abc").length ⟨lit "a/b", by decide⟩
      (lit "b c") true = .ok plan :=
  (make_http_multipart_byte_range_plan ⟨[⟨2, 1⟩, ⟨0, 1⟩], false⟩ (lit "abc") (lit "b c") ⟨lit "a/b", by decide⟩ true
    (by decide)).2.1.mpr
    ⟨⟨rfl, by decide, by decide, by decide, by decide, rfl, by simp [HttpByteRange.Fits]; decide⟩, by decide +kernel⟩

/-- **A `Range` value answered in parts.** Several ranges resolved are the parts that the specs ask for, coalesced, and
the planner refuses them only where the body is too long for 64 bits. -/
theorem multipart_range_answer {value : Bytes} {result : HttpByteRangeSet} (hlength : representation.length < 2 ^ 64)
    (hresult : resolveHttpByteRangeSet value representation.length = some result) (hseveral : 2 ≤ result.ranges.length)
    (hmedia : isValidHttpContentTypeFieldValue mediaType.val = true)
    (hboundary : isValidMultipartBoundary boundary = true) :
    ∃ specs, IsRangeSet value specs ∧
      Coalesced (specs.filterMap (·.part representation.length)) (result.ranges.map HttpByteRange.stretch) ∧
      ((∃ plan, makeHttpMultipartByteRangePlan result representation.length mediaType boundary true = .ok plan ∧
          PlanFor result.ranges representation mediaType.val boundary plan) ∨
        2 ^ 64 ≤ (multipartByteRanges boundary mediaType.val representation result.ranges).length) := by
  have hne : {} ≠ result := by
    rintro rfl
    simp at hseveral
  by_cases hset : ∃ specs, IsRangeSet value specs
  · obtain ⟨specs, hset⟩ := hset
    have hpos : 0 < representation.length := by
      refine Nat.pos_of_ne_zero fun hzero => hne ?_
      rw [hzero, resolve_zero] at hresult
      exact Option.some.inj hresult
    obtain ⟨_, hsame, hbeyond, hread⟩ := resolve_of_isRangeSet hlength hpos hset
    cases hsame.symm.trans hresult
    obtain ⟨hused, hread⟩ := hread fun h => hne (hbeyond h).symm
    have hinput : PlanInput result representation.length mediaType.val boundary true :=
      ⟨hused, hseveral, hread.room, hmedia, hboundary, rfl, fun range hmem => ⟨?_, hread.inside range hmem⟩⟩
    · refine ⟨specs, hset, hread.coalesced, ?_⟩
      rcases make_cases result boundary mediaType true hlength with ⟨-, -, hplan⟩ | ⟨hlong, -⟩ | ⟨hnot, -⟩
      · exact .inl hplan
      · exact .inr (hlong hinput)
      · exact absurd hinput hnot
    · exact Nat.lt_add_right_iff_pos.mp (hread.coalesced.nonempty _ (List.mem_map_of_mem hmem))
  · rw [resolve_of_not_isRangeSet hlength (not_exists.mp hset)] at hresult
    exact absurd (Option.some.inj hresult) hne

/-- The first and the last byte of three. -/
theorem multipart_range_answer_two : ∃ plan, makeHttpMultipartByteRangePlan ⟨[⟨0, 1⟩, ⟨2, 1⟩], false⟩ 3
    ⟨lit "a/b", by decide⟩ (lit "b") true = .ok plan := by
  obtain ⟨-, -, -, ⟨plan, hplan, -⟩ | hlong⟩ := @multipart_range_answer (lit "abc") (lit "b") ⟨lit "a/b", by decide⟩
    (lit "bytes=0-0,2-2") ⟨[⟨0, 1⟩, ⟨2, 1⟩], false⟩ (by decide) (by decide +kernel) le_rfl (by decide) (by decide)
  · exact ⟨plan, hplan⟩
  · exact absurd hlong (by decide +kernel)

end

end Ruvia.Http
