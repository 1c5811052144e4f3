import Ruvia.Http.ChunkSizeGrammar
import Ruvia.Http.QuotedSegments

/-!
# `Http.MediaTypes` — the Content-Type field value

`is_valid_http_content_type_field_value` of `http_media_type.h`: a type, a subtype and parameters with distinct names. A
valid value is made of bytes that may stand in a field value (`isHttpFieldValueChar_of_valid`), so it fits on a line.
-/

namespace Ruvia.Http

open Library

abbrev asterisk : UInt8 := 0x2a

/-- `http_header_token_before_parameters`. -/
def httpHeaderTokenBeforeParameters (value : Bytes) : Bytes :=
  httpTrimOws (value.takeWhile (· != semicolon))

/-- `http_parse_media_type_parts` without wildcards. -/
def httpParseMediaTypeParts (value : Bytes) : Option (Bytes × Bytes) :=
  let value := httpHeaderTokenBeforeParameters value
  match findByte slash value 0 with
  | none => none
  | some position =>
    let type := value.take position
    let subtype := value.drop (position + 1)
    if type = [asterisk] ∨ subtype = [asterisk] then none
    else if isValidHttpHeaderName type && isValidHttpHeaderName subtype then some (type, subtype) else none

def maxMediaTypeParameters : Nat := 64

/-- The walk of `http_media_type_parameters::parse` over the trimmed parts. -/
def parseMediaTypeParts (values : List (Bytes × Bytes)) : List Bytes → Option (List (Bytes × Bytes))
  | [] => some values
  | part :: parts =>
    if part = [] then parseMediaTypeParts values parts
    else
      match findByte equalsSign part 0 with
      | none => none
      | some equals =>
        let name := part.take equals
        let value := part.drop (equals + 1)
        if values.length = maxMediaTypeParameters then none
        else if isValidHttpHeaderName name = false ∨ value = [] ∨ value ≠ httpTrimOws value then none
        else if values.any (fun seen => httpAsciiEqualsIgnoreCase seen.1 name) then none
        else if isHttpTokenOrQuotedString value = false then none
        else parseMediaTypeParts (values ++ [(name, value)]) parts

/-- `http_media_type_parameters::parse`. -/
def parseMediaTypeParameters (value : Bytes) : Option (List (Bytes × Bytes)) :=
  parseMediaTypeParts [] (((httpSplitUnquoted semicolon (value.length + 1) value).drop 1).map httpTrimOws)

def isValidHttpContentTypeFieldValue (value : Bytes) : Bool :=
  (httpParseMediaTypeParts value).isSome && (parseMediaTypeParameters value).isSome

section

variable {value name text part : Bytes} {byte : UInt8} {parts : List Bytes} {values : List (Bytes × Bytes)}

/-- Printable ASCII may stand in a field value. -/
theorem isHttpFieldValueChar_of_range (hlow : 0x20 ≤ byte.toNat) (hhigh : byte.toNat < 0x7f) :
    isHttpFieldValueChar byte = true := by
  have hne : byte ≠ 0x7f := by
    rintro rfl
    exact absurd hhigh (by decide)
  simp only [isHttpFieldValueChar, Bool.or_eq_true, Bool.and_eq_true, decide_eq_true_eq, bne_iff_ne,
    UInt8.le_iff_toNat_le]
  exact .inr ⟨hlow, hne⟩

theorem isHttpFieldValueChar_of_alphanumeric (h : (isDigit byte || isUpper byte || isLower byte) = true) :
    isHttpFieldValueChar byte = true := by
  simp only [isDigit, isUpper, isLower, Bool.or_eq_true, Bool.and_eq_true, decide_eq_true_eq,
    UInt8.le_iff_toNat_le, UInt8.reduceToNat] at h
  exact isHttpFieldValueChar_of_range (by omega) (by omega)

theorem isHttpFieldValueChar_of_token (h : isHttpTokenChar byte = true) : isHttpFieldValueChar byte = true := by
  have hspecial : ∀ b ∈ lit "!#$%&'*+-.^_`|~", isHttpFieldValueChar b = true :=
    List.all_eq_true.mp (by decide)
  rw [isHttpTokenChar, isAlpha, ← Bool.or_assoc] at h
  rcases Bool.or_eq_true_iff.mp h with h | h
  · exact isHttpFieldValueChar_of_alphanumeric h
  · exact hspecial byte (List.contains_iff_mem.mp h)

theorem isHttpFieldValueChar_of_ows (h : isHttpOwsChar byte = true) : isHttpFieldValueChar byte = true := by
  rcases Bool.or_eq_true_iff.mp h with h | h
  all_goals
    rw [beq_iff_eq.mp h]
    rfl

theorem isHttpFieldValueChar_of_name (h : isValidHttpHeaderName name = true) :
    ∀ byte ∈ name, isHttpFieldValueChar byte = true := fun byte hmem =>
  isHttpFieldValueChar_of_token ((isValidHttpHeaderName_iff.mp h).2 byte hmem)

/-- Trimming takes whitespace away only. -/
theorem mem_or_ows_of_mem (h : byte ∈ text) : isHttpOwsChar byte = true ∨ byte ∈ httpTrimOws text := by
  rw [← List.takeWhile_append_dropWhile (p := isHttpOwsChar) (l := text)] at h
  rcases List.mem_append.mp h with h | h
  · exact .inl (List.mem_takeWhile_imp h)
  · rw [← List.rdropWhile_append_rtakeWhile (p := isHttpOwsChar) (l := text.dropWhile isHttpOwsChar)] at h
    rcases List.mem_append.mp h with h | h
    · exact .inr h
    · exact .inl (List.mem_rtakeWhile_imp h)

theorem isHttpFieldValueChar_of_trimmed (h : ∀ byte ∈ httpTrimOws text, isHttpFieldValueChar byte = true) :
    ∀ byte ∈ text, isHttpFieldValueChar byte = true := fun byte hmem =>
  (mem_or_ows_of_mem hmem).elim isHttpFieldValueChar_of_ows (h byte)

theorem QuotedText.isHttpFieldValueChar (h : QuotedText text) : ∀ byte ∈ text, isHttpFieldValueChar byte = true := by
  induction h with
  | nil => exact fun byte hmem => absurd hmem List.not_mem_nil
  | text htext _ _ ih => exact List.forall_mem_cons.mpr ⟨htext, ih⟩
  | pair hescaped _ ih => exact List.forall_mem_cons.mpr ⟨rfl, List.forall_mem_cons.mpr ⟨hescaped, ih⟩⟩

theorem isHttpFieldValueChar_of_tokenOrQuoted (h : isHttpTokenOrQuotedString value = true) :
    ∀ byte ∈ value, isHttpFieldValueChar byte = true := by
  cases value with
  | nil => exact fun byte hmem => absurd hmem List.not_mem_nil
  | cons first rest =>
    rw [isHttpTokenOrQuotedString] at h
    split at h
    · rw [httpIsQuotedString, Bool.and_eq_true, beq_iff_eq] at h
      have hsize : httpQuotedStringSize (first :: rest) ≠ 0 := by
        rw [h.2]
        exact Nat.succ_ne_zero _
      obtain ⟨quoted, ⟨body, hbody, rfl⟩, htext⟩ := isQuotedString_of_size hsize
      rw [h.2, List.drop_length, List.append_nil] at htext
      rw [htext]
      exact List.forall_mem_cons.mpr ⟨rfl, List.forall_mem_append.mpr ⟨hbody.isHttpFieldValueChar, by simp; rfl⟩⟩
    · exact isHttpFieldValueChar_of_name h

/-- The text around a byte found in it. -/
theorem eq_take_append_drop_of_findByte {stop : UInt8} {position : Nat} (h : findByte stop text 0 = some position) :
    text = text.take position ++ stop :: text.drop (position + 1) := by
  obtain ⟨-, hget, -⟩ := findByte_eq_some_iff.mp h
  obtain ⟨hlt, hget⟩ := List.getElem?_eq_some_iff.mp hget
  rw [← hget, List.getElem_cons_drop, List.take_append_drop]

theorem isHttpFieldValueChar_around {stop : UInt8} {position : Nat} (h : findByte stop text 0 = some position)
    (hstop : isHttpFieldValueChar stop = true) (hbefore : ∀ b ∈ text.take position, isHttpFieldValueChar b = true)
    (hbehind : ∀ b ∈ text.drop (position + 1), isHttpFieldValueChar b = true) :
    ∀ b ∈ text, isHttpFieldValueChar b = true := by
  rw [eq_take_append_drop_of_findByte h]
  exact List.forall_mem_append.mpr ⟨hbefore, List.forall_mem_cons.mpr ⟨hstop, hbehind⟩⟩

theorem isHttpFieldValueChar_of_parts {found : List (Bytes × Bytes)}
    (h : parseMediaTypeParts values parts = some found) :
    ∀ part ∈ parts, ∀ byte ∈ part, isHttpFieldValueChar byte = true := by
  induction parts generalizing values with
  | nil => exact fun part hmem => absurd hmem List.not_mem_nil
  | cons part parts ih =>
    rw [parseMediaTypeParts] at h
    by_cases hnil : part = []
    · rw [if_pos hnil] at h
      rw [hnil]
      exact List.forall_mem_cons.mpr ⟨fun byte hmem => absurd hmem List.not_mem_nil, ih h⟩
    · rw [if_neg hnil] at h
      cases hequals : findByte equalsSign part 0 with
      | none => simp [hequals] at h
      | some equals =>
        simp only [hequals, Option.ite_none_left_eq_some, not_or, Bool.not_eq_false] at h
        obtain ⟨-, ⟨hname, -, -⟩, -, hvalue, hrest⟩ := h
        refine List.forall_mem_cons.mpr ⟨isHttpFieldValueChar_around hequals rfl ?_ ?_, ih hrest⟩
        · exact isHttpFieldValueChar_of_name hname
        · exact isHttpFieldValueChar_of_tokenOrQuoted hvalue

theorem mem_prependFirst {front : UInt8} (h : ∃ part ∈ parts, byte ∈ part) :
    ∃ part ∈ prependFirst front parts, byte ∈ part := by
  obtain ⟨part, hpart, hmem⟩ := h
  cases parts with
  | nil => cases hpart
  | cons first others =>
    rcases List.mem_cons.mp hpart with rfl | hpart
    · exact ⟨front :: part, List.mem_cons_self, List.mem_cons_of_mem _ hmem⟩
    · exact ⟨part, List.mem_cons_of_mem _ hpart, hmem⟩

/-- The segments hold all bytes but the delimiters. -/
theorem mem_segments {delimiter : UInt8} {state : QuoteState} (h : byte ∈ value) :
    byte = delimiter ∨ ∃ part ∈ segments delimiter state value, byte ∈ part := by
  induction value generalizing state with
  | nil => cases h
  | cons ch rest ih =>
    rw [segments_cons]
    split
    · rename_i hdelimiter
      rcases List.mem_cons.mp h with rfl | h
      · exact .inl hdelimiter.2
      · exact (ih h).imp_right fun ⟨part, hpart, hmem⟩ => ⟨part, List.mem_cons_of_mem _ hpart, hmem⟩
    · rcases List.mem_cons.mp h with rfl | h
      · right
        have hne : segments delimiter (state.step byte) rest ≠ [] := segments_ne_nil
        obtain ⟨first, others, hparts⟩ := List.exists_cons_of_ne_nil hne
        rw [hparts]
        exact ⟨byte :: first, List.mem_cons_self, List.mem_cons_self⟩
      · exact (ih h).imp_right mem_prependFirst

theorem behind_of_no_quote (h : dquote ∉ value) : QuoteState.outside.behind value = .outside := by
  induction value with
  | nil => rfl
  | cons ch rest ih =>
    rw [List.mem_cons, not_or] at h
    have hstep : QuoteState.outside.step ch = .outside := if_neg (Ne.symm h.1)
    rw [QuoteState.behind, List.foldl_cons, hstep]
    exact ih h.2

/-- The type and the subtype, with the slash and whitespace around them. -/
theorem token_of_mediaTypeParts (h : (httpParseMediaTypeParts value).isSome = true) :
    ∀ byte ∈ value.takeWhile (· != semicolon), isHttpFieldValueChar byte = true ∧ byte ≠ dquote := by
  have hname : ∀ {name : Bytes}, isValidHttpHeaderName name = true →
      ∀ byte ∈ name, isHttpFieldValueChar byte = true ∧ byte ≠ dquote := by
    intro name hname byte hmem
    refine ⟨isHttpFieldValueChar_of_name hname byte hmem, ?_⟩
    rintro rfl
    exact absurd ((isValidHttpHeaderName_iff.mp hname).2 dquote hmem) (by decide)
  obtain ⟨parts, hparts⟩ := Option.isSome_iff_exists.mp h
  rw [httpParseMediaTypeParts] at hparts
  simp only at hparts
  cases hslash : findByte slash (httpHeaderTokenBeforeParameters value) 0 with
  | none => simp [hslash] at hparts
  | some position =>
    simp only [hslash, Option.ite_none_left_eq_some, Option.ite_none_right_eq_some, Bool.and_eq_true] at hparts
    obtain ⟨-, ⟨htype, hsubtype⟩, -⟩ := hparts
    intro byte hmem
    rcases mem_or_ows_of_mem hmem with hows | hmem
    · refine ⟨isHttpFieldValueChar_of_ows hows, ?_⟩
      rintro rfl
      exact absurd hows (by decide)
    · rw [← httpHeaderTokenBeforeParameters, eq_take_append_drop_of_findByte hslash] at hmem
      rcases List.mem_append.mp hmem with hmem | hmem
      · exact hname htype byte hmem
      · rcases List.mem_cons.mp hmem with rfl | hmem
        · exact ⟨rfl, by decide⟩
        · exact hname hsubtype byte hmem

/-- **A valid Content-Type** is made of bytes that may stand in a field value. -/
theorem isHttpFieldValueChar_of_valid (h : isValidHttpContentTypeFieldValue value = true) :
    ∀ byte ∈ value, isHttpFieldValueChar byte = true := by
  obtain ⟨hparts, hparameters⟩ := Bool.and_eq_true_iff.mp h
  have hfront := token_of_mediaTypeParts hparts
  obtain ⟨found, hfound⟩ := Option.isSome_iff_exists.mp hparameters
  by_cases hmem : semicolon ∈ value
  · obtain ⟨front, back, rfl, hnot⟩ := List.eq_append_cons_of_mem hmem
    have htake : (front ++ semicolon :: back).takeWhile (· != semicolon) = front :=
      takeWhile_run_stop (fun byte hmem => by simpa using fun heq : byte = semicolon => hnot (heq ▸ hmem))
        (fun byte hhead => by simpa using (Option.some.inj hhead).symm)
    rw [htake] at hfront
    have hquote : dquote ∉ front := fun hmem => (hfront dquote hmem).2 rfl
    rw [parseMediaTypeParameters, httpSplitUnquoted_eq (by decide) (Nat.lt_succ_self _),
      segments_append (by decide) (behind_of_no_quote hquote)] at hfound
    refine List.forall_mem_append.mpr ⟨fun byte hmem => (hfront byte hmem).1, List.forall_mem_cons.mpr ⟨rfl, ?_⟩⟩
    intro byte hmem
    have hsegment : byte = semicolon ∨ ∃ part ∈ segments semicolon .outside back, byte ∈ part := mem_segments hmem
    rcases hsegment with rfl | ⟨part, hpart, hmem⟩
    · rfl
    · refine isHttpFieldValueChar_of_trimmed (isHttpFieldValueChar_of_parts hfound _ ?_) byte hmem
      refine List.mem_map_of_mem ?_
      have hpos : 1 ≤ (segments semicolon .outside front).length := List.length_pos_iff.mpr segments_ne_nil
      rw [List.drop_append_of_le_length hpos]
      exact List.mem_append_right _ hpart
  · have htake : value.takeWhile (· != semicolon) = value :=
      List.takeWhile_eq_self_iff.mpr fun byte hbyte => by simpa using fun heq : byte = semicolon => hmem (heq ▸ hbyte)
    rw [htake] at hfront
    exact fun byte hbyte => (hfront byte hbyte).1

end

end Ruvia.Http
