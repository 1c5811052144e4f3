import Ruvia.Web.ForwardedChain

/-!
# `Web.ForwardedPrefix` — what a client can put before its proxies' elements

A proxy appends its element to the line it received, behind a comma. If the quoted-strings of what was there are
closed, the element stays the last one, whatever else is there. If one is open, the element becomes part of the
client's own last element (`elements_of_open`), and the address of that does not depend on it any more.
-/

namespace Ruvia.Web

open Library Core Http

/-! ## Texts of digits and dots -/

/-- An IPv4 literal is made of digits and dots. -/
def IsDotted (text : Bytes) : Prop := text ≠ [] ∧ ∀ byte ∈ text, isDigit byte = true ∨ byte = octetDot

theorem parseIpv4Octet_spec {digits value octet : Nat} {text rest : Bytes}
    (h : parseIpv4Octet digits value text = some (octet, rest)) :
    ∃ front, text = front ++ rest ∧ (∀ byte ∈ front, isDigit byte = true) ∧ (digits = 0 → front ≠ []) := by
  fun_induction parseIpv4Octet digits value text with
  | case1 | case3 | case5 => cases h
  | case2 digits value hvalue | case6 digits value ch rest' hdigit hvalue =>
    cases h
    exact ⟨[], rfl, by simp, fun hzero => absurd hzero (fun hzero => hvalue (.inl hzero))⟩
  | case4 digits value ch rest' hdigit hfew ih =>
    obtain ⟨front, rfl, hfront, -⟩ := ih h
    refine ⟨ch :: front, rfl, fun byte hmem => ?_, fun _ => List.cons_ne_nil _ _⟩
    rcases List.mem_cons.mp hmem with rfl | hmem
    · exact hdigit
    · exact hfront byte hmem

theorem isDotted_of_parseIpv4Octets {more : Nat} {text bytes : Bytes} (h : parseIpv4Octets more text = some bytes) :
    IsDotted text := by
  induction more generalizing text bytes with
  | zero =>
    rw [parseIpv4Octets] at h
    split at h
    · rename_i value hoctet
      obtain ⟨front, rfl, hdigits, hne⟩ := parseIpv4Octet_spec hoctet
      rw [List.append_nil]
      exact ⟨hne rfl, fun byte hmem => .inl (hdigits byte hmem)⟩
    · cases h
  | succ more ih =>
    rw [parseIpv4Octets] at h
    split at h
    · rename_i value ch rest hoctet
      obtain ⟨front, rfl, hdigits, hne⟩ := parseIpv4Octet_spec hoctet
      split at h
      · rename_i hdot
        obtain ⟨others, hothers, -⟩ := Option.map_eq_some_iff.mp h
        refine ⟨by simp, fun byte hmem => ?_⟩
        rcases List.mem_append.mp hmem with hmem | hmem
        · exact .inl (hdigits byte hmem)
        · rcases List.mem_cons.mp hmem with rfl | hmem
          · exact .inr hdot
          · exact (ih hothers).2 byte hmem
      · cases h
    · cases h

/-- A byte that means nothing to the scans of a forwarding list. -/
structure Inert (byte : UInt8) : Prop where
  dquote : byte ≠ dquote
  backslash : byte ≠ Http.backslash
  colon : byte ≠ colon
  closeBracket : byte ≠ closeBracket
  comma : byte ≠ comma
  semicolon : byte ≠ semicolon
  blank : isHttpOwsChar byte = false

theorem inert_of_isDigit {byte : UInt8} (h : isDigit byte = true) : Inert byte := by
  refine ⟨?_, ?_, ?_, ?_, ?_, ?_, ?_⟩
  on_goal 7 =>
    rw [isHttpOwsChar, Bool.or_eq_false_iff, beq_eq_false_iff_ne, beq_eq_false_iff_ne]
    refine ⟨?_, ?_⟩
  all_goals
    rintro rfl
    revert h
    decide

theorem IsDotted.inert {text : Bytes} (h : IsDotted text) {byte : UInt8} (hmem : byte ∈ text) : Inert byte := by
  rcases h.2 byte hmem with hdigit | rfl
  · exact inert_of_isDigit hdigit
  · constructor <;> decide

/-! ## Elements without anything special -/

section

variable {value : Bytes}

/-- Trimming stops at the last byte of a text that does not end with a blank. -/
theorem rdropWhile_append {front tail : Bytes} (hne : tail ≠ [])
    (hlast : ∀ byte, tail.getLast? = some byte → isHttpOwsChar byte = false) :
    (front ++ tail).rdropWhile isHttpOwsChar = front ++ tail := by
  obtain ⟨init, last, rfl⟩ : ∃ init last, tail = init ++ [last] :=
    ⟨tail.dropLast, tail.getLast hne, (List.dropLast_append_getLast hne).symm⟩
  rw [← List.append_assoc]
  exact List.rdropWhile_concat_neg _ _ _ (by simpa using hlast last (by simp))

theorem httpTrimOws_of_no_ows (h : ∀ byte ∈ value, isHttpOwsChar byte = false) : httpTrimOws value = value :=
  httpTrimOws_of_ends (fun byte hfirst => h byte (List.mem_of_head? hfirst))
    fun byte hlast => h byte (List.mem_of_getLast? hlast)

theorem segments_of_plain {delimiter : UInt8} (h : ∀ byte ∈ value, byte ≠ dquote ∧ byte ≠ delimiter) :
    segments delimiter .outside value = [value] := by
  induction value with
  | nil => rfl
  | cons byte value ih =>
    obtain ⟨hquote, hdelimiter⟩ := h byte List.mem_cons_self
    have hstep : QuoteState.outside.step byte = .outside := if_neg hquote
    rw [segments_cons, if_neg (fun hsplit => hdelimiter hsplit.2), hstep,
      ih fun other hmem => h other (List.mem_cons_of_mem _ hmem)]
    rfl

end

/-! ## Elements in an open quoted-string -/

/-- What a proxy appends, with its comma: no quotes, colons or brackets, and no blank at the end. -/
structure Appended (tail : Bytes) : Prop where
  quiet : ∀ byte ∈ tail, byte ≠ dquote ∧ byte ≠ Http.backslash ∧ byte ≠ colon ∧ byte ≠ closeBracket
  last : ∀ byte, tail.getLast? = some byte → isHttpOwsChar byte = false
  comma : comma ∈ tail

section

variable {value front tail : Bytes}

theorem Appended.ne_nil (h : Appended tail) : tail ≠ [] := List.ne_nil_of_mem h.comma

theorem Appended.not_mem (h : Appended tail) : dquote ∉ tail ∧ colon ∉ tail ∧ closeBracket ∉ tail :=
  ⟨fun hmem => (h.quiet _ hmem).1 rfl, fun hmem => (h.quiet _ hmem).2.2.1 rfl, fun hmem => (h.quiet _ hmem).2.2.2 rfl⟩

/-- A text that ends inside a quoted-string holds a quote. -/
theorem dquote_mem_of_open (h : QuoteState.outside.behind value ≠ .outside) : dquote ∈ value := by
  induction value with
  | nil => exact absurd rfl h
  | cons byte value ih =>
    by_cases hquote : byte = dquote
    · rw [hquote]
      exact List.mem_cons_self
    · rw [QuoteState.behind, List.foldl_cons, step_delimiter hquote] at h
      exact List.mem_cons_of_mem _ (ih h)

theorem mem_dropWhile_of_dquote_mem (h : dquote ∈ value) : dquote ∈ value.dropWhile isHttpOwsChar := by
  induction value with
  | nil => cases h
  | cons byte value ih =>
    by_cases hblank : isHttpOwsChar byte = true
    · rw [List.dropWhile_cons_of_pos hblank]
      refine ih ((List.mem_cons.mp h).resolve_left ?_)
      rintro rfl
      revert hblank
      decide
    · rw [List.dropWhile_cons_of_neg hblank]
      exact h

/-- Leading blanks open and close nothing. -/
theorem behind_dropWhile (value : Bytes) :
    QuoteState.outside.behind (value.dropWhile isHttpOwsChar) = QuoteState.outside.behind value := by
  induction value with
  | nil => rfl
  | cons byte value ih =>
    by_cases hblank : isHttpOwsChar byte = true
    · have hquote : byte ≠ dquote := by
        rintro rfl
        revert hblank
        decide
      rw [List.dropWhile_cons_of_pos hblank, ih, QuoteState.behind, QuoteState.behind, List.foldl_cons,
        step_delimiter hquote]
    · rw [List.dropWhile_cons_of_neg hblank]

/-- Behind a text that is not blank, what is appended is not trimmed. -/
theorem httpTrimOws_append (hfront : front.dropWhile isHttpOwsChar ≠ []) (h : Appended tail) :
    httpTrimOws (front ++ tail) = front.dropWhile isHttpOwsChar ++ tail := by
  rw [httpTrimOws, List.dropWhile_append, if_neg (by simpa using hfront)]
  exact rdropWhile_append h.ne_nil h.last

theorem httpTrimQuotedFieldValue_append (h : Appended tail) :
    httpTrimQuotedFieldValue (front ++ tail) = front ++ tail := by
  rw [httpTrimQuotedFieldValue, if_neg]
  rintro ⟨-, -, hlast⟩
  rw [List.getLast?_append_of_ne_nil _ h.ne_nil] at hlast
  exact h.not_mem.1 (List.mem_of_getLast? hlast)

/-- **The address of a node that takes in what is appended**: either it is cut off before it, or it takes the comma
in. -/
theorem bareNodeAddress_append (hfront : front ≠ []) :
    (∃ address, ∀ tail, Appended tail → bareNodeAddress (front ++ tail) = address) ∨
      ∀ tail, Appended tail → comma ∈ bareNodeAddress (front ++ tail) := by
  have hcomma : ∀ tail, Appended tail → comma ∈ front ++ tail := fun tail h => List.mem_append_right _ h.comma
  have hhead : ∀ tail, (front ++ tail).head? = front.head? := fun tail => List.head?_append_of_ne_nil _ hfront
  simp only [bareNodeAddress, hhead]
  by_cases hbracket : front.head? = some openBracket
  · simp only [if_pos hbracket]
    cases hclose : findByte closeBracket front 0 with
    | none =>
      refine .inl ⟨[], fun tail h => ?_⟩
      rw [findByte_append_of_not_mem h.not_mem.2.2, hclose]
    | some close =>
      have hlt := findByte_lt hclose
      refine .inl ⟨sub front 1 (close - 1), fun tail h => ?_⟩
      rw [findByte_append_of_not_mem h.not_mem.2.2, hclose]
      dsimp only
      rw [sub, sub, List.drop_append_of_le_length (by omega), List.take_append_of_le_length (by simp; omega)]
  · simp only [if_neg hbracket]
    cases hcolon : findByte colon front 0 with
    | none =>
      refine .inr fun tail h => ?_
      rw [findByte_append_of_not_mem h.not_mem.2.1, hcolon]
      exact hcomma tail h
    | some colonAt =>
      have hlt := findByte_lt hcolon
      cases hsecond : findByte colon front (colonAt + 1) with
      | none =>
        refine .inl ⟨front.take colonAt, fun tail h => ?_⟩
        rw [findByte_append_of_not_mem h.not_mem.2.1, hcolon]
        dsimp only
        rw [findByte_append_of_not_mem h.not_mem.2.1, hsecond, if_pos Option.isNone_none,
          List.take_append_of_le_length (by omega)]
      | some secondAt =>
        refine .inr fun tail h => ?_
        rw [findByte_append_of_not_mem h.not_mem.2.1, hcolon]
        dsimp only
        rw [findByte_append_of_not_mem h.not_mem.2.1, hsecond]
        exact hcomma tail h

theorem forwardedNodeAddress_append (hfront : dquote ∈ front) :
    (∃ address, ∀ tail, Appended tail → forwardedNodeAddress (front ++ tail) = address) ∨
      ∀ tail, Appended tail → comma ∈ forwardedNodeAddress (front ++ tail) := by
  have hne : front.dropWhile isHttpOwsChar ≠ [] := List.ne_nil_of_mem (mem_dropWhile_of_dquote_mem hfront)
  have hbare : ∀ tail, Appended tail →
      forwardedNodeAddress (front ++ tail) = bareNodeAddress (front.dropWhile isHttpOwsChar ++ tail) := by
    intro tail h
    rw [forwardedNodeAddress, httpTrimOws_append hne h, httpTrimQuotedFieldValue_append h]
  rcases bareNodeAddress_append hne with ⟨address, haddress⟩ | hcomma
  · exact .inl ⟨address, fun tail h => (hbare tail h).trans (haddress tail h)⟩
  · exact .inr fun tail h => hbare tail h ▸ hcomma tail h

/-- A parameter name with a quote in it is no name that counts. -/
theorem not_named_of_dquote_mem {name : Bytes} (known : Bytes) (h : dquote ∈ name)
    (hknown : dquote ∉ known.map httpAsciiToLower) : httpAsciiEqualsIgnoreCase name known = false := by
  rw [httpAsciiEqualsIgnoreCase, beq_eq_false_iff_ne]
  intro heq
  have hmem : httpAsciiToLower dquote ∈ known.map httpAsciiToLower := heq ▸ List.mem_map_of_mem h
  exact hknown hmem

theorem dquote_mem_httpTrimOws (h : dquote ∈ value) : dquote ∈ httpTrimOws value := by
  have hreverse : dquote ∈ (value.dropWhile isHttpOwsChar).reverse.dropWhile isHttpOwsChar :=
    mem_dropWhile_of_dquote_mem (List.mem_reverse.mpr (mem_dropWhile_of_dquote_mem h))
  exact List.mem_reverse.mpr hreverse

theorem parameter_address_of_not_for {element : ForwardedElement} {name : Bytes}
    (h : httpAsciiEqualsIgnoreCase name (lit "for") = false) :
    (element.parameter name value).hop.address = element.hop.address := by
  simp only [ForwardedElement.parameter, h, Bool.false_eq_true, if_false]
  split_ifs <;> rfl

/-- **The parameter that takes in what is appended** gives the element an address without it, or one with the comma. -/
theorem emit_append (element : ForwardedElement) (hfront : dquote ∈ front) :
    (∃ address, ∀ tail, Appended tail → (element.emit (front ++ tail)).hop.address = address) ∨
      ∀ tail, Appended tail → comma ∈ (element.emit (front ++ tail)).hop.address := by
  cases hequals : findByte equalsSign front 0 with
  | none =>
    -- The name reaches into what is appended, and has the quote in it.
    refine .inl ⟨element.hop.address, fun tail h => ?_⟩
    rw [ForwardedElement.emit]
    cases hfind : findByte equalsSign (front ++ tail) 0 with
    | none => rfl
    | some equals =>
      have hge : front.length ≤ equals := by
        by_contra hlt
        obtain ⟨-, hat, -⟩ := findByte_eq_some_iff.mp hfind
        rw [List.getElem?_append_left (by omega)] at hat
        exact findByte_eq_none_iff.mp hequals equals (Nat.zero_le _) hat
      have hname : dquote ∈ httpTrimOws ((front ++ tail).take equals) := by
        refine dquote_mem_httpTrimOws ?_
        rw [List.take_append, List.take_of_length_le hge]
        exact List.mem_append_left _ hfront
      exact parameter_address_of_not_for (not_named_of_dquote_mem _ hname (by decide))
  | some equals =>
    have hlt := findByte_lt hequals
    have hemit : ∀ tail, element.emit (front ++ tail) = element.parameter (httpTrimOws (front.take equals))
        (httpTrimOws (front.drop (equals + 1) ++ tail)) := by
      intro tail
      rw [ForwardedElement.emit, findByte_append_of_some hequals]
      dsimp only
      rw [List.take_append_of_le_length (by omega), List.drop_append_of_le_length (by omega)]
    simp only [hemit]
    cases hname : httpAsciiEqualsIgnoreCase (httpTrimOws (front.take equals)) (lit "for") with
    | false => exact .inl ⟨element.hop.address, fun tail h => parameter_address_of_not_for hname⟩
    | true =>
      cases hsaw : element.sawFor with
      | true => exact .inl ⟨[], fun tail h => by simp [ForwardedElement.parameter, hname, hsaw]⟩
      | false =>
        have hvalue : dquote ∈ front.drop (equals + 1) := by
          have hsplit := List.take_append_drop (equals + 1) front
          have hat := (findByte_eq_some_iff.mp hequals).2.1
          rw [← hsplit, List.take_add_one, hat] at hfront
          rcases List.mem_append.mp hfront with hmem | hmem
          · rcases List.mem_append.mp hmem with hmem | hmem
            · have hnot := not_named_of_dquote_mem (lit "for") (dquote_mem_httpTrimOws hmem) (by decide)
              rw [hname] at hnot
              cases hnot
            · exact absurd hmem (by decide)
          · exact hmem
        have hdrop := mem_dropWhile_of_dquote_mem hvalue
        have haddress : ∀ tail, Appended tail → (element.parameter (httpTrimOws (front.take equals))
            (httpTrimOws (front.drop (equals + 1) ++ tail))).hop.address =
              forwardedNodeAddress ((front.drop (equals + 1)).dropWhile isHttpOwsChar ++ tail) := by
          intro tail h
          rw [httpTrimOws_append (List.ne_nil_of_mem hdrop) h]
          simp [ForwardedElement.parameter, hname, hsaw]
        rcases forwardedNodeAddress_append hdrop with ⟨address, hsame⟩ | hcomma
        · exact .inl ⟨address, fun tail h => (haddress tail h).trans (hsame tail h)⟩
        · exact .inr fun tail h => haddress tail h ▸ hcomma tail h

/-- The segments of a text with an open quoted-string and something appended, trimmed. -/
theorem trimmed_segments_append {delimiter : UInt8} (hdelimiter : delimiter ≠ dquote)
    (hopen : QuoteState.outside.behind value ≠ .outside) :
    ∃ parts last, QuoteState.outside.behind last ≠ .outside ∧ ∀ tail, Appended tail →
      (segments delimiter .outside (value ++ tail)).map httpTrimOws = parts ++ [last ++ tail] := by
  obtain ⟨parts, last, hparts, hlast⟩ := segments_outside_getLast hdelimiter hopen
  refine ⟨parts.map httpTrimOws, last.dropWhile isHttpOwsChar, by rwa [behind_dropWhile], fun tail h => ?_⟩
  rw [segments_append_quoted hdelimiter hopen (fun byte hmem => ⟨(h.quiet byte hmem).1, (h.quiet byte hmem).2.1⟩),
    hparts, appendLast_append_singleton, List.map_append, List.map_singleton,
    httpTrimOws_append (List.ne_nil_of_mem (mem_dropWhile_of_dquote_mem (dquote_mem_of_open hlast))) h]

theorem parseForwardedElement_eq (value : Bytes) : parseForwardedElement value =
    (((segments semicolon .outside value).map httpTrimOws).foldl ForwardedElement.emit {}).hop := by
  rw [parseForwardedElement, httpSplitUnquoted_eq (by decide) (Nat.lt_succ_self _)]

theorem parseForwardedElement_append (hopen : QuoteState.outside.behind value ≠ .outside) :
    (∃ address, ∀ tail, Appended tail → (parseForwardedElement (value ++ tail)).address = address) ∨
      ∀ tail, Appended tail → comma ∈ (parseForwardedElement (value ++ tail)).address := by
  obtain ⟨parts, last, hlast, hparts⟩ := @trimmed_segments_append value semicolon (by decide) hopen
  have hparse : ∀ tail, Appended tail → parseForwardedElement (value ++ tail) =
      ((parts.foldl ForwardedElement.emit {}).emit (last ++ tail)).hop := by
    intro tail h
    rw [parseForwardedElement_eq, hparts tail h, List.foldl_append]
    rfl
  rcases emit_append (parts.foldl ForwardedElement.emit {}) (dquote_mem_of_open hlast) with ⟨address, hsame⟩ | hcomma
  · exact .inl ⟨address, fun tail h => by rw [hparse tail h, hsame tail h]⟩
  · exact .inr fun tail h => by rw [hparse tail h]; exact hcomma tail h

/-- The hop of an element, by the field it is in. -/
def hopOf (xFor : Bool) (element : Bytes) : ForwardedClient :=
  if xFor then nodeHop element else parseForwardedElement element

/-- **The elements of a text with an open quoted-string**: what is appended goes into the last one, and the address of
that either does not depend on it or has the comma in it. -/
theorem elements_of_open (xFor : Bool) (hopen : QuoteState.outside.behind value ≠ .outside) :
    ∃ elements last, (∀ tail, Appended tail → commaSeparatedElements (value ++ tail) = elements ++ [last ++ tail]) ∧
      ((∃ address, ∀ tail, Appended tail → (hopOf xFor (last ++ tail)).address = address) ∨
        ∀ tail, Appended tail → comma ∈ (hopOf xFor (last ++ tail)).address) := by
  obtain ⟨parts, last, hlast, hparts⟩ := @trimmed_segments_append value comma (by decide) hopen
  refine ⟨parts.filter fun item => !item.isEmpty, last, fun tail h => ?_, ?_⟩
  · rw [commaSeparatedElements, httpCommaSeparatedQuotedFieldItems_eq, hparts tail h, List.filter_append,
      List.filter_singleton]
    have hne : (last ++ tail).isEmpty = false := by
      simpa using fun _ => h.ne_nil
    rw [hne]
    rfl
  · cases xFor with
    | true => exact forwardedNodeAddress_append (dquote_mem_of_open hlast)
    | false => exact parseForwardedElement_append hlast

end

end Ruvia.Web
