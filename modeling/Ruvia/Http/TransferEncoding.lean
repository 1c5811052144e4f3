import Ruvia.Http.FieldValues
import Mathlib.Data.List.Forall2

/-!
# `Http.TransferEncoding` — the Transfer-Encoding accumulator

`http_transfer_encoding_state`: the field lines form one ordered list of codings. `chunked` closes the list;
an unknown coding is remembered while the syntax of later members is still checked.
-/

namespace Ruvia.Http

open Library

inductive HttpTransferCoding where
  | gzip
  | deflate
  deriving DecidableEq, Repr

def maxTransferCodings : Nat := 8

/-- `http_is_gzip_coding_token`. -/
def httpIsGzipCodingToken (token : Bytes) : Bool :=
  httpAsciiEqualsIgnoreCase token (lit "gzip") || httpAsciiEqualsIgnoreCase token (lit "x-gzip")

/-- `http_parse_transfer_coding_syntax`: the coding name, and whether a `;` follows it. -/
def httpParseTransferCodingSyntax (item : Bytes) : Option (Bytes × Bool) :=
  let firstSemicolon := httpFindUnquotedDelimiter item 0 semicolon
  let coding := httpTrimOws (item.take firstSemicolon)
  if isValidHttpHeaderName coding = false then none
  else if httpAllParameters item isValidHttpTransferParameter then
    some (coding, decide (firstSemicolon < item.length))
  else none

inductive HttpTransferEncodingParseStatus where
  | ok
  | malformed
  | unsupported
  deriving DecidableEq, Repr

/-- The published list: its codings, and whether a final `chunked` closed it. -/
structure HttpTransferEncodingValue where
  transferCodings : List HttpTransferCoding
  finalChunked : Bool
  deriving DecidableEq, Repr

/-- `http_transfer_encoding_state`. -/
structure HttpTransferEncodingState where
  value : Option HttpTransferEncodingValue := none
  unsupported : Bool := false
  deriving DecidableEq, Repr

namespace HttpTransferEncodingState

/-- What one visit of `parse_field` has in hand. -/
structure Walk where
  codings : List HttpTransferCoding
  finalChunked : Bool
  unsupported : Bool
  deriving DecidableEq, Repr

/-- The visitor of `parse_field`; `none` when the member makes the field malformed. -/
def visit (w : Walk) (item : Bytes) : Option Walk :=
  if item.isEmpty then some w
  else if w.finalChunked then none
  else
    match httpParseTransferCodingSyntax item with
    | none => none
    | some (coding, hasParameters) =>
      if httpAsciiEqualsIgnoreCase coding (lit "chunked") then
        if hasParameters then none else some { w with finalChunked := true }
      else
        let gzip := httpIsGzipCodingToken coding
        let deflate := httpAsciiEqualsIgnoreCase coding (lit "deflate")
        if gzip || deflate then
          if hasParameters then none
          else if w.codings.length = maxTransferCodings then some { w with unsupported := true }
          else some { w with codings := w.codings ++ [if gzip then .gzip else .deflate] }
        else some { w with unsupported := true }

/-- The visitor loop of `parse_field`. -/
def visitAll : Walk → List Bytes → Option Walk
  | w, [] => some w
  | w, item :: items =>
    match visit w item with
    | none => none
    | some w => visitAll w items

/-- The walk a field line starts with. -/
def walk (state : HttpTransferEncodingState) : Walk :=
  match state.value with
  | none => ⟨[], false, state.unsupported⟩
  | some value => ⟨value.transferCodings, value.finalChunked, state.unsupported⟩

def parseField (state : HttpTransferEncodingState) (fieldValue : Bytes) :
    HttpTransferEncodingState × HttpTransferEncodingParseStatus :=
  match visitAll state.walk (httpCommaSeparatedQuotedFieldItems fieldValue) with
  | none => (state, .malformed)
  | some w =>
    (⟨some ⟨w.codings, w.finalChunked⟩, w.unsupported⟩, if w.unsupported then .unsupported else .ok)

/-! ## What a list of members amounts to -/

/-- The member spells the coding, without parameters. -/
def SpellsCoding (member : Bytes) : HttpTransferCoding → Prop
  | .gzip => httpIsGzipCodingToken member = true
  | .deflate => httpAsciiEqualsIgnoreCase member (lit "deflate") = true

def SpellsChunked (member : Bytes) : Prop := httpAsciiEqualsIgnoreCase member (lit "chunked") = true

/-- The nonempty members spell `codings` in order, and then `chunked` iff `finalChunked`. -/
def Spells (members : List Bytes) (codings : List HttpTransferCoding) (finalChunked : Bool) : Prop :=
  ∃ front, List.Forall₂ SpellsCoding front codings ∧
    if finalChunked then ∃ last, SpellsChunked last ∧ members = front ++ [last] else members = front

/-- What a walk that found nothing unsupported has read. -/
def Walk.Reads (w : Walk) (members : List Bytes) : Prop :=
  w.unsupported = false → Spells members w.codings w.finalChunked

theorem spells_open_append {members : List Bytes} {codings : List HttpTransferCoding} {member : Bytes}
    {coding : HttpTransferCoding} (h : Spells members codings false) (hm : SpellsCoding member coding) :
    Spells (members ++ [member]) (codings ++ [coding]) false := by
  obtain ⟨front, hfront, hmembers⟩ := h
  subst hmembers
  exact ⟨members ++ [member], List.rel_append hfront (.cons hm .nil), by simp⟩

/-- A parameterless coding is the whole trimmed member. -/
theorem coding_eq_of_no_parameters {item coding : Bytes} (htrim : httpTrimOws item = item)
    (h : httpParseTransferCodingSyntax item = some (coding, false)) : coding = item := by
  simp only [httpParseTransferCodingSyntax] at h
  split at h
  · cases h
  · split at h
    · simp only [Option.some.injEq, Prod.mk.injEq, decide_eq_false_iff_not, Nat.not_lt] at h
      rw [← h.1, List.take_of_length_le h.2, htrim]
    · cases h

theorem visit_reads {w w' : Walk} {members : List Bytes} {item : Bytes}
    (htrim : httpTrimOws item = item) (hreads : w.Reads members) (h : visit w item = some w') :
    w'.Reads (members ++ [item].filter (!·.isEmpty)) := by
  unfold visit at h
  by_cases hempty : item.isEmpty = true
  · rw [if_pos hempty] at h
    obtain rfl := Option.some.inj h
    simpa [hempty] using hreads
  · rw [if_neg hempty] at h
    have hfilter : [item].filter (!·.isEmpty) = [item] := by simp [hempty]
    rw [hfilter]
    by_cases hfinal : w.finalChunked = true
    · rw [if_pos hfinal] at h
      cases h
    · rw [if_neg hfinal] at h
      have hopen : w.finalChunked = false := by simpa using hfinal
      cases hparse : httpParseTransferCodingSyntax item with
      | none => simp [hparse] at h
      | some parsed =>
        obtain ⟨coding, hasParameters⟩ := parsed
        simp only [hparse] at h
        by_cases hchunked : httpAsciiEqualsIgnoreCase coding (lit "chunked") = true
        · rw [if_pos hchunked] at h
          cases hasParameters with
          | true => simp at h
          | false =>
            obtain rfl := coding_eq_of_no_parameters htrim hparse
            obtain rfl := Option.some.inj h
            intro hu
            obtain ⟨front, hfront, hmembers⟩ := hreads hu
            rw [hopen] at hmembers
            simp only [Bool.false_eq_true, if_false] at hmembers
            subst hmembers
            exact ⟨members, hfront, by simpa [SpellsChunked] using hchunked⟩
        · rw [if_neg hchunked] at h
          by_cases hknown : (httpIsGzipCodingToken coding ||
              httpAsciiEqualsIgnoreCase coding (lit "deflate")) = true
          · rw [if_pos hknown] at h
            cases hasParameters with
            | true => simp at h
            | false =>
              obtain rfl := coding_eq_of_no_parameters htrim hparse
              simp only [Bool.false_eq_true, if_false] at h
              split at h
              · obtain rfl := Option.some.inj h
                intro hu
                cases hu
              · obtain rfl := Option.some.inj h
                intro hu
                have hspells := hreads hu
                rw [hopen] at hspells
                refine hopen ▸ spells_open_append hspells ?_
                split
                · assumption
                · rename_i hgzip
                  simpa [SpellsCoding, hgzip] using hknown
          · rw [if_neg hknown] at h
            obtain rfl := Option.some.inj h
            intro hu
            cases hu

theorem visitAll_reads {w w' : Walk} {members items : List Bytes}
    (htrim : ∀ item ∈ items, httpTrimOws item = item) (hreads : w.Reads members)
    (h : visitAll w items = some w') : w'.Reads (members ++ items.filter (!·.isEmpty)) := by
  induction items generalizing w members with
  | nil =>
    obtain rfl := Option.some.inj h
    simpa using hreads
  | cons item items ih =>
    rw [visitAll] at h
    cases hvisit : visit w item with
    | none => simp [hvisit] at h
    | some next =>
      simp only [hvisit] at h
      have hstep := visit_reads (htrim item (by simp)) hreads hvisit
      have hrest := ih (fun i hi => htrim i (by simp [hi])) hstep h
      have hsplit : (item :: items).filter (!·.isEmpty) = [item].filter (!·.isEmpty) ++ items.filter (!·.isEmpty) :=
        @List.filter_append _ _ [item] items
      rw [hsplit, ← List.append_assoc]
      exact hrest

/-! ## The lines read so far -/

/-- The nonempty members of the lines, in order. -/
def membersOf (lines : List Bytes) : List Bytes :=
  (lines.flatMap httpCommaSeparatedQuotedFieldItems).filter (!·.isEmpty)

/-- The state after `lines`: no value iff there was no line, else what their members spell in order. -/
def Reads (state : HttpTransferEncodingState) (lines : List Bytes) : Prop :=
  (state.value = none ↔ lines = []) ∧ state.walk.Reads (membersOf lines)

theorem reads_nil : Reads {} [] := ⟨by simp, fun _ => ⟨[], .nil, by simp [walk, membersOf]⟩⟩

theorem parseField_reads {state state' : HttpTransferEncodingState} {lines : List Bytes} {line : Bytes}
    {status : HttpTransferEncodingParseStatus} (hreads : state.Reads lines)
    (h : state.parseField line = (state', status)) (hstatus : status ≠ .malformed) :
    state'.Reads (lines ++ [line]) := by
  unfold parseField at h
  cases hvisit : visitAll state.walk (httpCommaSeparatedQuotedFieldItems line) with
  | none =>
    simp only [hvisit, Prod.mk.injEq] at h
    exact absurd h.2.symm hstatus
  | some w =>
    simp only [hvisit, Prod.mk.injEq] at h
    rw [← h.1]
    refine ⟨by simp, ?_⟩
    have hw := visitAll_reads (fun i hi => httpTrimOws_of_mem_items hi) hreads.2 hvisit
    have hmembers : membersOf (lines ++ [line]) =
        membersOf lines ++ (httpCommaSeparatedQuotedFieldItems line).filter (!·.isEmpty) := by
      simp [membersOf]
    rw [hmembers]
    exact hw

end HttpTransferEncodingState

end Ruvia.Http
