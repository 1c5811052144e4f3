import Ruvia.Http.FieldSection

/-!
# `Http.TrailerBlock` — the received trailer block

`visit_http1_trailer_block` of `http_trailer_fields.h`: one field line after the other, each with its folds
when obs-fold is accepted. Views into the block are spans `[start, stop)`.
-/

namespace Ruvia.Http

open Library

inductive Http1TrailerObsFold where
  | reject
  | accept
  deriving DecidableEq, Repr

inductive HttpTrailerBlockStatus where
  | ok
  | invalidField
  | sectionTooLarge
  | visitorStopped
  deriving DecidableEq, Repr

/-- Index of the first CRLF at or after `off`. -/
def findCrlf (block : Bytes) (off : Nat) : Option Nat :=
  findFrom (fun pair => pair == (cr, lf)) (block.zip (block.drop 1)) off

/-- A borrowed view of a block. -/
structure Span where
  start : Nat
  stop : Nat
  deriving DecidableEq, Repr

namespace Span

def bytes (span : Span) (block : Bytes) : Bytes := sub block span.start (span.stop - span.start)

def size (span : Span) : Nat := span.stop - span.start

/-- `http_trim_ows` of a view. -/
def trimOws (span : Span) (block : Bytes) : Span :=
  let view := span.bytes block
  let front := (view.takeWhile isHttpOwsChar).length
  ⟨span.start + front, span.start + front + (httpTrimOws view).length⟩

end Span

/-- One received field: its name, its value span and the end of its last line. -/
structure TrailerField where
  value : Span
  valueBytes : Nat
  lineEnd : Option Nat

/-- The piece loop of one field: the first piece and every continuation line behind an accepted fold. -/
def visitFieldPieces (block : Bytes) (obsFold : Http1TrailerObsFold) :
    Nat → Option Nat → Span → Span → Nat → Nat → Option TrailerField
  | 0, _, _, _, _, _ => none
  | fuel + 1, lineEnd, piece, value, valueBytes, pendingSeparators =>
    if isValidHttpFieldValueBytes (piece.bytes block) = false then none
    else
      let empty := piece.size = 0
      let value := if empty then value else if valueBytes = 0 then piece else ⟨value.start, piece.stop⟩
      let bytes :=
        if empty then valueBytes
        else if valueBytes = 0 then piece.size
        else valueBytes + pendingSeparators + piece.size
      let pending := if empty then pendingSeparators else 0
      match lineEnd with
      | none => some ⟨value, bytes, none⟩
      | some stop =>
        if obsFold = .reject ∨ block.length ≤ stop + 2 ∨
            isHttpOwsChar ((block[stop + 2]?).getD 0) = false then
          some ⟨value, bytes, some stop⟩
        else
          let next := findCrlf block (stop + 2)
          let line : Span := ⟨stop + 2, next.getD block.length⟩
          visitFieldPieces block obsFold fuel next (line.trimOws block) value bytes (pending + 1)

/-- The field loop, threading the budget and the visitor's state. -/
def visitTrailerFields {σ : Type} (block : Bytes) (obsFold : Http1TrailerObsFold)
    (discardedName : Bytes → Bool) (visitor : σ → Bytes → Bytes → σ × Bool) :
    Nat → Nat → HttpFieldSectionBudget → σ → HttpTrailerBlockStatus × HttpFieldSectionBudget × σ
  | 0, _, budget, s => (.invalidField, budget, s)
  | fuel + 1, cursor, budget, s =>
    if block.length ≤ cursor then (.ok, budget, s)
    else
      let lineEnd := findCrlf block cursor
      let line : Span := ⟨cursor, lineEnd.getD block.length⟩
      let text := line.bytes block
      let colonAt := httpTokenPrefixSize text
      if colonAt = 0 ∨ text[colonAt]? ≠ some colon then (.invalidField, budget, s)
      else
        let name := text.take colonAt
        let piece : Span := (Span.mk (cursor + colonAt + 1) line.stop).trimOws block
        match visitFieldPieces block obsFold (block.length + 1) lineEnd piece piece 0 0 with
        | none => (.invalidField, budget, s)
        | some field =>
          match budget.addField name.length field.valueBytes with
          | none => (.sectionTooLarge, budget, s)
          | some charged =>
            let (s', keep) :=
              if discardedName name then (s, true) else visitor s name (field.value.bytes block)
            if keep = false then (.visitorStopped, charged, s')
            else
              match field.lineEnd with
              | none => (.ok, charged, s')
              | some stop =>
                visitTrailerFields block obsFold discardedName visitor fuel (stop + 2) charged s'

def visitHttp1TrailerBlock {σ : Type} (block : Bytes) (obsFold : Http1TrailerObsFold)
    (discardedName : Bytes → Bool) (budget : HttpFieldSectionBudget)
    (visitor : σ → Bytes → Bytes → σ × Bool) (s : σ) :
    HttpTrailerBlockStatus × HttpFieldSectionBudget × σ :=
  if maxHttpHeaderBytes < block.length then (.sectionTooLarge, budget, s)
  else visitTrailerFields block obsFold discardedName visitor (block.length + 1) 0 budget s

end Ruvia.Http
