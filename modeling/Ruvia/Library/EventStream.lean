import Ruvia.Library.Decimal

/-!
# `Library.EventStream` — reading a server-sent event stream

The event stream of the HTML standard: a stream of lines that end with CR LF, LF or CR, interpreted one by one
(`processLine`), where a blank line dispatches the event that the lines before it have gathered. The bytes are those of
a UTF-8 text, whose structure is in its ASCII bytes.
-/

namespace Library

namespace EventStream

abbrev cr : UInt8 := 0x0d

abbrev lf : UInt8 := 0x0a

abbrev colon : UInt8 := 0x3a

abbrev blank : UInt8 := 0x20

/-- An event that has been dispatched, with the reconnection time that was in force. -/
structure Event where
  type : Bytes
  data : Bytes
  lastEventId : Bytes
  reconnectionTime : Option Nat
  deriving DecidableEq, Repr

/-- The buffers of the reader, and the events dispatched. -/
structure Reader where
  dataBuffer : Bytes := []
  eventTypeBuffer : Bytes := []
  lastEventId : Bytes := []
  reconnectionTime : Option Nat := none
  dispatched : List Event := []
  deriving DecidableEq, Repr

/-- The lines that are complete; the ones in front of them are the bytes of the line so far. -/
def linesFrom : Bytes → Bytes → List Bytes
  | _, [] => []
  | line, 0x0d :: 0x0a :: rest => line :: linesFrom [] rest
  | line, 0x0d :: rest => line :: linesFrom [] rest
  | line, 0x0a :: rest => line :: linesFrom [] rest
  | line, byte :: rest => linesFrom (line ++ [byte]) rest

/-- The lines of a stream, behind a byte order mark. -/
def lines : Bytes → List Bytes
  | 0xef :: 0xbb :: 0xbf :: stream => linesFrom [] stream
  | stream => linesFrom [] stream

/-- "Process the field". -/
def processField (reader : Reader) (field value : Bytes) : Reader :=
  if field = lit "event" then { reader with eventTypeBuffer := value }
  else if field = lit "data" then { reader with dataBuffer := reader.dataBuffer ++ value ++ [lf] }
  else if field = lit "id" then if 0 ∈ value then reader else { reader with lastEventId := value }
  else if field = lit "retry" then
    if value ≠ [] ∧ value.all (fun byte => 0x30 ≤ byte && byte ≤ 0x39) = true then
      { reader with reconnectionTime := some (decimalNumber value) }
    else reader
  else reader

/-- "Dispatch the event". -/
def dispatch (reader : Reader) : Reader :=
  if reader.dataBuffer = [] then { reader with eventTypeBuffer := [] }
  else
    { reader with
      dataBuffer := []
      eventTypeBuffer := []
      dispatched := reader.dispatched ++ [{
        type := if reader.eventTypeBuffer = [] then lit "message" else reader.eventTypeBuffer
        data := if reader.dataBuffer.getLast? = some lf then reader.dataBuffer.dropLast else reader.dataBuffer
        lastEventId := reader.lastEventId
        reconnectionTime := reader.reconnectionTime }] }

/-- One blank in front of a value is not part of it. -/
def dropBlank : Bytes → Bytes
  | 0x20 :: value => value
  | value => value

/-- The interpretation of a line. -/
def processLine (reader : Reader) (line : Bytes) : Reader :=
  if line = [] then dispatch reader
  else if line.head? = some colon then reader
  else if colon ∈ line then
    processField reader (line.takeWhile (· ≠ colon)) (dropBlank ((line.dropWhile (· ≠ colon)).drop 1))
  else processField reader line []

/-- **The reader**: what is left at the end of the stream without a blank line is discarded. -/
def read (stream : Bytes) : Reader := (lines stream).foldl processLine {}

/-! ## Lines -/

section

variable {line rest : Bytes}

/-- No line ends inside. -/
def OneLine (line : Bytes) : Prop := cr ∉ line ∧ lf ∉ line

theorem OneLine.append {line' : Bytes} (h : OneLine line) (h' : OneLine line') : OneLine (line ++ line') := by
  unfold OneLine at *
  simp only [List.mem_append, not_or]
  exact ⟨⟨h.1, h'.1⟩, h.2, h'.2⟩

theorem linesFrom_cons {byte : UInt8} (hcr : byte ≠ cr) (hlf : byte ≠ lf) (front rest : Bytes) :
    linesFrom front (byte :: rest) = linesFrom (front ++ [byte]) rest := by
  rw [linesFrom.eq_5]
  · rintro more rfl -
    exact hcr rfl
  · exact hcr
  · exact hlf

/-- A line up to its LF. -/
theorem linesFrom_append (h : OneLine line) (front rest : Bytes) :
    linesFrom front (line ++ lf :: rest) = (front ++ line) :: linesFrom [] rest := by
  induction line generalizing front with
  | nil => rw [List.nil_append, List.append_nil, linesFrom]
  | cons byte line ih =>
    obtain ⟨hcr, hlf⟩ := h
    simp only [List.mem_cons, not_or] at hcr hlf
    rw [List.cons_append, linesFrom_cons (Ne.symm hcr.1) (Ne.symm hlf.1), ih ⟨hcr.2, hlf.2⟩, List.append_assoc]
    rfl

/-- Lines that each end with LF. -/
theorem linesFrom_flatMap {lines : List Bytes} (h : ∀ line ∈ lines, OneLine line) :
    linesFrom [] (lines.flatMap fun line => line ++ [lf]) = lines := by
  induction lines with
  | nil => rfl
  | cons line lines ih =>
    rw [List.flatMap_cons, List.append_assoc, List.singleton_append, linesFrom_append (h line List.mem_cons_self),
      ih fun line hline => h line (List.mem_cons_of_mem _ hline)]
    rfl

/-- A stream that starts with an ASCII byte has no byte order mark. -/
theorem lines_of_ascii {byte : UInt8} (h : byte ≠ 0xef) (rest : Bytes) :
    lines (byte :: rest) = linesFrom [] (byte :: rest) := by
  unfold lines
  split
  · rename_i heq
    exact absurd (List.cons.inj heq).1 h
  · rfl

end

/-! ## Fields -/

section

variable {reader : Reader} {field value : Bytes}

theorem takeWhile_colon (h : colon ∉ field) (rest : Bytes) :
    (field ++ colon :: rest).takeWhile (· ≠ colon) = field ∧
      (field ++ colon :: rest).dropWhile (· ≠ colon) = colon :: rest := by
  have hall : ∀ byte ∈ field, decide (byte ≠ colon) = true := by
    intro byte hbyte
    rw [decide_eq_true_eq]
    rintro rfl
    exact h hbyte
  constructor
  · rw [List.takeWhile_append_of_pos hall]
    simp
  · rw [List.dropWhile_append_of_pos hall]
    simp

/-- A line with a field name, a colon and what stands behind it. -/
theorem processLine_field (hne : field ≠ []) (h : colon ∉ field) (rest : Bytes) :
    processLine reader (field ++ colon :: rest) = processField reader field (dropBlank rest) := by
  obtain ⟨first, more, rfl⟩ := List.exists_cons_of_ne_nil hne
  obtain ⟨htake, hdrop⟩ := takeWhile_colon h rest
  unfold processLine
  rw [if_neg (by simp), if_neg, if_pos (by simp), htake, hdrop]
  · rfl
  · simp only [List.cons_append, List.head?_cons, Option.some.injEq]
    rintro rfl
    exact h List.mem_cons_self

end

end EventStream

end Library
