import Mathlib.Algebra.GroupWithZero.Nat
import Ruvia.Http.Utf8Scan
import Ruvia.Library.EventStream

/-!
# `Http.Sse` — the framing of server-sent events

`format_sse_message`. A message is written as lines that end with LF, and the lines of its data are cut where a
reader sees a line end (`visitSseDataLines`), so that a reader of the frames has each message with data dispatched, its
line ends as LF, and nothing else (`sse_framing`).
-/

namespace Ruvia.Http

open Library EventStream

/-- `sse_message`, the retry delay in milliseconds. -/
structure SseMessage where
  data : Option Bytes := none
  event : Bytes := []
  id : Option Bytes := none
  retry : Option Int := none
  deriving DecidableEq, Repr

/-- The exceptions of `format_sse_message`, with their texts. -/
inductive SseFormatError where
  | invalidArgument (what : String)
  | lengthError (what : String)
  deriving DecidableEq, Repr

def isLineEnd (byte : UInt8) : Bool := byte == cr || byte == lf

/-- What stands behind the line end at the front. -/
def afterLineEnd : Bytes → Option Bytes
  | [] => none
  | 0x0d :: 0x0a :: rest => some rest
  | _ :: rest => some rest

theorem afterLineEnd_length {text rest : Bytes} (h : afterLineEnd text = some rest) : rest.length < text.length := by
  unfold afterLineEnd at h
  split at h
  · cases h
  · cases h
    exact Nat.lt_succ_of_lt (Nat.lt_succ_self _)
  · cases h
    exact Nat.lt_succ_self _

/-- `visit_sse_data_lines`. -/
def visitSseDataLines (data : Bytes) : List Bytes :=
  match _hnext : afterLineEnd (data.dropWhile (!isLineEnd ·)) with
  | none => [data.takeWhile (!isLineEnd ·)]
  | some rest => data.takeWhile (!isLineEnd ·) :: visitSseDataLines rest
termination_by data.length
decreasing_by exact Nat.lt_of_lt_of_le (afterLineEnd_length _hnext) (List.length_dropWhile_le _ _)

example : visitSseDataLines [0x61, 0x0d, 0x0a, 0x62, 0x0d] = [[0x61], [0x62], []] := by decide +kernel

namespace SseMessage

/-- The checks of `format_sse_message`. -/
def check (message : SseMessage) : Option SseFormatError :=
  if message.event.any isLineEnd || message.id.any (·.any isLineEnd) then
    some (.invalidArgument "SSE event and id must not contain CR or LF")
  else if message.id.any (·.contains 0) then some (.invalidArgument "SSE id must not contain a NUL character")
  else if message.retry.any (· < 0) then some (.invalidArgument "SSE retry delay must not be negative")
  else if !isValidUtf8 message.event || message.id.any (!isValidUtf8 ·) || message.data.any (!isValidUtf8 ·) then
    some (.invalidArgument "SSE fields must be valid UTF-8")
  else none

/-- The arguments of `add_size` for each field. -/
def eventSizes (event : Bytes) : List Nat := if event ≠ [] then [7, event.length, 1] else []

def idSizes : Option Bytes → List Nat
  | none => []
  | some id => [3] ++ (if id ≠ [] then [1, id.length] else []) ++ [1]

def retrySizes : Option Int → List Nat
  | none => []
  | some retry => [7, (decimal retry.toNat).length, 1]

def dataSizes : Option Bytes → List Nat
  | none => []
  | some data => (visitSseDataLines data).flatMap fun line => [6, line.length, 1]

/-- `add_size` over its arguments; no value when the frame would exceed the capacity of a string. -/
def addSizes (maxSize : Nat) : Nat → List Nat → Option Nat
  | total, [] => some total
  | total, bytes :: more => if maxSize - total < bytes then none else addSizes maxSize (total + bytes) more

/-- What is appended to the frame for each field. -/
def eventFrame (event : Bytes) : Bytes := if event ≠ [] then lit "event: " ++ event ++ [lf] else []

def idFrame : Option Bytes → Bytes
  | none => []
  | some id => lit "id:" ++ (if id ≠ [] then [blank] ++ id else []) ++ [lf]

def retryFrame : Option Int → Bytes
  | none => []
  | some retry => lit "retry: " ++ decimal retry.toNat ++ [lf]

def dataFrame : Option Bytes → Bytes
  | none => []
  | some data => (visitSseDataLines data).flatMap fun line => lit "data: " ++ line ++ [lf]

def sizes (message : SseMessage) : List Nat :=
  eventSizes message.event ++ idSizes message.id ++ retrySizes message.retry ++ dataSizes message.data

def frame (message : SseMessage) : Bytes :=
  eventFrame message.event ++ idFrame message.id ++ retryFrame message.retry ++ dataFrame message.data ++ [lf]

end SseMessage

/-- `format_sse_message`: the frame, with the size that is reserved for it. -/
def formatSseMessage (maxSize : Nat) (message : SseMessage) : Except SseFormatError (Bytes × Nat) :=
  match message.check with
  | some error => .error error
  | none =>
    match SseMessage.addSizes maxSize 1 message.sizes with
    | none => .error (.lengthError "SSE frame exceeds string capacity")
    | some totalSize => .ok (message.frame, totalSize)

/-! ## What the frames mean -/

/-- A text with every line end as LF. -/
def normalizeLineEnds : Bytes → Bytes
  | [] => []
  | 0x0d :: 0x0a :: rest => lf :: normalizeLineEnds rest
  | 0x0d :: rest => lf :: normalizeLineEnds rest
  | byte :: rest => byte :: normalizeLineEnds rest

/-- What a message does at a reader. -/
def SseMessage.deliver (reader : Reader) (message : SseMessage) : Reader :=
  let reader := { reader with
    lastEventId := message.id.getD reader.lastEventId
    reconnectionTime := (message.retry.map Int.toNat).or reader.reconnectionTime }
  match message.data with
  | none => reader
  | some data => { reader with
      dispatched := reader.dispatched ++ [{
        type := if message.event = [] then lit "message" else message.event
        data := normalizeLineEnds data
        lastEventId := reader.lastEventId
        reconnectionTime := reader.reconnectionTime }] }

/-! ## Lines -/

section

theorem normalizeLineEnds_cons {byte : UInt8} (h : isLineEnd byte = false) (rest : Bytes) :
    normalizeLineEnds (byte :: rest) = byte :: normalizeLineEnds rest := by
  have hcr : byte ≠ 0x0d := by
    rintro rfl
    cases h
  rw [normalizeLineEnds.eq_4]
  · rintro more rfl
    exact absurd rfl hcr
  · exact hcr

theorem normalizeLineEnds_append {line : Bytes} (h : ∀ byte ∈ line, isLineEnd byte = false) (rest : Bytes) :
    normalizeLineEnds (line ++ rest) = line ++ normalizeLineEnds rest := by
  induction line with
  | nil => rfl
  | cons byte line ih =>
    rw [List.cons_append, normalizeLineEnds_cons (h byte List.mem_cons_self),
      ih fun other hother => h other (List.mem_cons_of_mem _ hother)]
    rfl

theorem isLineEnd_eq_false {byte : UInt8} : isLineEnd byte = false ↔ byte ≠ cr ∧ byte ≠ lf := by
  simp [isLineEnd]

theorem oneLine_of_forall {line : Bytes} (h : ∀ byte ∈ line, isLineEnd byte = false) : OneLine line :=
  ⟨fun hmem => (isLineEnd_eq_false.mp (h cr hmem)).1 rfl, fun hmem => (isLineEnd_eq_false.mp (h lf hmem)).2 rfl⟩

theorem takeWhile_line (data : Bytes) : ∀ byte ∈ data.takeWhile (!isLineEnd ·), isLineEnd byte = false := by
  intro byte hbyte
  have hkept := List.mem_takeWhile_imp hbyte
  rwa [Bool.not_eq_true'] at hkept

theorem visitSseDataLines_oneLine (data : Bytes) : ∀ line ∈ visitSseDataLines data, OneLine line := by
  fun_induction visitSseDataLines data with
  | case1 data hnext =>
    intro line hline
    rw [List.mem_singleton.mp hline]
    exact oneLine_of_forall (takeWhile_line data)
  | case2 data rest hnext ih =>
    intro line hline
    rcases List.mem_cons.mp hline with rfl | hline
    · exact oneLine_of_forall (takeWhile_line data)
    · exact ih line hline

theorem visitSseDataLines_ne_nil (data : Bytes) : visitSseDataLines data ≠ [] := by
  rw [visitSseDataLines]
  split <;> exact List.cons_ne_nil _ _

/-- What is in front of the lines that are visited next. -/
theorem normalizeLineEnds_after {text rest : Bytes} (h : afterLineEnd text = some rest)
    (hfront : ∀ byte, text.head? = some byte → isLineEnd byte = true) :
    normalizeLineEnds text = lf :: normalizeLineEnds rest := by
  unfold afterLineEnd at h
  split at h
  · cases h
  · cases h
    rw [normalizeLineEnds]
  · rename_i byte more hpair
    cases h
    have hend := hfront byte rfl
    simp only [isLineEnd, Bool.or_eq_true, beq_iff_eq] at hend
    rcases hend with rfl | rfl
    · rw [normalizeLineEnds.eq_3]
      rintro other rfl
      exact hpair other rfl rfl
    · rw [normalizeLineEnds]
      · exact fun other heq => absurd heq (by decide)
      · decide

theorem head_dropWhile_line (data : Bytes) (byte : UInt8)
    (h : (data.dropWhile (!isLineEnd ·)).head? = some byte) : isLineEnd byte = true := by
  have hstop := List.head?_dropWhile_not (!isLineEnd ·) data
  rw [h] at hstop
  simpa using hstop

/-- **The lines of a text**, each with LF behind it, are the text with its line ends as LF. -/
theorem visitSseDataLines_flatMap (data : Bytes) :
    (visitSseDataLines data).flatMap (fun line => line ++ [lf]) = normalizeLineEnds data ++ [lf] := by
  fun_induction visitSseDataLines data with
  | case1 data hnext =>
    have hrest : data.dropWhile (!isLineEnd ·) = [] := by
      unfold afterLineEnd at hnext
      split at hnext
      · rename_i heq
        exact heq
      · cases hnext
      · cases hnext
    have hdata : data.takeWhile (!isLineEnd ·) = data := by
      have happend := List.takeWhile_append_dropWhile (p := (!isLineEnd ·)) (l := data)
      rw [hrest, List.append_nil] at happend
      exact happend
    have hnormal := normalizeLineEnds_append (takeWhile_line data) []
    rw [hdata, List.append_nil, normalizeLineEnds, List.append_nil] at hnormal
    rw [List.flatMap_singleton, hdata, hnormal]
  | case2 data rest hnext ih =>
    rw [List.flatMap_cons, ih]
    conv_rhs => rw [← List.takeWhile_append_dropWhile (p := (!isLineEnd ·)) (l := data)]
    rw [normalizeLineEnds_append (takeWhile_line data), normalizeLineEnds_after hnext (head_dropWhile_line data)]
    simp

end

/-! ## Frames as lines -/

namespace SseMessage

def eventLines (event : Bytes) : List Bytes := if event ≠ [] then [lit "event" ++ colon :: blank :: event] else []

def idLines : Option Bytes → List Bytes
  | none => []
  | some id => [lit "id" ++ colon :: if id ≠ [] then blank :: id else []]

def retryLines : Option Int → List Bytes
  | none => []
  | some retry => [lit "retry" ++ colon :: blank :: decimal retry.toNat]

def dataLines : Option Bytes → List Bytes
  | none => []
  | some data => (visitSseDataLines data).map fun line => lit "data" ++ colon :: blank :: line

/-- The lines of a frame, the blank one behind them included. -/
def lines (message : SseMessage) : List Bytes :=
  eventLines message.event ++ idLines message.id ++ retryLines message.retry ++ dataLines message.data ++ [[]]

/-- Lines, each with LF behind it. -/
def written (lines : List Bytes) : Bytes := lines.flatMap fun line => line ++ [lf]

theorem eventFrame_eq (event : Bytes) :
    eventFrame event = written (eventLines event) ∧ (eventSizes event).sum = (eventFrame event).length := by
  unfold eventFrame eventLines eventSizes written
  by_cases h : event ≠ []
  · simp only [if_pos h]
    constructor
    · simp [lit]
    · simp [lit]
      omega
  · simp [if_neg h]

theorem idFrame_eq (id : Option Bytes) :
    idFrame id = written (idLines id) ∧ (idSizes id).sum = (idFrame id).length := by
  cases id with
  | none => exact ⟨rfl, rfl⟩
  | some id =>
    unfold idFrame idLines idSizes written
    by_cases h : id ≠ []
    · simp only [if_pos h]
      constructor
      · simp [lit]
      · simp [lit]
        omega
    · simp only [if_neg h]
      exact ⟨rfl, rfl⟩

theorem retryFrame_eq (retry : Option Int) :
    retryFrame retry = written (retryLines retry) ∧ (retrySizes retry).sum = (retryFrame retry).length := by
  cases retry with
  | none => exact ⟨rfl, rfl⟩
  | some retry =>
    unfold retryFrame retryLines retrySizes written
    constructor
    · simp [lit]
    · simp [lit]
      omega

theorem dataFrame_eq (data : Option Bytes) :
    dataFrame data = written (dataLines data) ∧ (dataSizes data).sum = (dataFrame data).length := by
  cases data with
  | none => exact ⟨rfl, rfl⟩
  | some data =>
    unfold dataFrame dataLines dataSizes written
    dsimp only
    constructor
    · rw [List.flatMap_map]
      rfl
    · induction visitSseDataLines data with
      | nil => rfl
      | cons line lines ih =>
        simp only [List.flatMap_cons, List.sum_append, List.length_append, ih]
        simp [lit]
        omega

/-- **A frame is its lines**, each with LF behind it. -/
theorem frame_eq (message : SseMessage) : message.frame = written message.lines := by
  unfold frame lines
  rw [(eventFrame_eq _).1, (idFrame_eq _).1, (retryFrame_eq _).1, (dataFrame_eq _).1]
  simp [written]

/-- **The size that is computed beforehand** is that of the frame. -/
theorem sum_sizes (message : SseMessage) : 1 + message.sizes.sum = message.frame.length := by
  unfold frame sizes
  simp only [List.sum_append, List.length_append, (eventFrame_eq _).2, (idFrame_eq _).2, (retryFrame_eq _).2,
    (dataFrame_eq _).2]
  exact Nat.add_comm _ _

theorem addSizes_eq_some {maxSize total size : Nat} {sizes : List Nat}
    (h : addSizes maxSize total sizes = some size) : size = total + sizes.sum := by
  induction sizes generalizing total with
  | nil => exact (Option.some.inj h).symm
  | cons bytes more ih =>
    rw [addSizes] at h
    split at h
    · cases h
    · rw [ih h, List.sum_cons, Nat.add_assoc]

/-! ## Reading a frame -/

/-- The conditions under which a message is formatted. -/
structure Accepted (message : SseMessage) : Prop where
  event : OneLine message.event
  id : ∀ id, message.id = some id → OneLine id ∧ 0 ∉ id
  retry : ∀ retry, message.retry = some retry → 0 ≤ retry
  text : IsUtf8Text message.event ∧ (∀ id, message.id = some id → IsUtf8Text id) ∧
    ∀ data, message.data = some data → IsUtf8Text data

theorem oneLine_of_any {text : Bytes} (h : text.any isLineEnd = false) : OneLine text :=
  oneLine_of_forall fun byte hbyte => Bool.eq_false_iff.mpr (List.any_eq_false.mp h byte hbyte)

theorem isUtf8Text_of_valid {text : Bytes} (h : isValidUtf8 text = true) : IsUtf8Text text :=
  (isValidUtf8From_iff text 0).mp h

variable {message : SseMessage}

theorem accepted_of_check (h : message.check = none) : message.Accepted := by
  unfold check at h
  split_ifs at h with hline hnul hretry htext
  simp only [Bool.or_eq_true, not_or, Bool.not_eq_true, Bool.not_eq_eq_eq_not] at hline hnul hretry htext
  refine ⟨oneLine_of_any hline.1, fun id hid => ?_, fun retry hretry' => ?_, ?_, fun id hid => ?_, fun data hdata => ?_⟩
  · rw [hid] at hline hnul
    refine ⟨oneLine_of_any hline.2, ?_⟩
    simpa using hnul
  · rw [hretry'] at hretry
    simpa using hretry
  · exact isUtf8Text_of_valid (by simpa using htext.1.1)
  · rw [hid] at htext
    exact isUtf8Text_of_valid (by simpa using htext.1.2)
  · rw [hdata] at htext
    exact isUtf8Text_of_valid (by simpa using htext.2)

section

variable {message : SseMessage} {reader : Reader}

theorem foldl_eventLines (h : reader.eventTypeBuffer = []) (event : Bytes) :
    (eventLines event).foldl processLine reader = { reader with eventTypeBuffer := event } := by
  unfold eventLines
  split
  · rfl
  · rename_i hevent
    rw [not_not.mp hevent, ← h]
    rfl

theorem foldl_idLines {id : Option Bytes} (h : ∀ text, id = some text → 0 ∉ text) :
    (idLines id).foldl processLine reader = { reader with lastEventId := id.getD reader.lastEventId } := by
  cases id with
  | none => rfl
  | some id =>
    have hdrop : dropBlank (if id ≠ [] then blank :: id else []) = id := by
      by_cases hid : id = []
      · rw [if_neg (not_not.mpr hid), hid]
        rfl
      · rw [if_pos hid]
        rfl
    unfold idLines
    rw [List.foldl_cons, List.foldl_nil, processLine_field (by decide) (by decide), hdrop]
    unfold processField
    rw [if_neg (by decide), if_neg (by decide), if_pos rfl, if_neg (h id rfl)]
    rfl

theorem foldl_retryLines (retry : Option Int) :
    (retryLines retry).foldl processLine reader =
      { reader with reconnectionTime := (retry.map Int.toNat).or reader.reconnectionTime } := by
  cases retry with
  | none => rfl
  | some retry =>
    have hdigits : decimal retry.toNat ≠ [] ∧
        (decimal retry.toNat).all (fun byte => 0x30 ≤ byte && byte ≤ 0x39) = true := by
      refine ⟨decimal_ne_nil _, List.all_eq_true.mpr fun byte hbyte => ?_⟩
      have hrange := decimal_digits _ byte hbyte
      simp only [Bool.and_eq_true, decide_eq_true_eq, UInt8.le_iff_toNat_le]
      exact hrange
    unfold retryLines
    rw [List.foldl_cons, List.foldl_nil, processLine_field (by decide) (by decide)]
    unfold processField
    rw [if_neg (by decide), if_neg (by decide), if_neg (by decide), if_pos rfl]
    show (if decimal retry.toNat ≠ [] ∧ (decimal retry.toNat).all (fun byte => 0x30 ≤ byte && byte ≤ 0x39) = true then
      { reader with reconnectionTime := some (decimalNumber (decimal retry.toNat)) } else reader) = _
    rw [if_pos hdigits, decimalNumber_decimal]
    rfl

theorem foldl_lines_data (lines : List Bytes) :
    (lines.map fun line => lit "data" ++ colon :: blank :: line).foldl processLine reader =
      { reader with dataBuffer := reader.dataBuffer ++ written lines } := by
  induction lines generalizing reader with
  | nil => simp [written]
  | cons line lines ih =>
    rw [List.map_cons, List.foldl_cons, ih, show processLine reader (lit "data" ++ colon :: blank :: line) =
      { reader with dataBuffer := reader.dataBuffer ++ line ++ [lf] } from rfl]
    simp [written]

/-- **What the lines of a frame do** at a reader between two events. -/
theorem foldl_lines (h : message.Accepted) (hdata : reader.dataBuffer = []) (htype : reader.eventTypeBuffer = []) :
    message.lines.foldl processLine reader = message.deliver reader := by
  obtain ⟨dataBuffer, eventTypeBuffer, lastEventId, reconnectionTime, dispatched⟩ := reader
  obtain rfl : dataBuffer = [] := hdata
  obtain rfl : eventTypeBuffer = [] := htype
  unfold lines
  simp only [List.foldl_append]
  rw [foldl_eventLines rfl, foldl_idLines fun id hid => (h.id id hid).2, foldl_retryLines]
  unfold deliver dataLines
  cases message.data with
  | none => rfl
  | some data =>
    have hwritten : written (visitSseDataLines data) = normalizeLineEnds data ++ [lf] := visitSseDataLines_flatMap data
    rw [foldl_lines_data, hwritten, List.foldl_cons, List.foldl_nil]
    show dispatch _ = _
    unfold dispatch
    simp

theorem deliver_buffers (hdata : reader.dataBuffer = []) (htype : reader.eventTypeBuffer = []) (message : SseMessage) :
    (message.deliver reader).dataBuffer = [] ∧ (message.deliver reader).eventTypeBuffer = [] := by
  unfold deliver
  cases message.data with
  | none | some data => exact ⟨hdata, htype⟩

def isPrintable (byte : UInt8) : Bool := 0x20 ≤ byte && byte < 0x80

/-- What holds of every line of a frame, for a property that the texts of the message and printable ones have. -/
theorem forall_lines {P : Bytes → Prop} (happend : ∀ front back, P front → P back → P (front ++ back))
    (hplain : ∀ text : Bytes, text.all isPrintable = true → P text)
    (hevent : P message.event)
    (hid : ∀ id, message.id = some id → P id)
    (hdata : ∀ data, message.data = some data → ∀ line ∈ visitSseDataLines data, P line) :
    ∀ line ∈ message.lines, P line := by
  have hname : ∀ name ∈ [lit "event", lit "id", lit "retry", lit "data"], ∀ value, P value →
      P (name ++ colon :: blank :: value) := by
    intro name hname value hvalue
    suffices hfront : P (name ++ [colon, blank]) by
      rw [show name ++ colon :: blank :: value = name ++ [colon, blank] ++ value by simp]
      exact happend _ _ hfront hvalue
    apply hplain
    simp only [List.mem_cons, List.not_mem_nil, or_false] at hname
    rcases hname with rfl | rfl | rfl | rfl <;> decide
  intro line hline
  unfold lines at hline
  simp only [List.mem_append] at hline
  rcases hline with (((hline | hline) | hline) | hline) | hline
  · unfold eventLines at hline
    split at hline
    · rw [List.mem_singleton.mp hline]
      exact hname _ (by simp) _ hevent
    · exact absurd hline List.not_mem_nil
  · cases hvalue : message.id with
    | none =>
      rw [hvalue] at hline
      exact absurd hline List.not_mem_nil
    | some id =>
      rw [hvalue] at hline
      rw [List.mem_singleton.mp hline]
      by_cases hempty : id = []
      · rw [if_neg (not_not.mpr hempty)]
        exact hplain _ (by decide)
      · rw [if_pos hempty]
        exact hname _ (by simp) _ (hid id hvalue)
  · cases hvalue : message.retry with
    | none =>
      rw [hvalue] at hline
      exact absurd hline List.not_mem_nil
    | some retry =>
      rw [hvalue] at hline
      rw [List.mem_singleton.mp hline]
      refine hname _ (by simp) _ (hplain _ (List.all_eq_true.mpr fun byte hbyte => ?_))
      have hrange := decimal_digits _ byte hbyte
      simp only [isPrintable, Bool.and_eq_true, decide_eq_true_eq, UInt8.le_iff_toNat_le, UInt8.lt_iff_toNat_lt]
      exact ⟨Nat.le_trans (by decide) hrange.1, Nat.lt_of_le_of_lt hrange.2 (by decide)⟩
  · cases hvalue : message.data with
    | none =>
      rw [hvalue] at hline
      exact absurd hline List.not_mem_nil
    | some data =>
      rw [hvalue] at hline
      obtain ⟨part, hpart, rfl⟩ := List.mem_map.mp hline
      exact hname _ (by simp) _ (hdata data hvalue part hpart)
  · rw [List.mem_singleton.mp hline]
    exact hplain [] rfl

theorem lines_oneLine (h : message.Accepted) : ∀ line ∈ message.lines, OneLine line := by
  apply forall_lines
  · exact fun _ _ hfront hback => hfront.append hback
  · intro text hplain
    rw [List.all_eq_true] at hplain
    constructor
    · intro hmem
      exact absurd (hplain cr hmem) (by decide)
    · intro hmem
      exact absurd (hplain lf hmem) (by decide)
  · exact h.event
  · exact fun id hid => (h.id id hid).1
  · exact fun data _ => visitSseDataLines_oneLine data

end

/-! ## Frames as text -/

theorem isUtf8Text_afterLineEnd {text rest : Bytes} (h : afterLineEnd text = some rest)
    (hfront : ∀ byte, text.head? = some byte → isLineEnd byte = true) {line : Bytes}
    (htext : IsUtf8Text (line ++ text)) : IsUtf8Text line ∧ IsUtf8Text rest := by
  unfold afterLineEnd at h
  split at h
  · cases h
  · cases h
    obtain ⟨hline, hmore⟩ := htext.split (by decide)
    have hpair : IsUtf8Text ([] ++ lf :: rest) := hmore
    exact ⟨hline, (hpair.split (by decide)).2⟩
  · rename_i byte more _
    cases h
    apply htext.split
    have hend := hfront byte rfl
    simp only [isLineEnd, Bool.or_eq_true, beq_iff_eq] at hend
    rcases hend with rfl | rfl <;> decide

theorem visitSseDataLines_text {data : Bytes} (h : IsUtf8Text data) :
    ∀ line ∈ visitSseDataLines data, IsUtf8Text line := by
  fun_induction visitSseDataLines data with
  | case1 data hnext =>
    intro line hline
    have hcut := List.takeWhile_append_dropWhile (p := (!isLineEnd ·)) (l := data)
    have hrest : data.dropWhile (!isLineEnd ·) = [] := by
      unfold afterLineEnd at hnext
      split at hnext
      · assumption
      · cases hnext
      · cases hnext
    rw [hrest, List.append_nil] at hcut
    rw [List.mem_singleton.mp hline, hcut]
    exact h
  | case2 data rest hnext ih =>
    have hcut := List.takeWhile_append_dropWhile (p := (!isLineEnd ·)) (l := data)
    rw [← hcut] at h
    obtain ⟨hfirst, hrest⟩ := isUtf8Text_afterLineEnd hnext (head_dropWhile_line data) h
    intro line hline
    rcases List.mem_cons.mp hline with rfl | hline
    · exact hfirst
    · exact ih hrest line hline

theorem isUtf8Text_written {lines : List Bytes} (h : ∀ line ∈ lines, IsUtf8Text line) : IsUtf8Text (written lines) := by
  induction lines with
  | nil => exact isUtf8Text_nil
  | cons line lines ih =>
    have hlf : IsUtf8Text [lf] := isUtf8Text_of_ascii (List.forall_mem_singleton.mpr (by decide))
    apply ((h line List.mem_cons_self).append hlf).append
    exact ih fun other hother => h other (List.mem_cons_of_mem _ hother)

theorem lines_text (h : message.Accepted) : ∀ line ∈ message.lines, IsUtf8Text line := by
  obtain ⟨hevent, hid, hdata⟩ := h.text
  apply forall_lines
  · exact fun _ _ hfront hback => hfront.append hback
  · intro text hplain
    refine isUtf8Text_of_ascii fun byte hbyte => ?_
    have hbyte' := List.all_eq_true.mp hplain byte hbyte
    simp only [isPrintable, Bool.and_eq_true, decide_eq_true_eq] at hbyte'
    exact hbyte'.2
  · exact hevent
  · exact hid
  · exact fun data hvalue => visitSseDataLines_text (hdata data hvalue)

end SseMessage

/-! ## Results -/

open SseMessage

theorem formatSseMessage_ok {maxSize : Nat} {message : SseMessage} {frame : Bytes × Nat}
    (h : formatSseMessage maxSize message = .ok frame) :
    message.Accepted ∧ frame.1 = written message.lines ∧ frame.2 = frame.1.length := by
  unfold formatSseMessage at h
  split at h
  · cases h
  · rename_i hcheck
    split at h
    · cases h
    · rename_i totalSize hsize
      cases h
      refine ⟨accepted_of_check hcheck, message.frame_eq, ?_⟩
      rw [addSizes_eq_some hsize, sum_sizes]

theorem written_flatMap (messages : List SseMessage) :
    written (messages.flatMap SseMessage.lines) = messages.flatMap fun message => written message.lines := by
  unfold written
  rw [List.flatMap_assoc]

/-- A frame starts with the name of a field or is the blank line of a message without fields, never with a byte order
    mark. -/
theorem lines_written (messages : List SseMessage) :
    EventStream.lines (written (messages.flatMap SseMessage.lines)) =
      linesFrom [] (written (messages.flatMap SseMessage.lines)) := by
  rcases messages with _ | ⟨message, messages⟩
  · rfl
  have hfirst : ∃ byte more, byte ≠ 0xef ∧ written message.lines = byte :: more := by
    rw [← message.frame_eq]
    unfold frame
    by_cases hevent : message.event = []
    · rw [show eventFrame message.event = [] from if_neg (not_not.mpr hevent), List.nil_append]
      cases message.id with
      | some id => exact ⟨_, _, by decide, rfl⟩
      | none =>
        cases message.retry with
        | some retry => exact ⟨_, _, by decide, rfl⟩
        | none =>
          cases message.data with
          | none => exact ⟨_, _, by decide, rfl⟩
          | some data =>
            obtain ⟨line, lines, hlines⟩ := List.exists_cons_of_ne_nil (visitSseDataLines_ne_nil data)
            unfold dataFrame
            dsimp only
            rw [hlines]
            exact ⟨_, _, by decide, rfl⟩
    · rw [show eventFrame message.event = lit "event: " ++ message.event ++ [lf] from if_pos hevent]
      exact ⟨_, _, by decide, rfl⟩
  obtain ⟨byte, more, hbyte, heq⟩ := hfirst
  rw [written_flatMap, List.flatMap_cons, heq]
  exact lines_of_ascii hbyte _

variable {messages : List SseMessage}

theorem foldl_messages (h : ∀ message ∈ messages, message.Accepted) {reader : Reader} (hdata : reader.dataBuffer = [])
    (htype : reader.eventTypeBuffer = []) :
    (messages.flatMap SseMessage.lines).foldl processLine reader = messages.foldl SseMessage.deliver reader := by
  induction messages generalizing reader with
  | nil => rfl
  | cons message messages ih =>
    have hafter := deliver_buffers hdata htype message
    rw [List.flatMap_cons, List.foldl_append, foldl_lines (h message List.mem_cons_self) hdata htype, List.foldl_cons]
    exact ih (fun other hother => h other (List.mem_cons_of_mem _ hother)) hafter.1 hafter.2

theorem formatted {maxSize : Nat} {frames : List (Bytes × Nat)}
    (h : List.Forall₂ (fun message frame => formatSseMessage maxSize message = .ok frame) messages frames) :
    (∀ message ∈ messages, message.Accepted) ∧
      frames.flatMap (·.1) = written (messages.flatMap SseMessage.lines) ∧
      ∀ frame ∈ frames, frame.2 = frame.1.length := by
  induction h with
  | nil => exact ⟨fun _ hmem => absurd hmem List.not_mem_nil, rfl, fun _ hmem => absurd hmem List.not_mem_nil⟩
  | @cons message frame messages frames hframe _ ih =>
    obtain ⟨haccepted, heq, hsizes⟩ := ih
    obtain ⟨hfirst, hbytes, hsize⟩ := formatSseMessage_ok hframe
    refine ⟨List.forall_mem_cons.mpr ⟨hfirst, haccepted⟩, ?_, List.forall_mem_cons.mpr ⟨hsize, hsizes⟩⟩
    rw [List.flatMap_cons, heq, hbytes, written_flatMap, written_flatMap, List.flatMap_cons]

/-- **Reading what has been formatted.** A reader of the frames of messages that the formatter has accepted dispatches
    an event for each message with data, in their order, with its event type, the last id and the last retry delay so
    far, and its data with every line end as LF; nothing else is dispatched or left in the buffers. The frames are
    UTF-8, and the size that is computed beforehand is the length of the frame. -/
theorem sse_framing {maxSize : Nat} {messages : List SseMessage} {frames : List (Bytes × Nat)}
    (h : List.Forall₂ (fun message frame => formatSseMessage maxSize message = .ok frame) messages frames) :
    EventStream.read (frames.flatMap (·.1)) = messages.foldl SseMessage.deliver {} ∧ IsUtf8Text (frames.flatMap (·.1)) ∧
      ∀ frame ∈ frames, frame.2 = frame.1.length := by
  obtain ⟨haccepted, hframes, hsizes⟩ := formatted h
  have hlines : ∀ line ∈ messages.flatMap SseMessage.lines, OneLine line ∧ IsUtf8Text line := by
    intro line hline
    obtain ⟨message, hmessage, hline⟩ := List.mem_flatMap.mp hline
    exact ⟨lines_oneLine (haccepted message hmessage) line hline, lines_text (haccepted message hmessage) line hline⟩
  rw [hframes]
  refine ⟨?_, isUtf8Text_written fun line hline => (hlines line hline).2, hsizes⟩
  unfold EventStream.read
  rw [lines_written, written, linesFrom_flatMap fun line hline => (hlines line hline).1]
  exact foldl_messages haccepted rfl rfl

/-- Two messages, with data that would forge a third one if its lines were not cut where the reader cuts them. -/
theorem sse_framing_forged :
    (EventStream.read (lit "id: 7\ndata: a\ndata: \n\nretry: 50\ndata: \ndata: id: 8\ndata: \n\n")).dispatched =
      [⟨lit "message", lit "a\n", lit "7", none⟩, ⟨lit "message", lit "\nid: 8\n", lit "7", some 50⟩] := by
  have hread := (@sse_framing 100
    [{ data := some (lit "a\r\n"), id := some (lit "7") }, { data := some (lit "\rid: 8\r"), retry := some 50 }]
    [(lit "id: 7\ndata: a\ndata: \n\n", 22), (lit "retry: 50\ndata: \ndata: id: 8\ndata: \n\n", 37)]
    (.cons (by decide +kernel) (.cons (by decide +kernel) .nil))).1
  exact (congrArg Reader.dispatched hread).trans (by decide +kernel)

end Ruvia.Http
