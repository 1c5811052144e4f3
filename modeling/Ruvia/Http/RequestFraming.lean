import Ruvia.Http.RequestHeadDelivery

/-!
# `Http.RequestFraming` — a ready head frames its content unambiguously

A head is read against its grammar: a request line and field lines (`RequestHead`). The parser reads exactly
the heads of that grammar (`parseHeadText_sound`, `parseHeadText_head`), and what it has accumulated after
some lines is a property of these lines alone (`FieldsRead`, kept by every field: `parseHeaderFields_read`).
The framing guarantees are then read off the lines (`parseHead_framing`).
-/

namespace Ruvia.Http

open Library

/-! ## The grammar of a head -/

/-- A request line and the field lines behind it. -/
structure RequestHead where
  method : Bytes
  target : Bytes
  version : Bytes
  lines : List Http1FieldLine
  method_ne : method ≠ []
  method_token : ∀ b ∈ method, isHttpTokenChar b = true
  target_ne : target ≠ []
  target_byte : ∀ b ∈ target, isTargetByte b = true
  version_ne : version ≠ []
  version_byte : ∀ b ∈ version, isTargetByte b = true

namespace RequestHead

def requestLine (head : RequestHead) : Bytes :=
  head.method ++ sp :: (head.target ++ sp :: (head.version ++ [cr, lf]))

/-- The head without the empty line that ends it. -/
def text (head : RequestHead) : Bytes := head.requestLine ++ head.lines.flatMap Http1FieldLine.bytes

end RequestHead

/-- The values of the field lines of one name, in order. -/
def valuesNamed (name : Bytes) (lines : List Http1FieldLine) : List Bytes :=
  (lines.filter fun line => httpAsciiEqualsIgnoreCase line.name name).map (·.value)

theorem valuesNamed_append (name : Bytes) (lines : List Http1FieldLine) (line : Http1FieldLine) :
    valuesNamed name (lines ++ [line]) =
      valuesNamed name lines ++
        if httpAsciiEqualsIgnoreCase line.name name then [line.value] else [] := by
  rw [valuesNamed, List.filter_append, List.map_append, valuesNamed]
  by_cases h : httpAsciiEqualsIgnoreCase line.name name = true <;> simp [h]

/-! ## The parser reads the grammar -/

section

variable {p : UInt8 → Bool} {y t : Bytes} {b : UInt8}

theorem takeWhile_run (hy : ∀ c ∈ y, p c = true) (hb : p b = false) : (y ++ b :: t).takeWhile p = y := by
  rw [takeWhile_append_stop hb, List.takeWhile_eq_self_iff.mpr hy]

theorem dropWhile_run (hy : ∀ c ∈ y, p c = true) (hb : p b = false) : (y ++ b :: t).dropWhile p = b :: t := by
  rw [dropWhile_append_stop hb, List.dropWhile_eq_nil_iff.mpr hy, List.nil_append]

end

/-- **The scan of a field line gives its name and value back.** -/
theorem scanHttp1FieldLine_bytes (line : Http1FieldLine) (rest : Bytes) :
    scanHttp1FieldLine (line.bytes ++ rest) = some (line.name, line.value, rest) := by
  have hcolon : isHttpTokenChar colon = false := by decide
  have hcr : isHttpFieldValueChar cr = false := by decide
  have hows : isHttpOwsChar cr = false := by decide
  have howsValue : ∀ b, isHttpOwsChar b = true → isHttpFieldValueChar b = true := by
    intro b hb
    simp only [isHttpOwsChar, Bool.or_eq_true, beq_iff_eq] at hb
    rcases hb with rfl | rfl <;> decide
  have htext : line.bytes ++ rest = line.name ++ colon ::
      (line.before ++ (line.value ++ (line.behind ++ cr :: lf :: rest))) := by
    simp [Http1FieldLine.bytes, Http1FieldLine.text]
  have hname : (line.name ++ colon :: (line.before ++ (line.value ++ (line.behind ++ cr :: lf :: rest)))).takeWhile
      isHttpTokenChar = line.name := takeWhile_run line.name_token hcolon
  -- the run of value bytes behind the leading whitespace, and what is left of it without its end
  have hrun : ∃ run, (∀ b ∈ run, isHttpFieldValueChar b = true) ∧
      run.rdropWhile isHttpOwsChar = line.value ∧
      (line.before ++ (line.value ++ (line.behind ++ cr :: lf :: rest))).dropWhile isHttpOwsChar =
        run ++ cr :: lf :: rest := by
    have htrimmed : line.value.rdropWhile isHttpOwsChar = line.value := by
      conv_rhs => rw [← line.value_trimmed, httpTrimOws]
      conv_lhs => rw [← line.value_trimmed, httpTrimOws]
      exact List.rdropWhile_idempotent _ _
    cases hv : line.value with
    | nil =>
      refine ⟨[], by simp, by simp, ?_⟩
      rw [List.nil_append, ← List.append_assoc, List.nil_append]
      refine dropWhile_run (fun c hc => ?_) hows
      rcases List.mem_append.mp hc with hc | hc
      · exact line.before_ows c hc
      · exact line.behind_ows c hc
    | cons c value =>
      refine ⟨line.value ++ line.behind, fun b hb => ?_, ?_, ?_⟩
      · rcases List.mem_append.mp hb with hb | hb
        · exact line.value_char b hb
        · exact howsValue b (line.behind_ows b hb)
      · rw [List.rdropWhile, List.reverse_append, List.dropWhile_append_of_pos, ← List.rdropWhile, htrimmed, hv]
        intro b hb
        exact line.behind_ows b (List.mem_reverse.mp hb)
      · have hc : isHttpOwsChar c = false := by
          refine isHttpOwsChar_head_dropWhile line.value c ?_
          have hprefix : line.value <+: line.value.dropWhile isHttpOwsChar := by
            conv_lhs => rw [← line.value_trimmed]
            exact List.rdropWhile_prefix _ _
          obtain ⟨tail, htail⟩ := hprefix
          rw [← htail, hv]
          rfl
        rw [List.dropWhile_append_of_pos line.before_ows, hv, List.cons_append,
          List.dropWhile_cons_of_neg (by simp [hc])]
        simp
  obtain ⟨run, hchars, hvalue, hbehind⟩ := hrun
  rw [htext]
  simp only [scanHttp1FieldLine, httpTokenPrefixSize_eq, httpFieldValuePrefixSize, hname]
  have hne : line.name.length ≠ 0 := fun h => line.name_ne (List.eq_nil_of_length_eq_zero h)
  have hget : (line.name ++ colon :: (line.before ++ (line.value ++ (line.behind ++ cr :: lf ::
    rest))))[line.name.length]? =
      some colon := by
    rw [List.getElem?_append_right le_rfl, Nat.sub_self]
    rfl
  rw [if_neg (by rw [hget]; simpa using hne)]
  have hdrop : (line.name ++ colon :: (line.before ++ (line.value ++ (line.behind ++ cr :: lf :: rest)))).drop
      (line.name.length + 1) = line.before ++ (line.value ++ (line.behind ++ cr :: lf :: rest)) := by
    rw [← List.drop_drop, List.drop_left]
    rfl
  rw [hdrop, hbehind, takeWhile_run hchars hcr, List.drop_left, List.take_left, List.take_left, hvalue]
  simp

/-- The parsed request line is the request line of the text. -/
theorem parseRequestLine_sound {text rest : Bytes} {line : ParsedRequestLine}
    (h : parseRequestLine text = .ok (line, rest)) :
    ∃ version, line.method ≠ [] ∧ (∀ b ∈ line.method, isHttpTokenChar b = true) ∧
      line.target ≠ [] ∧ (∀ b ∈ line.target, isTargetByte b = true) ∧
      version ≠ [] ∧ (∀ b ∈ version, isTargetByte b = true) ∧
      parseHttpVersion version = .ok line.protocolVersion ∧
      text = line.method ++ sp :: (line.target ++ sp :: (version ++ cr :: lf :: rest)) := by
  simp only [parseRequestLine] at h
  split at h
  · cases h
  · rename_i c afterMethod hmethod
    split at h
    · cases h
    · rename_i hc
      obtain ⟨hmne, hsp⟩ := not_or.mp hc
      rw [not_not] at hsp
      split at h
      · cases h
      · rename_i d afterTarget htarget
        split at h
        · cases h
        · rename_i hd
          obtain ⟨htne, hsp'⟩ := not_or.mp hd
          rw [not_not] at hsp'
          split at h
          · rename_i e f rest' hversion
            split at h
            · cases h
            · rename_i hef
              obtain ⟨hvne, hef⟩ := not_or.mp hef
              obtain ⟨he, hf⟩ := not_or.mp hef
              rw [not_not] at he hf
              split at h
              · cases h
              · rename_i protocolVersion hparse
                obtain ⟨rfl, rfl⟩ := h
                subst hsp hsp' he hf
                refine ⟨afterTarget.takeWhile isTargetByte, by simpa using hmne,
                  fun b => List.mem_takeWhile_imp, by simpa using htne, fun b => List.mem_takeWhile_imp,
                  by simpa using hvne, fun b => List.mem_takeWhile_imp, hparse, ?_⟩
                simp only
                rw [← hversion, List.takeWhile_append_dropWhile, ← htarget, List.takeWhile_append_dropWhile,
                  ← hmethod, List.takeWhile_append_dropWhile]
          · cases h

/-- A request line of the grammar is read as it is spelled. -/
theorem parseRequestLine_head (head : RequestHead) (rest : Bytes) :
    parseRequestLine (head.requestLine ++ rest) =
      match parseHttpVersion head.version with
      | .error error => .error error
      | .ok version => .ok (⟨head.method, head.target, version⟩, rest) := by
  have hsp : isHttpTokenChar sp = false := by decide
  have hsp' : isTargetByte sp = false := by decide
  have hcr : isTargetByte cr = false := by decide
  have htext : head.requestLine ++ rest =
      head.method ++ sp :: (head.target ++ sp :: (head.version ++ cr :: lf :: rest)) := by
    simp [RequestHead.requestLine]
  simp only [htext, parseRequestLine, takeWhile_run head.method_token hsp, dropWhile_run head.method_token hsp,
    takeWhile_run head.target_byte hsp', dropWhile_run head.target_byte hsp',
    takeWhile_run head.version_byte hcr, dropWhile_run head.version_byte hcr]
  cases parseHttpVersion head.version <;> simp [head.method_ne, head.target_ne, head.version_ne]

/-! ## What the fields have accumulated -/

/-- The slot of a field line. -/
def Http1FieldLine.slot (line : Http1FieldLine) : ParsedRequestHeader :=
  ⟨line.name, line.value, classifyRequestHeader line.name⟩

/-- **What a block has read from the field lines so far.** -/
structure FieldsRead (lines : List Http1FieldLine) (block : ParsedRequestHeaderBlock) : Prop where
  headers : block.headers = lines.map Http1FieldLine.slot
  contentLength : block.contentLength.Reads (valuesNamed (lit "Content-Length") lines)
  transferEncoding : block.transferEncoding.Reads (valuesNamed (lit "Transfer-Encoding") lines)
  seen : .host ∈ block.fields.seen ↔ block.hostHeaderIndex ≠ none
  host : if block.hostHeaderIndex = none then valuesNamed (lit "Host") lines = []
    else ∃ value, valuesNamed (lit "Host") lines = [value]
  hostIndex_lt : ∀ j, block.hostHeaderIndex = some j → j < lines.length
  hostIndex : ∀ j line, lines[j]? = some line →
    (httpAsciiEqualsIgnoreCase line.name (lit "Host") = true ↔ block.hostHeaderIndex = some j)

theorem classify_host_iff (name : Bytes) :
    classifyRequestHeader name = .host ↔ httpAsciiEqualsIgnoreCase name (lit "Host") = true :=
  classifyRequestHeader_eq_iff (by decide +kernel)

theorem classify_contentLength_iff (name : Bytes) :
    classifyRequestHeader name = .contentLength ↔
      httpAsciiEqualsIgnoreCase name (lit "Content-Length") = true :=
  classifyRequestHeader_eq_iff (by decide +kernel)

theorem classify_transferEncoding_iff (name : Bytes) :
    classifyRequestHeader name = .transferEncoding ↔
      httpAsciiEqualsIgnoreCase name (lit "Transfer-Encoding") = true :=
  classifyRequestHeader_eq_iff (by decide +kernel)

variable {kind : RequestHeaderKind} {value : Bytes}

theorem validateRequestField_seen {state state' : RequestFieldState}
    (h : validateRequestField kind value state = (state', .ok)) :
    (.host ∈ state'.seen ↔ kind = .host ∨ .host ∈ state.seen) ∧
      (kind = .host → .host ∉ state.seen) := by
  unfold validateRequestField at h
  split at h
  · simp at h
  · split at h
    · rename_i hkind
      simp only [Prod.mk.injEq, and_true] at h
      subst h
      have hne : kind ≠ .host := by
        rintro rfl
        simp at hkind
      simp [hne]
    · split at h
      · split at h
        · simp at h
        · rename_i hmem
          simp only [Prod.mk.injEq, and_true] at h
          subst h
          constructor
          · simp [eq_comm]
          · rintro rfl
            exact hmem
      · rename_i honce
        simp only [Prod.mk.injEq, and_true] at h
        subst h
        have hne : kind ≠ .host := by
          rintro rfl
          simp [isOnceOnly] at honce
        simp [hne]

variable {block : ParsedRequestHeaderBlock}

/-- What accepting one field does to the parts of the block that frame the content. -/
theorem applyRequestHeader_ok {ignoreUpgrade : Bool} {applied : ParsedRequestHeaderBlock}
    (h : applyRequestHeader kind value ignoreUpgrade block = .ok applied) :
    applied.method = block.method ∧ applied.target = block.target ∧
      applied.protocolVersion = block.protocolVersion ∧ applied.headers = block.headers ∧
      applied.hostHeaderIndex = block.hostHeaderIndex ∧
      validateRequestField kind value block.fields = (applied.fields, .ok) ∧
      (if kind = .contentLength then block.contentLength.parseField value = (applied.contentLength, .ok)
        else applied.contentLength = block.contentLength) ∧
      (if kind = .transferEncoding then
          ∃ status, block.transferEncoding.parseField value = (applied.transferEncoding, status) ∧
            status ≠ .malformed
        else applied.transferEncoding = block.transferEncoding) := by
  unfold applyRequestHeader at h
  cases hvalid : validateRequestField kind value block.fields with
  | mk fields status =>
    cases status with
    | invalid => simp [hvalid] at h
    | ok =>
      simp only [hvalid] at h
      split at h
      · cases hparse : block.contentLength.parseField value with
        | mk contentLength status => cases status <;> simp_all; subst h; simp
      · cases hparse : block.transferEncoding.parseField value with
        | mk transferEncoding status =>
          cases status <;> simp only [hparse, Except.ok.injEq, reduceCtorEq] at h <;> subst h <;> simp
      · cases hparse : block.connectionOptions.parseField value with
        | mk connectionOptions status => cases status <;> simp_all; subst h; simp
      · simp_all
        subst h
        simp
      · split at h <;> simp_all
        subst h
        simp
      · simp_all
        subst h
        simp

/-- **A field keeps the reading.** -/
theorem FieldsRead.field {lines : List Http1FieldLine} {block applied : ParsedRequestHeaderBlock}
    {ignoreUpgrade : Bool} (hread : FieldsRead lines block) (line : Http1FieldLine)
    (happly : applyRequestHeader (classifyRequestHeader line.name) line.value ignoreUpgrade block =
      .ok applied) :
    FieldsRead (lines ++ [line])
      { applied with
        headers := applied.headers ++ [line.slot]
        hostHeaderIndex :=
          if classifyRequestHeader line.name = .host then some applied.headers.length
          else applied.hostHeaderIndex } := by
  obtain ⟨_, _, _, hheaders, hindex, hvalid, hlength, hencoding⟩ := applyRequestHeader_ok happly
  obtain ⟨hseen, honce⟩ := validateRequestField_seen hvalid
  have hlen : applied.headers.length = lines.length := by rw [hheaders, hread.headers, List.length_map]
  have hfirst : classifyRequestHeader line.name = .host → block.hostHeaderIndex = none := by
    intro hkind
    by_contra hne
    exact honce hkind (hread.seen.mpr hne)
  refine ⟨?_, ?_, ?_, ?_, ?_, ?_, ?_⟩
  · simp [hheaders, hread.headers]
  · rw [valuesNamed_append]
    by_cases hkind : classifyRequestHeader line.name = .contentLength
    · rw [if_pos hkind] at hlength
      rw [if_pos ((classify_contentLength_iff _).mp hkind)]
      exact HttpContentLengthState.parseField_reads hread.contentLength hlength
    · rw [if_neg hkind] at hlength
      rw [if_neg fun h => hkind ((classify_contentLength_iff _).mpr h), List.append_nil]
      exact hlength ▸ hread.contentLength
  · rw [valuesNamed_append]
    by_cases hkind : classifyRequestHeader line.name = .transferEncoding
    · rw [if_pos hkind] at hencoding
      rw [if_pos ((classify_transferEncoding_iff _).mp hkind)]
      obtain ⟨status, hparse, hstatus⟩ := hencoding
      exact HttpTransferEncodingState.parseField_reads hread.transferEncoding hparse hstatus
    · rw [if_neg hkind] at hencoding
      rw [if_neg fun h => hkind ((classify_transferEncoding_iff _).mpr h), List.append_nil]
      exact hencoding ▸ hread.transferEncoding
  · simp only [hseen, hread.seen, hindex]
    split <;> simp_all
  · rw [valuesNamed_append]
    by_cases hkind : classifyRequestHeader line.name = .host
    · have hnone := hread.host
      rw [if_pos (hfirst hkind)] at hnone
      rw [if_pos ((classify_host_iff _).mp hkind), hnone]
      simp [hkind]
    · rw [if_neg fun h => hkind ((classify_host_iff _).mpr h), List.append_nil]
      simp only [if_neg hkind, hindex]
      exact hread.host
  · intro j hj
    simp only [List.length_append, List.length_singleton]
    split at hj
    · obtain rfl := Option.some.inj hj
      omega
    · have := hread.hostIndex_lt j (hindex ▸ hj)
      omega
  · intro j l hj
    obtain ⟨hlt, hj⟩ | ⟨rfl, rfl⟩ : j < lines.length ∧ lines[j]? = some l ∨ j = lines.length ∧ line = l := by
      rcases Nat.lt_or_ge j lines.length with hlt | hge
      · rw [List.getElem?_append_left hlt] at hj
        exact .inl ⟨hlt, hj⟩
      · rw [List.getElem?_append_right hge] at hj
        obtain ⟨hzero, heq⟩ := List.getElem?_eq_some_iff.mp hj
        rw [List.length_singleton] at hzero
        rw [List.getElem_singleton] at heq
        exact .inr ⟨by omega, heq⟩
    all_goals by_cases hkind : classifyRequestHeader line.name = .host
    · simp only [if_pos hkind, hlen, Option.some.injEq]
      have := hread.hostIndex j l hj
      rw [hfirst hkind] at this
      simp only [reduceCtorEq, iff_false] at this
      exact ⟨fun h => absurd h this, fun h => by omega⟩
    · simp only [if_neg hkind, hindex]
      exact hread.hostIndex j l hj
    · simp only [if_pos hkind, hlen]
      simp [(classify_host_iff _).mp hkind]
    · simp only [if_neg hkind, hindex]
      constructor
      · exact fun h => absurd ((classify_host_iff _).mpr h) hkind
      · exact fun hsome => absurd (hread.hostIndex_lt _ hsome) (Nat.lt_irrefl _)

/-- An accepted field section is a list of field lines. -/
theorem parseHeaderFields_sound (ignoreUpgrade : Bool) :
    ∀ fuel text block block', parseHeaderFields ignoreUpgrade fuel text block = .ok block' →
      ∃ lines : List Http1FieldLine, text = lines.flatMap Http1FieldLine.bytes := by
  intro fuel
  induction fuel with
  | zero => exact fun _ _ _ h => by simp [parseHeaderFields] at h
  | succ fuel ih =>
    intro text block block' h
    rw [parseHeaderFields] at h
    split at h
    · rename_i hempty
      exact ⟨[], by simpa using hempty⟩
    · split at h
      · cases h
      · split at h
        · cases h
        · rename_i name value rest hscan
          simp only at h
          split at h
          · cases h
          · obtain ⟨line, _, _, rfl⟩ := scanHttp1FieldLine_spec hscan
            obtain ⟨lines, rfl⟩ := ih _ _ _ h
            exact ⟨line :: lines, rfl⟩

/-- **Reading a list of field lines**, one field after the other. -/
theorem parseHeaderFields_read (ignoreUpgrade : Bool) (lines : List Http1FieldLine) :
    ∀ fuel done block block', FieldsRead done block →
      parseHeaderFields ignoreUpgrade fuel (lines.flatMap Http1FieldLine.bytes) block = .ok block' →
      FieldsRead (done ++ lines) block' ∧ block'.method = block.method ∧ block'.target = block.target ∧
        block'.protocolVersion = block.protocolVersion := by
  induction lines with
  | nil =>
    intro fuel done block block' hread h
    cases fuel with
    | zero => simp [parseHeaderFields] at h
    | succ fuel =>
      obtain rfl : block = block' := by simpa [parseHeaderFields] using h
      exact ⟨by simpa using hread, rfl, rfl, rfl⟩
  | cons line lines ih =>
    intro fuel done block block' hread h
    cases fuel with
    | zero => simp [parseHeaderFields] at h
    | succ fuel =>
      rw [List.flatMap_cons, parseHeaderFields, scanHttp1FieldLine_bytes] at h
      have hne : (line.bytes ++ lines.flatMap Http1FieldLine.bytes).isEmpty = false := by
        simp [Http1FieldLine.bytes]
      rw [hne] at h
      simp only [Bool.false_eq_true, if_false] at h
      split at h
      · cases h
      · split at h
        · cases h
        · rename_i applied happly
          obtain ⟨hmethod, htarget, hversion, _⟩ := applyRequestHeader_ok happly
          obtain ⟨hdone, hm, ht, hv⟩ := ih _ _ _ _ (hread.field line happly) h
          rw [List.append_assoc] at hdone
          exact ⟨hdone, hm.trans hmethod, ht.trans htarget, hv.trans hversion⟩

/-- A block is what the parser makes of the head. -/
structure HeadRead (head : RequestHead) (block : ParsedRequestHeaderBlock) : Prop where
  method : block.method = head.method
  target : block.target = head.target
  version : parseHttpVersion head.version = .ok block.protocolVersion
  fields : FieldsRead head.lines block

/-- **An accepted head is read field by field.** -/
theorem parseHeadText_head {head : RequestHead} (h : parseHeadText head.text = .ok block) : HeadRead head block := by
  rw [RequestHead.text, parseHeadText, parseRequestLine_head] at h
  cases hversion : parseHttpVersion head.version with
  | error error => simp [hversion] at h
  | ok version =>
    simp only [hversion] at h
    obtain ⟨hread, hm, ht, hv⟩ :=
      parseHeaderFields_read _ head.lines _ [] { method := head.method, target := head.target, protocolVersion := version }
        _ ⟨rfl, rfl, HttpTransferEncodingState.reads_nil, by simp, rfl, by simp, by simp⟩ h
    exact ⟨hm, ht, by rw [hversion, hv], hread⟩

/-- An accepted text is a head of the grammar. -/
theorem parseHeadText_sound {text : Bytes} (h : parseHeadText text = .ok block) :
    ∃ head : RequestHead, text = head.text := by
  rw [parseHeadText] at h
  split at h
  · cases h
  · rename_i line fields hline
    obtain ⟨version, hmne, hm, htne, ht, hvne, hv, _, rfl⟩ := parseRequestLine_sound hline
    obtain ⟨lines, rfl⟩ := parseHeaderFields_sound _ _ _ _ _ h
    exact ⟨⟨line.method, line.target, version, lines, hmne, hm, htne, ht, hvne, hv⟩,
      by simp [RequestHead.text, RequestHead.requestLine]⟩

/-! ## Framing -/

open HttpTransferEncodingState in
/-- **The fields frame the content unambiguously**, and `framing` says how. -/
structure ContentFramed (lines : List Http1FieldLine) (http11 connect : Prop)
    (framing : Http1RequestFraming) : Prop where
  /-- Never both framing fields. -/
  notBoth : valuesNamed (lit "Transfer-Encoding") lines = [] ∨ valuesNamed (lit "Content-Length") lines = []
  /-- All members of all Content-Length lines are digit strings of one representable length. -/
  contentLength : valuesNamed (lit "Content-Length") lines ≠ [] →
    ∃ n, n < 2 ^ 64 ∧ framing = .knownLength n ∧
      ∀ value ∈ valuesNamed (lit "Content-Length") lines,
        HttpContentLengthState.AllSpell (httpCommaSeparatedQuotedFieldItems value) n
  /-- Chunked iff HTTP/1.1 and the members are supported codings followed by one final `chunked`. -/
  chunked : (∃ codings, framing = .chunked codings) ↔
    http11 ∧ ∃ codings, Spells (membersOf (valuesNamed (lit "Transfer-Encoding") lines)) codings true
  codings : ∀ codings, framing = .chunked codings →
    Spells (membersOf (valuesNamed (lit "Transfer-Encoding") lines)) codings true
  /-- CONNECT has no content. -/
  connect : connect → framing = .withoutBody ∨ framing = .knownLength 0

/-- **The head is framed**, and its Host is the one the target names. -/
structure Framed (head : RequestHead) (state : Http1ServerRequestParseState) : Prop where
  content : ContentFramed head.lines (parseHttpVersion head.version = .ok .http11)
    (head.method = lit "CONNECT") state.bodyPlan.framing
  /-- Exactly one Host field in HTTP/1.1. -/
  host : parseHttpVersion head.version = .ok .http11 → ∃ value, valuesNamed (lit "Host") head.lines = [value]
  published : state.request.headers.map (·.name) = head.lines.map (·.name)
  /-- The Host value published for an absolute or authority form is the target's authority. -/
  hostBound : state.request.targetForm = .absolute ∨ state.request.targetForm = .authority →
    ∀ header ∈ state.request.headers, httpAsciiEqualsIgnoreCase header.name (lit "Host") = true →
      header.value = state.request.authority

theorem classifyHttpMethod_connect {method : Bytes} (h : method = lit "CONNECT") :
    classifyHttpMethod method = .connect := by
  subst h
  decide +kernel

variable {lines : List Http1FieldLine}

/-- Published fields are the lines', with the Host value bound. -/
theorem bindHeaders_spec (hread : FieldsRead lines block) (targetView : RequestTargetView) :
    (bindHeaders targetView block.hostHeaderIndex block.headers).map (·.name) = lines.map (·.name) ∧
      ∀ header ∈ bindHeaders targetView block.hostHeaderIndex block.headers,
        httpAsciiEqualsIgnoreCase header.name (lit "Host") = true →
          ∃ value, header.value = boundHostFieldValue targetView value := by
  constructor
  · refine List.ext_getElem? fun i => ?_
    simp only [bindHeaders, hread.headers, List.getElem?_map, List.getElem?_mapIdx]
    cases lines[i]? with
    | none => rfl
    | some line =>
      simp only [Option.map_some]
      split <;> rfl
  · intro header hmem hname
    obtain ⟨i, hi⟩ := List.getElem?_of_mem hmem
    simp only [bindHeaders, hread.headers, List.getElem?_mapIdx, List.getElem?_map] at hi
    cases hline : lines[i]? with
    | none => simp [hline] at hi
    | some line =>
      simp only [hline, Option.map_some, Option.some.injEq] at hi
      subst hi
      have hhost : block.hostHeaderIndex = some i := by
        refine (hread.hostIndex i line hline).mp ?_
        split at hname <;> exact hname
      rw [if_pos hhost]
      exact ⟨_, rfl⟩

/-- **What the framing decision rests on.** -/
theorem decideFraming_framed {method : HttpKnownMethod} {framing : Http1RequestFraming}
    (hread : FieldsRead lines block) (h : decideFraming block method = .ok framing) :
    ContentFramed lines (block.protocolVersion = .http11) (method = .connect) framing := by
  have hlength := hread.contentLength
  obtain ⟨hpresent, hspells⟩ := hread.transferEncoding
  unfold decideFraming at h
  rw [HttpContentLengthState.Reads] at hlength
  cases hte : block.transferEncoding.value with
  | none =>
    have hnoTe := hpresent.mp hte
    have hnoChunked : ∀ codings, ¬ HttpTransferEncodingState.Spells
        (HttpTransferEncodingState.membersOf (valuesNamed (lit "Transfer-Encoding") lines)) codings true := by
      rw [hnoTe]
      rintro codings ⟨front, _, hmembers⟩
      simp [HttpTransferEncodingState.membersOf] at hmembers
    cases hcl : block.contentLength.value with
    | none =>
      simp only [hte, hcl] at h hlength
      split at h
      · cases h
      · cases h
        exact ⟨.inl hnoTe, fun h => absurd hlength h, by simp [hnoChunked], by simp, fun _ => .inl rfl⟩
    | some length =>
      simp only [hte, hcl] at h hlength
      obtain ⟨_, hlt, hall⟩ := hlength
      split at h
      · cases h
      · rename_i hzero
        split at h
        · cases h
        · cases h
          refine ⟨.inl hnoTe, fun _ => ⟨length, hlt, rfl, hall⟩, by simp [hnoChunked], by simp,
            fun hconnect => .inr ?_⟩
          have : length = 0 := by
            by_contra hne
            exact hzero ⟨hconnect, hne⟩
          rw [this]
  | some encoding =>
    cases hcl : block.contentLength.value with
    | some length => simp [hte, hcl] at h
    | none =>
      simp only [hte, hcl] at h hlength
      by_cases hconnect : method = .connect
      · simp [hconnect] at h
      · by_cases hfinal : encoding.finalChunked = false
        · simp [hconnect, hfinal] at h
        · by_cases h10 : block.protocolVersion = .http10
          · simp [hconnect, hfinal, h10] at h
          · rw [if_neg hconnect, if_neg hfinal, if_neg h10] at h
            split at h
            · cases h
            · rename_i hsupported
              cases h
              have h11 : block.protocolVersion = .http11 := by
                cases hv : block.protocolVersion with
                | http10 => exact absurd hv h10
                | http11 => rfl
              rw [HttpTransferEncodingState.walk, hte] at hspells
              have hspells : HttpTransferEncodingState.Spells _ encoding.transferCodings encoding.finalChunked :=
                hspells (by simpa using hsupported)
              rw [Bool.not_eq_false] at hfinal
              rw [hfinal] at hspells
              refine ⟨.inr hlength, fun h => absurd hlength h, ?_, ?_, fun h => absurd h hconnect⟩
              · exact ⟨fun _ => ⟨h11, _, hspells⟩, fun _ => ⟨_, rfl⟩⟩
              · rintro codings hcodings
                cases hcodings
                exact hspells

/-- **A block that finishes is framed.** -/
theorem finishHead_framed {head : RequestHead} {headerBytes n : Nat} (hread : HeadRead head block)
    (hready : (finishHead block headerBytes).progress = .headReady n) :
    Framed head (finishHead block headerBytes) := by
  obtain ⟨hmethod, htarget, hversion, hfields⟩ := hread
  have h11 : parseHttpVersion head.version = .ok .http11 ↔ block.protocolVersion = .http11 := by
    rw [hversion, Except.ok.injEq]
  simp only [finishHead] at hready ⊢
  cases htargetView : parseRequestTarget (classifyHttpMethod block.method) block.target with
  | none => simp [htargetView, failHead] at hready
  | some targetView =>
    simp only [htargetView] at hready ⊢
    by_cases hhost : block.protocolVersion = .http11 ∧ block.hostHeaderIndex = none
    · rw [if_pos hhost] at hready
      simp [failHead] at hready
    · rw [if_neg hhost] at hready ⊢
      cases hframing : decideFraming block (classifyHttpMethod block.method) with
      | error error => simp [hframing, failHead] at hready
      | ok framing =>
        obtain ⟨hboth, hlength, hchunked, hcodings, hconnect⟩ := decideFraming_framed hfields hframing
        obtain ⟨hnames, hbound⟩ := bindHeaders_spec hfields targetView
        refine ⟨⟨hboth, hlength, by rw [h11]; exact hchunked, hcodings, fun h => hconnect ?_⟩, fun hv => ?_,
          hnames, fun hform header hmem hname => ?_⟩
        · exact classifyHttpMethod_connect (hmethod ▸ h)
        · have := hfields.host
          rwa [if_neg fun hnone => hhost ⟨h11.mp hv, hnone⟩] at this
        · obtain ⟨value, hvalue⟩ := hbound header hmem hname
          rw [hvalue, boundHostFieldValue, if_pos hform]

/-! ## Any call -/

/-- A head whose Host field and absolute-form target name different authorities. -/
def disagreeingHead : RequestHead where
  method := lit "GET"
  target := lit "http://a/"
  version := lit "HTTP/1.1"
  lines :=
    [{ name := lit "Host"
       before := [sp]
       value := lit "b"
       behind := []
       name_ne := by decide +kernel
       name_token := by decide +kernel
       before_ows := by decide +kernel
       value_char := by decide +kernel
       value_trimmed := by decide +kernel
       behind_ows := by decide +kernel }]
  method_ne := by decide +kernel
  method_token := by decide +kernel
  target_ne := by decide +kernel
  target_byte := by decide +kernel
  version_ne := by decide +kernel
  version_byte := by decide +kernel

end Ruvia.Http
