import Ruvia.Http.ChunkedOutcome

/-!
# `Http.ChunkFraming` — chunk framing as a sender writes it

`http1_chunked_framing.h`: the size line of one chunk, the last chunk and the trailer section behind it. Each
piece comes with what the decoder makes of it (`sizeLineOutcome_chunk`, `sizeLineOutcome_lastChunk`).
-/

namespace Ruvia.Http

open Library

def http1ChunkDataTerminator : Bytes := [cr, lf]
def http1LastChunkPrefix : Bytes := [0x30, cr, lf]
def http1TrailerSectionTerminator : Bytes := [cr, lf]

/-- `http_lower_hex_digit`. -/
def httpLowerHexDigit (value : Nat) : UInt8 :=
  if value % 16 < 10 then UInt8.ofNat (0x30 + value % 16) else UInt8.ofNat (0x61 + (value % 16 - 10))

/-- The digit loop of `http1_chunk_header`, written from the last digit to the first in front of `written`. -/
def writeChunkSizeDigits (chunkSize : Nat) (written : Bytes) : Bytes :=
  let written := httpLowerHexDigit chunkSize :: written
  if chunkSize / 16 = 0 then written else writeChunkSizeDigits (chunkSize / 16) written
termination_by chunkSize
decreasing_by omega

/-- `http1_chunk_header`: the chunk-size line with its CRLF. -/
def http1ChunkHeader (chunkSize : Nat) : Bytes := writeChunkSizeDigits chunkSize [cr, lf]

/-! ## The size line read back -/

theorem httpDecodeHexNibble_lowerHexDigit (value : Nat) :
    httpDecodeHexNibble (httpLowerHexDigit value) = some (value % 16) := by
  have hdigit : ∀ nibble : Fin 16, httpDecodeHexNibble (httpLowerHexDigit nibble) = some nibble.val := by
    decide
  have := hdigit ⟨value % 16, Nat.mod_lt _ (by decide)⟩
  rwa [httpLowerHexDigit, Nat.mod_mod, ← httpLowerHexDigit] at this

variable {chunkSize : Nat}

/-- The written digits are `chunkSize`'s, with no leading zero but that of the number zero. -/
theorem readChunkSizeDigits_write (h : chunkSize < sizeTypeCount) (written : Bytes) :
    ∃ digits, 0 < digits ∧ (writeChunkSizeDigits chunkSize written).length = digits + written.length ∧
      readChunkSizeDigits 0 0 0 (writeChunkSizeDigits chunkSize written) =
        readChunkSizeDigits chunkSize (if chunkSize = 0 then 1 else 0) digits written := by
  fun_induction writeChunkSizeDigits chunkSize written with
  | case1 chunkSize written line hlast =>
    have hsmall : chunkSize % 16 = chunkSize := by omega
    refine ⟨1, Nat.one_pos, Nat.add_comm _ _, ?_⟩
    rw [readChunkSizeDigits, httpDecodeHexNibble_lowerHexDigit, hsmall]
    simp [maxBeforeShift]
  | case2 chunkSize written line hmore ih =>
    have hle : chunkSize / 16 ≤ maxBeforeShift := by
      rw [maxBeforeShift]
      rw [sizeTypeCount] at h
      omega
    obtain ⟨digits, _, hlength, hread⟩ := ih (by omega)
    refine ⟨digits + 1, Nat.succ_pos _, ?_, ?_⟩
    · rw [hlength, List.length_cons, Nat.add_assoc, Nat.add_comm 1]
    · have hzero : chunkSize ≠ 0 := fun hzero => hmore (by rw [hzero])
      rw [hread, readChunkSizeDigits, httpDecodeHexNibble_lowerHexDigit]
      simp only [if_neg (Nat.not_lt.mpr hle), hmore, hzero, false_and, if_false]
      rw [Nat.div_add_mod' chunkSize 16]

theorem writeChunkSizeDigits_append (chunkSize : Nat) (written more : Bytes) :
    writeChunkSizeDigits chunkSize (written ++ more) = writeChunkSizeDigits chunkSize written ++ more := by
  fun_induction writeChunkSizeDigits chunkSize written with
  | case1 chunkSize written line hlast =>
    rw [writeChunkSizeDigits, if_pos hlast]
    rfl
  | case2 chunkSize written line hmore ih =>
    rw [writeChunkSizeDigits, if_neg hmore]
    exact ih

/-- Sixteen digits are enough for a `std::size_t`. -/
theorem length_writeChunkSizeDigits {width chunkSize : Nat} (h : chunkSize < 16 ^ (width + 1)) :
    (writeChunkSizeDigits chunkSize []).length ≤ width + 1 := by
  induction width generalizing chunkSize with
  | zero =>
    rw [writeChunkSizeDigits, if_pos (by omega)]
    exact le_rfl
  | succ width ih =>
    rw [writeChunkSizeDigits]
    split
    · exact Nat.succ_le_succ (Nat.zero_le _)
    · rw [← List.nil_append [httpLowerHexDigit chunkSize], writeChunkSizeDigits_append, List.length_append]
      refine Nat.succ_le_succ (ih ?_)
      rw [pow_succ] at h
      omega

theorem mem_writeChunkSizeDigits {b : UInt8} {written : Bytes} (h : b ∈ writeChunkSizeDigits chunkSize written) :
    b ∈ written ∨ (httpDecodeHexNibble b).isSome := by
  fun_induction writeChunkSizeDigits chunkSize written with
  | case1 chunkSize written line hlast =>
    rcases List.mem_cons.mp h with rfl | h
    · exact .inr (by rw [httpDecodeHexNibble_lowerHexDigit]; rfl)
    · exact .inl h
  | case2 chunkSize written line hmore ih =>
    rcases ih h with h | h
    · rcases List.mem_cons.mp h with rfl | h
      · exact .inr (by rw [httpDecodeHexNibble_lowerHexDigit]; rfl)
      · exact .inl h
    · exact .inr h

theorem http1ChunkHeader_eq (chunkSize : Nat) :
    http1ChunkHeader chunkSize = writeChunkSizeDigits chunkSize [] ++ [cr, lf] := by
  rw [http1ChunkHeader, ← writeChunkSizeDigits_append, List.nil_append]

theorem length_writeChunkSizeDigits_zero : (writeChunkSizeDigits 0 []).length = 1 := by
  rw [writeChunkSizeDigits]
  rfl

/-- **A written size line is read as its size**, and costs no framing overhead. -/
theorem parseHttpChunkSizeLine_write (h : chunkSize < sizeTypeCount) :
    parseHttpChunkSizeLine (writeChunkSizeDigits chunkSize []) = some ⟨chunkSize, 0⟩ := by
  obtain ⟨digits, hpos, hlength, hread⟩ := readChunkSizeDigits_write h []
  rw [parseHttpChunkSizeLine, hread]
  have hext : isValidHttpChunkExtension [] = true := by decide
  have hdigits : digits - max (digits - if chunkSize = 0 then 1 else 0) 1 = 0 := by
    split
    · -- the number zero has one digit, its leading zero
      rename_i hzero
      rw [hzero, length_writeChunkSizeDigits_zero, List.length_nil] at hlength
      omega
    · omega
  simp only [readChunkSizeDigits, hext, Bool.true_eq_false, or_false, if_neg (Nat.ne_of_gt hpos), hlength,
    List.length_nil, Nat.add_zero, hdigits]

theorem not_mem_writeChunkSizeDigits {b : UInt8} (h : httpDecodeHexNibble b = none) (chunkSize : Nat) :
    b ∉ writeChunkSizeDigits chunkSize [] := by
  intro hmem
  rcases mem_writeChunkSizeDigits hmem with hmem | hnibble
  · cases hmem
  · rw [h] at hnibble
    cases hnibble

/-- The LF behind a text without LF is the first one. -/
theorem findByte_lineFeed {pre text : Bytes} (h : lf ∉ text) (rest : Bytes) :
    findByte lf (pre ++ text ++ [cr, lf] ++ rest) pre.length = some (pre.length + text.length + 1) := by
  have hat : ∀ j, (pre ++ text ++ [cr, lf] ++ rest)[pre.length + j]? = (text ++ ([cr, lf] ++ rest))[j]? := by
    intro j
    rw [List.append_assoc, List.append_assoc, List.getElem?_append_right (Nat.le_add_right _ _),
      Nat.add_sub_cancel_left]
  refine findByte_eq_some_iff.mpr ⟨by omega, ?_, fun j hle hj heq => ?_⟩
  · rw [Nat.add_assoc, hat, List.getElem?_append_right (Nat.le_add_right _ 1), Nat.add_sub_cancel_left]
    rfl
  · obtain ⟨j, rfl⟩ := Nat.exists_eq_add_of_le hle
    rw [hat] at heq
    rcases Nat.lt_or_ge j text.length with hlt | hge
    · rw [List.getElem?_append_left hlt] at heq
      exact h (List.mem_of_getElem? heq)
    · obtain rfl : j = text.length := by omega
      rw [List.getElem?_append_right le_rfl, Nat.sub_self, List.cons_append, List.getElem?_cons_zero,
        Option.some.injEq] at heq
      exact absurd heq (by decide)

/-- A line without LF, in front of its CRLF, is found by the search. -/
theorem scanSizeLine_line {text : Bytes} (h : lf ∉ text) (rest : Bytes) :
    scanSizeLine (text ++ [cr, lf] ++ rest) 0 = .line text.length := by
  have hfind : findByte lf (text ++ [cr, lf] ++ rest) 0 = some (text.length + 1) := by
    have := @findByte_lineFeed [] text h rest
    simpa only [List.nil_append, List.length_nil, Nat.zero_add] using this
  rw [scanSizeLine, hfind]
  simp

/-! ## One chunk -/

/-- One chunk on the wire: size line, data and CRLF. -/
def chunkWire (payload : Bytes) : Bytes :=
  http1ChunkHeader payload.length ++ payload ++ http1ChunkDataTerminator

/-- The size line of a wire that begins with a written one. -/
theorem scanSizeLine_chunkHeader (h : chunkSize < sizeTypeCount) (rest : Bytes) :
    scanSizeLine ((http1ChunkHeader chunkSize ++ rest).take maxHttpHeaderBytes) 0 =
      .line (writeChunkSizeDigits chunkSize []).length := by
  have hlength : (http1ChunkHeader chunkSize).length ≤ maxHttpHeaderBytes := by
    have := @length_writeChunkSizeDigits 15 _ h
    rw [http1ChunkHeader_eq, List.length_append, maxHttpHeaderBytes]
    simp only [List.length_cons, List.length_nil]
    omega
  rw [List.take_append, List.take_of_length_le hlength, http1ChunkHeader_eq]
  exact scanSizeLine_line (not_mem_writeChunkSizeDigits (by decide) _) _

variable {config : Http1ChunkedBodyDecoderConfig} {decoded overhead : Nat}

/-- The outcome behind a size line that was found and read. -/
theorem sizeLineOutcome_of_line {lineEnd : Nat} {wire : Bytes} {sizeLine : HttpChunkSizeLine}
    (hscan : scanSizeLine (wire.take maxHttpHeaderBytes) 0 = .line lineEnd)
    (hparse : parseHttpChunkSizeLine (wire.take lineEnd) = some sizeLine) :
    sizeLineOutcome config decoded overhead wire =
      if maxHttpHeaderBytes - overhead < sizeLine.overheadBytes then .failed .framingLimitExceeded
      else if sizeLine.size = 0 then
        (trailersOutcome config.obsFold (wire.drop (lineEnd + 2))).prepend [] (lineEnd + 2)
      else if config.bodyLimit.additionExceeds decoded sizeLine.size then .failed .bodyLimitExceeded
      else
        (bodyOutcome config (decoded + sizeLine.size) (overhead + sizeLine.overheadBytes) sizeLine.size
          (wire.drop (lineEnd + 2))).prepend [] (lineEnd + 2) := by
  rw [sizeLineOutcome]
  split
  all_goals
    rename_i h
    rw [hscan] at h
    cases h
  rw [hparse]

theorem delimiterOutcome_terminator (rest : Bytes) :
    delimiterOutcome config decoded overhead (http1ChunkDataTerminator ++ rest) =
      (sizeLineOutcome config decoded overhead rest).prepend [] 2 := by
  have hlength : 2 ≤ (http1ChunkDataTerminator ++ rest).length := by
    rw [List.length_append]
    exact Nat.le_add_right 2 _
  rw [delimiterOutcome, if_neg (Nat.not_lt.mpr hlength), if_pos]
  · rfl
  · rw [List.isPrefixOf_iff_prefix]
    exact List.prefix_append _ _

theorem bodyOutcome_payload (payload wire : Bytes) :
    bodyOutcome config decoded overhead payload.length (payload ++ wire) =
      (delimiterOutcome config decoded overhead wire).prepend payload payload.length := by
  rw [bodyOutcome, if_neg (by simp), List.drop_left, List.take_left]

/-- **One chunk of the outcome.** The decoder takes a written chunk as its payload, and goes on behind it. -/
theorem sizeLineOutcome_chunk {payload : Bytes} (hunlimited : config.bodyLimit = .unlimited) (hpos : payload ≠ [])
    (hsize : decoded + payload.length < sizeTypeCount) (rest : Bytes) :
    sizeLineOutcome config decoded overhead (chunkWire payload ++ rest) =
      (sizeLineOutcome config (decoded + payload.length) overhead rest).prepend payload
        (chunkWire payload).length := by
  have hlt : payload.length < sizeTypeCount := by omega
  have hwire : chunkWire payload ++ rest =
      http1ChunkHeader payload.length ++ (payload ++ (http1ChunkDataTerminator ++ rest)) := by
    simp only [chunkWire, List.append_assoc]
  have hheader : (http1ChunkHeader payload.length).length = (writeChunkSizeDigits payload.length []).length + 2 := by
    rw [http1ChunkHeader_eq, List.length_append]
    rfl
  have hdigits : (chunkWire payload ++ rest).take (writeChunkSizeDigits payload.length []).length =
      writeChunkSizeDigits payload.length [] := by
    rw [hwire, http1ChunkHeader_eq, List.append_assoc]
    exact List.take_left
  have hbehind : (chunkWire payload ++ rest).drop ((writeChunkSizeDigits payload.length []).length + 2) =
      payload ++ (http1ChunkDataTerminator ++ rest) := by
    rw [hwire, ← hheader]
    exact List.drop_left
  have hscan : scanSizeLine ((chunkWire payload ++ rest).take maxHttpHeaderBytes) 0 =
      .line (writeChunkSizeDigits payload.length []).length := by
    rw [hwire]
    exact scanSizeLine_chunkHeader hlt _
  rw [sizeLineOutcome_of_line hscan (by rw [hdigits]; exact parseHttpChunkSizeLine_write hlt),
    if_neg (Nat.not_lt_zero _), if_neg (by simpa using hpos), if_neg ?_, hbehind]
  · rw [bodyOutcome_payload, delimiterOutcome_terminator]
    simp only [ChunkedOutcome.prepend_prepend, List.nil_append, List.append_nil]
    congr 1
    simp only [chunkWire, List.length_append, hheader, http1ChunkDataTerminator, List.length_cons, List.length_nil]
    omega
  · have hfits : ¬ sizeTypeCount - 1 - decoded < payload.length := by omega
    rw [hunlimited, ProtocolByteLimit.additionExceeds, if_neg hfits]
    exact Bool.false_ne_true

/-- The chunks of a list of payloads; an empty payload is no chunk. -/
def chunksWire (payloads : List Bytes) : Bytes :=
  (payloads.map fun payload => if payload.isEmpty then [] else chunkWire payload).flatten

theorem sizeLineOutcome_chunks {payloads : List Bytes} (hunlimited : config.bodyLimit = .unlimited)
    (hsize : decoded + payloads.flatten.length < sizeTypeCount) (rest : Bytes) :
    sizeLineOutcome config decoded overhead (chunksWire payloads ++ rest) =
      (sizeLineOutcome config (decoded + payloads.flatten.length) overhead rest).prepend payloads.flatten
        (chunksWire payloads).length := by
  induction payloads generalizing decoded with
  | nil => simp [chunksWire]
  | cons payload payloads ih =>
    rw [List.flatten_cons, List.length_append] at hsize
    have hrest := @ih (decoded + payload.length) (by omega)
    have hwire : chunksWire (payload :: payloads) =
        (if payload.isEmpty then [] else chunkWire payload) ++ chunksWire payloads := by
      rfl
    rw [hwire, List.append_assoc, List.flatten_cons, List.length_append]
    by_cases hempty : payload = []
    · subst hempty
      rw [List.isEmpty_nil, if_pos rfl, List.nil_append, List.nil_append, List.length_nil, Nat.zero_add]
      exact ih (by simpa using hsize)
    · have hne : payload.isEmpty = false := by simpa using hempty
      rw [hne, if_neg Bool.false_ne_true, sizeLineOutcome_chunk hunlimited hempty (by omega), hrest,
        ChunkedOutcome.prepend_prepend, List.length_append, Nat.add_assoc]

/-- The last chunk leaves the decoder at the trailer section. -/
theorem sizeLineOutcome_lastChunk (rest : Bytes) :
    sizeLineOutcome config decoded overhead (http1LastChunkPrefix ++ rest) =
      (trailersOutcome config.obsFold rest).prepend [] 3 := by
  have hprefix : http1LastChunkPrefix = http1ChunkHeader 0 := by
    rw [http1ChunkHeader, writeChunkSizeDigits]
    rfl
  have hscan := scanSizeLine_chunkHeader (show 0 < sizeTypeCount by decide) rest
  rw [length_writeChunkSizeDigits_zero, ← hprefix] at hscan
  have hparse : parseHttpChunkSizeLine ((http1LastChunkPrefix ++ rest).take 1) = some ⟨0, 0⟩ := by
    rw [List.take_append_of_le_length (by decide)]
    decide
  rw [sizeLineOutcome_of_line hscan hparse, if_neg (Nat.not_lt_zero _), if_pos rfl]
  rfl

end Ruvia.Http
