import Ruvia.Http.ChunkedScan

/-!
# `Http.ChunkedOutcome` — what a chunked body is, and what one call reports of it

`ChunkedOutcome` is the outcome of a decoder state on the whole stream still to come, with no arrival, no
quota and no saved offset in it. One call of `decode` on the bytes that are there reports a part of that
outcome, whatever is still to come (`decode_reports`). The handlers are taken in the order they call each
other: trailers and body, then the size line, then the delimiter.
-/

namespace Ruvia.Http

open Library

/-! ## The outcome of a stream -/

/-- What a stream amounts to: a body that ends, a framing error, or a body whose rest is missing. -/
inductive ChunkedOutcome where
  | complete (body : Bytes) (consumedBytes : Nat) (trailers : Bytes)
  | failed (error : Http1ChunkDecodeError)
  | starved (body : Bytes) (consumedBytes : Nat)
  deriving DecidableEq, Repr

namespace ChunkedOutcome

/-- The outcome behind `consumed` bytes that carried `bytes`. -/
def prepend (bytes : Bytes) (consumed : Nat) : ChunkedOutcome → ChunkedOutcome
  | .complete body consumedBytes trailers => .complete (bytes ++ body) (consumed + consumedBytes) trailers
  | .failed error => .failed error
  | .starved body consumedBytes => .starved (bytes ++ body) (consumed + consumedBytes)

@[simp] theorem prepend_nil_zero (o : ChunkedOutcome) : o.prepend [] 0 = o := by
  cases o <;> simp [prepend]

@[simp] theorem prepend_prepend (o : ChunkedOutcome) (xs ys : Bytes) (m n : Nat) :
    (o.prepend ys n).prepend xs m = o.prepend (xs ++ ys) (m + n) := by
  cases o <;> simp [prepend, Nat.add_assoc]

end ChunkedOutcome

/-- The outcome of a trailer section. -/
def trailersOutcome (obsFold : Http1TrailerObsFold) (wire : Bytes) : ChunkedOutcome :=
  let trailers := wire.take maxHttpHeaderBytes
  if [cr, lf].isPrefixOf trailers then .complete [] 2 []
  else
    match scanTrailers trailers 0 with
    | .bareLineFeed => .failed .invalidFraming
    | .limit => .failed .framingLimitExceeded
    | .needMore => .starved [] 0
    | .section trailerEnd =>
      if trailersValid obsFold (trailers.take trailerEnd) = false then .failed .invalidFraming
      else .complete [] (trailerEnd + 4) (trailers.take trailerEnd)

mutual

/-- The outcome from the start of a size line. -/
def sizeLineOutcome (config : Http1ChunkedBodyDecoderConfig) (decoded overhead : Nat) (wire : Bytes) :
    ChunkedOutcome :=
  match _h : scanSizeLine (wire.take maxHttpHeaderBytes) 0 with
  | .limit => .failed .framingLimitExceeded
  | .needMore => .starved [] 0
  | .bareLineFeed => .failed .invalidFraming
  | .line lineEnd =>
    match parseHttpChunkSizeLine (wire.take lineEnd) with
    | none => .failed .invalidFraming
    | some sizeLine =>
      if maxHttpHeaderBytes - overhead < sizeLine.overheadBytes then .failed .framingLimitExceeded
      else if sizeLine.size = 0 then
        (trailersOutcome config.obsFold (wire.drop (lineEnd + 2))).prepend [] (lineEnd + 2)
      else if config.bodyLimit.additionExceeds decoded sizeLine.size then .failed .bodyLimitExceeded
      else
        (bodyOutcome config (decoded + sizeLine.size) (overhead + sizeLine.overheadBytes) sizeLine.size
          (wire.drop (lineEnd + 2))).prepend [] (lineEnd + 2)
termination_by (wire.length, 0)
decreasing_by
  have := lt_of_scanSizeLine_line _h
  simp only [List.length_take] at this
  exact Prod.Lex.left _ _ (by simp only [List.length_drop]; omega)

/-- The outcome from inside a chunk of which `remaining` bytes are missing. -/
def bodyOutcome (config : Http1ChunkedBodyDecoderConfig) (decoded overhead remaining : Nat)
    (wire : Bytes) : ChunkedOutcome :=
  if wire.length < remaining then .starved wire wire.length
  else
    (delimiterOutcome config decoded overhead (wire.drop remaining)).prepend (wire.take remaining) remaining
termination_by (wire.length, 2)
decreasing_by
  rcases Nat.eq_or_lt_of_le (show (wire.drop remaining).length ≤ wire.length by simp) with h | h
  · rw [h]
    exact Prod.Lex.right _ (by omega)
  · exact Prod.Lex.left _ _ h

/-- The outcome from the CRLF behind a chunk. -/
def delimiterOutcome (config : Http1ChunkedBodyDecoderConfig) (decoded overhead : Nat) (wire : Bytes) :
    ChunkedOutcome :=
  if wire.length < 2 then .starved [] 0
  else if [cr, lf].isPrefixOf wire then
    (sizeLineOutcome config decoded overhead (wire.drop 2)).prepend [] 2
  else .failed .invalidFraming
termination_by (wire.length, 1)
decreasing_by exact Prod.Lex.left _ _ (by simp only [List.length_drop]; omega)

end

variable {config : Http1ChunkedBodyDecoderConfig} {decoded overhead : Nat} {wire : Bytes}

/-- Part of a chunk read now and the rest later is the chunk. -/
theorem bodyOutcome_split {remaining n : Nat} (hn : n ≤ remaining) (hlen : n ≤ wire.length) :
    bodyOutcome config decoded overhead remaining wire =
      (bodyOutcome config decoded overhead (remaining - n) (wire.drop n)).prepend (wire.take n) n := by
  rw [bodyOutcome, bodyOutcome, List.length_drop]
  by_cases hs : wire.length < remaining
  · rw [if_pos hs, if_pos (by omega)]
    simp only [ChunkedOutcome.prepend, List.take_append_drop]
    congr 1
    omega
  · rw [if_neg hs, if_neg (by omega), ChunkedOutcome.prepend_prepend, List.drop_drop,
      Nat.add_sub_cancel' hn, ← List.take_add, Nat.add_sub_cancel' hn]

theorem bodyOutcome_zero :
    bodyOutcome config decoded overhead 0 wire = delimiterOutcome config decoded overhead wire := by
  rw [bodyOutcome, if_neg (Nat.not_lt_zero _)]
  simp

/-! ## What a state means -/

namespace Http1ChunkedBodyDecoder

/-- The outcome of a decoder state on everything still to come. -/
def outcome (d : Http1ChunkedBodyDecoder) (wire : Bytes) : ChunkedOutcome :=
  match d.state with
  | .error error => .failed error
  | .ok .sizeLine => sizeLineOutcome d.config d.decodedBytes d.framingOverheadBytes wire
  | .ok .body => bodyOutcome d.config d.decodedBytes d.framingOverheadBytes d.remaining wire
  | .ok .delimiter => delimiterOutcome d.config d.decodedBytes d.framingOverheadBytes wire
  | .ok .trailers => trailersOutcome d.config.obsFold wire
  | .ok .complete => .complete [] 0 []

/-- **The saved offsets are sound.** They skip only bytes of the retained input that decide nothing. -/
def Resumable (d : Http1ChunkedBodyDecoder) (retained : Bytes) : Prop :=
  match d.state with
  | .error _ => True
  | .ok .sizeLine =>
    d.sizeLineSearchOffset ≤ (retained.take maxHttpHeaderBytes).length ∧
      NoLineFeedBefore (retained.take maxHttpHeaderBytes) d.sizeLineSearchOffset
  | .ok .body => d.sizeLineSearchOffset = 0 ∧ 0 < d.remaining
  | .ok .delimiter => d.sizeLineSearchOffset = 0
  | .ok .trailers =>
    d.trailerSearchOffset ≤ (retained.take maxHttpHeaderBytes).length ∧
      UndecidedBefore (retained.take maxHttpHeaderBytes) d.trailerSearchOffset
  | .ok .complete => True

theorem Resumable.append {d : Http1ChunkedBodyDecoder} {retained : Bytes} (h : d.Resumable retained)
    (chunk : Bytes) : d.Resumable (retained ++ chunk) := by
  unfold Resumable at h ⊢
  rw [List.take_append]
  split at h
  · trivial
  · exact ⟨h.1.trans (by simp only [List.length_append]; omega), h.2.append _ h.1⟩
  · exact h
  · exact h
  · exact ⟨h.1.trans (by simp only [List.length_append]; omega), h.2.append _ h.1⟩
  · trivial

/-- One call on `available`, started at `cursor`, reports a part of `value`, whatever `wire` follows. -/
def Reports (value : ChunkedOutcome) (cursor : Nat) (available wire : Bytes)
    (out : Http1ChunkedBodyDecoder × Http1ChunkDecodeResult) : Prop :=
  match out.2 with
  | .needMore n =>
    cursor ≤ n ∧ n ≤ available.length ∧ out.1.Resumable (available.drop n) ∧
      out.1.outcome (available.drop n) = .starved [] 0 ∧
      value = (out.1.outcome (available.drop n ++ wire)).prepend [] (n - cursor)
  | .bodyChunk n bytes =>
    cursor < n ∧ n ≤ available.length ∧ out.1.Resumable (available.drop n) ∧
      value = (out.1.outcome (available.drop n ++ wire)).prepend bytes (n - cursor)
  | .complete n trailers => cursor ≤ n ∧ n ≤ available.length ∧ value = .complete [] (n - cursor) trailers
  | .failure _ error => value = .failed error

/-- Framing consumed in front of a report. -/
theorem Reports.shift {value : ChunkedOutcome} {cursor k : Nat} {available wire : Bytes}
    {out : Http1ChunkedBodyDecoder × Http1ChunkDecodeResult}
    (h : Reports value (cursor + k) available wire out) :
    Reports (value.prepend [] k) cursor available wire out := by
  unfold Reports at h ⊢
  split at h
  · obtain ⟨hc, hn, hr, hs, rfl⟩ := h
    refine ⟨by omega, hn, hr, hs, ?_⟩
    rw [ChunkedOutcome.prepend_prepend, List.append_nil]
    congr 1
    omega
  · obtain ⟨hc, hn, hr, rfl⟩ := h
    refine ⟨by omega, hn, hr, ?_⟩
    rw [ChunkedOutcome.prepend_prepend, List.nil_append]
    congr 1
    omega
  · obtain ⟨hc, hn, rfl⟩ := h
    refine ⟨by omega, hn, ?_⟩
    simp only [ChunkedOutcome.prepend, List.append_nil]
    congr 1
    omega
  · subst h
    rfl

/-! ## One call -/

variable {d : Http1ChunkedBodyDecoder} {available wire : Bytes} {cursor maxBodyBytes : Nat}

theorem isPrefixOf_crlf_append {t tail : Bytes} (h : 2 ≤ t.length) :
    [cr, lf].isPrefixOf (t ++ tail) = [cr, lf].isPrefixOf t := by
  match t, h with
  | x :: y :: t, _ => simp [List.isPrefixOf]

/-- A trailer scan is never decided by less than two bytes, but for a lone LF. -/
theorem isPrefixOf_crlf_append_of_decided {t tail : Bytes} (h : scanTrailers t 0 ≠ .needMore) :
    [cr, lf].isPrefixOf (t ++ tail) = [cr, lf].isPrefixOf t := by
  match t with
  | [] => exact absurd (by decide) h
  | [x] =>
    by_cases hx : x = lf
    · subst hx
      simp [List.isPrefixOf, cr, lf]
    · refine absurd ?_ h
      have hnone : findByte lf [x] 0 = none := by
        refine findByte_eq_none_iff.mpr fun j _ hj => ?_
        obtain ⟨hlt, he⟩ := List.getElem?_eq_some_iff.mp hj
        obtain rfl : j = 0 := by simpa using hlt
        exact hx he
      rw [scanTrailers, scanTrailerLines]
      simp only [hnone]
      rw [if_neg (by simp [maxHttpHeaderBytes])]
  | x :: y :: t => exact isPrefixOf_crlf_append (by simp)

theorem decodeTrailers_reports (hstate : d.state = .ok .trailers) (hcursor : cursor ≤ available.length)
    (hres : d.Resumable (available.drop cursor)) :
    Reports (trailersOutcome d.config.obsFold (available.drop cursor ++ wire)) cursor available wire
      (decodeTrailers d available cursor) := by
  obtain ⟨tail, happ, hfull⟩ := take_window maxHttpHeaderBytes (available.drop cursor) wire
  obtain ⟨t, ht⟩ : ∃ t, (available.drop cursor).take maxHttpHeaderBytes = t := ⟨_, rfl⟩
  rw [ht] at happ hfull
  simp only [Resumable, hstate, ht] at hres
  simp only [trailersOutcome, decodeTrailers, sub, happ, ht]
  have hlen : t.length ≤ available.length - cursor := by
    rw [← ht, List.length_take, List.length_drop]
    omega
  rw [scanTrailers_resume hres.2]
  by_cases hnow : [cr, lf].isPrefixOf t = true
  · have hpre := (List.isPrefixOf_iff_prefix.mp hnow)
    have htwo : 2 ≤ t.length := hpre.length_le
    rw [isPrefixOf_crlf_append htwo, if_pos hnow, if_pos hnow]
    exact ⟨by omega, by omega, by rw [Nat.add_sub_cancel_left]⟩
  · rw [if_neg hnow]
    cases hscan : scanTrailers t 0 with
    | needMore =>
      refine ⟨le_rfl, hcursor, ?_, ?_, ?_⟩
      · simp only [Resumable, hstate, ht]
        exact ⟨le_rfl, undecidedBefore_of_needMore hscan⟩
      · simp only [outcome, hstate, trailersOutcome, ht, if_neg hnow, hscan]
      · simp only [outcome, hstate, trailersOutcome, happ, Nat.sub_self, ChunkedOutcome.prepend_nil_zero]
    | limit | bareLineFeed =>
      have hd : scanTrailers t 0 ≠ .needMore := by rw [hscan]; simp
      rw [isPrefixOf_crlf_append_of_decided hd, if_neg hnow, scanTrailers_append tail hfull hd, hscan]
      rfl
    | «section» trailerEnd =>
      have hd : scanTrailers t 0 ≠ .needMore := by rw [hscan]; simp
      have hend := le_of_scanTrailers_section hscan
      rw [isPrefixOf_crlf_append_of_decided hd, if_neg hnow, scanTrailers_append tail hfull hd, hscan]
      simp only [List.take_append_of_le_length (show trailerEnd ≤ t.length by omega)]
      by_cases hv : trailersValid d.config.obsFold (t.take trailerEnd) = false
      · simp only [if_pos hv]
        rfl
      · simp only [if_neg hv]
        exact ⟨by omega, by omega, by rw [Nat.add_sub_cancel_left]⟩

theorem decodeBody_reports (hstate : d.state = .ok .body) (hcursor : cursor ≤ available.length)
    (hres : d.Resumable (available.drop cursor)) (hquota : 0 < maxBodyBytes) :
    Reports (d.outcome (available.drop cursor ++ wire)) cursor available wire
      (decodeBody d available cursor maxBodyBytes) := by
  simp only [Resumable, hstate] at hres
  obtain ⟨hoff, hrem⟩ := hres
  simp only [decodeBody]
  generalize hn : min d.remaining (min (available.length - cursor) maxBodyBytes) = n
  by_cases hzero : n = 0
  · -- only an exhausted buffer stops a chunk
    have hend : available.drop cursor = [] := List.drop_eq_nil_of_le (by omega)
    rw [if_pos hzero]
    refine ⟨le_rfl, hcursor, ?_, ?_, ?_⟩
    · simp only [Resumable, hstate]
      exact ⟨hoff, hrem⟩
    · simp only [outcome, hstate, hend]
      rw [bodyOutcome, if_pos (by simpa using hrem)]
      rfl
    · simp
  · rw [if_neg hzero]
    have hle : n ≤ (available.drop cursor).length := by
      rw [List.length_drop]
      omega
    have hsplit : d.outcome (available.drop cursor ++ wire) =
        (bodyOutcome d.config d.decodedBytes d.framingOverheadBytes (d.remaining - n)
          (available.drop (cursor + n) ++ wire)).prepend (sub available cursor n) n := by
      simp only [outcome, hstate]
      rw [bodyOutcome_split (n := n) (by omega) (by rw [List.length_append]; omega),
        List.drop_append_of_le_length hle, List.take_append_of_le_length hle, List.drop_drop, sub]
    rw [hsplit]
    by_cases hdone : d.remaining - n = 0
    · rw [if_pos hdone, hdone, bodyOutcome_zero]
      by_cases htwo : 2 ≤ available.length - (cursor + n)
      · have hlen2 : 2 ≤ (available.drop (cursor + n)).length := by
          rw [List.length_drop]
          omega
        have hdel : delimiterOutcome d.config d.decodedBytes d.framingOverheadBytes
              (available.drop (cursor + n) ++ wire) =
            if [cr, lf].isPrefixOf (available.drop (cursor + n)) then
              (sizeLineOutcome d.config d.decodedBytes d.framingOverheadBytes
                (available.drop (cursor + n + 2) ++ wire)).prepend [] 2
            else .failed .invalidFraming := by
          rw [delimiterOutcome, if_neg (by rw [List.length_append]; omega), isPrefixOf_crlf_append hlen2,
            List.drop_append_of_le_length hlen2, List.drop_drop]
        rw [if_pos htwo, consumeDelimiter, hdel]
        by_cases hpre : [cr, lf].isPrefixOf (available.drop (cursor + n)) = true
        · rw [if_pos hpre, if_pos hpre, ChunkedOutcome.prepend_prepend]
          refine ⟨by omega, by omega, ?_, ?_⟩
          · simp only [Resumable, hoff]
            exact ⟨Nat.zero_le _, fun j hj => absurd hj (Nat.not_lt_zero j)⟩
          · rw [List.append_nil, show cursor + n + 2 - cursor = n + 2 by omega]
            rfl
        · rw [if_neg hpre, if_neg hpre]
          rfl
      · rw [if_neg htwo]
        refine ⟨by omega, by omega, ?_, ?_⟩
        · simpa only [Resumable] using hoff
        · rw [show cursor + n - cursor = n by omega]
          rfl
    · rw [if_neg hdone]
      refine ⟨by omega, by omega, ?_, ?_⟩
      · simp only [Resumable, hstate]
        exact ⟨hoff, by omega⟩
      · simp only [outcome, hstate]
        rw [show cursor + n - cursor = n by omega]

theorem decodeSizeLine_reports (hstate : d.state = .ok .sizeLine) (hcursor : cursor ≤ available.length)
    (hres : d.Resumable (available.drop cursor)) (hquota : 0 < maxBodyBytes) :
    Reports (d.outcome (available.drop cursor ++ wire)) cursor available wire
      (decodeSizeLine d available cursor maxBodyBytes) := by
  obtain ⟨tail, happ, hfull⟩ := take_window maxHttpHeaderBytes (available.drop cursor) wire
  obtain ⟨line, hline⟩ : ∃ t, (available.drop cursor).take maxHttpHeaderBytes = t := ⟨_, rfl⟩
  rw [hline] at happ hfull
  simp only [Resumable, hstate, hline] at hres
  have hlen : line.length ≤ available.length - cursor := by
    rw [← hline, List.length_take, List.length_drop]
    omega
  simp only [decodeSizeLine, sub, hline, scanSizeLine_resume hres.2]
  -- what the scan of the retained window says of the whole stream
  have hwhole : ∀ r, scanSizeLine line 0 = r → r ≠ .needMore →
      scanSizeLine ((available.drop cursor ++ wire).take maxHttpHeaderBytes) 0 = r := by
    rintro r rfl hr
    rw [happ, scanSizeLine_append tail hfull hr]
  cases hscan : scanSizeLine line 0 with
  | limit | bareLineFeed =>
    simp only [outcome, hstate, fail, Reports]
    rw [sizeLineOutcome]
    split <;> simp_all
  | needMore =>
    refine ⟨le_rfl, hcursor, ?_, ?_, ?_⟩
    · simp only [Resumable, hstate, hline]
      exact ⟨le_rfl, noLineFeedBefore_of_needMore hscan⟩
    · simp only [outcome, hstate]
      rw [sizeLineOutcome, hline]
      split <;> simp_all
    · simp only [outcome, hstate, Nat.sub_self, ChunkedOutcome.prepend_nil_zero]
  | line lineEnd =>
    have hend := lt_of_scanSizeLine_line hscan
    have htake : line.take lineEnd = (available.drop cursor ++ wire).take lineEnd := by
      rw [List.take_append_of_le_length (by rw [List.length_drop]; omega), ← hline, List.take_take,
        Nat.min_eq_left]
      rw [← hline, List.length_take] at hend
      omega
    have hdrop : (available.drop cursor ++ wire).drop (lineEnd + 2) =
        available.drop (cursor + (lineEnd + 2)) ++ wire := by
      rw [List.drop_append_of_le_length (by rw [List.length_drop]; omega), List.drop_drop]
    have hvalue : d.outcome (available.drop cursor ++ wire) =
        match parseHttpChunkSizeLine (line.take lineEnd) with
        | none => .failed .invalidFraming
        | some sizeLine =>
          if maxHttpHeaderBytes - d.framingOverheadBytes < sizeLine.overheadBytes then
            .failed .framingLimitExceeded
          else if sizeLine.size = 0 then
            (trailersOutcome d.config.obsFold
              (available.drop (cursor + (lineEnd + 2)) ++ wire)).prepend [] (lineEnd + 2)
          else if d.config.bodyLimit.additionExceeds d.decodedBytes sizeLine.size then
            .failed .bodyLimitExceeded
          else
            (bodyOutcome d.config (d.decodedBytes + sizeLine.size)
              (d.framingOverheadBytes + sizeLine.overheadBytes) sizeLine.size
              (available.drop (cursor + (lineEnd + 2)) ++ wire)).prepend [] (lineEnd + 2) := by
      simp only [outcome, hstate]
      rw [sizeLineOutcome]
      have := hwhole _ hscan (by simp)
      split
      · simp_all
      · simp_all
      · simp_all
      · rename_i e he
        obtain rfl : e = lineEnd := by simpa using he.symm.trans this
        rw [htake, hdrop]
    rw [hvalue]
    cases hparse : parseHttpChunkSizeLine (line.take lineEnd) with
    | none => simp [Reports, fail, hparse]
    | some sizeLine =>
      simp only [hparse]
      by_cases hover : maxHttpHeaderBytes - d.framingOverheadBytes < sizeLine.overheadBytes
      · simp [Reports, fail, hover]
      · rw [if_neg hover, if_neg hover]
        by_cases hzero : sizeLine.size = 0
        · rw [if_pos hzero, if_pos hzero]
          refine Reports.shift (decodeTrailers_reports ?_ (by omega) ?_)
          · rfl
          · exact ⟨Nat.zero_le _, fun j hj => absurd hj (Nat.not_lt_zero j)⟩
        · rw [if_neg hzero, if_neg hzero]
          by_cases hlimit : d.config.bodyLimit.additionExceeds d.decodedBytes sizeLine.size = true
          · simp [Reports, fail, hlimit]
          · rw [if_neg hlimit, if_neg hlimit]
            refine Reports.shift (decodeBody_reports ?_ (by omega) ?_ hquota)
            · rfl
            · exact ⟨rfl, Nat.pos_of_ne_zero hzero⟩

theorem decodeDelimiter_reports (hstate : d.state = .ok .delimiter) (hcursor : cursor ≤ available.length)
    (hres : d.Resumable (available.drop cursor)) (hquota : 0 < maxBodyBytes) :
    Reports (d.outcome (available.drop cursor ++ wire)) cursor available wire
      (decodeDelimiter d available cursor maxBodyBytes) := by
  rw [decodeDelimiter]
  by_cases htwo : available.length - cursor < 2
  · rw [if_pos htwo]
    refine ⟨le_rfl, hcursor, hres, ?_, by simp⟩
    simp only [outcome, hstate]
    rw [delimiterOutcome, if_pos (by rwa [List.length_drop])]
  · have hlen : 2 ≤ (available.drop cursor).length := by
      rw [List.length_drop]
      omega
    simp only [Resumable, hstate] at hres
    rw [if_neg htwo, consumeDelimiter]
    simp only [outcome, hstate]
    rw [delimiterOutcome, if_neg (by rw [List.length_append]; omega), isPrefixOf_crlf_append hlen,
      List.drop_append_of_le_length hlen, List.drop_drop]
    by_cases hpre : [cr, lf].isPrefixOf (available.drop cursor) = true
    · rw [if_pos hpre, if_pos hpre]
      refine Reports.shift (decodeSizeLine_reports (show { d with state := .ok .sizeLine }.state = _ from rfl)
        (by omega) ?_ hquota)
      exact ⟨by simp only [hres]; omega, fun j hj => absurd (hres ▸ hj) (Nat.not_lt_zero j)⟩
    · rw [if_neg hpre, if_neg hpre]
      rfl

/-- **One call reports a part of the outcome**, whatever is still to come. -/
theorem decode_reports (hres : d.Resumable available) (hquota : 0 < maxBodyBytes) :
    Reports (d.outcome (available ++ wire)) 0 available wire (decode d available maxBodyBytes) := by
  cases hstate : d.state with
  | error error =>
    simp only [decode, hstate, outcome]
    rfl
  | ok progress =>
    cases progress with
    | sizeLine =>
      simp only [decode, hstate]
      exact decodeSizeLine_reports hstate (Nat.zero_le _) hres hquota
    | body =>
      simp only [decode, hstate]
      exact decodeBody_reports hstate (Nat.zero_le _) hres hquota
    | delimiter =>
      simp only [decode, hstate]
      exact decodeDelimiter_reports hstate (Nat.zero_le _) hres hquota
    | trailers =>
      simp only [decode, hstate, outcome]
      exact decodeTrailers_reports hstate (Nat.zero_le _) hres
    | complete =>
      simp only [decode, hstate, outcome]
      exact ⟨le_rfl, Nat.zero_le _, rfl⟩

end Http1ChunkedBodyDecoder

end Ruvia.Http
