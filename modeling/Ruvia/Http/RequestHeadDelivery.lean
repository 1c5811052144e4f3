import Ruvia.Http.RequestHeadScan

/-!
# `Http.RequestHeadDelivery` — a request head does not see how it arrives

A state that still waits for its head has scanned exactly what it claims to have scanned (`Scanned`). From
such a state one call on a longer buffer (`parseHead_step`)

* waits again, having scanned the longer buffer; or
* is ready, and is the state a single call on the longer buffer gives; or
* has failed, and then the buffer is `Doomed`: no continuation of it is a request head.
-/

namespace Ruvia.Http

open Library

/-- No continuation of the buffer is accepted by a single call. -/
def Doomed (buffer : Bytes) : Prop :=
  ∀ more n, (parseHeadOnce (buffer ++ more)).progress ≠ .headReady n

/-! ## A single call -/

/-- The state behind a complete head. -/
def headState (text : Bytes) (headerBytes : Nat) : Http1ServerRequestParseState :=
  match parseHeadText text with
  | .error error => failHead error
  | .ok block => finishHead block headerBytes

theorem finishHead_progress (block : ParsedRequestHeaderBlock) (headerBytes : Nat) :
    (∃ error, (finishHead block headerBytes).progress = .failure error) ∨
      (finishHead block headerBytes).progress = .headReady headerBytes := by
  simp only [finishHead]
  split
  · exact .inl ⟨_, rfl⟩
  · split
    · exact .inl ⟨_, rfl⟩
    · split
      · exact .inl ⟨_, rfl⟩
      · exact .inr rfl

theorem headState_progress (text : Bytes) (headerBytes : Nat) :
    (∃ error, (headState text headerBytes).progress = .failure error) ∨
      (headState text headerBytes).progress = .headReady headerBytes := by
  rw [headState]
  cases parseHeadText text with
  | error error => exact .inl ⟨error, rfl⟩
  | ok block => exact finishHead_progress block headerBytes

variable {state : Http1ServerRequestParseState}

theorem parseHead_of_head {buffer : Bytes} {offset leading n : Nat}
    (h : findHttpRequestHeadEnd buffer (resumeScan state.progress offset).leadingBytes offset = (leading, some n)) :
    state.parseHead buffer offset = headState (headText buffer leading n) n := by
  cases htext : parseHeadText (headText buffer leading n) <;>
    simp only [Http1ServerRequestParseState.parseHead, h, headState, parseHttpHeaderBlock, htext]

theorem parseHead_of_no_head {buffer : Bytes} {offset leading : Nat}
    (h : findHttpRequestHeadEnd buffer (resumeScan state.progress offset).leadingBytes offset = (leading, none)) :
    state.parseHead buffer offset =
      awaitHead buffer leading (resumeScan state.progress offset).requestLineEnd offset := by
  simp only [Http1ServerRequestParseState.parseHead, h]

theorem awaitHead_not_ready (buffer : Bytes) (leading lineEnd offset n : Nat) :
    (awaitHead buffer leading lineEnd offset).progress ≠ .headReady n := by
  simp only [awaitHead, failHead]
  split
  · simp
  · split
    · simp
    · split <;> simp

/-! ## What a buffer holds -/

/-- The part of a buffer the parser looks at, and the empty lines in front of it. -/
def window (buffer : Bytes) : Bytes := buffer.take maxHttpHeaderBytes

def leadingOf (buffer : Bytes) : Nat := emptyLineBytes (window buffer)

/-- The window behind the empty lines. -/
def headWindow (buffer : Bytes) : Bytes := (window buffer).drop (leadingOf buffer)

theorem leading_fresh (buffer : Bytes) : httpRequestLeadingEmptyLineBytes buffer 0 = leadingOf buffer := by
  simp [httpRequestLeadingEmptyLineBytes, leadingOf, window]

theorem leading_resumed {buffer : Bytes} {skipped : Nat} (h : skipped ≤ (window buffer).length) :
    httpRequestLeadingEmptyLineBytes buffer skipped =
      skipped + emptyLineBytes ((window buffer).drop skipped) := by
  simp only [window] at h ⊢
  rw [httpRequestLeadingEmptyLineBytes, Nat.min_eq_left h]

theorem leadingOf_le (buffer : Bytes) : leadingOf buffer ≤ (window buffer).length := emptyLineBytes_le _

/-- The head of a buffer ends with the first CRLFCRLF of its head window. -/
theorem findHttpRequestHeadEnd_fresh (buffer : Bytes) :
    ∃ r, findHttpRequestHeadEnd buffer 0 0 = (leadingOf buffer, r.map (leadingOf buffer + 1 + ·)) ∧
      SearchResult (EndsAt (headWindow buffer)) 0 r := by
  obtain ⟨r, hr, hres⟩ := findHttpRequestHeadEnd_spec buffer 0 0
  rw [leading_fresh] at hr hres
  rw [Nat.zero_sub] at hres
  exact ⟨r, hr, hres⟩

variable {e : Nat}

/-- The text of a head that ends at `e`. -/
theorem headText_eq {buffer : Bytes} (hend : EndsAt (headWindow buffer) e) :
    headText buffer (leadingOf buffer) (leadingOf buffer + 1 + e) = (headWindow buffer).take (e - 1) := by
  have hthree := hend.1
  have hlt := hend.lt_length
  rw [headWindow, List.length_drop, window, List.length_take] at hlt
  rw [headText, headWindow, window, List.take_drop, List.take_take]
  congr 2
  omega

/-- A single call answers by the first CRLFCRLF. -/
theorem parseHeadOnce_of_end {buffer : Bytes} (h : SearchResult (EndsAt (headWindow buffer)) 0 (some e)) :
    parseHeadOnce buffer = headState ((headWindow buffer).take (e - 1)) (leadingOf buffer + 1 + e) := by
  obtain ⟨r, hr, hres⟩ := findHttpRequestHeadEnd_fresh buffer
  obtain rfl : r = some e := hres.unique h
  rw [← headText_eq h.2.1]
  exact parseHead_of_head hr

theorem parseHeadOnce_not_ready {buffer : Bytes} {n : Nat} (h : ∀ e, ¬ EndsAt (headWindow buffer) e) :
    (parseHeadOnce buffer).progress ≠ .headReady n := by
  obtain ⟨r, hr, hres⟩ := findHttpRequestHeadEnd_fresh buffer
  obtain rfl : r = none := hres.unique fun e _ => h e
  rw [parseHeadOnce, parseHead_of_no_head hr]
  exact awaitHead_not_ready _ _ _ _ _

/-! ## Continuations -/

/-- The empty lines have ended: by a byte that is no CR, or by a CR that another byte follows. -/
def LeadingSettled (buffer : Bytes) : Prop :=
  ∃ b, (window buffer)[leadingOf buffer]? = some b ∧ (b = cr → leadingOf buffer + 1 < (window buffer).length)

theorem leadingSettled_of_length {buffer : Bytes} (h : 2 ≤ (headWindow buffer).length) : LeadingSettled buffer := by
  rw [headWindow, List.length_drop] at h
  exact ⟨_, List.getElem?_eq_getElem (by omega), fun _ => by omega⟩

theorem LeadingSettled.leadingOf_append {buffer : Bytes} (h : LeadingSettled buffer) (more : Bytes) :
    leadingOf (buffer ++ more) = leadingOf buffer := by
  obtain ⟨b, hb, hcr⟩ := h
  obtain ⟨tail, htail, _⟩ := take_window maxHttpHeaderBytes buffer more
  rw [leadingOf, window, htail]
  exact emptyLineBytes_stop hb hcr tail

theorem LeadingSettled.headWindow_append {buffer : Bytes} (h : LeadingSettled buffer) (more : Bytes) :
    ∃ tail, headWindow (buffer ++ more) = headWindow buffer ++ tail := by
  obtain ⟨tail, htail, _⟩ := take_window maxHttpHeaderBytes buffer more
  refine ⟨tail, ?_⟩
  rw [headWindow, h.leadingOf_append, window, htail]
  exact List.drop_append_of_le_length (leadingOf_le buffer)

/-- **A complete head is answered alike in every continuation.** -/
theorem parseHeadOnce_append {buffer : Bytes} (h : SearchResult (EndsAt (headWindow buffer)) 0 (some e))
    (more : Bytes) :
    parseHeadOnce (buffer ++ more) = parseHeadOnce buffer := by
  have hlt := h.2.1.lt_length
  have hthree := h.2.1.1
  have hsettled : LeadingSettled buffer := leadingSettled_of_length (by omega)
  obtain ⟨tail, htail⟩ := hsettled.headWindow_append more
  have hend : SearchResult (EndsAt (headWindow (buffer ++ more))) 0 (some e) := by
    rw [htail]
    refine ⟨h.1, (endsAt_append hlt).mpr h.2.1, fun j hj hje hendj => ?_⟩
    exact h.2.2 j hj hje ((endsAt_append (by omega)).mp hendj)
  rw [parseHeadOnce_of_end hend, parseHeadOnce_of_end h, hsettled.leadingOf_append, htail,
    List.take_append_of_le_length (by omega)]

/-- A buffer is doomed when the text of every head that could still be completed is rejected. -/
theorem doomed_of_text {buffer : Bytes} (hsettled : LeadingSettled buffer)
    (htext : ∀ tail e, SearchResult (EndsAt (headWindow buffer ++ tail)) 0 (some e) →
      ∃ error, parseHeadText ((headWindow buffer ++ tail).take (e - 1)) = .error error) :
    Doomed buffer := by
  intro more n
  obtain ⟨tail, htail⟩ := hsettled.headWindow_append more
  obtain ⟨r, hr, hres⟩ := findHttpRequestHeadEnd_fresh (buffer ++ more)
  cases r with
  | none => exact parseHeadOnce_not_ready fun e => hres e (Nat.zero_le e)
  | some e =>
    rw [parseHeadOnce_of_end hres, htail]
    obtain ⟨error, herror⟩ := htext tail e (htail ▸ hres)
    simp [headState, herror, failHead]

variable {error : HttpParseError}

/-- A rejected head dooms its buffer. -/
theorem doomed_of_failed_head {buffer : Bytes} (h : SearchResult (EndsAt (headWindow buffer)) 0 (some e))
    (hfail : (parseHeadOnce buffer).progress = .failure error) : Doomed buffer := by
  intro more n
  rw [parseHeadOnce_append h more, hfail]
  simp

/-- A full window without a head end dooms its buffer. -/
theorem doomed_of_cap {buffer : Bytes} (hfull : maxHttpHeaderBytes ≤ buffer.length)
    (hnone : ∀ e, ¬ EndsAt (headWindow buffer) e) : Doomed buffer := by
  intro more n
  have hwindow : window (buffer ++ more) = window buffer := List.take_append_of_le_length hfull
  refine parseHeadOnce_not_ready fun e => ?_
  rw [headWindow, leadingOf, hwindow]
  exact hnone e

/-! ## Early rejections -/

/-- The head window has a first line; `fields` is what follows its LF. -/
def FirstLine (buffer line fields : Bytes) : Prop :=
  lf ∉ line ∧ headWindow buffer = line ++ lf :: fields

variable {line fields : Bytes}

/-- The text of a head holds the whole first line. -/
theorem take_of_line (hline : lf ∉ line) (hend : EndsAt (line ++ lf :: fields) e) :
    line.length + 2 ≤ e ∧
      (line ++ lf :: fields).take (e - 1) = line ++ lf :: fields.take (e - (line.length + 2)) := by
  have hle : line.length + 2 ≤ e := by
    by_contra hlt
    have hlf := hend.2.2.2.1
    rw [List.getElem?_append_left (by have := hend.1; omega)] at hlf
    exact hline (List.mem_of_getElem? hlf)
  refine ⟨hle, ?_⟩
  rw [List.take_append, List.take_of_length_le (by omega),
    show e - 1 - line.length = e - (line.length + 2) + 1 by omega, List.take_succ_cons]

theorem leadingSettled_of_line {buffer : Bytes} (h : FirstLine buffer line fields) : LeadingSettled buffer := by
  obtain ⟨hline, hwin⟩ := h
  cases line with
  | nil =>
    -- the scan of the empty lines does not stop at an LF, but at the end of a CR it would have skipped
    refine ⟨lf, ?_, fun h => absurd h (by decide)⟩
    have := congrArg (·[0]?) hwin
    simpa [headWindow] using this
  | cons c line =>
    refine leadingSettled_of_length ?_
    simp only [hwin, List.length_append, List.length_cons]
    omega

theorem doomed_of_first_byte {buffer : Bytes} {b : UInt8} (hsettled : LeadingSettled buffer)
    (hb : (headWindow buffer).head? = some b) (htoken : isHttpTokenChar b = false) : Doomed buffer := by
  refine doomed_of_text hsettled fun tail e hres => ⟨.invalidRequestLine, ?_⟩
  rw [parseHeadText, parseRequestLine_of_head]
  intro b' hb'
  have hthree := hres.2.1.1
  rw [List.head?_take, if_neg (by omega), List.head?_append, hb, Option.some_or] at hb'
  cases hb'
  exact htoken

theorem doomed_of_line {buffer : Bytes} (h : FirstLine buffer line fields)
    (herror : parseRequestLine (line ++ [lf]) = .error error) :
    Doomed buffer := by
  refine doomed_of_text (leadingSettled_of_line h) fun tail e hres => ⟨error, ?_⟩
  obtain ⟨hline, hwin⟩ := h
  rw [hwin, List.append_assoc, List.cons_append] at hres ⊢
  rw [(take_of_line hline hres.2.1).2, parseHeadText, parseRequestLine_line hline, herror]

theorem doomed_of_bare {buffer : Bytes} {parsed : ParsedRequestLine} {k : Nat} (h : FirstLine buffer line fields)
    (hok : parseRequestLine (line ++ [lf]) = .ok (parsed, [])) (hnone : ∀ e, ¬ EndsAt (headWindow buffer) e)
    (hbare : BareLineFeedAt fields k) : Doomed buffer := by
  refine doomed_of_text (leadingSettled_of_line h) fun tail e hres => ?_
  obtain ⟨hline, hwin⟩ := h
  have hk := (List.getElem?_eq_some_iff.mp hbare.1).1
  -- the head ends behind the buffer, so its text holds the bare LF
  have hbehind : (headWindow buffer).length ≤ e := by
    by_contra hlt
    exact hnone e ((endsAt_append (by omega)).mp hres.2.1)
  rw [hwin] at hbehind hres
  rw [hwin]
  rw [List.append_assoc, List.cons_append] at hres ⊢
  simp only [List.length_append, List.length_cons] at hbehind
  have hcr := hres.2.1.2.2.1
  have hlt : k < e - (line.length + 2) := by
    by_contra hge
    have hat : e - 1 = line.length + 1 + k := by omega
    rw [hat, List.getElem?_append_right (by omega), show line.length + 1 + k - line.length = k + 1 by omega,
      List.getElem?_cons_succ, List.getElem?_append_left hk, hbare.1] at hcr
    cases hcr
  rw [(take_of_line hline hres.2.1).2, parseHeadText, parseRequestLine_line hline, hok]
  refine parseHeaderFields_bare _ _ _ _ k ⟨?_, hbare.2.imp_right fun hprev => ?_⟩
  · rw [List.getElem?_take_of_lt hlt, List.getElem?_append_left hk, hbare.1]
  · rw [List.getElem?_take_of_lt (by omega), List.getElem?_append_left (by omega)]
    exact hprev

/-! ## One call -/

/-- The first line is still open, or it was accepted and no bare LF has followed. -/
def LineScanned (buffer : Bytes) (requestLineEnd : Nat) : Prop :=
  (requestLineEnd = 0 ∧ lf ∉ headWindow buffer) ∨
    ∃ line fields parsed, FirstLine buffer line fields ∧
      requestLineEnd = leadingOf buffer + (line.length + 1) ∧
      parseRequestLine (line ++ [lf]) = .ok (parsed, []) ∧ ∀ k, ¬ BareLineFeedAt fields k

/-- **What a waiting state has scanned.** -/
structure Scanned (buffer : Bytes) (scan : Http1ServerNeedRequestHead) : Prop where
  short : buffer.length < maxHttpHeaderBytes
  leading : scan.leadingBytes = leadingOf buffer
  noEnd : ∀ e, ¬ EndsAt (headWindow buffer) e
  line : LineScanned buffer scan.requestLineEnd

theorem scanned_nil : Scanned [] {} where
  short := by decide
  leading := rfl
  noEnd e h := by
    have := h.lt_length
    simp [headWindow, window] at this
  line := .inl ⟨rfl, by simp [headWindow, window]⟩

/-- The part of a longer buffer's window that was there before. -/
theorem window_append {buffer : Bytes} (h : buffer.length < maxHttpHeaderBytes) (more : Bytes) :
    ∃ tail, window (buffer ++ more) = buffer ++ tail := by
  obtain ⟨tail, htail, _⟩ := take_window maxHttpHeaderBytes buffer more
  refine ⟨tail, ?_⟩
  rw [window, htail, List.take_of_length_le (by omega)]

theorem window_of_short {buffer : Bytes} (h : buffer.length < maxHttpHeaderBytes) :
    window buffer = buffer := List.take_of_length_le (by omega)

variable {buffer : Bytes} {scan : Http1ServerNeedRequestHead}

section

variable (h : Scanned buffer scan)
include h

theorem Scanned.lineEnd_le : scan.requestLineEnd ≤ buffer.length := by
  rcases h.line with ⟨hzero, _⟩ | ⟨line, fields, _, ⟨_, hwin⟩, hend, _⟩
  · omega
  · have hlen := congrArg List.length hwin
    rw [headWindow, List.length_drop, window_of_short h.short, List.length_append, List.length_cons] at hlen
    omega

theorem Scanned.leadingOf_le : leadingOf buffer ≤ buffer.length := by
  have := Ruvia.Http.leadingOf_le buffer
  rwa [window_of_short h.short] at this

/-- A call that goes on where the last one stopped keeps all of the scan. -/
theorem Scanned.resume : resumeScan (.needRequestHead scan) buffer.length = scan := by
  have hlead := h.leadingOf_le
  rw [← h.leading] at hlead
  simp only [resumeScan, Nat.min_eq_left hlead, if_pos h.lineEnd_le]

theorem Scanned.leading_append (more : Bytes) :
    httpRequestLeadingEmptyLineBytes (buffer ++ more) scan.leadingBytes = leadingOf (buffer ++ more) := by
  obtain ⟨tail, htail⟩ := window_append h.short more
  have hle := h.leadingOf_le
  rw [h.leading, leading_resumed (by rw [htail, List.length_append]; omega), leadingOf, leadingOf, htail,
    window_of_short h.short, emptyLineBytes_append buffer tail]

theorem Scanned.leadingOf_mono (more : Bytes) : leadingOf buffer ≤ leadingOf (buffer ++ more) := by
  obtain ⟨tail, htail⟩ := window_append h.short more
  rw [leadingOf, leadingOf, htail, window_of_short h.short, emptyLineBytes_append buffer tail]
  exact Nat.le_add_right _ _

/-- A position of the longer head window inside the old buffer. -/
theorem Scanned.getElem?_headWindow (more : Bytes) {j : Nat}
    (hj : leadingOf (buffer ++ more) + j < buffer.length) :
    (headWindow (buffer ++ more))[j]? =
      (headWindow buffer)[j + (leadingOf (buffer ++ more) - leadingOf buffer)]? := by
  obtain ⟨tail, htail⟩ := window_append h.short more
  have hmono := h.leadingOf_mono more
  rw [headWindow, headWindow, htail, window_of_short h.short, List.getElem?_drop, List.getElem?_drop,
    List.getElem?_append_left hj]
  congr 1
  omega

/-- **The resumed head search answers as a search from the start.** -/
theorem Scanned.findHeadEnd (more : Bytes) :
    ∃ r, findHttpRequestHeadEnd (buffer ++ more) scan.leadingBytes buffer.length =
        (leadingOf (buffer ++ more), r.map (leadingOf (buffer ++ more) + 1 + ·)) ∧
      SearchResult (EndsAt (headWindow (buffer ++ more))) 0 r := by
  obtain ⟨r, hr, hres⟩ := findHttpRequestHeadEnd_spec (buffer ++ more) scan.leadingBytes buffer.length
  rw [h.leading_append] at hr hres
  refine ⟨r, hr, SearchResult.skip (Nat.zero_le _) (fun j _ hj hend => ?_) hres⟩
  have hat : ∀ i, i ≤ j → (headWindow (buffer ++ more))[i]? = (headWindow buffer)[i + _]? :=
    fun i hi => h.getElem?_headWindow more (by omega)
  obtain ⟨hthree, h0, h1, h2, h3⟩ := hend
  rw [hat _ (by omega)] at h0 h1 h2 h3
  refine h.noEnd (j + (leadingOf (buffer ++ more) - leadingOf buffer)) ⟨by omega, h0, ?_, ?_, ?_⟩
  · rw [← h1]
    congr 1
    omega
  · rw [← h2]
    congr 1
    omega
  · rw [← h3]
    congr 1
    omega

end

/-- A first line of the longer buffer, seen from the window. -/
theorem firstLine_of_findByte {buffer : Bytes} {lineFeed : Nat} (hle : leadingOf buffer ≤ lineFeed)
    (hlf : (window buffer)[lineFeed]? = some lf)
    (hmin : ∀ j, leadingOf buffer ≤ j → j < lineFeed → (window buffer)[j]? ≠ some lf) :
    ∃ line, FirstLine buffer line ((window buffer).drop (lineFeed + 1)) ∧
      lineFeed = leadingOf buffer + line.length ∧
      ((window buffer).take (lineFeed + 1)).drop (leadingOf buffer) = line ++ [lf] := by
  obtain ⟨hlt, hget⟩ := List.getElem?_eq_some_iff.mp hlf
  have hlen : ((headWindow buffer).take (lineFeed - leadingOf buffer)).length = lineFeed - leadingOf buffer := by
    rw [List.length_take, headWindow, List.length_drop]
    omega
  refine ⟨(headWindow buffer).take (lineFeed - leadingOf buffer), ⟨fun hmem => ?_, ?_⟩, ?_, ?_⟩
  · obtain ⟨j, hj⟩ := List.getElem?_of_mem hmem
    have hjlt := (List.getElem?_eq_some_iff.mp hj).1
    rw [hlen] at hjlt
    rw [List.getElem?_take_of_lt hjlt, headWindow, List.getElem?_drop] at hj
    exact hmin _ (Nat.le_add_right _ _) (by omega) hj
  · conv_lhs => rw [← List.take_append_drop (lineFeed - leadingOf buffer) (headWindow buffer)]
    rw [headWindow, List.drop_drop, Nat.add_sub_cancel' hle, List.drop_eq_getElem_cons hlt, hget]
  · omega
  · rw [headWindow, ← List.drop_take, List.take_succ_eq_append_getElem hlt, hget,
      List.drop_append_of_le_length (by rw [List.length_take]; omega)]

/-- What the prefix classification says of a buffer whose first `searchOffset` bytes held no line end. -/
theorem classifyHttpRequestLinePrefix_spec {buffer : Bytes} {searchOffset : Nat}
    (hbefore : ∀ j, leadingOf buffer ≤ j → j < searchOffset → (window buffer)[j]? ≠ some lf) :
    match classifyHttpRequestLinePrefix buffer (leadingOf buffer) searchOffset with
    | .error _ => Doomed buffer
    | .ok none => lf ∉ headWindow buffer
    | .ok (some lineEnd) =>
      searchOffset < lineEnd ∧ ∃ line fields parsed, FirstLine buffer line fields ∧
        lineEnd = leadingOf buffer + (line.length + 1) ∧
        parseRequestLine (line ++ [lf]) = .ok (parsed, []) := by
  have hwin : buffer.take maxHttpHeaderBytes = window buffer := rfl
  simp only [classifyHttpRequestLinePrefix, hwin]
  cases hfirst : (window buffer)[leadingOf buffer]? with
  | none =>
    have : headWindow buffer = [] := List.drop_eq_nil_of_le (List.getElem?_eq_none_iff.mp hfirst)
    simp [this]
  | some first =>
    simp only
    have hhead : (headWindow buffer).head? = some first := by
      rw [headWindow, List.head?_drop, hfirst]
    by_cases hlone : first = cr ∧ leadingOf buffer + 1 = (window buffer).length
    · rw [if_pos hlone]
      have hsingle : headWindow buffer = [first] := by
        cases hw : headWindow buffer with
        | nil => simp [hw] at hhead
        | cons b rest =>
          have hlen := congrArg List.length hw
          rw [headWindow, List.length_drop, List.length_cons] at hlen
          rw [hw] at hhead
          obtain rfl : b = first := by simpa using hhead
          rw [List.eq_nil_of_length_eq_zero (l := rest) (by omega)]
      rw [hsingle, hlone.1]
      exact (by decide : lf ∉ [cr])
    · rw [if_neg hlone]
      have hsettled : LeadingSettled buffer := by
        have := (List.getElem?_eq_some_iff.mp hfirst).1
        exact ⟨first, hfirst, fun hcr => by have := not_and.mp hlone hcr; omega⟩
      by_cases htoken : isHttpTokenChar first = false
      · rw [if_pos htoken]
        exact doomed_of_first_byte hsettled hhead htoken
      · rw [if_neg htoken]
        cases hf : findByte lf (window buffer) (max (leadingOf buffer) searchOffset) with
        | none =>
          intro hmem
          obtain ⟨j, hj⟩ := List.getElem?_of_mem hmem
          rw [headWindow, List.getElem?_drop] at hj
          rcases Nat.lt_or_ge (leadingOf buffer + j) searchOffset with hlt | hge
          · exact hbefore _ (Nat.le_add_right _ _) hlt hj
          · exact findByte_eq_none_iff.mp hf _ (by omega) hj
        | some lineFeed =>
          obtain ⟨hge, hlf, hmin⟩ := findByte_eq_some_iff.mp hf
          obtain ⟨line, hline, hat, htext⟩ := firstLine_of_findByte (by omega) hlf fun j hj hjl => by
            rcases Nat.lt_or_ge j searchOffset with hlt | hge
            · exact hbefore j hj hlt
            · exact hmin j (by omega) hjl
          simp only [htext]
          cases hparse : parseRequestLine (line ++ [lf]) with
          | error error => exact doomed_of_line hline hparse
          | ok result =>
            obtain ⟨parsed, rest⟩ := result
            obtain rfl := parseRequestLine_ok_rest hline.1 hparse
            exact ⟨by simp only [List.length_nil]; omega, line, _, parsed, hline,
              by simp only [List.length_nil]; omega, hparse⟩

/-- Behind an accepted request line: a bare LF dooms the buffer, and otherwise all of it is scanned. -/
theorem bare_or_scanned {buffer line fields : Bytes} {parsed : ParsedRequestLine} {searchOffset : Nat}
    (hline : FirstLine buffer line fields) (hok : parseRequestLine (line ++ [lf]) = .ok (parsed, []))
    (hnone : ∀ e, ¬ EndsAt (headWindow buffer) e)
    (hbefore : ∀ k, leadingOf buffer + (line.length + 1) + k < searchOffset → ¬ BareLineFeedAt fields k) :
    if hasHttpBareLineFeed buffer (max (leadingOf buffer + (line.length + 1)) searchOffset) then Doomed buffer
    else ∀ k, ¬ BareLineFeedAt fields k := by
  have hat : ∀ k, (window buffer)[leadingOf buffer + (line.length + 1) + k]? = fields[k]? := by
    intro k
    have : (headWindow buffer)[line.length + 1 + k]? = fields[k]? := by
      rw [hline.2, List.getElem?_append_right (by omega), show line.length + 1 + k - line.length = k + 1 by omega,
        List.getElem?_cons_succ]
    rw [← this, headWindow, List.getElem?_drop]
    congr 1
    omega
  have hlf : (window buffer)[leadingOf buffer + line.length]? = some lf := by
    have : (headWindow buffer)[line.length]? = some lf := by
      rw [hline.2, List.getElem?_append_right le_rfl, Nat.sub_self]
      rfl
    rw [← this, headWindow, List.getElem?_drop]
  -- a bare LF of the fields is one of the window: the request line ends in LF, not in CR
  have hbare : ∀ k, BareLineFeedAt fields k ↔
      BareLineFeedAt (window buffer) (leadingOf buffer + (line.length + 1) + k) := by
    intro k
    rw [BareLineFeedAt, BareLineFeedAt, hat]
    refine and_congr_right fun _ => ?_
    cases k with
    | zero =>
      simp only [Nat.add_zero, true_or, true_iff]
      refine .inr ?_
      rw [show leadingOf buffer + (line.length + 1) - 1 = leadingOf buffer + line.length by omega, hlf]
      decide
    | succ k =>
      have hpred : leadingOf buffer + (line.length + 1) + (k + 1) - 1 =
          leadingOf buffer + (line.length + 1) + k := by omega
      rw [hpred, hat, Nat.add_sub_cancel]
      simp
  split
  · rename_i hhas
    obtain ⟨q, hq, hqbare⟩ := hasHttpBareLineFeed_iff.mp hhas
    obtain ⟨k, rfl⟩ : ∃ k, q = leadingOf buffer + (line.length + 1) + k :=
      ⟨q - (leadingOf buffer + (line.length + 1)), by omega⟩
    exact doomed_of_bare hline hok hnone ((hbare k).mpr hqbare)
  · rename_i hhas
    intro k hk
    rcases Nat.lt_or_ge (leadingOf buffer + (line.length + 1) + k) searchOffset with hlt | hge
    · exact hbefore k hlt hk
    · exact hhas (hasHttpBareLineFeed_iff.mpr ⟨_, by omega, (hbare k).mp hk⟩)

theorem awaitHead_step {buffer : Bytes} {lineEnd searchOffset : Nat}
    (hnone : ∀ e, ¬ EndsAt (headWindow buffer) e)
    (hline : match advanceRequestLine buffer (leadingOf buffer) lineEnd searchOffset with
      | .error _ => Doomed buffer
      | .ok lineEnd =>
        if lineEnd ≠ 0 ∧ hasHttpBareLineFeed buffer (max lineEnd searchOffset) then Doomed buffer
        else LineScanned buffer lineEnd) :
    (∃ scan, (awaitHead buffer (leadingOf buffer) lineEnd searchOffset).progress = .needRequestHead scan ∧
      Scanned buffer scan) ∨
    (∃ error, (awaitHead buffer (leadingOf buffer) lineEnd searchOffset).progress = .failure error ∧
      Doomed buffer) := by
  simp only [awaitHead]
  cases hadvance : advanceRequestLine buffer (leadingOf buffer) lineEnd searchOffset with
  | error error =>
    rw [hadvance] at hline
    exact .inr ⟨error, rfl, hline⟩
  | ok lineEnd =>
    rw [hadvance] at hline
    simp only at hline ⊢
    by_cases hbare : lineEnd ≠ 0 ∧ hasHttpBareLineFeed buffer (max lineEnd searchOffset) = true
    · rw [if_pos hbare] at hline ⊢
      exact .inr ⟨_, rfl, hline⟩
    · rw [if_neg hbare] at hline ⊢
      by_cases hfull : maxHttpHeaderBytes ≤ buffer.length
      · rw [if_pos hfull]
        exact .inr ⟨_, rfl, doomed_of_cap hfull hnone⟩
      · rw [if_neg hfull]
        exact .inl ⟨_, rfl, ⟨by omega, rfl, hnone, hline⟩⟩

/-- The line part of a step: what the call finds out about the first line of the longer buffer. -/
theorem Scanned.advance (h : Scanned buffer scan) (more : Bytes)
    (hnone : ∀ e, ¬ EndsAt (headWindow (buffer ++ more)) e) :
    match advanceRequestLine (buffer ++ more) (leadingOf (buffer ++ more)) scan.requestLineEnd buffer.length with
    | .error _ => Doomed (buffer ++ more)
    | .ok lineEnd =>
      if lineEnd ≠ 0 ∧ hasHttpBareLineFeed (buffer ++ more) (max lineEnd buffer.length) then
        Doomed (buffer ++ more)
      else LineScanned (buffer ++ more) lineEnd := by
  rw [advanceRequestLine]
  rcases h.line with ⟨hzero, hopen⟩ | ⟨line, fields, parsed, hfirst, hend, hok, hbare⟩
  · -- the first line was open: nothing in the old buffer ended it
    rw [if_pos hzero]
    have hspec := @classifyHttpRequestLinePrefix_spec (buffer ++ more) buffer.length
      fun j hj hjl hlf => hopen <| by
        refine List.mem_of_getElem? (i := j - leadingOf buffer) ?_
        have hmono := h.leadingOf_mono more
        obtain ⟨tail, htail⟩ := window_append h.short more
        rw [htail, List.getElem?_append_left hjl] at hlf
        rw [headWindow, window_of_short h.short, List.getElem?_drop, ← hlf]
        congr 1
        omega
    cases hclass : classifyHttpRequestLinePrefix (buffer ++ more) (leadingOf (buffer ++ more))
        buffer.length with
    | error error =>
      rw [hclass] at hspec
      exact hspec
    | ok found =>
      rw [hclass] at hspec
      cases found with
      | none => exact .inl ⟨rfl, hspec⟩
      | some lineEnd =>
        obtain ⟨hlt, line, fields, parsed, hfirst, rfl, hok⟩ := hspec
        have hpart := @bare_or_scanned _ _ _ _ buffer.length hfirst hok hnone
          fun k hk => absurd hk (by omega)
        simp only [Except.map, Option.getD_some]
        split at hpart
        · rename_i hhas
          rw [if_pos ⟨by omega, hhas⟩]
          exact hpart
        · rename_i hhas
          rw [if_neg fun hb => hhas hb.2]
          exact .inr ⟨line, fields, parsed, hfirst, rfl, hok, hpart⟩
  · -- the line was accepted: it is the first line of the longer buffer, too
    have hsettled := leadingSettled_of_line hfirst
    have hlead := hsettled.leadingOf_append more
    obtain ⟨tail, htail⟩ := hsettled.headWindow_append more
    have hfirst' : FirstLine (buffer ++ more) line (fields ++ tail) :=
      ⟨hfirst.1, by rw [htail, hfirst.2, List.append_assoc, List.cons_append]⟩
    have hlen := congrArg List.length hfirst.2
    rw [headWindow, List.length_drop, window_of_short h.short, List.length_append, List.length_cons] at hlen
    rw [if_neg (by omega)]
    have hpart := @bare_or_scanned _ _ _ _ buffer.length hfirst' hok hnone fun k hk hb => by
      have hk : k < fields.length := by omega
      refine hbare k ⟨?_, hb.2.imp_right fun hprev => ?_⟩
      · rw [← List.getElem?_append_left hk]
        exact hb.1
      · rwa [List.getElem?_append_left (show k - 1 < fields.length by omega)] at hprev
    rw [hlead] at hpart
    simp only [hend]
    split at hpart
    · rename_i hhas
      rw [if_pos ⟨by omega, hhas⟩]
      exact hpart
    · rename_i hhas
      rw [if_neg fun hb => hhas hb.2]
      exact .inr ⟨line, _, parsed, hfirst', by rw [hlead], hok, hpart⟩

/-- **One call of a waiting state.** -/
theorem parseHead_step (h : Scanned buffer scan) (hstate : state.progress = .needRequestHead scan) (more : Bytes) :
    (∃ scan', (state.parseHead (buffer ++ more) buffer.length).progress = .needRequestHead scan' ∧
      Scanned (buffer ++ more) scan') ∨
    (∃ n, (state.parseHead (buffer ++ more) buffer.length).progress = .headReady n ∧
      state.parseHead (buffer ++ more) buffer.length = parseHeadOnce (buffer ++ more) ∧
      ∃ e, SearchResult (EndsAt (headWindow (buffer ++ more))) 0 (some e)) ∨
    (∃ error, (state.parseHead (buffer ++ more) buffer.length).progress = .failure error ∧
      Doomed (buffer ++ more)) := by
  obtain ⟨r, hr, hres⟩ := h.findHeadEnd more
  have hresume : resumeScan state.progress buffer.length = scan := by rw [hstate, h.resume]
  rw [← hresume] at hr
  cases r with
  | none =>
    have hnone : ∀ e, ¬ EndsAt (headWindow (buffer ++ more)) e := fun e => hres e (Nat.zero_le e)
    rw [parseHead_of_no_head hr, hresume]
    rcases awaitHead_step hnone (h.advance more hnone) with hwait | hfail
    · exact .inl hwait
    · exact .inr (.inr hfail)
  | some e =>
    have honce : state.parseHead (buffer ++ more) buffer.length = parseHeadOnce (buffer ++ more) := by
      rw [parseHead_of_head hr, parseHeadOnce_of_end hres, ← headText_eq hres.2.1]
    rw [honce]
    rcases headState_progress ((headWindow (buffer ++ more)).take (e - 1))
        (leadingOf (buffer ++ more) + 1 + e) with ⟨error, herror⟩ | hready
    · rw [← parseHeadOnce_of_end hres] at herror
      exact .inr (.inr ⟨error, herror, doomed_of_failed_head hres herror⟩)
    · rw [← parseHeadOnce_of_end hres] at hready
      exact .inr (.inl ⟨_, hready, rfl, e, hres⟩)

/-! ## Any number of calls -/

/-- One state driven over a growing buffer until it no longer waits: its last state, and the buffer then. -/
def driveHead (state : Http1ServerRequestParseState) (buffer : Bytes) :
    List Bytes → Http1ServerRequestParseState × Bytes
  | [] => (state, buffer)
  | chunk :: chunks =>
    match state.progress with
    | .needRequestHead _ =>
      driveHead (state.parseHead (buffer ++ chunk) buffer.length) (buffer ++ chunk) chunks
    | _ => (state, buffer)

theorem driveHead_stop {buffer : Bytes} {chunks : List Bytes} (h : ∀ scan, state.progress ≠ .needRequestHead scan) :
    driveHead state buffer chunks = (state, buffer) := by
  cases chunks with
  | nil => rfl
  | cons chunk chunks =>
    rw [driveHead]
    split
    · rename_i scan hscan
      exact absurd hscan (h scan)
    · rfl

/-- Where a drive over `chunks` ends, from a waiting state that has scanned `buffer`. -/
theorem driveHead_spec {state : Http1ServerRequestParseState} (chunks : List Bytes)
    (h : Scanned buffer scan) (hstate : state.progress = .needRequestHead scan) :
    let out := driveHead state buffer chunks
    (∃ scan', out.1.progress = .needRequestHead scan' ∧ Scanned out.2 scan' ∧
      out.2 = buffer ++ chunks.flatten) ∨
    (∃ n, out.1.progress = .headReady n ∧ out.1 = parseHeadOnce (buffer ++ chunks.flatten)) ∨
    (∃ error rest, out.1.progress = .failure error ∧ Doomed out.2 ∧
      buffer ++ chunks.flatten = out.2 ++ rest) := by
  induction chunks generalizing state buffer scan with
  | nil => exact .inl ⟨scan, hstate, h, by simp [driveHead]⟩
  | cons chunk chunks ih =>
    simp only [driveHead, hstate, List.flatten_cons, ← List.append_assoc]
    rcases parseHead_step h hstate chunk with
      ⟨scan', hwait, hscanned⟩ | ⟨n, hready, honce, e, hres⟩ | ⟨error, hfail, hdoomed⟩
    · exact ih hscanned hwait
    · rw [driveHead_stop (by simp [hready])]
      exact .inr (.inl ⟨n, hready, by rw [honce, parseHeadOnce_append hres]⟩)
    · rw [driveHead_stop (by simp [hfail])]
      exact .inr (.inr ⟨error, chunks.flatten, hfail, hdoomed, rfl⟩)

/-- **Incremental head parsing agrees with one-shot parsing.** The drive is ready iff a single call on the
whole stream is; it then has the state of that call, with its header bytes, request and plans; and a drive
that fails at a buffer leaves no continuation of that buffer to be accepted. -/
theorem parseHead_incremental (chunks : List Bytes) :
    let out := driveHead {} [] chunks
    ((∃ n, out.1.progress = .headReady n) ↔ ∃ n, (parseHeadOnce chunks.flatten).progress = .headReady n) ∧
    (∀ n, out.1.progress = .headReady n → out.1 = parseHeadOnce chunks.flatten) ∧
    (∀ error, out.1.progress = .failure error →
      ∀ more n, (parseHeadOnce (out.2 ++ more)).progress ≠ .headReady n) := by
  rcases @driveHead_spec _ _ {} chunks scanned_nil rfl with
    ⟨scan', hwait, hscanned, hwhole⟩ | ⟨n, hready, honce⟩ | ⟨error, rest, hfail, hdoomed, hwhole⟩
  · rw [List.nil_append] at hwhole
    refine ⟨?_, by simp [hwait], by simp [hwait]⟩
    simp only [hwait, reduceCtorEq, exists_false, false_iff, not_exists]
    rw [← hwhole]
    exact fun n => parseHeadOnce_not_ready hscanned.noEnd
  · rw [List.nil_append] at honce
    exact ⟨⟨fun _ => ⟨n, honce ▸ hready⟩, fun _ => ⟨n, hready⟩⟩, fun _ _ => honce, by simp [hready]⟩
  · rw [List.nil_append] at hwhole
    refine ⟨?_, by simp [hfail], fun _ _ => hdoomed⟩
    simp only [hfail, reduceCtorEq, exists_false, false_iff, not_exists]
    rw [hwhole]
    exact fun n => hdoomed rest n

end Ruvia.Http
