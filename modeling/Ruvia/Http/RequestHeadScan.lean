import Ruvia.Http.RequestHead

/-!
# `Http.RequestHeadScan` — where a request head ends, and what an early rejection has seen

What the scans of `parse_head` answer, said without their offsets and loops: the empty lines in front
(`emptyLineBytes_append`), the first CRLFCRLF (`findHttpHeaderEnd_spec`), the first line
(`parseRequestLine_line`) and a field line (`scanHttp1FieldLine_spec`).
-/

namespace Ruvia.Http

open Library

/-! ## Leading empty lines -/

theorem emptyLineBytes_le (l : Bytes) : emptyLineBytes l ≤ l.length := by
  fun_induction emptyLineBytes l <;> simp_all <;> omega

/-- The scan goes on where it stopped. -/
theorem emptyLineBytes_append (l m : Bytes) :
    emptyLineBytes (l ++ m) = emptyLineBytes l + emptyLineBytes ((l ++ m).drop (emptyLineBytes l)) := by
  fun_induction emptyLineBytes l with
  | case1 | case3 b hb | case6 b c rest hb hcr => simp
  | case2 => cases m <;> simp [emptyLineBytes]
  | case4 c rest ih =>
    simp only [List.cons_append, emptyLineBytes, if_pos] at ih ⊢
    rw [ih, Nat.add_assoc, Nat.add_comm 1 (emptyLineBytes (c :: rest)), List.drop_succ_cons]
  | case5 b c rest hb hcr ih =>
    simp only [List.cons_append, emptyLineBytes, if_neg hb, if_pos hcr] at ih ⊢
    rw [ih, Nat.add_assoc, Nat.add_comm 2 (emptyLineBytes rest)]
    rfl

/-- What stopped the scan, unless it was the end of the bytes or a CR that stood there. -/
theorem emptyLineBytes_stop {l : Bytes} {b : UInt8} (hb : l[emptyLineBytes l]? = some b)
    (hcr : b = cr → emptyLineBytes l + 1 < l.length) (m : Bytes) :
    emptyLineBytes (l ++ m) = emptyLineBytes l := by
  fun_induction emptyLineBytes l with
  | case1 | case2 => simp at hb
  | case3 c hc =>
    obtain rfl : c = b := by simpa using hb
    have hne : c ≠ cr := fun h => by simpa using hcr h
    cases m <;> simp [emptyLineBytes, hc, hne]
  | case4 d rest ih =>
    simp only [List.cons_append, emptyLineBytes, if_pos, Nat.add_left_cancel_iff] at ih ⊢
    refine ih ?_ fun h => ?_
    · rw [Nat.add_comm] at hb
      simpa using hb
    · have := hcr h
      simp only [List.length_cons] at this ⊢
      omega
  | case5 c d rest hc hcrlf ih =>
    simp only [List.cons_append, emptyLineBytes, if_neg hc, if_pos hcrlf, Nat.add_left_cancel_iff] at ih ⊢
    refine ih ?_ fun h => ?_
    · rw [Nat.add_comm] at hb
      simpa using hb
    · have := hcr h
      simp only [List.length_cons] at this ⊢
      omega
  | case6 c d rest hc hcrlf => simp [emptyLineBytes, hc, hcrlf]

/-! ## The end of the head -/

/-- A CRLFCRLF ends at `e`. -/
def EndsAt (t : Bytes) (e : Nat) : Prop :=
  3 ≤ e ∧ t[e]? = some lf ∧ t[e - 1]? = some cr ∧ t[e - 2]? = some lf ∧ t[e - 3]? = some cr

theorem EndsAt.lt_length {t : Bytes} {e : Nat} (h : EndsAt t e) : e < t.length :=
  (List.getElem?_eq_some_iff.mp h.2.1).1

theorem endsAt_append {t m : Bytes} {e : Nat} (he : e < t.length) : EndsAt (t ++ m) e ↔ EndsAt t e := by
  simp only [EndsAt, List.getElem?_append_left he, List.getElem?_append_left (show e - 1 < t.length by omega),
    List.getElem?_append_left (show e - 2 < t.length by omega),
    List.getElem?_append_left (show e - 3 < t.length by omega)]

/-- The LF loop answers the first end; an LF behind a CR that ends nothing makes it skip two bytes. -/
theorem findHttpHeaderEndLoop_spec (t : Bytes) :
    ∀ fuel cursor, t.length < cursor + fuel → 3 ≤ cursor →
      ∃ r, findHttpHeaderEndLoop t fuel cursor = r.map (· + 1) ∧ SearchResult (EndsAt t) cursor r := by
  intro fuel
  induction fuel with
  | zero =>
    intro cursor hlen _
    exact ⟨none, rfl, fun j hj hend => by have := hend.lt_length; omega⟩
  | succ fuel ih =>
    intro cursor hlen hthree
    rw [findHttpHeaderEndLoop]
    by_cases hout : t.length ≤ cursor
    · rw [if_pos hout]
      exact ⟨none, rfl, fun j hj hend => by have := hend.lt_length; omega⟩
    · rw [if_neg hout]
      have hnext : (if t[cursor]? = some lf then some cursor else findByte lf t (cursor + 1)) =
          findByte lf t cursor := by
        split
        · rename_i hlf
          exact (findByte_eq_some_iff.mpr ⟨le_rfl, hlf, fun j hj hjc => absurd hj (by omega)⟩).symm
        · rename_i hlf
          exact findByte_skip (Nat.le_succ _) fun j hj hjc => by
            obtain rfl : j = cursor := by omega
            exact hlf
      rw [hnext]
      cases hf : findByte lf t cursor with
      | none => exact ⟨none, rfl, fun j hj hend => findByte_eq_none_iff.mp hf j hj hend.2.1⟩
      | some i =>
        obtain ⟨hi, hlf, hmin⟩ := findByte_eq_some_iff.mp hf
        have hbefore : ∀ j, cursor ≤ j → j < i → ¬ EndsAt t j := fun j hj hji hend => hmin j hj hji hend.2.1
        simp only
        by_cases hcr : t[i - 1]? = some cr
        · rw [if_pos hcr]
          by_cases hback : t[i - 2]? = some lf ∧ t[i - 3]? = some cr
          · rw [if_pos hback]
            exact ⟨some i, rfl, hi, ⟨by omega, hlf, hcr, hback.1, hback.2⟩, hbefore⟩
          · rw [if_neg hback]
            have hati : ¬ EndsAt t i := fun hend => hback ⟨hend.2.2.2.1, hend.2.2.2.2⟩
            have hnexti : ¬ EndsAt t (i + 1) := fun hend => by
              have := hend.2.2.1
              rw [Nat.add_sub_cancel, hlf] at this
              cases this
            by_cases hahead : i + 2 < t.length ∧ t[i + 1]? = some cr ∧ t[i + 2]? = some lf
            · rw [if_pos hahead]
              refine ⟨some (i + 2), rfl, by omega, ⟨by omega, hahead.2.2, hahead.2.1, hlf, hcr⟩, ?_⟩
              intro j hj hji
              rcases Nat.lt_or_ge j i with hlt | hge
              · exact hbefore j hj hlt
              · obtain rfl | rfl : j = i ∨ j = i + 1 := by omega
                · exact hati
                · exact hnexti
            · rw [if_neg hahead]
              obtain ⟨r, hr, hres⟩ := ih (i + 3) (by omega) (by omega)
              refine ⟨r, hr, hres.skip (by omega) fun j hj hji => ?_⟩
              rcases Nat.lt_or_ge j i with hlt | hge
              · exact hbefore j hj hlt
              · obtain rfl | rfl | rfl : j = i ∨ j = i + 1 ∨ j = i + 2 := by omega
                · exact hati
                · exact hnexti
                · exact fun hend => hahead ⟨hend.lt_length, hend.2.2.1, hend.2.1⟩
        · rw [if_neg hcr]
          obtain ⟨r, hr, hres⟩ := ih (i + 1) (by omega) (by omega)
          refine ⟨r, hr, hres.skip (by omega) fun j hj hji => ?_⟩
          rcases Nat.lt_or_ge j i with hlt | hge
          · exact hbefore j hj hlt
          · obtain rfl : j = i := by omega
            exact fun hend => hcr hend.2.2.1

/-- **`find_http_header_end` finds the first CRLFCRLF** that ends at or after the offset. -/
theorem findHttpHeaderEnd_spec (buffer : Bytes) (searchOffset : Nat) :
    ∃ r, findHttpHeaderEnd buffer searchOffset = r.map (· + 1) ∧
      SearchResult (EndsAt (buffer.take maxHttpHeaderBytes)) searchOffset r := by
  simp only [findHttpHeaderEnd]
  split
  · rename_i hshort
    exact ⟨none, rfl, fun j _ hend => by have := hend.lt_length; have := hend.1; omega⟩
  · obtain ⟨r, hr, hres⟩ := findHttpHeaderEndLoop_spec (buffer.take maxHttpHeaderBytes)
      ((buffer.take maxHttpHeaderBytes).length + 1) (max 3 searchOffset) (by omega) (Nat.le_max_left _ _)
    refine ⟨r, hr, hres.skip (Nat.le_max_right _ _) fun j hj hj3 hend => ?_⟩
    have := hend.1
    omega

/-- The window in front of the cap, behind the empty lines. -/
theorem take_sub_window (buffer : Bytes) (pos : Nat) :
    (sub buffer pos (maxHttpHeaderBytes - pos)).take maxHttpHeaderBytes =
      (buffer.take maxHttpHeaderBytes).drop pos := by
  rw [sub, List.take_take, List.drop_take, Nat.min_eq_right (Nat.sub_le _ _)]

/-- **`find_http_request_head_end`**: the empty lines in front, and the first CRLFCRLF behind them. -/
theorem findHttpRequestHeadEnd_spec (buffer : Bytes) (skipped searchOffset : Nat) :
    ∃ r, findHttpRequestHeadEnd buffer skipped searchOffset =
        (httpRequestLeadingEmptyLineBytes buffer skipped,
          r.map (httpRequestLeadingEmptyLineBytes buffer skipped + 1 + ·)) ∧
      SearchResult
        (EndsAt ((buffer.take maxHttpHeaderBytes).drop (httpRequestLeadingEmptyLineBytes buffer skipped)))
        (searchOffset - httpRequestLeadingEmptyLineBytes buffer skipped) r := by
  simp only [findHttpRequestHeadEnd]
  generalize httpRequestLeadingEmptyLineBytes buffer skipped = leading
  split
  · rename_i hfull
    refine ⟨none, rfl, fun j _ hend => ?_⟩
    have hlt := hend.lt_length
    simp only [List.length_drop, List.length_take] at hlt
    omega
  · obtain ⟨r, hr, hres⟩ := findHttpHeaderEnd_spec (sub buffer leading (maxHttpHeaderBytes - leading))
      (searchOffset - leading)
    rw [take_sub_window] at hres
    refine ⟨r, ?_, hres⟩
    rw [hr, Option.map_map]
    congr 2
    funext e
    simp only [Function.comp]
    omega

/-! ## Lines -/

section

variable {p : UInt8 → Bool} {y t : Bytes} {b : UInt8}

/-- A byte that stops a run stops it in every continuation. -/
theorem takeWhile_append_stop (hb : p b = false) : (y ++ b :: t).takeWhile p = y.takeWhile p := by
  induction y with
  | nil => simp [hb]
  | cons c y ih =>
    cases hc : p c
    · simp [hc]
    · simp [hc, ih]

theorem dropWhile_append_stop (hb : p b = false) : (y ++ b :: t).dropWhile p = y.dropWhile p ++ b :: t := by
  induction y with
  | nil => simp [hb]
  | cons c y ih =>
    cases hc : p c
    · simp [hc]
    · simp [hc, ih]

theorem not_mem_dropWhile (h : b ∉ y) : b ∉ y.dropWhile p :=
  fun hb => h ((List.dropWhile_suffix p).mem hb)

end

/-- **The request line is the first line.** What stands behind its LF neither decides nor is consumed. -/
theorem parseRequestLine_line {line : Bytes} (hline : lf ∉ line) (rest : Bytes) :
    parseRequestLine (line ++ lf :: rest) =
      match parseRequestLine (line ++ [lf]) with
      | .error error => .error error
      | .ok (parsed, _) => .ok (parsed, rest) := by
  have htoken : isHttpTokenChar lf = false := by decide
  have htarget : isTargetByte lf = false := by decide
  have hsp : lf ≠ sp := by decide
  have hcr : lf ≠ cr := by decide
  simp only [parseRequestLine, takeWhile_append_stop htoken, dropWhile_append_stop htoken]
  have hmem : lf ∉ line.dropWhile isHttpTokenChar := not_mem_dropWhile hline
  cases hm : line.dropWhile isHttpTokenChar with
  | nil => simp [hsp]
  | cons c afterMethod =>
    rw [hm] at hmem
    have hmem : lf ∉ afterMethod := fun h => hmem (List.mem_cons_of_mem _ h)
    simp only [List.cons_append]
    split
    · rfl
    · simp only [takeWhile_append_stop htarget, dropWhile_append_stop htarget]
      have hmem : lf ∉ afterMethod.dropWhile isTargetByte := not_mem_dropWhile hmem
      cases ht : afterMethod.dropWhile isTargetByte with
      | nil => simp [hsp]
      | cons d afterTarget =>
        rw [ht] at hmem
        have hmem : lf ∉ afterTarget := fun h => hmem (List.mem_cons_of_mem _ h)
        simp only [List.cons_append]
        split
        · rfl
        · simp only [takeWhile_append_stop htarget, dropWhile_append_stop htarget]
          have hmem : lf ∉ afterTarget.dropWhile isTargetByte := not_mem_dropWhile hmem
          match hv : afterTarget.dropWhile isTargetByte, hmem with
          | [], _ => cases rest <;> simp [hcr]
          | [e], _ =>
            simp only [List.cons_append, List.nil_append]
            split
            · rfl
            · cases parseHttpVersion (afterTarget.takeWhile isTargetByte) <;> rfl
          | e :: f :: tail, hmem =>
            have hf : f ≠ lf := fun h => hmem (by simp [h])
            simp [hf]

theorem parseRequestLine_ok_rest {line rest : Bytes} {parsed : ParsedRequestLine} (hline : lf ∉ line)
    (h : parseRequestLine (line ++ [lf]) = .ok (parsed, rest)) : rest = [] := by
  have hself := parseRequestLine_line hline []
  rw [h] at hself
  simpa using hself

/-- A text that starts with no token byte has no request line. -/
theorem parseRequestLine_of_head {text : Bytes} (h : ∀ b, text.head? = some b → isHttpTokenChar b = false) :
    parseRequestLine text = .error .invalidRequestLine := by
  cases text with
  | nil => rfl
  | cons b rest =>
    have hb := h b rfl
    simp [parseRequestLine, hb]

/-- One field line of RFC 9112 section 5, with the whitespace around its value. -/
structure Http1FieldLine where
  name : Bytes
  before : Bytes
  value : Bytes
  behind : Bytes
  name_ne : name ≠ []
  name_token : ∀ b ∈ name, isHttpTokenChar b = true
  before_ows : ∀ b ∈ before, isHttpOwsChar b = true
  value_char : ∀ b ∈ value, isHttpFieldValueChar b = true
  value_trimmed : httpTrimOws value = value
  behind_ows : ∀ b ∈ behind, isHttpOwsChar b = true

namespace Http1FieldLine

/-- The bytes in front of the line end. -/
def text (line : Http1FieldLine) : Bytes := line.name ++ colon :: (line.before ++ line.value ++ line.behind)

/-- The bytes of the whole line. -/
def bytes (line : Http1FieldLine) : Bytes := line.text ++ [cr, lf]

theorem lf_not_mem_text (line : Http1FieldLine) : lf ∉ line.text := by
  simp only [text, List.mem_append, List.mem_cons, not_or]
  refine ⟨fun h => ?_, by decide, ⟨fun h => ?_, fun h => ?_⟩, fun h => ?_⟩
  · exact absurd (line.name_token _ h) (by decide)
  · exact absurd (line.before_ows _ h) (by decide)
  · exact absurd (line.value_char _ h) (by decide)
  · exact absurd (line.behind_ows _ h) (by decide)

end Http1FieldLine

/-- **A scanned field line is a field line of the text.** -/
theorem scanHttp1FieldLine_spec {text name value rest : Bytes}
    (h : scanHttp1FieldLine text = some (name, value, rest)) :
    ∃ line : Http1FieldLine, line.name = name ∧ line.value = value ∧ text = line.bytes ++ rest := by
  simp only [scanHttp1FieldLine, httpTokenPrefixSize_eq, httpFieldValuePrefixSize] at h
  split at h
  · cases h
  · rename_i hname
    obtain ⟨hne, hcolon⟩ := not_or.mp hname
    rw [not_not] at hcolon
    split at h
    · rename_i c l rest' hend
      split at h
      · rename_i hcrlf
        obtain ⟨rfl, rfl⟩ := hcrlf
        simp only [Option.some.injEq, Prod.mk.injEq] at h
        obtain ⟨rfl, rfl, rfl⟩ := h
        have htext : text = text.takeWhile isHttpTokenChar ++ colon ::
            text.drop ((text.takeWhile isHttpTokenChar).length + 1) := by
          obtain ⟨hlt, hget⟩ := List.getElem?_eq_some_iff.mp hcolon
          conv_lhs => rw [← List.takeWhile_append_dropWhile (p := isHttpTokenChar) (l := text)]
          rw [← drop_length_takeWhile, List.drop_eq_getElem_cons hlt, hget]
        generalize hafter : text.drop ((text.takeWhile isHttpTokenChar).length + 1) = after at htext hend ⊢
        rw [drop_length_takeWhile] at hend
        rw [take_length_takeWhile, take_length_takeWhile]
        have hrun : (after.dropWhile isHttpOwsChar) =
            (after.dropWhile isHttpOwsChar).takeWhile isHttpFieldValueChar ++ cr :: lf :: rest' := by
          conv_lhs =>
            rw [← List.takeWhile_append_dropWhile (p := isHttpFieldValueChar)
              (l := after.dropWhile isHttpOwsChar), hend]
        generalize hvalue : (after.dropWhile isHttpOwsChar).takeWhile isHttpFieldValueChar = run at hrun ⊢
        have hhead : ∀ b, run.head? = some b → isHttpOwsChar b = false := by
          intro b hb
          refine isHttpOwsChar_head_dropWhile after b ?_
          rw [hrun, List.head?_append, hb, Option.some_or]
        refine ⟨⟨text.takeWhile isHttpTokenChar, after.takeWhile isHttpOwsChar,
          run.rdropWhile isHttpOwsChar, run.rtakeWhile isHttpOwsChar, ?_, ?_, ?_, ?_, ?_, ?_⟩, rfl, rfl, ?_⟩
        · exact fun he => hne (by rw [he]; rfl)
        · exact fun b => List.mem_takeWhile_imp
        · exact fun b => List.mem_takeWhile_imp
        · intro b hb
          have hb : b ∈ run := (List.rdropWhile_prefix _ _).mem hb
          rw [← hvalue] at hb
          exact List.mem_takeWhile_imp hb
        · exact httpTrimOws_rdropWhile hhead
        · exact fun b => List.mem_rtakeWhile_imp
        · rw [Http1FieldLine.bytes, Http1FieldLine.text]
          have hafter : after = after.takeWhile isHttpOwsChar ++ (run ++ cr :: lf :: rest') := by
            rw [← hrun, List.takeWhile_append_dropWhile]
          have hsplit : run.rdropWhile isHttpOwsChar ++ run.rtakeWhile isHttpOwsChar = run :=
            List.rdropWhile_append_rtakeWhile
          simp only [List.append_assoc, hsplit]
          conv_lhs => rw [htext, hafter]
          simp [← List.append_assoc]
      · cases h
    · cases h

/-! ## Bare line feeds -/

/-- An LF at `k` that ends no CRLF. -/
def BareLineFeedAt (text : Bytes) (k : Nat) : Prop := text[k]? = some lf ∧ (k = 0 ∨ text[k - 1]? ≠ some cr)

theorem hasHttpBareLineFeedLoop_iff (t : Bytes) :
    ∀ fuel offset, t.length < offset + fuel → 1 ≤ offset →
      (hasHttpBareLineFeedLoop t fuel offset = true ↔ ∃ q, offset ≤ q ∧ BareLineFeedAt t q) := by
  intro fuel
  induction fuel with
  | zero =>
    intro offset hlen _
    simp only [hasHttpBareLineFeedLoop, Bool.false_eq_true, false_iff, not_exists, not_and]
    intro q hq hbare
    have := (List.getElem?_eq_some_iff.mp hbare.1).1
    omega
  | succ fuel ih =>
    intro offset hlen hone
    rw [hasHttpBareLineFeedLoop]
    cases hf : findByte lf t offset with
    | none =>
      simp only [Bool.false_eq_true, false_iff, not_exists, not_and]
      exact fun q hq hbare => findByte_eq_none_iff.mp hf q hq hbare.1
    | some i =>
      obtain ⟨hi, hlf, hmin⟩ := findByte_eq_some_iff.mp hf
      simp only
      by_cases hcr : t[i - 1]? ≠ some cr
      · rw [if_pos hcr]
        exact ⟨fun _ => ⟨i, hi, hlf, .inr hcr⟩, fun _ => rfl⟩
      · rw [if_neg hcr, ih (i + 1) (by omega) (by omega)]
        constructor
        · rintro ⟨q, hq, hbare⟩
          exact ⟨q, by omega, hbare⟩
        · rintro ⟨q, hq, hbare⟩
          refine ⟨q, ?_, hbare⟩
          -- this LF ends a CRLF, and none stands in front of it
          rcases Nat.lt_trichotomy q i with h | h | h
          · exact absurd hbare.1 (hmin q hq h)
          · subst h
            exact absurd hbare.2 (not_or.mpr ⟨by omega, hcr⟩)
          · exact h

theorem hasHttpBareLineFeed_iff {buffer : Bytes} {searchOffset : Nat} :
    hasHttpBareLineFeed buffer searchOffset = true ↔
      ∃ q, max searchOffset 1 ≤ q ∧ BareLineFeedAt (buffer.take maxHttpHeaderBytes) q :=
  hasHttpBareLineFeedLoop_iff _ _ _ (by omega) (Nat.le_max_right _ _)

/-- **A field section with a bare LF is no field section.** -/
theorem parseHeaderFields_bare (ignoreUpgrade : Bool) :
    ∀ fuel text block k, BareLineFeedAt text k →
      ∃ error, parseHeaderFields ignoreUpgrade fuel text block = .error error := by
  intro fuel
  induction fuel with
  | zero => exact fun _ _ _ _ => ⟨_, rfl⟩
  | succ fuel ih =>
    intro text block k hbare
    rw [parseHeaderFields]
    have hne : text.isEmpty = false := by
      cases text with
      | nil => simp [BareLineFeedAt] at hbare
      | cons b rest => rfl
    simp only [hne, Bool.false_eq_true, if_false]
    split
    · exact ⟨_, rfl⟩
    · cases hscan : scanHttp1FieldLine text with
      | none => exact ⟨_, rfl⟩
      | some read =>
        obtain ⟨name, value, rest⟩ := read
        obtain ⟨line, _, _, rfl⟩ := scanHttp1FieldLine_spec hscan
        simp only
        cases applyRequestHeader (classifyRequestHeader name) value ignoreUpgrade block with
        | error error => exact ⟨error, rfl⟩
        | ok applied =>
          -- the LF of the line itself ends its CRLF, so the bare one stands behind the line
          have hat : ∀ j, (line.bytes ++ rest)[j]? =
              if j < line.text.length then line.text[j]?
              else if j = line.text.length then some cr
              else if j = line.text.length + 1 then some lf
              else rest[j - (line.text.length + 2)]? := by
            intro j
            rw [Http1FieldLine.bytes]
            grind
          obtain ⟨hlf, hprev⟩ := hbare
          rw [hat] at hlf
          have hk : line.text.length + 2 ≤ k := by
            split at hlf
            · exact absurd (List.mem_of_getElem? hlf) line.lf_not_mem_text
            · split at hlf
              · cases hlf
              · split at hlf
                · rename_i heq
                  rw [hat, heq] at hprev
                  simp at hprev
                · omega
          refine ih rest _ (k - (line.text.length + 2)) ⟨?_, ?_⟩
          · rw [if_neg (by omega), if_neg (by omega), if_neg (by omega)] at hlf
            exact hlf
          · by_cases hzero : k - (line.text.length + 2) = 0
            · exact .inl hzero
            · refine .inr ?_
              have hprev := hprev.resolve_left (by omega)
              rw [hat, if_neg (by omega), if_neg (by omega), if_neg (by omega)] at hprev
              rwa [show k - (line.text.length + 2) - 1 = k - 1 - (line.text.length + 2) by omega]

end Ruvia.Http
