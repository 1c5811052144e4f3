import Ruvia.Web.UrlDecoders

/-!
# `Web.StaticPath` — the path policy of static files

`try_normalize_static_relative_path` of `static_path_normalization.h`, behind `decode_request_path`. Both passes are
compared with the list of segments: decoding does not move a separator, because an escape that would reveal one is
rejected (`rawSegments_decode`), and normalizing keeps the segments it has checked (`tryNormalize_eq_some_iff`). So the
segments of the file path are the decoded segments of the raw request path.
-/

namespace Ruvia.Web

open Library Ruvia.Http

/-! ## Normalizing -/

def isWindowsDrivePath (path : Bytes) : Bool :=
  match path with
  | drive :: mark :: _ => mark == colon && isAlpha drive
  | _ => false

def isPathSeparator (byte : UInt8) : Bool := byte == Http.slash || byte == Http.backslash

/-- `"/\\\0"`. -/
def isStopByte (byte : UInt8) : Bool := isPathSeparator byte || byte == 0

/-- `.` and `..`. -/
def isDots (segment : Bytes) : Bool := segment == lit "." || segment == lit ".."

theorem findFrom_lt {α : Type} {p : α → Bool} {l : List α} {i : Nat} (h : findFrom p l 0 = some i) : i < l.length := by
  obtain ⟨-, ⟨x, hx, -⟩, -⟩ := findFrom_eq_some_iff.mp h
  exact (List.getElem?_eq_some_iff.mp hx).1

/-- The loop over the segments: whether a backslash separates any, or no value for a segment that is rejected. -/
def checkSegments (text : Bytes) (backslashSeen : Bool) : Option Bool :=
  match hstop : findFrom isStopByte text 0 with
  | none => if isDots text then none else some backslashSeen
  | some stop =>
    if isDots (text.take stop) then none
    else if text.getD stop 0 = 0 ∨ (text.take stop).isEmpty then none
    else checkSegments (text.drop (stop + 1)) (backslashSeen || text.getD stop 0 == Http.backslash)
termination_by text.length
decreasing_by
  have := findFrom_lt hstop
  rw [List.length_drop]
  omega

/-- `std::ranges::replace`. -/
def toSlash (byte : UInt8) : UInt8 := if byte = Http.backslash then Http.slash else byte

/-- The path without the separator it ends in. -/
def withoutTrailingSeparator (input : Bytes) : Bytes :=
  if input.getLast? = some Http.slash ∨ input.getLast? = some Http.backslash then input.dropLast else input

/-- The normalized path, and the storage that is left. -/
def tryNormalizeStaticRelativePath (input storage : Bytes) : Option Bytes × Bytes :=
  if input.isEmpty then (some input, storage)
  else if input.head? = some Http.slash ∨ input.head? = some Http.backslash ∨ isWindowsDrivePath input then
    (none, storage)
  else
    match checkSegments input false with
    | none => (none, storage)
    | some backslashSeen =>
      let canonical := withoutTrailingSeparator input
      if backslashSeen = false then (some canonical, storage)
      else (some (canonical.map toSlash), canonical.map toSlash)

/-! ## Segments -/

/-- The segments of a text between its separators, raw `/` and `\`. -/
def rawSegments (text : Bytes) : List Bytes := text.splitOnP isPathSeparator

theorem rawSegments_cons (byte : UInt8) (text : Bytes) :
    rawSegments (byte :: text) =
      if isPathSeparator byte then [] :: rawSegments text else (rawSegments text).modifyHead (byte :: ·) :=
  List.splitOnP_cons_eq_if_modifyHead byte text

/-- What the loop accepts: no NUL, no dot segment, and nothing empty in front of a separator. -/
structure Checked (text : Bytes) : Prop where
  noNul : (0 : UInt8) ∉ text
  noDots : ∀ segment ∈ rawSegments text, isDots segment = false
  noEmpty : ∀ segment ∈ (rawSegments text).dropLast, segment ≠ []

variable {text : Bytes}

theorem rawSegments_of_none (h : ∀ byte ∈ text, isStopByte byte = false) : rawSegments text = [text] := by
  apply List.splitOnP_eq_singleton
  intro byte hbyte
  have := h byte hbyte
  simp only [isStopByte, Bool.or_eq_false_iff] at this
  exact this.1

/-- The front of a text up to its first separator is its first segment. -/
theorem rawSegments_front {segment rest : Bytes} {stop : UInt8} (h : ∀ byte ∈ segment, isStopByte byte = false)
    (hstop : isPathSeparator stop = true) : rawSegments (segment ++ stop :: rest) = segment :: rawSegments rest := by
  rw [rawSegments, List.splitOnP_append_cons _ _ hstop]
  exact congrArg (· ++ _) (rawSegments_of_none h)

/-- The text around the first stop byte. -/
theorem split_at_stop {stop : Nat} (h : findFrom isStopByte text 0 = some stop) :
    text = text.take stop ++ text.getD stop 0 :: text.drop (stop + 1) ∧ isStopByte (text.getD stop 0) = true ∧
      ∀ byte ∈ text.take stop, isStopByte byte = false := by
  obtain ⟨-, ⟨byte, hbyte, hstop⟩, hfirst⟩ := findFrom_eq_some_iff.mp h
  obtain ⟨hlt, hget⟩ := List.getElem?_eq_some_iff.mp hbyte
  have hgetD : text.getD stop 0 = byte := by rw [List.getD_eq_getElem?_getD, hbyte, Option.getD_some]
  rw [hgetD]
  refine ⟨?_, hstop, ?_⟩
  · conv_lhs => rw [← List.take_append_drop stop text, List.drop_eq_getElem_cons hlt, hget]
  · intro other hother
    obtain ⟨j, hj, rfl⟩ := List.mem_iff_getElem.mp hother
    rw [List.length_take] at hj
    exact hfirst j (Nat.zero_le j) (by omega) _ (by rw [List.getElem_take, List.getElem?_eq_getElem (by omega)])

theorem not_mem_of_forall {segment : Bytes} (h : ∀ byte ∈ segment, isStopByte byte = false) :
    (0 : UInt8) ∉ segment ∧ Http.backslash ∉ segment :=
  ⟨fun hmem => absurd (h 0 hmem) (by decide), fun hmem => absurd (h Http.backslash hmem) (by decide)⟩

/-- A segment in front of a separator, and the rest behind it. -/
theorem checked_cons_iff {segment rest : Bytes} {stop : UInt8} (h : ∀ byte ∈ segment, isStopByte byte = false)
    (hstop : isPathSeparator stop = true) :
    Checked (segment ++ stop :: rest) ↔ isDots segment = false ∧ segment ≠ [] ∧ Checked rest := by
  have hnul : stop ≠ 0 := by
    rintro rfl
    cases hstop
  have hsegments := @rawSegments_front _ rest _ h hstop
  have hrest : rawSegments rest ≠ [] := List.splitOnP_ne_nil _ _
  constructor
  · rintro ⟨hzero, hdots, hempty⟩
    rw [hsegments] at hdots hempty
    rw [List.dropLast_cons_of_ne_nil hrest] at hempty
    refine ⟨hdots _ List.mem_cons_self, hempty _ List.mem_cons_self, ?_, ?_, ?_⟩
    · exact fun hmem => hzero (List.mem_append_right _ (List.mem_cons_of_mem _ hmem))
    · exact fun other hother => hdots other (List.mem_cons_of_mem _ hother)
    · exact fun other hother => hempty other (List.mem_cons_of_mem _ hother)
  · rintro ⟨hdots, hempty, hchecked⟩
    refine ⟨?_, ?_, ?_⟩
    · intro hmem
      rcases List.mem_append.mp hmem with hmem | hmem
      · exact (not_mem_of_forall h).1 hmem
      · rcases List.mem_cons.mp hmem with heq | hmem
        · exact hnul heq.symm
        · exact hchecked.noNul hmem
    · rw [hsegments]
      intro other hother
      rcases List.mem_cons.mp hother with rfl | hother
      · exact hdots
      · exact hchecked.noDots other hother
    · rw [hsegments, List.dropLast_cons_of_ne_nil hrest]
      intro other hother
      rcases List.mem_cons.mp hother with rfl | hother
      · exact hempty
      · exact hchecked.noEmpty other hother

/-- What is left to check behind the first stop byte. -/
theorem checked_iff_of_stop {stop : Nat} (h : findFrom isStopByte text 0 = some stop) :
    Checked text ↔ isDots (text.take stop) = false ∧ ¬ (text.getD stop 0 = 0 ∨ (text.take stop).isEmpty) ∧
      Checked (text.drop (stop + 1)) := by
  obtain ⟨htext, hstop, hsegment⟩ := split_at_stop h
  generalize text.getD stop 0 = byte at htext hstop ⊢
  by_cases hnul : byte = 0
  · constructor
    · intro hchecked
      apply absurd _ hchecked.noNul
      rw [htext, hnul]
      exact List.mem_append_right _ List.mem_cons_self
    · rintro ⟨-, hneither, -⟩
      exact absurd (Or.inl hnul) hneither
  · have hseparator : isPathSeparator byte = true := by
      simpa [isStopByte, hnul] using hstop
    have hcons := @checked_cons_iff _ (text.drop (stop + 1)) _ hsegment hseparator
    rw [← htext] at hcons
    rw [hcons, not_or, List.isEmpty_iff, and_iff_right hnul]

/-- **The loop checks every segment.** -/
theorem checkSegments_eq_some_iff (text : Bytes) (seen flag : Bool) :
    checkSegments text seen = some flag ↔ Checked text ∧ flag = (seen || text.contains Http.backslash) := by
  fun_induction checkSegments text seen with
  | case1 text seen hstop hdots =>
    have hplain : ∀ byte ∈ text, isStopByte byte = false := findFrom_eq_none.mp hstop
    refine iff_of_false nofun ?_
    rintro ⟨hchecked, -⟩
    have := hchecked.noDots text (by rw [rawSegments_of_none hplain]; exact List.mem_singleton_self text)
    rw [this] at hdots
    cases hdots
  | case2 text seen hstop hdots =>
    have hplain : ∀ byte ∈ text, isStopByte byte = false := findFrom_eq_none.mp hstop
    obtain ⟨hnul, hbackslash⟩ := not_mem_of_forall hplain
    have hchecked : Checked text := by
      refine ⟨hnul, ?_, ?_⟩
      · rw [rawSegments_of_none hplain]
        rintro segment hsegment
        rw [List.mem_singleton.mp hsegment]
        simpa using hdots
      · rw [rawSegments_of_none hplain]
        exact nofun
    have hcontains : text.contains Http.backslash = false := by simpa using hbackslash
    rw [hcontains, Bool.or_false, Option.some.injEq]
    exact ⟨fun h => ⟨hchecked, h.symm⟩, fun h => h.2.symm⟩
  | case3 text seen stop hstop hdots =>
    refine iff_of_false nofun ?_
    rintro ⟨hchecked, -⟩
    rw [((checked_iff_of_stop hstop).mp hchecked).1] at hdots
    cases hdots
  | case4 text seen stop hstop hdots hreject =>
    refine iff_of_false nofun ?_
    rintro ⟨hchecked, -⟩
    exact ((checked_iff_of_stop hstop).mp hchecked).2.1 hreject
  | case5 text seen stop hstop hdots hreject ih =>
    obtain ⟨htext, -, hsegment⟩ := split_at_stop hstop
    have hcontains : text.contains Http.backslash =
        (text.getD stop 0 == Http.backslash || (text.drop (stop + 1)).contains Http.backslash) := by
      conv_lhs => rw [htext]
      have hfront : (text.take stop).contains Http.backslash = false := by simpa using (not_mem_of_forall hsegment).2
      rw [List.contains_append, hfront, Bool.false_or, List.contains_cons, Bool.beq_comm]
    rw [ih, checked_iff_of_stop hstop, hcontains, ← Bool.or_assoc]
    simp only [Bool.not_eq_true] at hdots
    simp only [hdots, hreject, not_false_eq_true, true_and]

/-! ## The normalized path -/

theorem map_toSlash_splitOn (text : Bytes) : (text.map toSlash).splitOn Http.slash = rawSegments text := by
  induction text with
  | nil => rfl
  | cons byte text ih =>
    rw [List.map_cons, List.splitOn_cons_eq_if_modifyHead, ih, rawSegments_cons]
    by_cases hbackslash : byte = Http.backslash
    · subst hbackslash
      rfl
    · have hsame : toSlash byte = byte := if_neg hbackslash
      have hseparator : isPathSeparator byte = (byte == Http.slash) := by simp [isPathSeparator, hbackslash]
      rw [hsame, hseparator]

/-- A text whose last segment is empty ends in a separator. -/
theorem getLast_of_empty_segment (hne : text ≠ []) (h : [] ∈ (rawSegments text).getLast?) :
    ∃ byte ∈ text.getLast?, isPathSeparator byte = true := by
  induction text with
  | nil => exact absurd rfl hne
  | cons byte text ih =>
    cases text with
    | nil =>
      refine ⟨byte, rfl, ?_⟩
      by_contra hbyte
      rw [rawSegments_cons, if_neg hbyte] at h
      simp [rawSegments] at h
    | cons next text =>
      have hrest : [] ∈ (rawSegments (next :: text)).getLast? := by
        have hsome : rawSegments (next :: text) ≠ [] := List.splitOnP_ne_nil _ _
        rw [rawSegments_cons] at h
        obtain ⟨segment, segments, hsegments⟩ := List.exists_cons_of_ne_nil hsome
        rw [hsegments] at h ⊢
        split at h
        · rwa [List.getLast?_cons_cons] at h
        · cases segments with
          | nil => simp at h
          | cons second segments => simpa using h
      obtain ⟨last, hlast, hseparator⟩ := ih (List.cons_ne_nil _ _) hrest
      exact ⟨last, by rw [List.getLast?_cons_cons]; exact hlast, hseparator⟩

variable {byte : UInt8}

theorem isPathSeparator_iff : isPathSeparator byte = true ↔ byte = Http.slash ∨ byte = Http.backslash := by
  simp [isPathSeparator]

/-- The separator at the end, or none. -/
theorem withoutTrailingSeparator_cases (input : Bytes) :
    (∃ stop, isPathSeparator stop = true ∧ input = withoutTrailingSeparator input ++ [stop]) ∨
      (withoutTrailingSeparator input = input ∧ ∀ byte ∈ input.getLast?, isPathSeparator byte = false) := by
  unfold withoutTrailingSeparator
  split
  · rename_i hlast
    left
    rcases hlast with hlast | hlast
    · exact ⟨Http.slash, rfl, (List.dropLast_append_getLast? _ hlast).symm⟩
    · exact ⟨Http.backslash, rfl, (List.dropLast_append_getLast? _ hlast).symm⟩
  · rename_i hlast
    right
    refine ⟨rfl, fun byte hbyte => ?_⟩
    rw [Bool.eq_false_iff]
    intro hseparator
    rcases isPathSeparator_iff.mp hseparator with rfl | rfl
    · exact hlast (Or.inl hbyte)
    · exact hlast (Or.inr hbyte)

variable {input : Bytes}

/-- **The segments of the canonical path** are the checked segments, and all of them have bytes. -/
theorem canonical_segments (hne : input ≠ []) (hfront : ∀ byte ∈ input.head?, isPathSeparator byte = false)
    (hchecked : Checked input) :
    withoutTrailingSeparator input ≠ [] ∧ (∀ segment ∈ rawSegments (withoutTrailingSeparator input), segment ≠ []) ∧
      ∃ trailing, (trailing = [] ∨ trailing = [[]]) ∧
        rawSegments input = rawSegments (withoutTrailingSeparator input) ++ trailing := by
  rcases withoutTrailingSeparator_cases input with ⟨stop, hstop, hinput⟩ | ⟨heq, hlast⟩
  · have hsplit : rawSegments input = rawSegments (withoutTrailingSeparator input) ++ [[]] := by
      conv_lhs => rw [hinput]
      exact List.splitOnP_append_cons _ _ hstop
    refine ⟨?_, ?_, [[]], Or.inr rfl, hsplit⟩
    · intro hnil
      rw [hnil, List.nil_append] at hinput
      have := hfront stop (by rw [hinput]; rfl)
      rw [hstop] at this
      cases this
    · intro segment hsegment
      apply hchecked.noEmpty
      rwa [hsplit, List.dropLast_concat]
  · rw [heq]
    refine ⟨hne, ?_, [], Or.inl rfl, (List.append_nil _).symm⟩
    rintro segment hsegment rfl
    have hsome : rawSegments input ≠ [] := List.splitOnP_ne_nil _ _
    -- An empty segment is the last one, and then the text ends in a separator.
    rw [← List.dropLast_append_getLast hsome, List.mem_append, List.mem_singleton] at hsegment
    rcases hsegment with hsegment | hsegment
    · exact hchecked.noEmpty _ hsegment rfl
    · have hmem : [] ∈ (rawSegments input).getLast? := by
        rw [List.getLast?_eq_some_getLast hsome, hsegment]
        rfl
      obtain ⟨byte, hbyte, hseparator⟩ := getLast_of_empty_segment hne hmem
      rw [hlast byte hbyte] at hseparator
      cases hseparator

theorem map_toSlash_of_not_mem (h : Http.backslash ∉ text) : text.map toSlash = text := by
  rw [List.map_congr_left (g := id), List.map_id]
  intro byte hbyte
  apply if_neg
  rintro rfl
  exact h hbyte

theorem mem_withoutTrailingSeparator (h : byte ∈ withoutTrailingSeparator input) : byte ∈ input := by
  rcases withoutTrailingSeparator_cases input with ⟨stop, -, hinput⟩ | ⟨heq, -⟩
  · rw [hinput]
    exact List.mem_append_left _ h
  · rwa [heq] at h

/-- What is accepted, and what it becomes. -/
theorem tryNormalize_eq_some_iff {storage result : Bytes} (hne : input ≠ []) :
    (tryNormalizeStaticRelativePath input storage).1 = some result ↔
      (∀ byte ∈ input.head?, isPathSeparator byte = false) ∧ isWindowsDrivePath input = false ∧ Checked input ∧
        result = (withoutTrailingSeparator input).map toSlash := by
  have hfront : (∀ byte ∈ input.head?, isPathSeparator byte = false) ↔
      ¬ (input.head? = some Http.slash ∨ input.head? = some Http.backslash) := by
    cases input with
    | nil => exact absurd rfl hne
    | cons byte rest => simp [isPathSeparator]
  unfold tryNormalizeStaticRelativePath
  rw [if_neg (by simpa using hne), hfront]
  by_cases hroot : input.head? = some Http.slash ∨ input.head? = some Http.backslash
  · rw [if_pos (by rcases hroot with h | h <;> simp [h])]
    simp [hroot]
  by_cases hdrive : isWindowsDrivePath input = true
  · simp [hdrive]
  rw [if_neg (by rw [← or_assoc]; exact not_or.mpr ⟨hroot, hdrive⟩)]
  simp only [hroot, not_false_eq_true, true_and, hdrive]
  cases hcheck : checkSegments input false with
  | none =>
    have hnot : ¬ Checked input := by
      intro hchecked
      have := (checkSegments_eq_some_iff input false _).mpr ⟨hchecked, rfl⟩
      rw [hcheck] at this
      cases this
    simp [hnot]
  | some seen =>
    obtain ⟨hchecked, hseen⟩ := (checkSegments_eq_some_iff input false seen).mp hcheck
    simp only [hchecked, true_and]
    cases seen with
    | false =>
      have hnone : Http.backslash ∉ withoutTrailingSeparator input := by
        intro hmem
        have hcontains : input.contains Http.backslash = true := by simpa using mem_withoutTrailingSeparator hmem
        rw [hcontains] at hseen
        cases hseen
      simp [map_toSlash_of_not_mem hnone, eq_comm]
    | true => simp [eq_comm]

/-! ## Decoding -/

/-- A byte inside a segment goes in front of the first one, on both sides. -/
theorem mapM_modifyHead (front : Bytes) (written : UInt8) {segments decoded : List Bytes} (hne : segments ≠ [])
    (hfront : ∀ segment, decodeUrlComponent .percent (front ++ segment) =
      (decodeUrlComponent .percent segment).map (written :: ·))
    (h : segments.mapM (decodeUrlComponent .percent) = some decoded) :
    (segments.modifyHead (front ++ ·)).mapM (decodeUrlComponent .percent) =
      some (decoded.modifyHead (written :: ·)) := by
  cases segments with
  | nil => exact absurd rfl hne
  | cons segment segments =>
    rw [List.mapM_cons] at h
    rw [List.modifyHead_cons, List.mapM_cons, hfront]
    cases hsegment : decodeUrlComponent .percent segment with
    | none => simp [hsegment] at h
    | some text =>
      cases hsegments : segments.mapM (decodeUrlComponent .percent) with
      | none => simp [hsegment, hsegments] at h
      | some texts =>
        simp only [hsegment, hsegments, Option.bind_eq_bind, Option.bind_some, Option.pure_def,
          Option.some.injEq] at h
        subst h
        simp

theorem not_separator_of_isSome (h : (httpDecodeHexNibble byte).isSome) : isPathSeparator byte = false := by
  rw [Bool.eq_false_iff]
  intro hseparator
  rcases isPathSeparator_iff.mp hseparator with heq | heq
  · exact ne_of_isSome_hexNibble h (show httpDecodeHexNibble Http.slash = none by decide) heq
  · exact ne_of_isSome_hexNibble h (show httpDecodeHexNibble Http.backslash = none by decide) heq

/-- **Decoding keeps the segments.** -/
theorem rawSegments_decode {path bytes : Bytes} (h : decodeChecked .percent true path = some bytes) :
    (rawSegments path).mapM (decodeUrlComponent .percent) = some (rawSegments bytes) := by
  fun_induction decodeUrlComponent .percent path generalizing bytes with
  | case1 =>
    obtain rfl : bytes = [] := by simpa [decodeChecked, decodeUrlComponent, eq_comm] using h
    simp [rawSegments, decodeUrlComponent]
  | case2 byte rest hplus ih => cases hplus.1
  | case3 rest decoded hplus hdecoded ih =>
    rw [decodeChecked_triplet hplus hdecoded] at h
    split at h
    · cases h
    · rename_i hseparator
      obtain ⟨tail, htail, rfl⟩ := Option.map_eq_some_iff.mp h
      have hsegments := ih htail
      have hbyte : isPathSeparator (UInt8.ofNat decoded) = false := by
        rw [Bool.eq_false_iff]
        exact fun hbyte => hseparator ⟨rfl, isPathSeparator_iff.mp hbyte⟩
      -- The triplet lies within one segment, and so does the byte it stands for.
      obtain ⟨high, low, behind, rfl, hhigh, hlow, hother⟩ := triplet_cases hdecoded
      rw [rawSegments_cons, rawSegments_cons high, rawSegments_cons low, rawSegments_cons (UInt8.ofNat decoded)]
      rw [if_neg (by decide), if_neg (by rw [not_separator_of_isSome hhigh]; decide),
        if_neg (by rw [not_separator_of_isSome hlow]; decide), if_neg (by rw [hbyte]; decide)]
      rw [List.modifyHead_modifyHead, List.modifyHead_modifyHead]
      refine mapM_modifyHead [percent, high, low] _ (List.splitOnP_ne_nil _ _) ?_ hsegments
      intro segment
      show decodeUrlComponent .percent (percent :: high :: low :: segment) = _
      rw [decodeUrlComponent, if_neg hplus, if_pos rfl]
      simp only [hother segment]
      rfl
  | case4 rest hform hplus hnone ih => cases hform
  | case5 rest hform hplus hnone =>
    rw [decodeChecked_malformed hplus hform hnone] at h
    cases h
  | case6 byte rest hplus hpercent ih =>
    rw [decodeChecked_literal hplus hpercent] at h
    obtain ⟨tail, htail, rfl⟩ := Option.map_eq_some_iff.mp h
    have hsegments := ih htail
    rw [rawSegments_cons, rawSegments_cons]
    split
    · rw [List.mapM_cons, hsegments]
      simp [decodeUrlComponent]
    · refine mapM_modifyHead [byte] byte (List.splitOnP_ne_nil _ _) ?_ hsegments
      intro segment
      rw [List.singleton_append, decodeUrlComponent, if_neg hplus, if_neg hpercent]

/-! ## Safe file paths -/

/-- The segments of a file path; the empty path is the root directory and has none. -/
def fileSegments (path : Bytes) : List Bytes := if path = [] then [] else path.splitOn Http.slash

/-- A path that stays below the directory it is relative to. -/
structure SafeRelativePath (path : Bytes) : Prop where
  segments : ∀ segment ∈ fileSegments path, segment ≠ [] ∧ segment ≠ lit "." ∧ segment ≠ lit ".."
  noNul : (0 : UInt8) ∉ path
  noBackslash : Http.backslash ∉ path
  noRoot : path.head? ≠ some Http.slash
  noDrive : isWindowsDrivePath path = false

section

variable {input : Bytes}

theorem backslash_not_mem_map_toSlash (text : Bytes) : Http.backslash ∉ text.map toSlash := by
  intro hmem
  obtain ⟨byte, -, hbyte⟩ := List.mem_map.mp hmem
  unfold toSlash at hbyte
  split at hbyte
  · cases hbyte
  · rename_i hne
    exact hne hbyte

theorem rawSegments_of_not_mem {text : Bytes} (h : Http.backslash ∉ text) :
    rawSegments text = text.splitOn Http.slash := by
  rw [← map_toSlash_splitOn, map_toSlash_of_not_mem h]

theorem isWindowsDrivePath_map (text : Bytes) : isWindowsDrivePath (text.map toSlash) = isWindowsDrivePath text := by
  match text with
  | [] | [_] => rfl
  | drive :: mark :: rest =>
    have hmark : (toSlash mark == colon) = (mark == colon) := by
      unfold toSlash
      split
      · rename_i h
        rw [h]
        rfl
      · rfl
    have hdrive : isAlpha (toSlash drive) = isAlpha drive := by
      unfold toSlash
      split
      · rename_i h
        rw [h]
        decide
      · rfl
    show (toSlash mark == colon && isAlpha (toSlash drive)) = (mark == colon && isAlpha drive)
    rw [hmark, hdrive]

/-- A drive in front of a shorter path was in front of the path. -/
theorem isWindowsDrivePath_front {text more : Bytes} (h : isWindowsDrivePath (text ++ more) = false) :
    isWindowsDrivePath text = false := by
  match text with
  | [] | [_] => rfl
  | _ :: _ :: _ => exact h

/-- **A normalized path is safe**, and its segments are the checked ones. -/
theorem safe_of_checked (hne : input ≠ []) (hfront : ∀ byte ∈ input.head?, isPathSeparator byte = false)
    (hdrive : isWindowsDrivePath input = false) (hchecked : Checked input) :
    SafeRelativePath ((withoutTrailingSeparator input).map toSlash) ∧
      ∃ trailing, (trailing = [] ∨ trailing = [[]]) ∧
        rawSegments input = fileSegments ((withoutTrailingSeparator input).map toSlash) ++ trailing := by
  obtain ⟨hcanonical, hsegments, trailing, htrailing, hsplit⟩ := canonical_segments hne hfront hchecked
  have hfile : fileSegments ((withoutTrailingSeparator input).map toSlash) =
      rawSegments (withoutTrailingSeparator input) := by
    rw [fileSegments, if_neg (by simpa using hcanonical), map_toSlash_splitOn]
  obtain ⟨more, hmore⟩ : ∃ more, input = withoutTrailingSeparator input ++ more := by
    rcases withoutTrailingSeparator_cases input with ⟨stop, -, hinput⟩ | ⟨heq, -⟩
    · exact ⟨[stop], hinput⟩
    · exact ⟨[], by rw [heq, List.append_nil]⟩
  refine ⟨⟨?_, ?_, backslash_not_mem_map_toSlash _, ?_, ?_⟩, trailing, htrailing, by rw [hfile, hsplit]⟩
  · intro segment hsegment
    rw [hfile] at hsegment
    have hdots := hchecked.noDots segment (by rw [hsplit]; exact List.mem_append_left _ hsegment)
    simp only [isDots, Bool.or_eq_false_iff, beq_eq_false_iff_ne] at hdots
    exact ⟨hsegments segment hsegment, hdots⟩
  · intro hmem
    obtain ⟨byte, hbyte, hzero⟩ := List.mem_map.mp hmem
    unfold toSlash at hzero
    split at hzero
    · cases hzero
    · rw [hzero] at hbyte
      exact hchecked.noNul (mem_withoutTrailingSeparator hbyte)
  · obtain ⟨byte, rest, hcons⟩ := List.exists_cons_of_ne_nil hcanonical
    have hbyte : isPathSeparator byte = false := by
      apply hfront
      rw [hmore, hcons]
      rfl
    rw [hcons, List.map_cons, List.head?_cons]
    intro heq
    rw [Bool.eq_false_iff] at hbyte
    unfold toSlash at heq
    split at heq
    · rename_i hbackslash
      exact hbyte (isPathSeparator_iff.mpr (Or.inr hbackslash))
    · exact hbyte (isPathSeparator_iff.mpr (Or.inl (Option.some.inj heq)))
  · rw [isWindowsDrivePath_map]
    rw [hmore] at hdrive
    exact isWindowsDrivePath_front hdrive

/-- **A safe path is its own normal form.** -/
theorem tryNormalize_of_safe {path : Bytes} (h : SafeRelativePath path) (scratch : Bytes) :
    (tryNormalizeStaticRelativePath path scratch).1 = some path := by
  by_cases hne : path = []
  · subst hne
    rfl
  have hfile : fileSegments path = rawSegments path := by
    rw [fileSegments, if_neg hne, rawSegments_of_not_mem h.noBackslash]
  have hsegments := h.segments
  rw [hfile] at hsegments
  have hwhole : withoutTrailingSeparator path = path := by
    rcases withoutTrailingSeparator_cases path with ⟨stop, hstop, hpath⟩ | ⟨heq, -⟩
    · -- A separator at the end would leave an empty segment behind it.
      have hsplit : rawSegments path = rawSegments (withoutTrailingSeparator path) ++ [[]] := by
        conv_lhs => rw [hpath]
        exact List.splitOnP_append_cons _ _ hstop
      have := (hsegments [] (by rw [hsplit]; exact List.mem_append_right _ (List.mem_singleton_self _))).1
      exact absurd rfl this
    · exact heq
  refine (tryNormalize_eq_some_iff hne).mpr ⟨?_, h.noDrive, ⟨h.noNul, ?_, ?_⟩, ?_⟩
  · intro byte hbyte
    rw [Bool.eq_false_iff]
    intro hseparator
    rcases isPathSeparator_iff.mp hseparator with rfl | rfl
    · exact h.noRoot hbyte
    · exact h.noBackslash (List.mem_of_mem_head? hbyte)
  · intro segment hsegment
    simpa [isDots] using (hsegments segment hsegment).2
  · intro segment hsegment
    exact (hsegments segment (List.dropLast_subset _ hsegment)).1
  · rw [hwhole, map_toSlash_of_not_mem h.noBackslash]

end

/-- A path that the request parser accepts has no backslash. -/
theorem backslash_not_mem_of_valid {isAllowed : UInt8 → Bool} (hallowed : isAllowed Http.backslash = false)
    (text : Bytes) (h : isValidPercentEncoded isAllowed text = true) : Http.backslash ∉ text := by
  fun_induction isValidPercentEncoded isAllowed text with
  | case1 => exact List.not_mem_nil
  | case2 high low rest ih =>
    simp only [Bool.and_eq_true] at h
    obtain ⟨decoded, hdecoded⟩ := Option.isSome_iff_exists.mp h.1
    obtain ⟨_, _, _, heq, hhigh, hlow, -⟩ := triplet_cases hdecoded
    cases heq
    have hbackslash : httpDecodeHexNibble Http.backslash = none := by decide
    intro hmem
    rcases List.mem_cons.mp hmem with heq | hmem
    · cases heq
    rcases List.mem_cons.mp hmem with heq | hmem
    · exact ne_of_isSome_hexNibble hhigh hbackslash heq.symm
    rcases List.mem_cons.mp hmem with heq | hmem
    · exact ne_of_isSome_hexNibble hlow hbackslash heq.symm
    · exact ih h.2 hmem
  | case3 => cases h
  | case4 byte rest hbyte ih =>
    simp only [Bool.and_eq_true] at h
    intro hmem
    rcases List.mem_cons.mp hmem with rfl | hmem
    · rw [hallowed] at h
      cases h.1
    · exact ih h.2 hmem

end Ruvia.Web
