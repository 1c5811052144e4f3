import Ruvia.Http.ChunkSizeLine
import Ruvia.Http.FieldSection

/-!
# `Http.ChunkSizeGrammar` — the lines `parse_http_chunk_size_line` accepts

The grammar of a chunk-size line stated on its own: `1*HEXDIG` and a row of extensions, each beginning at its `;`
or the whitespace before it and ending with a token or a quoted-string. The scanner is greedy, the grammar is not;
what joins them is that no byte behind a token can continue it (`Follows`). A line is accepted exactly when the
grammar derives it and its number fits a `std::size_t` (`parseHttpChunkSizeLine_grammar`).
-/

namespace Ruvia.Http

open Library

/-! ## The grammar -/

/-- `BWS`. -/
def IsBws (text : Bytes) : Prop := ∀ byte ∈ text, isHttpOwsChar byte = true

/-- `token`. -/
def IsToken (text : Bytes) : Prop := text ≠ [] ∧ ∀ byte ∈ text, isHttpTokenChar byte = true

/-- `*( qdtext / quoted-pair )`. -/
inductive QuotedText : Bytes → Prop where
  | nil : QuotedText []
  | text {byte : UInt8} {rest : Bytes} (htext : isHttpFieldValueChar byte = true)
      (hplain : byte ≠ dquote ∧ byte ≠ backslash) (hrest : QuotedText rest) : QuotedText (byte :: rest)
  | pair {byte : UInt8} {rest : Bytes} (hescaped : isHttpFieldValueChar byte = true)
      (hrest : QuotedText rest) : QuotedText (backslash :: byte :: rest)

/-- `quoted-string`. -/
def IsQuotedString (text : Bytes) : Prop := ∃ body, QuotedText body ∧ text = dquote :: (body ++ [dquote])

/-- What may stand behind the name of an extension: `[ BWS "=" BWS ( token / quoted-string ) ]`. -/
inductive IsExtensionValue : Bytes → Prop where
  | absent : IsExtensionValue []
  | present {before after value : Bytes} (hbefore : IsBws before) (hafter : IsBws after)
      (hvalue : IsToken value ∨ IsQuotedString value) :
      IsExtensionValue (before ++ equalsSign :: (after ++ value))

/-- `BWS ";" BWS token`, with a value or without. -/
inductive IsChunkExtension : Bytes → Prop where
  | mk {before after name value : Bytes} (hbefore : IsBws before) (hafter : IsBws after) (hname : IsToken name)
      (hvalue : IsExtensionValue value) :
      IsChunkExtension (before ++ semicolon :: (after ++ (name ++ value)))

/-- `chunk-ext`. -/
inductive IsChunkExtensions : Bytes → Prop where
  | nil : IsChunkExtensions []
  | cons {extension rest : Bytes} (hextension : IsChunkExtension extension) (hrest : IsChunkExtensions rest) :
      IsChunkExtensions (extension ++ rest)

def isHttpHexDigit (byte : UInt8) : Bool := (httpDecodeHexNibble byte).isSome

/-- `1*HEXDIG`. -/
def IsHexDigits (digits : Bytes) : Prop := digits ≠ [] ∧ ∀ byte ∈ digits, isHttpHexDigit byte = true

def hexStep (value : Nat) (byte : UInt8) : Nat := value * 16 + (httpDecodeHexNibble byte).getD 0

/-- The number the digits write. -/
def hexValue (digits : Bytes) : Nat := digits.foldl hexStep 0

/-- No spelling of the same number is shorter. -/
def IsShortestHex (digits : Bytes) : Prop :=
  IsHexDigits digits ∧ ∀ other, IsHexDigits other → hexValue other = hexValue digits → digits.length ≤ other.length

/-! ## Tokens, blanks and quoted strings -/

section

variable {text rest : Bytes}

theorem IsBws.append {more : Bytes} (h : IsBws text) (hmore : IsBws more) : IsBws (text ++ more) := by
  intro byte hmem
  rcases List.mem_append.mp hmem with hmem | hmem
  · exact h byte hmem
  · exact hmore byte hmem

/-- Blanks are skipped up to the first byte that is none. -/
theorem IsBws.skip (h : IsBws text) (hrest : ∀ byte, rest.head? = some byte → isHttpOwsChar byte = false) :
    skipBws (text ++ rest) = rest := by
  exact dropWhile_append_stop h hrest

theorem IsBws.skip_cons {byte : UInt8} (h : IsBws text) (hbyte : isHttpOwsChar byte = false) :
    skipBws (text ++ byte :: rest) = byte :: rest := by
  apply h.skip
  intro first hfirst
  cases hfirst
  exact hbyte

theorem skipBws_split (text : Bytes) : ∃ blanks, IsBws blanks ∧ text = blanks ++ skipBws text :=
  ⟨_, fun _ hmem => List.mem_takeWhile_imp hmem, (List.takeWhile_append_dropWhile (p := isHttpOwsChar)).symm⟩

theorem not_ows_of_token {byte : UInt8} (h : isHttpTokenChar byte = true) : isHttpOwsChar byte = false := by
  rw [isHttpOwsChar, Bool.or_eq_false_iff, beq_eq_false_iff_ne, beq_eq_false_iff_ne]
  constructor
  all_goals
    rintro rfl
    exact absurd h (by decide)

/-- No byte in front continues a token. -/
def NoToken (text : Bytes) : Prop := ∀ byte, text.head? = some byte → isHttpTokenChar byte = false

theorem IsToken.parse (h : IsToken text) (hrest : NoToken rest) : parseToken (text ++ rest) = some rest := by
  have hdrop := dropWhile_append_stop h.2 hrest
  have hpos := List.length_pos_iff.mpr h.1
  rw [parseToken]
  simp only [hdrop]
  rw [if_neg]
  rw [List.length_append]
  omega

theorem IsBws.skip_token {blanks : Bytes} (hblanks : IsBws blanks) (h : IsToken text) :
    skipBws (blanks ++ (text ++ rest)) = text ++ rest := by
  obtain ⟨byte, more, rfl⟩ := List.exists_cons_of_ne_nil h.1
  exact hblanks.skip_cons (not_ows_of_token (h.2 byte List.mem_cons_self))

theorem parseToken_eq_some (h : parseToken text = some rest) : ∃ token, IsToken token ∧ text = token ++ rest := by
  simp only [parseToken] at h
  split at h
  · cases h
  · rename_i hshorter
    cases h
    have hsplit := List.takeWhile_append_dropWhile (p := isHttpTokenChar) (l := text)
    refine ⟨text.takeWhile isHttpTokenChar, ⟨?_, fun _ hmem => List.mem_takeWhile_imp hmem⟩, hsplit.symm⟩
    intro hnil
    rw [hnil, List.nil_append] at hsplit
    exact hshorter (by rw [hsplit])

theorem QuotedText.end_eq {position : Nat} {body : Bytes} (h : QuotedText body) :
    httpQuotedStringEnd position (body ++ dquote :: rest) = some (position + body.length + 1) := by
  induction h generalizing position with
  | nil =>
    unfold httpQuotedStringEnd
    exact if_pos rfl
  | @text byte more htext hplain _ ih =>
    unfold httpQuotedStringEnd
    simp only [List.cons_append, if_neg hplain.1, if_neg hplain.2, htext, if_true]
    rw [ih, List.length_cons]
    congr 1
    omega
  | @pair byte more hescaped _ ih =>
    have hquote : backslash ≠ dquote := by decide
    unfold httpQuotedStringEnd
    simp only [List.cons_append, if_neg hquote, hescaped, if_true]
    rw [ih, List.length_cons, List.length_cons]
    congr 1
    omega

theorem httpQuotedStringEnd_eq_some {position stop : Nat} (h : httpQuotedStringEnd position text = some stop) :
    ∃ body, QuotedText body ∧ stop = position + body.length + 1 ∧
      text = body ++ dquote :: text.drop (body.length + 1) := by
  fun_induction httpQuotedStringEnd position text with
  | case1 | case3 | case5 | case7 => cases h
  | case2 position rest =>
    cases h
    exact ⟨[], .nil, rfl, rfl⟩
  | case4 position escaped rest hescaped hquote ih =>
    obtain ⟨body, hbody, hstop, htext⟩ := ih h
    refine ⟨backslash :: escaped :: body, .pair hescaped hbody, ?_, ?_⟩
    · rw [hstop, List.length_cons, List.length_cons]
      omega
    · simpa using htext
  | case6 position byte rest hquote hescape hvalid ih =>
    obtain ⟨body, hbody, hstop, htext⟩ := ih h
    refine ⟨byte :: body, .text hvalid ⟨hquote, hescape⟩ hbody, ?_, ?_⟩
    · rw [hstop, List.length_cons]
      omega
    · simpa using htext

theorem IsQuotedString.size (h : IsQuotedString text) : httpQuotedStringSize (text ++ rest) = text.length := by
  obtain ⟨body, hbody, rfl⟩ := h
  rw [List.cons_append, List.append_assoc, httpQuotedStringSize, if_pos rfl, List.singleton_append, hbody.end_eq]
  simp only [Option.getD_some, List.length_cons, List.length_append, List.length_nil]
  omega

theorem isQuotedString_of_size (h : httpQuotedStringSize text ≠ 0) :
    ∃ quoted, IsQuotedString quoted ∧ text = quoted ++ text.drop (httpQuotedStringSize text) := by
  cases text with
  | nil => exact absurd rfl h
  | cons first rest =>
    rw [httpQuotedStringSize] at h ⊢
    split at h
    · rename_i hfirst
      rw [if_pos hfirst]
      cases hend : httpQuotedStringEnd 1 rest with
      | none =>
        rw [hend] at h
        exact absurd rfl h
      | some stop =>
        obtain ⟨body, hbody, rfl, hrest⟩ := httpQuotedStringEnd_eq_some hend
        refine ⟨dquote :: (body ++ [dquote]), ⟨body, hbody, rfl⟩, ?_⟩
        rw [Option.getD_some, hfirst, show 1 + body.length + 1 = (body.length + 1) + 1 by omega, List.drop_succ_cons,
          List.cons_append, List.append_assoc, List.singleton_append, ← hrest]
    · exact absurd rfl h

/-- The value of an extension, read from a text that begins with it. -/
theorem parseChunkExtensionValue_append (h : IsToken text ∨ IsQuotedString text) (hrest : NoToken rest) :
    parseChunkExtensionValue (text ++ rest) = some rest := by
  rcases h with htoken | hquoted
  · obtain ⟨byte, more, rfl⟩ := List.exists_cons_of_ne_nil htoken.1
    have hne : byte ≠ dquote := by
      rintro rfl
      exact absurd (htoken.2 dquote List.mem_cons_self) (by decide)
    have hparse := htoken.parse hrest
    rw [List.cons_append] at hparse ⊢
    rw [parseChunkExtensionValue, if_neg hne, hparse]
  · have hsize : httpQuotedStringSize (text ++ rest) = text.length := hquoted.size
    obtain ⟨body, hbody, rfl⟩ := hquoted
    rw [List.cons_append] at hsize ⊢
    rw [parseChunkExtensionValue, if_pos rfl, hsize, if_neg (by rw [List.length_cons]; omega)]
    exact congrArg some (@List.drop_left _ (dquote :: (body ++ [dquote])) _)

theorem parseChunkExtensionValue_eq_some (h : parseChunkExtensionValue text = some rest) :
    ∃ value, (IsToken value ∨ IsQuotedString value) ∧ text = value ++ rest := by
  unfold parseChunkExtensionValue at h
  split at h
  · cases h
  · split at h
    · split at h
      · cases h
      · rename_i hsize
        obtain ⟨quoted, hquoted, htext⟩ := isQuotedString_of_size hsize
        cases h
        exact ⟨quoted, .inr hquoted, htext⟩
    · obtain ⟨token, htoken, htext⟩ := parseToken_eq_some h
      exact ⟨token, .inl htoken, htext⟩

end

/-! ## The extensions -/

section

variable {text rest : Bytes} {fuel : Nat}

/-- What may follow an extension: nothing, or the next one. -/
def Follows (rest : Bytes) : Prop := rest = [] ∨ ∃ next, skipBws rest = semicolon :: next

theorem IsChunkExtension.split (h : IsChunkExtension text) :
    ∃ before behind, IsBws before ∧ text = before ++ semicolon :: behind := by
  cases h with
  | mk hbefore _ _ _ => exact ⟨_, _, hbefore, rfl⟩

theorem IsChunkExtension.length_pos (h : IsChunkExtension text) : 0 < text.length := by
  obtain ⟨before, behind, -, rfl⟩ := h.split
  rw [List.length_append, List.length_cons]
  omega

theorem IsChunkExtensions.follows (h : IsChunkExtensions text) : Follows text := by
  cases h with
  | nil => exact .inl rfl
  | cons hextension _ =>
    obtain ⟨before, behind, hbefore, rfl⟩ := hextension.split
    rw [List.append_assoc]
    exact .inr ⟨_, hbefore.skip_cons (by decide)⟩

theorem noToken_of_bws {blanks : Bytes} {byte : UInt8} (h : IsBws blanks) (hbyte : isHttpTokenChar byte = false) :
    NoToken (blanks ++ byte :: rest) := by
  intro first hfirst
  cases blanks with
  | nil =>
    cases hfirst
    exact hbyte
  | cons blank blanks =>
    cases hfirst
    have hblank := h first List.mem_cons_self
    by_contra htoken
    rw [not_ows_of_token (by simpa using htoken)] at hblank
    cases hblank

theorem Follows.noToken (h : Follows rest) : NoToken rest := by
  rcases h with rfl | ⟨next, hnext⟩
  · intro byte hbyte
    cases hbyte
  · obtain ⟨blanks, hblanks, hrest⟩ := skipBws_split rest
    rw [hrest, hnext]
    exact noToken_of_bws hblanks (by decide)

/-- A blank in front of the `;` is part of the first extension. -/
theorem IsChunkExtensions.blanks {blanks : Bytes} (hblanks : IsBws blanks)
    (h : IsChunkExtensions (semicolon :: rest)) : IsChunkExtensions (blanks ++ semicolon :: rest) := by
  generalize hall : semicolon :: rest = all at h
  cases h with
  | nil => cases hall
  | cons hextension hrest =>
    cases hextension with
    | mk hbefore hafter hname hvalue =>
      rw [← List.append_assoc, ← List.append_assoc]
      exact .cons (.mk (hblanks.append hbefore) hafter hname hvalue) hrest

/-- Blanks in front of a row of extensions are skipped first. -/
theorem isValidHttpChunkExtensionLoop_skipBws (h : ∃ next, skipBws text = semicolon :: next) :
    isValidHttpChunkExtensionLoop (fuel + 1) text = isValidHttpChunkExtensionLoop (fuel + 1) (skipBws text) := by
  obtain ⟨next, hnext⟩ := h
  have hne : text.isEmpty = false := by
    cases text with
    | nil => cases hnext
    | cons => rfl
  have hskip : skipBws (semicolon :: next) = semicolon :: next := by rfl
  simp only [isValidHttpChunkExtensionLoop, hne, hnext, hskip, List.isEmpty_cons]

/-- **What the loop accepts the grammar derives.** -/
theorem isChunkExtensions_of_loop (h : isValidHttpChunkExtensionLoop fuel text = true) : IsChunkExtensions text := by
  induction fuel generalizing text with
  | zero => cases h
  | succ fuel ih =>
    rw [isValidHttpChunkExtensionLoop] at h
    split at h
    · rename_i hempty
      rw [List.isEmpty_iff.mp hempty]
      exact .nil
    split at h
    · cases h
    rename_i first afterSemicolon hfirst
    split at h
    · cases h
    rename_i hsemicolon
    simp only [ne_eq, Decidable.not_not] at hsemicolon
    split at h
    · cases h
    rename_i afterName hname
    obtain ⟨before, hbefore, htext⟩ := skipBws_split text
    obtain ⟨after, hafter, hbehind⟩ := skipBws_split afterSemicolon
    obtain ⟨name, htoken, hsplit⟩ := parseToken_eq_some hname
    obtain ⟨blanks, hblanks, hrest⟩ := skipBws_split afterName
    rw [htext, hfirst, hsemicolon, hbehind, hsplit]
    have hbare : ∀ {more}, IsChunkExtensions more →
        IsChunkExtensions (before ++ semicolon :: (after ++ (name ++ more))) := by
      intro more hmore
      have hextension := IsChunkExtension.mk hbefore hafter htoken .absent
      have hall := IsChunkExtensions.cons hextension hmore
      simpa only [List.append_nil, List.append_assoc, List.cons_append] using hall
    split at h
    · rw [List.isEmpty_iff.mp h]
      exact hbare .nil
    rename_i second afterDelimiter hsecond
    rw [hsecond] at hrest
    split at h
    · rename_i hsemi
      rw [hrest, hsemi]
      apply hbare
      rw [hsemi] at h
      exact (ih h).blanks hblanks
    split at h
    · cases h
    rename_i hequals
    simp only [ne_eq, Decidable.not_not] at hequals
    split at h
    · cases h
    rename_i afterValue hvalue
    obtain ⟨gap, hgap, hdelimiter⟩ := skipBws_split afterDelimiter
    obtain ⟨value, hvalue, hsplit⟩ := parseChunkExtensionValue_eq_some hvalue
    obtain ⟨tail, htail, hafterValue⟩ := skipBws_split afterValue
    rw [hrest, hequals, hdelimiter, hsplit]
    have hvalued : ∀ {more}, IsChunkExtensions more → IsChunkExtensions
        (before ++ semicolon :: (after ++ (name ++ (blanks ++ equalsSign :: (gap ++ (value ++ more)))))) := by
      intro more hmore
      have hextension := IsChunkExtension.mk hbefore hafter htoken (.present hblanks hgap hvalue)
      have hall := IsChunkExtensions.cons hextension hmore
      simpa only [List.append_assoc, List.cons_append] using hall
    split at h
    · rw [List.isEmpty_iff.mp h]
      exact hvalued .nil
    rename_i third next hthird
    rw [hthird] at hafterValue
    split at h
    · cases h
    rename_i hsemi
    simp only [ne_eq, Decidable.not_not] at hsemi
    rw [hafterValue, hsemi]
    apply hvalued
    rw [hsemi] at h
    exact (ih h).blanks htail

/-- **What the grammar derives the loop accepts**, when it may take a round for each byte. -/
theorem isValidHttpChunkExtensionLoop_of_extensions (h : IsChunkExtensions text) (hfuel : text.length < fuel) :
    isValidHttpChunkExtensionLoop fuel text = true := by
  induction h generalizing fuel with
  | nil =>
    obtain ⟨fuel, rfl⟩ : ∃ n, fuel = n + 1 := ⟨fuel - 1, by omega⟩
    rfl
  | @cons extension rest hextension hrest ih =>
    obtain ⟨fuel, rfl⟩ : ∃ n, fuel = n + 1 := ⟨fuel - 1, by omega⟩
    have hfollows := hrest.follows
    -- the row behind the extension, from its `;` on
    have hnext : ∀ {blanked}, skipBws rest = semicolon :: blanked →
        isValidHttpChunkExtensionLoop fuel (semicolon :: blanked) = true := by
      intro blanked hblanked
      have hpos := hextension.length_pos
      rw [List.length_append] at hfuel
      have hloop := @ih fuel (by omega)
      obtain ⟨fuel, rfl⟩ : ∃ n, fuel = n + 1 := ⟨fuel - 1, by omega⟩
      rwa [isValidHttpChunkExtensionLoop_skipBws ⟨_, hblanked⟩, hblanked] at hloop
    cases hextension with
    | @mk before after name value hbefore hafter hname hvalue =>
      have hne : (before ++ semicolon :: (after ++ (name ++ value)) ++ rest).isEmpty = false := by
        cases before <;> rfl
      have hskip : skipBws (before ++ semicolon :: (after ++ (name ++ value)) ++ rest) =
          semicolon :: (after ++ (name ++ (value ++ rest))) := by
        simp only [List.append_assoc, List.cons_append]
        exact hbefore.skip_cons (by decide)
      rw [isValidHttpChunkExtensionLoop, hne, hskip]
      simp only [Bool.false_eq_true, if_false, ne_eq, not_true_eq_false, hafter.skip_token hname]
      cases hvalue with
      | absent =>
        rw [List.nil_append, hname.parse hfollows.noToken]
        rcases hfollows with rfl | ⟨blanked, hblanked⟩
        · rfl
        · simp only [hblanked, if_true]
          exact hnext hblanked
      | @present blanks gap value hblanks hgap hvalue =>
        have hequals : isHttpOwsChar equalsSign = false := by decide
        have hdelimiter : equalsSign ≠ semicolon := by decide
        have hbehind : blanks ++ equalsSign :: (gap ++ value) ++ rest =
            blanks ++ equalsSign :: (gap ++ (value ++ rest)) := by
          simp only [List.append_assoc, List.cons_append]
        have hvalueSkip : skipBws (gap ++ (value ++ rest)) = value ++ rest := by
          rcases hvalue with htoken | ⟨body, _, rfl⟩
          · exact hgap.skip_token htoken
          · exact hgap.skip_cons (by decide)
        rw [hbehind, hname.parse (noToken_of_bws hblanks (by decide))]
        simp only [hblanks.skip_cons hequals, if_neg hdelimiter, not_true_eq_false, if_false, hvalueSkip,
          parseChunkExtensionValue_append hvalue hfollows.noToken]
        rcases hfollows with rfl | ⟨blanked, hblanked⟩
        · rfl
        · simp only [hblanked, not_true_eq_false, if_false]
          exact hnext hblanked

theorem isValidHttpChunkExtension_iff : isValidHttpChunkExtension text = true ↔ IsChunkExtensions text :=
  ⟨isChunkExtensions_of_loop, fun h => isValidHttpChunkExtensionLoop_of_extensions h (Nat.lt_succ_self _)⟩

end

/-! ## The number -/

section

variable {digits rest : Bytes} {value zeros count : Nat} {byte : UInt8}

theorem hexStep_lt (value : Nat) (byte : UInt8) : hexStep value byte < value * 16 + 16 := by
  rw [hexStep]
  cases hnibble : httpDecodeHexNibble byte with
  | none => exact Nat.add_lt_add_left (by decide) _
  | some nibble => exact Nat.add_lt_add_left (httpDecodeHexNibble_lt hnibble) _

theorem le_foldl_hexStep (digits : Bytes) (value : Nat) : value * 16 ^ digits.length ≤ digits.foldl hexStep value := by
  induction digits generalizing value with
  | nil => simp
  | cons byte digits ih =>
    calc value * 16 ^ (digits.length + 1)
        = value * 16 * 16 ^ digits.length := by rw [pow_succ, Nat.mul_assoc, Nat.mul_comm (16 ^ _)]
      _ ≤ hexStep value byte * 16 ^ digits.length := Nat.mul_le_mul_right _ (Nat.le_add_right _ _)
      _ ≤ digits.foldl hexStep (hexStep value byte) := ih _

theorem foldl_hexStep_lt (digits : Bytes) (value : Nat) :
    digits.foldl hexStep value < (value + 1) * 16 ^ digits.length := by
  induction digits generalizing value with
  | nil => simp
  | cons byte digits ih =>
    calc digits.foldl hexStep (hexStep value byte)
        < (hexStep value byte + 1) * 16 ^ digits.length := ih _
      _ ≤ (value + 1) * 16 * 16 ^ digits.length :=
          Nat.mul_le_mul_right _ (by have := hexStep_lt value byte; omega)
      _ = (value + 1) * 16 ^ (digits.length + 1) := by rw [pow_succ, Nat.mul_assoc, Nat.mul_comm (16 ^ _)]

/-- What the digit loop reports of the digits it reads: the number, how many zeros led it, how many it read. -/
def zeroStep (state : Nat × Nat) (byte : UInt8) : Nat × Nat :=
  (hexStep state.1 byte, if state.1 = 0 ∧ hexStep state.1 byte = 0 then state.2 + 1 else state.2)

/-- **The digit loop** reads the digits in front, unless their number does not fit. -/
theorem readChunkSizeDigits_append (hdigits : ∀ byte ∈ digits, isHttpHexDigit byte = true)
    (hrest : ∀ byte, rest.head? = some byte → httpDecodeHexNibble byte = none) (hvalue : value < sizeTypeCount) :
    readChunkSizeDigits value zeros count (digits ++ rest) =
      if digits.foldl hexStep value < sizeTypeCount then
        some ⟨digits.foldl hexStep value, (digits.foldl zeroStep (value, zeros)).2, count + digits.length, rest⟩
      else none := by
  induction digits generalizing value zeros count with
  | nil =>
    rw [List.foldl_nil, if_pos hvalue]
    cases rest with
    | nil => rfl
    | cons byte rest =>
      rw [List.nil_append, readChunkSizeDigits, hrest byte rfl]
      rfl
  | cons byte digits ih =>
    obtain ⟨nibble, hnibble⟩ := Option.isSome_iff_exists.mp (hdigits byte List.mem_cons_self)
    have hstep : hexStep value byte = value * 16 + nibble := by rw [hexStep, hnibble, Option.getD_some]
    have hlt := httpDecodeHexNibble_lt hnibble
    have hle := le_foldl_hexStep digits (hexStep value byte)
    have hpow : hexStep value byte ≤ hexStep value byte * 16 ^ digits.length :=
      Nat.le_mul_of_pos_right _ (Nat.pow_pos (by decide))
    rw [List.cons_append, readChunkSizeDigits, hnibble, List.foldl_cons, List.foldl_cons]
    simp only
    by_cases hshift : maxBeforeShift < value
    · rw [if_pos hshift, if_neg]
      rw [maxBeforeShift] at hshift
      rw [sizeTypeCount] at hvalue ⊢
      omega
    · have hnext : value * 16 + nibble < sizeTypeCount := by
        rw [maxBeforeShift] at hshift
        rw [sizeTypeCount]
        omega
      have hzero : (value = 0 ∧ nibble = 0) = (value = 0 ∧ hexStep value byte = 0) := by
        apply propext
        constructor <;> rintro ⟨hvalue, hzero⟩ <;> exact ⟨hvalue, by omega⟩
      rw [if_neg hshift, ih (fun b hmem => hdigits b (List.mem_cons_of_mem _ hmem)) hnext, hstep]
      simp only [zeroStep, hstep, hzero, List.length_cons]
      rw [Nat.add_assoc, Nat.add_comm 1]

theorem isHttpTokenChar_of_hex (h : isHttpHexDigit byte = true) : isHttpTokenChar byte = true := by
  unfold isHttpHexDigit httpDecodeHexNibble at h
  rw [isHttpTokenChar, Bool.or_eq_true, Bool.or_eq_true, isAlpha, Bool.or_eq_true]
  split_ifs at h with hdigit hupper hlower
  · exact .inl (.inl hdigit)
  · refine .inl (.inr (.inl ?_))
    simp only [isUpper, Bool.and_eq_true, decide_eq_true_eq, UInt8.le_iff_toNat_le, UInt8.reduceToNat] at hupper ⊢
    omega
  · simp only [Bool.and_eq_true, decide_eq_true_eq] at hlower
    refine .inl (.inr (.inr ?_))
    simp only [isLower, Bool.and_eq_true, decide_eq_true_eq, UInt8.le_iff_toNat_le, UInt8.reduceToNat] at hlower ⊢
    omega
  · cases h

/-- No byte behind the size continues it. -/
theorem NoToken.not_hex (h : NoToken rest) : ∀ byte, rest.head? = some byte → httpDecodeHexNibble byte = none := by
  intro byte hbyte
  by_contra hsome
  have htoken := isHttpTokenChar_of_hex (Option.isSome_iff_ne_none.mpr hsome)
  rw [h byte hbyte] at htoken
  cases htoken

/-! ### The shortest spelling -/

def isZeroNibble (byte : UInt8) : Bool := httpDecodeHexNibble byte == some 0

theorem hexStep_eq_zero_iff (h : isHttpHexDigit byte = true) :
    hexStep value byte = 0 ↔ value = 0 ∧ isZeroNibble byte = true := by
  obtain ⟨nibble, hnibble⟩ := Option.isSome_iff_exists.mp h
  rw [hexStep, isZeroNibble, hnibble, Option.getD_some, beq_iff_eq, Option.some.injEq]
  omega

/-- Behind a digit that is no zero, no more of them are counted. -/
theorem foldl_zeroStep_of_pos (hvalue : 0 < value) : (digits.foldl zeroStep (value, zeros)).2 = zeros := by
  induction digits generalizing value with
  | nil => rfl
  | cons byte digits ih =>
    rw [List.foldl_cons, zeroStep]
    simp only [Nat.ne_of_gt hvalue, false_and, if_false]
    apply ih
    rw [hexStep]
    omega

/-- The zeros counted are the ones in front. -/
theorem foldl_zeroStep_snd (h : ∀ byte ∈ digits, isHttpHexDigit byte = true) :
    (digits.foldl zeroStep (0, zeros)).2 = zeros + (digits.takeWhile isZeroNibble).length := by
  induction digits generalizing zeros with
  | nil => rfl
  | cons byte digits ih =>
    have hbyte := h byte List.mem_cons_self
    have hzero : hexStep 0 byte = 0 ↔ 0 = 0 ∧ isZeroNibble byte = true := hexStep_eq_zero_iff hbyte
    rw [List.foldl_cons, zeroStep]
    by_cases hfront : isZeroNibble byte = true
    · have hstep := hzero.mpr ⟨rfl, hfront⟩
      simp only [hstep, and_self, if_true]
      rw [ih fun b hmem => h b (List.mem_cons_of_mem _ hmem), List.takeWhile_cons_of_pos hfront, List.length_cons]
      omega
    · have hstep : hexStep 0 byte ≠ 0 := fun hstep => hfront (hzero.mp hstep).2
      simp only [hstep, and_false, if_false]
      rw [foldl_zeroStep_of_pos (Nat.pos_of_ne_zero hstep), List.takeWhile_cons_of_neg hfront]
      rfl

/-- Zeros in front leave the number as it is. -/
theorem hexValue_append (h : ∀ byte ∈ digits, isZeroNibble byte = true) :
    hexValue (digits ++ rest) = hexValue rest := by
  induction digits with
  | nil => rfl
  | cons byte digits ih =>
    have hnibble := beq_iff_eq.mp (h byte List.mem_cons_self)
    have hstep : hexStep 0 byte = 0 := by rw [hexStep, hnibble]; rfl
    rw [List.cons_append, hexValue, List.foldl_cons, hstep]
    exact ih fun b hmem => h b (List.mem_cons_of_mem _ hmem)

theorem hexValue_lt (digits : Bytes) : hexValue digits < 16 ^ digits.length := by
  have hlt := foldl_hexStep_lt digits 0
  rwa [Nat.zero_add, Nat.one_mul] at hlt

/-- Digits that do not begin with a zero are the shortest ones for their number. -/
theorem isShortestHex_of_front (hbyte : isZeroNibble byte = false)
    (h : ∀ b ∈ byte :: digits, isHttpHexDigit b = true) : IsShortestHex (byte :: digits) := by
  refine ⟨⟨List.cons_ne_nil _ _, h⟩, fun other _ hvalue => ?_⟩
  have hpos : 0 < hexStep 0 byte := by
    refine Nat.pos_of_ne_zero fun hzero => ?_
    rw [((hexStep_eq_zero_iff (h byte List.mem_cons_self)).mp hzero).2] at hbyte
    cases hbyte
  have hlow : 16 ^ digits.length ≤ hexValue (byte :: digits) :=
    calc 16 ^ digits.length ≤ hexStep 0 byte * 16 ^ digits.length := Nat.le_mul_of_pos_left _ hpos
      _ ≤ hexValue (byte :: digits) := le_foldl_hexStep digits _
  have hlt : 16 ^ digits.length < 16 ^ other.length := by
    have := hexValue_lt other
    omega
  exact (Nat.pow_lt_pow_iff_right (by decide)).mp hlt

/-- **The shortest spelling** of a number has the digits behind the leading zeros, but one at least. -/
theorem exists_shortestHex (h : IsHexDigits digits) :
    ∃ shortest, IsShortestHex shortest ∧ hexValue shortest = hexValue digits ∧
      shortest.length = max (digits.length - (digits.takeWhile isZeroNibble).length) 1 := by
  have hsplit := List.takeWhile_append_dropWhile (p := isZeroNibble) (l := digits)
  have hlength := congrArg List.length hsplit
  have hvalue := @hexValue_append (digits.takeWhile isZeroNibble) (digits.dropWhile isZeroNibble)
    (fun _ hmem => List.mem_takeWhile_imp hmem)
  rw [hsplit] at hvalue
  rw [List.length_append] at hlength
  cases hbehind : digits.dropWhile isZeroNibble with
  | nil =>
    rw [hbehind] at hlength hvalue
    refine ⟨[0x30], ⟨⟨by decide, by simp; decide⟩, fun other hother _ => ?_⟩, hvalue.symm, ?_⟩
    · exact List.length_pos_iff.mpr hother.1
    · rw [← hlength, List.length_nil, Nat.add_zero, Nat.sub_self]
      rfl
  | cons byte behind =>
    have hfront := List.head?_dropWhile_not isZeroNibble digits
    rw [hbehind] at hlength hvalue hfront
    refine ⟨byte :: behind, isShortestHex_of_front (by simpa using hfront) fun b hmem => ?_, hvalue.symm, ?_⟩
    · rw [← hbehind] at hmem
      exact h.2 b ((List.dropWhile_suffix _).subset hmem)
    · rw [List.length_cons] at hlength ⊢
      omega

theorem IsShortestHex.length_eq {other : Bytes} (h : IsShortestHex digits) (hother : IsShortestHex other)
    (hvalue : hexValue digits = hexValue other) : digits.length = other.length :=
  Nat.le_antisymm (h.2 other hother.1 hvalue.symm) (hother.2 digits h.1 hvalue)

end

/-! ## The line -/

variable {digits extensions : Bytes}

/-- **What the parser makes of digits and the text behind them.** -/
theorem parseHttpChunkSizeLine_append (hdigits : IsHexDigits digits)
    (hrest : ∀ byte, extensions.head? = some byte → httpDecodeHexNibble byte = none) :
    parseHttpChunkSizeLine (digits ++ extensions) =
      if hexValue digits < sizeTypeCount ∧ isValidHttpChunkExtension extensions = true then
        some ⟨hexValue digits, (digits ++ extensions).length -
          max (digits.length - (digits.takeWhile isZeroNibble).length) 1⟩
      else none := by
  have hread := @readChunkSizeDigits_append digits extensions 0 0 0 hdigits.2 hrest (by decide)
  rw [foldl_zeroStep_snd hdigits.2] at hread
  rw [parseHttpChunkSizeLine, hread, ← hexValue]
  by_cases hfits : hexValue digits < sizeTypeCount
  · by_cases hvalid : isValidHttpChunkExtension extensions = true
    · simp [hfits, hvalid, hdigits.1]
    · simp [hfits, hvalid]
  · simp [hfits]

theorem parseHttpChunkSizeLine_of_no_digit
    (h : ∀ byte, extensions.head? = some byte → httpDecodeHexNibble byte = none) :
    parseHttpChunkSizeLine extensions = none := by
  have hread := @readChunkSizeDigits_append [] extensions 0 0 0 (fun _ hmem => absurd hmem List.not_mem_nil) h
    (by decide)
  rw [List.nil_append] at hread
  rw [parseHttpChunkSizeLine, hread]
  rfl

/-- **The accepted chunk-size lines**: `1*HEXDIG chunk-ext` with a number below `2 ^ 64`. Its value is reported for
any number of leading zeros, and as overhead whatever the line has beyond the shortest spelling of the number. -/
theorem parseHttpChunkSizeLine_grammar (line : Bytes) (parsed : HttpChunkSizeLine) :
    parseHttpChunkSizeLine line = some parsed ↔
      ∃ digits extensions shortest, line = digits ++ extensions ∧ IsHexDigits digits ∧ IsChunkExtensions extensions ∧
        hexValue digits < sizeTypeCount ∧ parsed.size = hexValue digits ∧
        IsShortestHex shortest ∧ hexValue shortest = hexValue digits ∧
        line.length = shortest.length + parsed.overheadBytes := by
  constructor
  · intro h
    have hsplit := List.takeWhile_append_dropWhile (p := isHttpHexDigit) (l := line)
    have hrest : ∀ byte, (line.dropWhile isHttpHexDigit).head? = some byte → httpDecodeHexNibble byte = none := by
      intro byte hbyte
      have hfront := List.head?_dropWhile_not (isHttpHexDigit) line
      rw [hbyte] at hfront
      simpa [isHttpHexDigit] using hfront
    generalize line.dropWhile (isHttpHexDigit) = extensions at hsplit hrest
    have hdigits : IsHexDigits (line.takeWhile isHttpHexDigit) := by
      refine ⟨fun hnil => ?_, fun _ hmem => List.mem_takeWhile_imp hmem⟩
      rw [hnil, List.nil_append] at hsplit
      rw [← hsplit, parseHttpChunkSizeLine_of_no_digit hrest] at h
      cases h
    generalize line.takeWhile (isHttpHexDigit) = digits at hsplit hdigits
    rw [← hsplit, parseHttpChunkSizeLine_append hdigits hrest] at h
    split at h
    · rename_i hok
      obtain ⟨shortest, hshortest, hvalue, hlength⟩ := exists_shortestHex hdigits
      cases h
      refine ⟨digits, extensions, shortest, hsplit.symm, hdigits, isValidHttpChunkExtension_iff.mp hok.2, hok.1, rfl,
        hshortest, hvalue, ?_⟩
      have hpos := List.length_pos_iff.mpr hdigits.1
      rw [hlength, ← hsplit]
      simp only [List.length_append]
      omega
    · cases h
  · rintro ⟨digits, extensions, shortest, rfl, hdigits, hextensions, hfits, hsize, hshortest, hvalue, hlength⟩
    obtain ⟨least, hleast, hleastValue, hleastLength⟩ := exists_shortestHex hdigits
    have hsame := hshortest.length_eq hleast (hvalue.trans hleastValue.symm)
    rw [parseHttpChunkSizeLine_append hdigits hextensions.follows.noToken.not_hex,
      if_pos ⟨hfits, isValidHttpChunkExtension_iff.mpr hextensions⟩, ← hleastLength, ← hsame, hlength,
      Nat.add_sub_cancel_left, ← hsize]

end Ruvia.Http
