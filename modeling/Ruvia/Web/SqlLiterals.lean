import Ruvia.Web.SqlInterpolation

/-!
# `Web.SqlLiterals` — literals as the scanner reads them

A literal of a parameter is one quoted run (`sqlAtoms_stringLiteral`) or a row of atoms of one byte each
(`Plain.sqlAtoms_append`). What a string literal quotes is the parameter (`unescape_escapeString`). No literal is
longer than what is reserved for it (`length_valueLiteral_le`).
-/

namespace Ruvia.Web

open Library

variable {backslashEscapes : Bool} {value tail : Bytes} {byte : UInt8}

/-! ## Words

The bytes of a literal that is not a string. -/

def isWordByte (byte : UInt8) : Bool := Http.isDigit byte || Http.isAlpha byte || byte == 0x2e || byte == 0x2b

/-- Word bytes, and dashes that each stand in front of one. -/
def Plain : Bytes → Prop
  | [] => True
  | [byte] => isWordByte byte = true
  | first :: second :: rest =>
    (isWordByte first = true ∨ first = dash ∧ isWordByte second = true) ∧ Plain (second :: rest)

theorem isWordByte_of_isDigit (h : Http.isDigit byte = true) : isWordByte byte = true := by
  simp [isWordByte, h]

/-- A word byte means nothing to the scanner. -/
theorem isWordByte_ne (h : isWordByte byte = true) :
    byte ≠ singleQuote ∧ byte ≠ doubleQuote ∧ byte ≠ backtick ∧ byte ≠ hash ∧ byte ≠ dash ∧ byte ≠ slash ∧
      byte ≠ star ∧ endsDoubleDash byte = false := by
  refine ⟨?_, ?_, ?_, ?_, ?_, ?_, ?_, ?_⟩
  on_goal 8 =>
    simp only [isWordByte, Http.isDigit, Http.isAlpha, Http.isUpper, Http.isLower, Bool.or_eq_true,
      Bool.and_eq_true, decide_eq_true_eq, beq_iff_eq, UInt8.le_iff_toNat_le, ← UInt8.toNat_inj] at h
    simp only [endsDoubleDash, Bool.or_eq_false_iff, decide_eq_false_iff_not, beq_eq_false_iff_ne, ne_eq,
      UInt8.le_iff_toNat_le, ← UInt8.toNat_inj]
    revert h
    generalize byte.toNat = n
    simp only [UInt8.reduceToNat]
    omega
  all_goals
    rintro rfl
    revert h
    decide

theorem plain_of_word (h : ∀ byte ∈ value, isWordByte byte = true) : Plain value := by
  fun_induction Plain value with
  | case1 => trivial
  | case2 byte => exact h byte List.mem_cons_self
  | case3 first second rest ih =>
    exact ⟨.inl (h first List.mem_cons_self), ih fun byte hmem => h byte (List.mem_cons_of_mem _ hmem)⟩

theorem Plain.dash_cons {first : UInt8} {rest : Bytes} (hfirst : isWordByte first = true)
    (h : Plain (first :: rest)) : Plain (dash :: first :: rest) :=
  ⟨.inr ⟨rfl, hfirst⟩, h⟩

theorem Plain.append (h : Plain value) (htail : Plain tail) : Plain (value ++ tail) := by
  fun_induction Plain value with
  | case1 => exact htail
  | case2 byte =>
    cases tail with
    | nil => exact h
    | cons first rest => exact ⟨.inl h, htail⟩
  | case3 first second rest ih => exact ⟨h.1, ih h.2⟩

theorem skipSqlAtom_of_word (h : isWordByte byte = true) : skipSqlAtom backslashEscapes (byte :: tail) = 1 := by
  obtain ⟨hsingle, hdouble, hback, hhash, hdash, hslash, -, -⟩ := isWordByte_ne h
  simp [skipSqlAtom, hsingle, hdouble, hback, hhash, hdash, hslash]

theorem skipSqlAtom_dash_of_word (h : isWordByte byte = true) :
    skipSqlAtom backslashEscapes (dash :: byte :: tail) = 1 := by
  obtain ⟨-, -, -, -, hdash, -, -, -⟩ := isWordByte_ne h
  have hcomment : isMariadbDoubleDashComment (dash :: byte :: tail) = false := by
    cases tail <;> simp [isMariadbDoubleDashComment, hdash]
  rw [skipSqlAtom, if_neg (by decide), if_neg (by decide), if_neg (by decide), if_pos (by decide), hcomment]
  rfl

/-- **The atoms of a plain literal** are its bytes, whatever is behind it. -/
theorem Plain.sqlAtoms_append (h : Plain value) :
    sqlAtoms backslashEscapes (value ++ tail) = value.map ([·]) ++ sqlAtoms backslashEscapes tail := by
  have hone : ∀ {byte : UInt8} {behind : Bytes}, skipSqlAtom backslashEscapes (byte :: behind) = 1 →
      sqlAtoms backslashEscapes (byte :: behind) = [byte] :: sqlAtoms backslashEscapes behind :=
    fun {byte behind} hskip =>
      @Scanner.tokens_append _ (sqlScanner backslashEscapes) [byte] behind hskip (List.cons_ne_nil _ _)
  fun_induction Plain value with
  | case1 => rfl
  | case2 byte => exact hone (skipSqlAtom_of_word h)
  | case3 first second rest ih =>
    have hfirst : skipSqlAtom backslashEscapes (first :: (second :: rest ++ tail)) = 1 := by
      rcases h.1 with hword | ⟨rfl, hword⟩
      · exact skipSqlAtom_of_word hword
      · exact skipSqlAtom_dash_of_word hword
    rw [List.cons_append, hone hfirst, ih h.2]
    rfl

theorem Plain.sqlAtoms_eq (h : Plain value) : sqlAtoms backslashEscapes value = value.map ([·]) := by
  have happend := @Plain.sqlAtoms_append backslashEscapes value [] h
  rwa [List.append_nil, sqlAtoms_nil, List.append_nil] at happend

/-! ## Quoted strings -/

theorem escapeBytes_cons (byte : UInt8) (value : Bytes) : escapeBytes backslashEscapes (byte :: value) =
    (if byte == singleQuote || (backslashEscapes && byte == backslash) then [byte, byte] else [byte]) ++
      escapeBytes backslashEscapes value := rfl

theorem escapeBytes_append (value tail : Bytes) : escapeBytes backslashEscapes (value ++ tail) =
    escapeBytes backslashEscapes value ++ escapeBytes backslashEscapes tail := List.flatMap_append

theorem length_escapeBytes_le (value : Bytes) : (escapeBytes backslashEscapes value).length ≤ 2 * value.length := by
  induction value with
  | nil => exact Nat.le_refl 0
  | cons byte value ih =>
    rw [escapeBytes_cons, List.length_append, List.length_cons]
    split <;> simp only [List.length_cons, List.length_nil] <;> omega

/-- The run of an escaped string ends at the quote behind it. -/
theorem skipSqlQuotedBody_escapeBytes (htail : tail.head? ≠ some singleQuote) :
    skipSqlQuotedBody singleQuote backslashEscapes
      (escapeBytes backslashEscapes value ++ singleQuote :: tail) =
        (escapeBytes backslashEscapes value).length + 1 := by
  induction value with
  | nil =>
    cases tail with
    | nil => rfl
    | cons first rest =>
      have hfirst : first ≠ singleQuote := by simpa using htail
      have hescape : (backslashEscapes && singleQuote == backslash) = false := by cases backslashEscapes <;> rfl
      simp [escapeBytes, skipSqlQuotedBody, hescape, hfirst]
  | cons byte value ih =>
    rw [escapeBytes_cons]
    by_cases hspecial : (byte == singleQuote || (backslashEscapes && byte == backslash)) = true
    · rw [if_pos hspecial]
      simp only [List.cons_append, List.nil_append, List.length_cons, skipSqlQuotedBody, ih]
      by_cases hescape : (backslashEscapes && byte == backslash) = true
      · rw [if_pos hescape]
        omega
      · have hquote : (byte == singleQuote) = true := by simpa [hescape] using hspecial
        rw [if_neg hescape, if_pos hquote, if_pos hquote]
        omega
    · rw [if_neg hspecial]
      obtain ⟨hquote, hescape⟩ : ¬ (byte == singleQuote) = true ∧ ¬ (backslashEscapes && byte == backslash) = true :=
        ⟨fun h => hspecial (by rw [h, Bool.true_or]), fun h => hspecial (by rw [h, Bool.or_true])⟩
      obtain ⟨first, rest, hrest⟩ := List.exists_cons_of_ne_nil
        (show escapeBytes backslashEscapes value ++ singleQuote :: tail ≠ [] by simp)
      rw [hrest] at ih
      rw [List.append_assoc, hrest, List.singleton_append, skipSqlQuotedBody, if_neg hescape, if_neg hquote, ih,
        List.length_append, List.length_singleton]
      omega

/-- The text a quoted run stands for: a doubled quote is a quote, and a doubled backslash a backslash where the
session reads backslash escapes. -/
def unescape (backslashEscapes : Bool) : Bytes → Bytes
  | first :: second :: rest =>
    if first == second && (first == singleQuote || (backslashEscapes && first == backslash)) then
      first :: unescape backslashEscapes rest
    else first :: unescape backslashEscapes (second :: rest)
  | rest => rest

theorem unescape_cons_of_not_special {rest : Bytes}
    (h : ¬ (byte == singleQuote || (backslashEscapes && byte == backslash)) = true) :
    unescape backslashEscapes (byte :: rest) = byte :: unescape backslashEscapes rest := by
  cases rest with
  | nil => rfl
  | cons second rest =>
    rw [unescape, if_neg fun hboth => h (Bool.and_eq_true_iff.mp hboth).2]

@[simp] theorem unescape_escapeBytes (value : Bytes) :
    unescape backslashEscapes (escapeBytes backslashEscapes value) = value := by
  induction value with
  | nil => rfl
  | cons byte value ih =>
    rw [escapeBytes_cons]
    by_cases hspecial : (byte == singleQuote || (backslashEscapes && byte == backslash)) = true
    · rw [if_pos hspecial]
      simp only [List.cons_append, List.nil_append, unescape]
      rw [if_pos (by rw [hspecial, beq_self_eq_true]; rfl), ih]
    · rw [if_neg hspecial, List.singleton_append, unescape_cons_of_not_special hspecial, ih]

/-! ## Strings in a character set -/

theorem ambiguousBackslash_append_left (h : ambiguousBackslash value = true) :
    ambiguousBackslash (value ++ tail) = true := by
  fun_induction ambiguousBackslash value with
  | case1 first second rest ih =>
    simp only [List.cons_append, ambiguousBackslash]
    rcases Bool.or_eq_true_iff.mp h with h | h
    · rw [h, Bool.true_or]
    · have hrest := ih h
      rw [List.cons_append] at hrest
      rw [hrest, Bool.or_true]
  | case2 rest hshort => cases h

theorem ambiguousBackslash_cons (h : ambiguousBackslash tail = true) : ambiguousBackslash (byte :: tail) = true := by
  cases tail with
  | nil => cases h
  | cons first rest => rw [ambiguousBackslash, h, Bool.or_true]

theorem ambiguousBackslash_append_right (h : ambiguousBackslash tail = true) :
    ambiguousBackslash (value ++ tail) = true := by
  induction value with
  | nil => exact h
  | cons byte value ih => exact ambiguousBackslash_cons ih

theorem escapeBytes_of_not_mem (hquote : singleQuote ∉ value) (hback : backslash ∉ value) :
    escapeBytes backslashEscapes value = value := by
  induction value with
  | nil => rfl
  | cons byte value ih =>
    have hspecial : ¬ (byte == singleQuote || (backslashEscapes && byte == backslash)) = true := by
      intro hspecial
      rcases Bool.or_eq_true_iff.mp hspecial with h | h
      · exact hquote (by rw [eq_of_beq h]; exact List.mem_cons_self)
      · exact hback (by rw [eq_of_beq (Bool.and_eq_true_iff.mp h).2]; exact List.mem_cons_self)
    rw [escapeBytes_cons, if_neg hspecial, ih (fun hmem => hquote (List.mem_cons_of_mem _ hmem))
      (fun hmem => hback (List.mem_cons_of_mem _ hmem))]
    rfl

/-- Without an ambiguous backslash no multibyte character holds anything to escape. -/
theorem escapeCharacters_eq (charset : MariadbCharset) (h : ambiguousBackslash value = false) :
    escapeCharacters charset value = escapeBytes true value := by
  fun_induction escapeCharacters charset value with
  | case1 => rfl
  | case2 byte rest hmulti ih =>
    have hsplit := List.take_append_drop (charset.mbValid (byte :: rest)) (byte :: rest)
    have hfront : ambiguousBackslash ((byte :: rest).take (charset.mbValid (byte :: rest))) = false := by
      rw [← Bool.not_eq_true] at h ⊢
      exact fun hfront => h (hsplit ▸ ambiguousBackslash_append_left hfront)
    have hbehind : ambiguousBackslash ((byte :: rest).drop (charset.mbValid (byte :: rest))) = false := by
      rw [← Bool.not_eq_true] at h ⊢
      exact fun hbehind => h (hsplit ▸ ambiguousBackslash_append_right hbehind)
    have hback : backslash ∉ (byte :: rest).take (charset.mbValid (byte :: rest)) := by
      intro hmem
      rw [charset.ambiguous_of_mem _ hmulti hmem] at hfront
      cases hfront
    rw [ih hbehind]
    conv_rhs => rw [← hsplit, escapeBytes_append,
      escapeBytes_of_not_mem (charset.quote_not_mem _ hmulti) hback]
  | case3 byte rest hmulti ih =>
    have hrest : ambiguousBackslash rest = false := by
      rw [← Bool.not_eq_true] at h ⊢
      exact fun hrest => h (ambiguousBackslash_cons hrest)
    rw [ih hrest, escapeBytes_cons, Bool.true_and]

/-- The session's character set is not asked which backslashes to escape, or `value` has none that is ambiguous. -/
def Escapable (charset : Option MariadbCharset) (value : Bytes) : Prop :=
  ambiguousBackslash value = true → ∀ set ∈ charset, set.charMaxlen ≤ 1

theorem escapeString_eq {charset : Option MariadbCharset} (h : Escapable charset value) :
    escapeString backslashEscapes charset value = escapeBytes backslashEscapes value := by
  rw [escapeString]
  cases hset : multibyteCharset backslashEscapes charset value with
  | none => rfl
  | some set =>
    obtain ⟨hmem, hmulti⟩ := Option.filter_eq_some_iff.mp hset
    simp only [Bool.and_eq_true, decide_eq_true_eq] at hmulti
    have hclear : ambiguousBackslash value = false := by
      rw [← Bool.not_eq_true]
      intro hambiguous
      have hle := h hambiguous set hmem
      omega
    rw [hmulti.1.1]
    exact escapeCharacters_eq set hclear

section

variable {charset : Option MariadbCharset}

/-- **A string literal is one quoted run**, in front of a text that does not begin with a quote. -/
theorem sqlAtoms_stringLiteral (h : Escapable charset value) (htail : tail.head? ≠ some singleQuote) :
    sqlAtoms backslashEscapes (stringLiteral backslashEscapes charset value ++ tail) =
      stringLiteral backslashEscapes charset value :: sqlAtoms backslashEscapes tail := by
  refine (sqlScanner backslashEscapes).tokens_append ?_ (List.cons_ne_nil _ _)
  have hrun := @skipSqlQuotedBody_escapeBytes backslashEscapes value tail htail
  rw [sqlScanner_skip, stringLiteral, escapeString_eq h, List.cons_append, List.append_assoc, skipSqlAtom,
    if_pos (by decide), skipSqlQuotedRun, List.singleton_append, hrun, List.length_cons, List.length_append,
    List.length_singleton]
  omega

/-- What a string literal stands for. -/
theorem unescape_escapeString (h : Escapable charset value) :
    unescape backslashEscapes (escapeString backslashEscapes charset value) = value := by
  rw [escapeString_eq h, unescape_escapeBytes]

theorem length_stringLiteral_le (h : Escapable charset value) :
    (stringLiteral backslashEscapes charset value).length ≤ value.length * 2 + 2 := by
  have hle := @length_escapeBytes_le backslashEscapes value
  rw [stringLiteral, escapeString_eq h, List.length_cons, List.length_append, List.length_singleton]
  omega

end

/-! ## Numbers -/

theorem plain_of_digits (h : ∀ byte ∈ value, Http.isDigit byte = true) : Plain value :=
  plain_of_word fun byte hmem => isWordByte_of_isDigit (h byte hmem)

/-- A dash may lead a literal that begins with a digit. -/
theorem plain_dash_cons (hne : value ≠ []) (h : ∀ byte ∈ value, Http.isDigit byte = true) :
    Plain (dash :: value) := by
  obtain ⟨first, rest, rfl⟩ := List.exists_cons_of_ne_nil hne
  exact Plain.dash_cons (isWordByte_of_isDigit (h first List.mem_cons_self)) (plain_of_digits h)

theorem plain_signedDecimal (i : Int) : Plain (signedDecimal i) := by
  rw [signedDecimal]
  split
  · exact plain_dash_cons (decimal_ne_nil _) Http.isDigit_of_mem_decimal
  · exact plain_of_digits Http.isDigit_of_mem_decimal

theorem length_signedDecimal_le (value : Int64) : (signedDecimal value.toInt).length ≤ 20 := by
  have hlt := value.toInt_lt
  have hle := value.le_toInt
  have hdigits : (decimal value.toInt.natAbs).length ≤ 19 := length_decimal_le (by omega) (by omega)
  rw [signedDecimal]
  split
  · rw [List.length_cons]
    omega
  · omega

theorem length_decimal_toNat_le (value : UInt64) : (decimal value.toNat).length ≤ 20 := by
  have hlt := value.toNat_lt
  exact length_decimal_le (by omega) (by omega)

theorem DecimalText.plain {text : Bytes} (h : DecimalText text) : Plain text ∧ text ≠ [] := by
  obtain ⟨sign, whole, fraction, exponent, rfl, hsign, ⟨hne, hwhole⟩, hfraction, hexponent⟩ := h.grammar
  have hfraction' : Plain fraction := by
    rcases hfraction with rfl | ⟨digits, -, rfl, hdigits⟩
    · trivial
    · exact Plain.append (plain_of_word (List.all_eq_true.mp (by decide))) (plain_of_digits hdigits)
  have hexponent' : Plain exponent := by
    rcases hexponent with rfl | ⟨expSign, digits, hlength, rfl, hexpSign, hdigits⟩
    · trivial
    · have hdigits' : digits ≠ [] := by
        rintro rfl
        cases hlength
      rw [List.append_assoc]
      refine Plain.append (plain_of_word (List.all_eq_true.mp (by decide))) ?_
      rcases hexpSign with rfl | rfl
      · exact Plain.append (plain_of_word (List.all_eq_true.mp (by decide))) (plain_of_digits hdigits)
      · exact plain_dash_cons hdigits' hdigits
  refine ⟨?_, by simp [hne]⟩
  rw [← List.append_assoc]
  refine Plain.append ?_ (Plain.append hfraction' hexponent')
  rcases hsign with rfl | rfl
  · exact plain_of_digits hwhole
  · exact plain_dash_cons hne hwhole

/-- The literal of a double is plain, and there is one unless the double is no number. -/
theorem doubleLiteral_spec (format : DoubleFormat) (bits : UInt64) :
    (isFinite bits = false ∧
      doubleLiteral format bits = .error (.invalidArgument "database double value must be finite")) ∨
    ∃ literal, doubleLiteral format bits = .ok literal ∧ Plain literal ∧ literal ≠ [] ∧ literal.length ≤ 26 := by
  rw [doubleLiteral]
  cases hfinite : isFinite bits with
  | false => exact .inl ⟨rfl, rfl⟩
  | true =>
    have htext := format.decimal bits hfinite
    obtain ⟨hplain, hne⟩ := htext.plain
    have hle := htext.length_le
    rw [if_neg (by decide), if_neg (by omega)]
    refine .inr ⟨_, rfl, ?_⟩
    split
    · exact ⟨hplain, hne, by omega⟩
    · refine ⟨hplain.append (plain_of_word (List.all_eq_true.mp (by decide))), by simp [hne], ?_⟩
      rw [List.length_append]
      exact Nat.add_le_add_right hle 2

/-! ## Literals of values -/

def DbValue.isString : DbValue → Bool
  | .string _ => true
  | _ => false

section

variable {format : DoubleFormat} {charset : Option MariadbCharset} {param : DbValue} {literal : Bytes}

theorem valueLiteral_shape (h : valueLiteral format backslashEscapes charset param = .ok literal) :
    (∃ text, param = .string text ∧ literal = stringLiteral backslashEscapes charset text) ∨
      param.isString = false ∧ Plain literal ∧ literal ≠ [] := by
  cases param with
  | null => cases h; exact .inr ⟨rfl, plain_of_word (List.all_eq_true.mp (by decide)), by decide⟩
  | string text => cases h; exact .inl ⟨text, rfl, rfl⟩
  | signedValue value =>
    cases h
    refine .inr ⟨rfl, plain_signedDecimal _, ?_⟩
    rw [signedDecimal]
    split
    · exact List.cons_ne_nil _ _
    · exact decimal_ne_nil _
  | unsignedValue value => cases h; exact .inr ⟨rfl, plain_of_digits Http.isDigit_of_mem_decimal, decimal_ne_nil _⟩
  | doubleValue bits =>
    rcases doubleLiteral_spec format bits with ⟨-, herror⟩ | ⟨text, htext, hplain, hne, -⟩
    · cases herror.symm.trans h
    · cases htext.symm.trans h
      exact .inr ⟨rfl, hplain, hne⟩
  | boolValue value =>
    cases h
    refine .inr ⟨rfl, ?_⟩
    cases value
    all_goals exact ⟨plain_of_word (List.all_eq_true.mp (by decide)), by decide⟩

/-- No literal is longer than what is reserved for it. -/
theorem length_valueLiteral_le {longMax sizeHint : Nat}
    (hescape : ∀ text, param = .string text → Escapable charset text)
    (hhint : valueLiteralSizeHint longMax param = .ok sizeHint)
    (h : valueLiteral format backslashEscapes charset param = .ok literal) : literal.length ≤ sizeHint := by
  cases param with
  | null => cases h; cases hhint; decide
  | string text =>
    cases h
    have hle := @length_stringLiteral_le backslashEscapes text charset (hescape text rfl)
    simp only [valueLiteralSizeHint, mariadbStringLiteralSizeHint] at hhint
    split at hhint
    · cases hhint
    · cases hhint
      exact hle
  | signedValue value => cases h; cases hhint; exact (length_signedDecimal_le value).trans (by decide)
  | unsignedValue value => cases h; cases hhint; exact (length_decimal_toNat_le value).trans (by decide)
  | doubleValue bits =>
    cases hhint
    rcases doubleLiteral_spec format bits with ⟨-, herror⟩ | ⟨text, htext, -, -, hle⟩
    · cases herror.symm.trans h
    · cases htext.symm.trans h
      exact hle.trans (by decide)
  | boolValue value => cases h; cases hhint; cases value <;> decide

/-- Only a double that is no number has no literal. -/
theorem valueLiteral_error {error : SqlError} (h : valueLiteral format backslashEscapes charset param = .error error) :
    ∃ bits, param = .doubleValue bits ∧ isFinite bits = false ∧
      error = .invalidArgument "database double value must be finite" := by
  cases param with
  | doubleValue bits =>
    rcases doubleLiteral_spec format bits with ⟨hfinite, herror⟩ | ⟨text, htext, -⟩
    · cases herror.symm.trans h
      exact ⟨bits, rfl, hfinite, rfl⟩
    · cases htext.symm.trans h
  | null | string _ | signedValue _ | unsignedValue _ | boolValue _ => cases h

end

end Ruvia.Web
