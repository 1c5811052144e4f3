import Ruvia.Http.Syntax
import Ruvia.Web.SqlScan

/-!
# `Web.StatementTokens` — the statement-level tokens of MariaDB SQL

`next_sql_token` of `mariadb_sql.cpp` reads words, numbers and single bytes of its own, and leaves literals and
comments to `skip_sql_atom`. Read from the other side, the atoms of the scanner are grouped: bytes of words that stand
side by side are one token, blanks and comments are none (`statementTokens`). Both readings give the same tokens
(`sqlTokens_eq`).
-/

namespace Ruvia.Web

open Library

/-! ## The tokenizer -/

/-- `sql_token::kind`. -/
inductive SqlTokenKind where
  | end_
  | word
  | number
  | placeholder
  | comma
  | open_
  | hidden
  | other
  deriving DecidableEq, Repr

structure SqlToken where
  kind : SqlTokenKind := .end_
  text : Bytes := []
  deriving DecidableEq, Repr

def isSqlWhitespace (byte : UInt8) : Bool := byte == 0x20 || byte == 0x09 || byte == 0x0d || byte == 0x0a

def sqlWordByte (byte : UInt8) : Bool :=
  Http.isAlpha byte || Http.isDigit byte || byte == 0x5f || byte == 0x24 || 0x80 ≤ byte

def isSqlQuote (byte : UInt8) : Bool := byte == singleQuote || byte == doubleQuote || byte == backtick

/-- The opening of an executable comment, which the server runs as SQL. -/
def opensHidden (text : Bytes) : Bool := (lit "/*!").isPrefixOf text || (lit "/*M!").isPrefixOf text

/-- A run of word bytes. -/
def wordToken (text : Bytes) : SqlToken := ⟨if text.head?.any Http.isDigit then .number else .word, text⟩

/-- What a byte of its own is. -/
def byteKind (byte : UInt8) : SqlTokenKind :=
  if byte == placeholder then .placeholder
  else if byte == 0x2c then .comma
  else if byte == 0x28 then .open_
  else .other

/-- `next_sql_token`: the token in front, and the text behind it. -/
def nextSqlToken (backslashEscapes : Bool) : Bytes → SqlToken × Bytes
  | [] => ({}, [])
  | character :: rest =>
    if isSqlWhitespace character then nextSqlToken backslashEscapes rest
    else
      let text := character :: rest
      let length := skipSqlAtom backslashEscapes text
      let blockComment := character == slash && rest.head? == some star
      if blockComment || character == hash || isMariadbDoubleDashComment text then
        if blockComment && opensHidden text then (⟨.hidden, text.take length⟩, text.drop length)
        else nextSqlToken backslashEscapes (text.drop length)
      else if isSqlQuote character then (⟨.other, text.take length⟩, text.drop length)
      else if sqlWordByte character then (wordToken (text.takeWhile sqlWordByte), text.dropWhile sqlWordByte)
      else (⟨byteKind character, [character]⟩, rest)
termination_by text => text.length
decreasing_by
  · exact Nat.lt_succ_self _
  · have hpos := @skipSqlAtom_pos backslashEscapes (character :: rest) (List.cons_ne_nil _ _)
    rw [List.length_drop, List.length_cons]
    omega

section

variable {backslashEscapes : Bool}

theorem dropWhile_length_lt {p : UInt8 → Bool} {character : UInt8} {rest : Bytes} (h : p character = true) :
    ((character :: rest).dropWhile p).length < (character :: rest).length := by
  rw [List.dropWhile_cons_of_pos h, List.length_cons]
  exact Nat.lt_succ_of_le (List.length_dropWhile_le _ _)

/-- Every token takes something. -/
theorem nextSqlToken_length (text : Bytes) (h : (nextSqlToken backslashEscapes text).1.kind ≠ .end_) :
    (nextSqlToken backslashEscapes text).2.length < text.length := by
  have hdrop : ∀ text : Bytes, text ≠ [] → (text.drop (skipSqlAtom backslashEscapes text)).length < text.length := by
    intro text hne
    have hpos := @skipSqlAtom_pos backslashEscapes text hne
    have hle := @skipSqlAtom_le backslashEscapes text
    rw [List.length_drop]
    omega
  fun_induction nextSqlToken backslashEscapes text with
  | case1 => exact absurd rfl h
  | case2 character rest _ ih => exact (ih h).trans (Nat.lt_succ_self _)
  | case3 character rest | case5 character rest => exact hdrop _ (List.cons_ne_nil _ _)
  | case4 character rest _ _ _ _ _ _ ih => exact (ih h).trans (hdrop _ (List.cons_ne_nil _ _))
  | case6 character rest _ _ _ _ _ hword => exact dropWhile_length_lt hword
  | case7 character rest => exact Nat.lt_succ_self _

end

/-- The tokens one after the other, up to the end. -/
def sqlTokens (backslashEscapes : Bool) (text : Bytes) : List SqlToken :=
  let next := nextSqlToken backslashEscapes text
  if _ : next.1.kind = .end_ then [] else next.1 :: sqlTokens backslashEscapes next.2
termination_by text.length
decreasing_by exact nextSqlToken_length text ‹_›

/-! ## The atoms read as tokens -/

/-- What an atom is at statement level; a blank or a comment is nothing, and the byte of a word is a part of one. -/
def atomKind : Bytes → Option SqlTokenKind
  | [] => none
  | first :: rest =>
    if isSqlWhitespace first || first == hash then none
    else if first == dash then if rest = [] then some .other else none
    else if first == slash then
      if rest = [] then some .other else if opensHidden (first :: rest) then some .hidden else none
    else if isSqlQuote first then some .other
    else if sqlWordByte first then some .word
    else some (byteKind first)

def isLetterAtom (atom : Bytes) : Bool := atomKind atom == some .word

/-- The tokens of a statement, by its atoms. -/
def statementTokens : List Bytes → List SqlToken
  | [] => []
  | atom :: atoms =>
    match atomKind atom with
    | none => statementTokens atoms
    | some kind =>
      if kind = .word then
        wordToken (atom :: atoms.takeWhile isLetterAtom).flatten :: statementTokens (atoms.dropWhile isLetterAtom)
      else ⟨kind, atom⟩ :: statementTokens atoms
termination_by atoms => atoms.length
decreasing_by
  · exact Nat.lt_succ_self _
  · exact Nat.lt_succ_of_le (List.length_dropWhile_le _ _)
  · exact Nat.lt_succ_self _

/-! ## The two readings agree -/

section

variable {backslashEscapes : Bool} {character : UInt8} {rest text word : Bytes}

theorem isSqlWhitespace_cases (h : isSqlWhitespace character = true) :
    character = 0x20 ∨ character = 0x09 ∨ character = 0x0d ∨ character = 0x0a := by
  simpa [isSqlWhitespace, or_assoc] using h

theorem isSqlQuote_cases (h : isSqlQuote character = true) :
    character = singleQuote ∨ character = doubleQuote ∨ character = backtick := by
  simpa [isSqlQuote, or_assoc] using h

/-- The byte of a word is no blank, and opens nothing. -/
theorem sqlWordByte_ne (h : sqlWordByte character = true) :
    isSqlWhitespace character = false ∧ isSqlQuote character = false ∧ character ≠ hash ∧ character ≠ dash ∧
      character ≠ slash := by
  refine ⟨Bool.eq_false_iff.mpr fun hblank => ?_, Bool.eq_false_iff.mpr fun hquote => ?_, ?_, ?_, ?_⟩
  · revert h
    rcases isSqlWhitespace_cases hblank with rfl | rfl | rfl | rfl <;> decide
  · revert h
    rcases isSqlQuote_cases hquote with rfl | rfl | rfl <;> decide
  all_goals
    rintro rfl
    revert h
    decide

theorem isSqlWhitespace_ne (h : isSqlWhitespace character = true) :
    isSqlQuote character = false ∧ character ≠ hash ∧ character ≠ dash ∧ character ≠ slash := by
  rcases isSqlWhitespace_cases h with rfl | rfl | rfl | rfl <;> decide

theorem isSqlQuote_ne (h : isSqlQuote character = true) :
    isSqlWhitespace character = false ∧ character ≠ hash ∧ character ≠ dash ∧ character ≠ slash := by
  rcases isSqlQuote_cases h with rfl | rfl | rfl <;> decide

/-- A byte that opens nothing is an atom. -/
theorem skipSqlAtom_byte (hquote : isSqlQuote character = false) (hhash : character ≠ hash)
    (hdash : character = dash → isMariadbDoubleDashComment (character :: rest) = false)
    (hslash : character = slash → rest.head? ≠ some star) : skipSqlAtom backslashEscapes (character :: rest) = 1 := by
  simp only [isSqlQuote, Bool.or_eq_false_iff] at hquote
  obtain ⟨⟨hsingle, hdouble⟩, hback⟩ := hquote
  rw [skipSqlAtom, hsingle, hdouble, hback, beq_eq_false_iff_ne.mpr hhash]
  simp only [Bool.or_self, Bool.false_eq_true, if_false, beq_iff_eq]
  split
  · rename_i heq
    rw [hdash heq]
    rfl
  · split
    · rename_i heq
      rw [if_neg (hslash heq)]
    · rfl

theorem sqlAtoms_byte (h : skipSqlAtom backslashEscapes (character :: rest) = 1) :
    sqlAtoms backslashEscapes (character :: rest) = [character] :: sqlAtoms backslashEscapes rest :=
  @Scanner.tokens_append _ (sqlScanner backslashEscapes) [character] rest h (List.cons_ne_nil _ _)

theorem sqlAtoms_cons (character : UInt8) (rest : Bytes) : sqlAtoms backslashEscapes (character :: rest) =
    (character :: rest).take (skipSqlAtom backslashEscapes (character :: rest)) ::
      sqlAtoms backslashEscapes ((character :: rest).drop (skipSqlAtom backslashEscapes (character :: rest))) :=
  Scanner.tokens_of_ne_nil (sqlScanner backslashEscapes) (List.cons_ne_nil _ _)

/-- The atom in front begins as the text does. -/
theorem take_skipSqlAtom (character : UInt8) (rest : Bytes) : ∃ length,
    skipSqlAtom backslashEscapes (character :: rest) = length + 1 ∧
      (character :: rest).take (skipSqlAtom backslashEscapes (character :: rest)) = character :: rest.take length := by
  have hpos := @skipSqlAtom_pos backslashEscapes (character :: rest) (List.cons_ne_nil _ _)
  obtain ⟨length, hlength⟩ := Nat.exists_eq_succ_of_ne_zero (Nat.ne_of_gt hpos)
  exact ⟨length, hlength, by rw [hlength, List.take_succ_cons]⟩

variable {atom : Bytes} {atoms : List Bytes}

theorem statementTokens_none (h : atomKind atom = none) :
    statementTokens (atom :: atoms) = statementTokens atoms := by
  rw [statementTokens, h]

theorem statementTokens_some {kind : SqlTokenKind} (h : atomKind atom = some kind) (hword : kind ≠ .word) :
    statementTokens (atom :: atoms) = ⟨kind, atom⟩ :: statementTokens atoms := by
  rw [statementTokens, h]
  exact if_neg hword

theorem byteKind_ne (character : UInt8) : byteKind character ≠ .word ∧ byteKind character ≠ .end_ := by
  unfold byteKind
  split
  · decide
  · split
    · decide
    · split <;> decide

/-- A letter is the byte of a word. -/
theorem isLetterAtom_cons : isLetterAtom (character :: rest) = sqlWordByte character := by
  rw [isLetterAtom]
  by_cases hword : sqlWordByte character = true
  · obtain ⟨hblank, hquote, hhash, hdash, hslash⟩ := sqlWordByte_ne hword
    simp only [atomKind, hblank, hquote, beq_eq_false_iff_ne.mpr hhash, beq_eq_false_iff_ne.mpr hdash,
      beq_eq_false_iff_ne.mpr hslash, hword, Bool.or_self, Bool.false_eq_true, if_false, if_true, beq_self_eq_true]
  · rw [Bool.not_eq_true] at hword
    rw [hword, beq_eq_false_iff_ne]
    have hbyte := (byteKind_ne character).1
    simp only [atomKind, hword]
    split_ifs <;> simp_all

/-- Behind a run of word bytes the atoms go on with no letter. -/
theorem takeWhile_letters (h : rest.head?.any sqlWordByte = false) :
    (sqlAtoms backslashEscapes rest).takeWhile isLetterAtom = [] ∧
      (sqlAtoms backslashEscapes rest).dropWhile isLetterAtom = sqlAtoms backslashEscapes rest := by
  cases rest with
  | nil =>
    rw [sqlAtoms_nil]
    exact ⟨rfl, rfl⟩
  | cons character rest =>
    obtain ⟨length, -, htake⟩ := @take_skipSqlAtom backslashEscapes character rest
    have hletter : ¬ isLetterAtom (character :: rest.take length) = true := by
      rw [isLetterAtom_cons]
      exact Bool.eq_false_iff.mp h
    rw [sqlAtoms_cons, htake]
    exact ⟨List.takeWhile_cons_of_neg hletter, List.dropWhile_cons_of_neg hletter⟩

theorem skipSqlAtom_letter (h : sqlWordByte character = true) :
    skipSqlAtom backslashEscapes (character :: rest) = 1 := by
  obtain ⟨-, hquote, hhash, hdash, hslash⟩ := sqlWordByte_ne h
  exact skipSqlAtom_byte hquote hhash (fun heq => absurd heq hdash) fun heq => absurd heq hslash

/-- The letters of a word are atoms, one for each byte. -/
theorem letters_of_word (h : ∀ byte ∈ word, sqlWordByte byte = true) (hrest : rest.head?.any sqlWordByte = false) :
    ((sqlAtoms backslashEscapes (word ++ rest)).takeWhile isLetterAtom).flatten = word ∧
      (sqlAtoms backslashEscapes (word ++ rest)).dropWhile isLetterAtom = sqlAtoms backslashEscapes rest := by
  induction word with
  | nil =>
    obtain ⟨htake, hdrop⟩ := @takeWhile_letters backslashEscapes _ hrest
    rw [List.nil_append, htake, hdrop]
    exact ⟨rfl, rfl⟩
  | cons byte word ih =>
    obtain ⟨htake, hdrop⟩ := ih fun other hother => h other (List.mem_cons_of_mem _ hother)
    have hbyte := h byte List.mem_cons_self
    have hletter : isLetterAtom [byte] = true := isLetterAtom_cons.trans hbyte
    rw [List.cons_append, sqlAtoms_byte (skipSqlAtom_letter hbyte), List.takeWhile_cons_of_pos hletter,
      List.dropWhile_cons_of_pos hletter, List.flatten_cons, htake, hdrop]
    exact ⟨rfl, rfl⟩

/-- A word in front of a text is its first token. -/
theorem statementTokens_word (h : sqlWordByte character = true) :
    statementTokens (sqlAtoms backslashEscapes (character :: rest)) =
      wordToken ((character :: rest).takeWhile sqlWordByte) ::
        statementTokens (sqlAtoms backslashEscapes ((character :: rest).dropWhile sqlWordByte)) := by
  have hbehind : (((character :: rest).dropWhile sqlWordByte).head?).any sqlWordByte = false := by
    cases hdrop : (character :: rest).dropWhile sqlWordByte with
    | nil => rfl
    | cons byte behind =>
      have hstop := List.head?_dropWhile_not sqlWordByte (character :: rest)
      rw [hdrop] at hstop
      simpa using hstop
  have hrun : ∀ byte ∈ (character :: rest).takeWhile sqlWordByte, sqlWordByte byte = true :=
    fun byte hmem => List.mem_takeWhile_imp hmem
  obtain ⟨hflatten, hdrop⟩ := @letters_of_word backslashEscapes _ _ hrun hbehind
  rw [List.takeWhile_append_dropWhile] at hflatten hdrop
  have hletter : isLetterAtom [character] = true := isLetterAtom_cons.trans h
  rw [← hflatten, ← hdrop, sqlAtoms_byte (skipSqlAtom_letter h), statementTokens,
    eq_of_beq hletter, List.takeWhile_cons_of_pos hletter, List.dropWhile_cons_of_pos hletter]
  rfl

theorem two_le_skipSqlBlockComment {first second : UInt8} (rest : Bytes) :
    2 ≤ skipSqlBlockComment (first :: second :: rest) := by
  rw [skipSqlBlockComment]
  have hpos := @skipSqlBlockComment_pos (second :: rest) (List.cons_ne_nil _ _)
  split <;> omega

/-- Whether a comment is executable is seen inside its atom. -/
theorem opensHidden_atom (body : Bytes) :
    opensHidden (slash :: star :: body.take (skipSqlBlockComment body)) = opensHidden (slash :: star :: body) := by
  match body with
  | [] | [byte] => rfl
  | first :: second :: rest =>
    obtain ⟨length, hlength⟩ := Nat.exists_eq_add_of_le (@two_le_skipSqlBlockComment first second rest)
    rw [hlength, Nat.add_comm, List.take_succ_cons, List.take_succ_cons]
    have hmarks : ∀ behind : Bytes, opensHidden (slash :: star :: first :: second :: behind) =
        (0x21 == first || (0x4d == first && 0x21 == second)) := by
      intro behind
      simp [opensHidden, lit, List.isPrefixOf, slash, star]
    rw [hmarks, hmarks]

theorem skipSqlAtom_block (body : Bytes) :
    skipSqlAtom backslashEscapes (slash :: star :: body) = skipSqlBlockComment body + 2 := Nat.add_comm _ _

/-- A block comment is nothing, unless it is executable. -/
theorem atomKind_block (body : Bytes) :
    atomKind ((slash :: star :: body).take (skipSqlAtom backslashEscapes (slash :: star :: body))) =
      if opensHidden (slash :: star :: body) then some .hidden else none := by
  rw [skipSqlAtom_block, List.take_succ_cons, List.take_succ_cons, ← opensHidden_atom]
  rfl

theorem opensBlock_iff : (character == slash && rest.head? == some star) = true ↔
    ∃ body, character :: rest = slash :: star :: body := by
  rw [Bool.and_eq_true, beq_iff_eq, beq_iff_eq]
  constructor
  · rintro ⟨rfl, hhead⟩
    obtain ⟨body, hbody⟩ := List.head?_eq_some_iff.mp hhead
    exact ⟨body, by rw [hbody]⟩
  · rintro ⟨body, heq⟩
    obtain ⟨rfl, rfl⟩ := List.cons.inj heq
    exact ⟨rfl, rfl⟩

theorem atomKind_hidden
    (h : (character == slash && rest.head? == some star && opensHidden (character :: rest)) = true) :
    atomKind ((character :: rest).take (skipSqlAtom backslashEscapes (character :: rest))) = some .hidden := by
  rw [Bool.and_eq_true] at h
  obtain ⟨body, hbody⟩ := opensBlock_iff.mp h.1
  rw [hbody] at h ⊢
  rw [atomKind_block, if_pos h.2]

theorem atomKind_comment
    (hcomment : ((character == slash && rest.head? == some star) || character == hash ||
      isMariadbDoubleDashComment (character :: rest)) = true)
    (hhidden : ¬ (character == slash && rest.head? == some star && opensHidden (character :: rest)) = true) :
    atomKind ((character :: rest).take (skipSqlAtom backslashEscapes (character :: rest))) = none := by
  rw [Bool.or_eq_true, Bool.or_eq_true, beq_iff_eq] at hcomment
  rcases hcomment with (hblock | rfl) | hdouble
  · rw [hblock, Bool.true_and] at hhidden
    obtain ⟨body, hbody⟩ := opensBlock_iff.mp hblock
    rw [hbody] at hhidden ⊢
    rw [atomKind_block, if_neg hhidden]
  · obtain ⟨length, -, htake⟩ := @take_skipSqlAtom backslashEscapes hash rest
    rw [htake]
    rfl
  · cases rest with
    | nil => cases hdouble
    | cons second rest =>
      have hdash : character = dash := by
        cases rest with
        | nil => exact eq_of_beq (Bool.and_eq_true_iff.mp hdouble).1
        | cons third rest => exact eq_of_beq (Bool.and_eq_true_iff.mp (Bool.and_eq_true_iff.mp hdouble).1).1
      subst hdash
      have hskip : skipSqlAtom backslashEscapes (dash :: second :: rest) = skipSqlLineComment false rest + 2 := by
        rw [skipSqlAtom]
        simp only [hdouble, if_true, List.drop_one, List.tail_cons]
        exact Nat.add_comm _ _
      rw [hskip, List.take_succ_cons, List.take_succ_cons]
      rfl

theorem wordToken_kind (text : Bytes) : (wordToken text).kind ≠ .end_ := by
  rw [wordToken]
  split <;> exact fun h => SqlTokenKind.noConfusion h

/-- **One token** of the code is the first of the atoms' tokens. -/
theorem statementTokens_next (text : Bytes) : statementTokens (sqlAtoms backslashEscapes text) =
    if (nextSqlToken backslashEscapes text).1.kind = .end_ then []
    else (nextSqlToken backslashEscapes text).1 ::
      statementTokens (sqlAtoms backslashEscapes (nextSqlToken backslashEscapes text).2) := by
  fun_induction nextSqlToken backslashEscapes text with
  | case1 =>
    rw [sqlAtoms_nil, statementTokens]
    rfl
  | case2 character rest hblank ih =>
    obtain ⟨hquote, hhash, hdash, hslash⟩ := isSqlWhitespace_ne hblank
    have hatom : atomKind [character] = none := by
      rw [atomKind, hblank]
      rfl
    rw [sqlAtoms_byte (skipSqlAtom_byte hquote hhash (fun heq => absurd heq hdash) fun heq => absurd heq hslash),
      statementTokens_none hatom, ih]
  | case3 character rest hblank text length blockComment hcomment hhidden =>
    rw [sqlAtoms_cons, statementTokens_some (atomKind_hidden hhidden) (by decide)]
    rfl
  | case4 character rest hblank text length blockComment hcomment hhidden ih =>
    rw [sqlAtoms_cons, statementTokens_none (atomKind_comment hcomment hhidden), ih]
  | case5 character rest hblank text length blockComment hcomment hquote =>
    obtain ⟨hnot, hhash, hdash, hslash⟩ := isSqlQuote_ne hquote
    obtain ⟨size, -, htake⟩ := @take_skipSqlAtom backslashEscapes character rest
    have hatom : atomKind (character :: rest.take size) = some .other := by
      simp only [atomKind, hnot, hquote, beq_eq_false_iff_ne.mpr hhash, beq_eq_false_iff_ne.mpr hdash,
        beq_eq_false_iff_ne.mpr hslash, Bool.or_self, Bool.false_eq_true, if_false, if_true]
    rw [sqlAtoms_cons, htake, statementTokens_some hatom (by decide), ← htake]
    rfl
  | case6 character rest hblank text blockComment hcomment hquote hword =>
    rw [if_neg (wordToken_kind _)]
    exact statementTokens_word hword
  | case7 character rest hblank text blockComment hcomment hquote hword =>
    have hbyte := byteKind_ne character
    simp only [Bool.or_eq_true, not_or, Bool.not_eq_true, beq_eq_false_iff_ne] at hcomment
    obtain ⟨⟨hblock, hhash⟩, hdouble⟩ := hcomment
    have hskip : skipSqlAtom backslashEscapes (character :: rest) = 1 := by
      refine skipSqlAtom_byte (Bool.not_eq_true _ ▸ hquote) hhash (fun _ => hdouble) fun heq hhead => ?_
      rw [Bool.eq_false_iff] at hblock
      exact hblock (Bool.and_eq_true_iff.mpr ⟨beq_iff_eq.mpr heq, beq_iff_eq.mpr hhead⟩)
    have hatom : atomKind [character] = some (byteKind character) := by
      by_cases hdash : character = dash
      · rw [hdash]
        rfl
      · by_cases hslash : character = slash
        · rw [hslash]
          rfl
        · simp only [atomKind, Bool.not_eq_true _ ▸ hblank, Bool.not_eq_true _ ▸ hquote, Bool.not_eq_true _ ▸ hword,
            beq_eq_false_iff_ne.mpr hhash, beq_eq_false_iff_ne.mpr hdash, beq_eq_false_iff_ne.mpr hslash, Bool.or_self,
            Bool.false_eq_true, if_false]
    rw [if_neg hbyte.2, sqlAtoms_byte hskip, statementTokens_some hatom hbyte.1]

/-- **The tokens of the code are the tokens of the atoms.** -/
theorem sqlTokens_eq (text : Bytes) :
    sqlTokens backslashEscapes text = statementTokens (sqlAtoms backslashEscapes text) := by
  fun_induction sqlTokens backslashEscapes text with
  | case1 text next hend => rw [statementTokens_next, if_pos hend]
  | case2 text next hmore ih => rw [statementTokens_next, if_neg hmore, ih]

end

end Ruvia.Web
