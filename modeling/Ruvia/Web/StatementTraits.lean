import Ruvia.Web.SqlInterpolationContract
import Ruvia.Web.StatementTokens

/-!
# `Web.StatementTraits` — what a MariaDB statement may be prepared as

`mariadb_statement_traits_of`: a statement is read token by token, once for each way a backslash may be meant, with the
last three tokens at hand. What the traits promise is said of the atoms the parameter binder goes over
(`statement_traits`).
-/

namespace Ruvia.Web

open Library

/-! ## The reading -/

/-- `mariadb_statement_traits`. -/
structure MariadbStatementTraits where
  preparable : Bool
  integerParams : BitVec 64
  deriving DecidableEq, Repr

/-- `sql_reading`. -/
structure SqlReading where
  traits : MariadbStatementTraits := ⟨true, 0⟩
  placeholders : Nat := 0
  deriving DecidableEq, Repr

/-- The tokens before the one at hand, most recent first. -/
abbrev TokenWindow := SqlToken × SqlToken × SqlToken

def SqlToken.isKeyword (token : SqlToken) (keyword : Bytes) : Bool :=
  token.kind == .word && Http.httpAsciiEqualsIgnoreCase token.text keyword

/-- The words a count follows. -/
def countKeywords : List Bytes := [lit "limit", lit "offset", lit "first", lit "next", lit "examined"]

/-- The words that make a statement one the server does not prepare. -/
def refusedKeywords : List Bytes := [lit "call", lit "load", lit "set", lit "use"]

def integerPlaceholder (before : TokenWindow) : Bool :=
  if before.1.kind = .word then countKeywords.any before.1.isKeyword
  else
    before.1.kind == .comma && (before.2.1.kind == .placeholder || before.2.1.kind == .number) &&
      before.2.2.isKeyword (lit "limit")

def SqlReading.refuse (reading : SqlReading) : SqlReading :=
  { reading with traits := { reading.traits with preparable := false } }

/-- A placeholder that takes a value of any type. -/
def SqlReading.count (reading : SqlReading) : SqlReading := { reading with placeholders := reading.placeholders + 1 }

/-- A placeholder that takes only an integer. -/
def SqlReading.mark (reading : SqlReading) : SqlReading :=
  { reading with
    traits := { reading.traits with
      integerParams := reading.traits.integerParams ||| 1#64 <<< reading.placeholders } }

def SqlToken.refuses (token : SqlToken) : Bool := token.kind == .hidden || token.isKeyword (lit "returning")

/-- The loop over the tokens. -/
def readTokens (reading : SqlReading) (before : TokenWindow) : List SqlToken → SqlReading
  | [] => reading
  | token :: tokens =>
    if token.refuses then reading.refuse
    else if token.kind = .placeholder then
      if integerPlaceholder before then
        if 64 ≤ reading.placeholders then reading.refuse
        else readTokens reading.mark.count (token, before.1, before.2.1) tokens
      else readTokens reading.count (token, before.1, before.2.1) tokens
    else readTokens reading (token, before.1, before.2.1) tokens

def isOpen (token : SqlToken) : Bool := token.kind == .open_

/-- `read_mariadb_statement`. -/
def readMariadbStatement (backslashEscapes : Bool) (sql : Bytes) : SqlReading :=
  let tokens := (sqlTokens backslashEscapes sql).dropWhile isOpen
  if tokens.head?.any fun token => token.kind == .hidden || refusedKeywords.any token.isKeyword then
    SqlReading.refuse {}
  else readTokens {} ({}, {}, {}) tokens

def mariadbStatementTraitsOf (sql : Bytes) : MariadbStatementTraits :=
  let escaped := readMariadbStatement true sql
  if backslash ∉ sql then escaped.traits
  else
    let plain := readMariadbStatement false sql
    if escaped.traits.preparable = false ∨ plain.traits.preparable = false ∨
        escaped.placeholders ≠ plain.placeholders then ⟨false, 0⟩
    else ⟨true, escaped.traits.integerParams ||| plain.traits.integerParams⟩

/-! ## What the traits are about -/

def placeholderCount (tokens : List SqlToken) : Nat := tokens.countP fun token => token.kind == .placeholder

/-- A count stands behind these tokens, the nearest first: a word that takes one, or `LIMIT n,`. -/
inductive TakesInteger : List SqlToken → Prop
  | keyword {word : SqlToken} {keyword : Bytes} (front : List SqlToken) :
      keyword ∈ countKeywords → word.isKeyword keyword = true → TakesInteger (word :: front)
  | second {comma count word : SqlToken} (front : List SqlToken) :
      comma.kind = .comma → count.kind = .placeholder ∨ count.kind = .number →
      word.isKeyword (lit "limit") = true → TakesInteger (comma :: count :: word :: front)

/-- The `i`-th placeholder takes an integer. -/
def IntegerParam (tokens : List SqlToken) (i : Nat) : Prop :=
  ∃ before token behind, tokens = before ++ token :: behind ∧ token.kind = .placeholder ∧
    placeholderCount before = i ∧ TakesInteger before.reverse

/-- The three nearest of the tokens before. -/
def windowOf (before : List SqlToken) : TokenWindow := (before.getD 0 {}, before.getD 1 {}, before.getD 2 {})

theorem SqlToken.isKeyword_kind {token : SqlToken} {keyword : Bytes} (h : token.isKeyword keyword = true) :
    token.kind = .word := eq_of_beq (Bool.and_eq_true_iff.mp h).1

/-- The window of the code sees all that matters. -/
theorem integerPlaceholder_windowOf (before : List SqlToken) :
    integerPlaceholder (windowOf before) = true ↔ TakesInteger before := by
  constructor
  · intro h
    rw [integerPlaceholder] at h
    split at h
    · obtain ⟨keyword, hkeyword, hword⟩ := List.any_eq_true.mp h
      cases before with
      | nil => cases hword
      | cons word front => exact .keyword front hkeyword hword
    · simp only [Bool.and_eq_true, Bool.or_eq_true, beq_iff_eq] at h
      obtain ⟨⟨hcomma, hcount⟩, hword⟩ := h
      match before with
      | [] => cases hcomma
      | [comma] => rcases hcount with hcount | hcount <;> cases hcount
      | [comma, count] => cases hword
      | comma :: count :: word :: front => exact .second front hcomma hcount hword
  · intro h
    cases h with
    | @keyword word keyword front hkeyword hword =>
      have hkind : (windowOf (word :: front)).1.kind = .word := SqlToken.isKeyword_kind hword
      rw [integerPlaceholder, if_pos hkind]
      exact List.any_eq_true.mpr ⟨keyword, hkeyword, hword⟩
    | @second comma count word front hcomma hcount hword =>
      rw [integerPlaceholder, if_neg (by rw [show (windowOf _).1 = comma from rfl, hcomma]; decide)]
      simp only [Bool.and_eq_true, Bool.or_eq_true, beq_iff_eq]
      exact ⟨⟨hcomma, hcount⟩, hword⟩

/-- Opening parentheses in front of everything change nothing. -/
theorem takesInteger_append_open {before opens : List SqlToken} (h : ∀ token ∈ opens, isOpen token = true) :
    TakesInteger (before ++ opens) ↔ TakesInteger before := by
  have hkind : ∀ token ∈ opens, token.kind = .open_ := fun token hmem => eq_of_beq (h token hmem)
  constructor
  · intro htakes
    generalize htokens : before ++ opens = tokens at htakes
    cases htakes with
    | @keyword word keyword front hkeyword hword =>
      cases before with
      | nil =>
        have hopen := hkind word (by rw [List.nil_append] at htokens; rw [htokens]; exact List.mem_cons_self)
        rw [SqlToken.isKeyword_kind hword] at hopen
        cases hopen
      | cons first before =>
        obtain ⟨rfl, -⟩ := List.cons.inj htokens
        exact .keyword before hkeyword hword
    | @second comma count word front hcomma hcount hword =>
      have hnot : ∀ token ∈ [comma, count, word], token ∉ opens := by
        intro token hmem hin
        have hopen := hkind token hin
        simp only [List.mem_cons, List.not_mem_nil, or_false] at hmem
        rcases hmem with rfl | rfl | rfl
        · rw [hcomma] at hopen
          cases hopen
        · rw [hopen] at hcount
          rcases hcount with hcount | hcount <;> cases hcount
        · rw [SqlToken.isKeyword_kind hword] at hopen
          cases hopen
      match before with
      | [] =>
        have hopens : opens = comma :: count :: word :: front := htokens
        exact absurd (by simp [hopens]) (hnot comma (by simp))
      | [first] =>
        have hopens : opens = count :: word :: front := (List.cons.inj htokens).2
        exact absurd (by simp [hopens]) (hnot count (by simp))
      | [first, second] =>
        have hopens : opens = word :: front := (List.cons.inj (List.cons.inj htokens).2).2
        exact absurd (by simp [hopens]) (hnot word (by simp))
      | first :: second :: third :: before =>
        obtain ⟨rfl, rfl, rfl, -⟩ := htokens
        exact .second before hcomma hcount hword
  · intro htakes
    cases htakes with
    | keyword front hkeyword hword => exact .keyword (front ++ opens) hkeyword hword
    | second front hcomma hcount hword => exact .second (front ++ opens) hcomma hcount hword

section

variable {tokens before : List SqlToken} {token : SqlToken} {reading : SqlReading}

/-- The placeholders that take an integer, behind `before`. -/
def MarkedAt (tokens before : List SqlToken) (i : Nat) : Prop :=
  ∃ front token behind, tokens = front ++ token :: behind ∧ token.kind = .placeholder ∧
    placeholderCount front = i ∧ TakesInteger (front.reverse ++ before)

theorem not_markedAt_nil (i : Nat) : ¬ MarkedAt [] before i := by
  rintro ⟨front, token, behind, htokens, -⟩
  cases front <;> cases htokens

theorem placeholderCount_cons : placeholderCount (token :: tokens) =
    placeholderCount tokens + if token.kind = .placeholder then 1 else 0 := by
  simp only [placeholderCount, List.countP_cons, beq_iff_eq]

/-- The first token is the placeholder in question, or one lies in front of it. -/
theorem markedAt_cons (i : Nat) : MarkedAt (token :: tokens) before i ↔
    (token.kind = .placeholder ∧ i = 0 ∧ TakesInteger before) ∨
      ∃ j, i = j + (if token.kind = .placeholder then 1 else 0) ∧ MarkedAt tokens (token :: before) j := by
  constructor
  · rintro ⟨front, marked, behind, htokens, hkind, hcount, htakes⟩
    cases front with
    | nil =>
      obtain ⟨rfl, rfl⟩ := List.cons.inj htokens
      exact .inl ⟨hkind, hcount.symm, htakes⟩
    | cons first front =>
      obtain ⟨rfl, rfl⟩ := List.cons.inj htokens
      rw [placeholderCount_cons] at hcount
      refine .inr ⟨placeholderCount front, hcount.symm, front, marked, behind, rfl, hkind, rfl, ?_⟩
      rwa [List.reverse_cons, List.append_assoc] at htakes
  · rintro (⟨hkind, rfl, htakes⟩ | ⟨j, rfl, front, marked, behind, rfl, hkind, rfl, htakes⟩)
    · exact ⟨[], token, tokens, rfl, hkind, rfl, htakes⟩
    · refine ⟨token :: front, marked, behind, rfl, hkind, placeholderCount_cons, ?_⟩
      rw [List.reverse_cons, List.append_assoc]
      exact htakes

theorem exists_markedAt_cons (n i : Nat) : (∃ j, i = n + j ∧ MarkedAt (token :: tokens) before j) ↔
    (token.kind = .placeholder ∧ i = n ∧ TakesInteger before) ∨
      ∃ j, i = (n + if token.kind = .placeholder then 1 else 0) + j ∧ MarkedAt tokens (token :: before) j := by
  constructor
  · rintro ⟨j, rfl, hmarked⟩
    rcases (markedAt_cons j).mp hmarked with ⟨hkind, rfl, htakes⟩ | ⟨k, rfl, hbehind⟩
    · exact .inl ⟨hkind, rfl, htakes⟩
    · exact .inr ⟨k, by omega, hbehind⟩
  · rintro (⟨hkind, rfl, htakes⟩ | ⟨j, rfl, hmarked⟩)
    · exact ⟨0, rfl, (markedAt_cons 0).mpr (.inl ⟨hkind, rfl, htakes⟩)⟩
    · exact ⟨j + if token.kind = .placeholder then 1 else 0, by omega, (markedAt_cons _).mpr (.inr ⟨j, rfl, hmarked⟩)⟩

theorem windowOf_cons : windowOf (token :: before) = (token, (windowOf before).1, (windowOf before).2.1) := rfl

theorem mark_getLsbD (h : reading.placeholders < 64) (i : Nat) :
    reading.mark.traits.integerParams.getLsbD i = true ↔
      reading.traits.integerParams.getLsbD i = true ∨ i = reading.placeholders := by
  simp only [SqlReading.mark, BitVec.getLsbD_or, BitVec.getLsbD_shiftLeft, BitVec.getLsbD_one, Bool.or_eq_true,
    Bool.and_eq_true, decide_eq_true_eq, Bool.not_eq_true', decide_eq_false_iff_not]
  apply or_congr_right
  omega

/-- **What a reading that was not refused has counted and marked**; induction on the tokens. -/
theorem readTokens_spec (h : (readTokens reading (windowOf before) tokens).traits.preparable = true) :
    (∀ token ∈ tokens, token.refuses = false) ∧
    (readTokens reading (windowOf before) tokens).placeholders = reading.placeholders + placeholderCount tokens ∧
    ∀ i, (readTokens reading (windowOf before) tokens).traits.integerParams.getLsbD i = true ↔
      reading.traits.integerParams.getLsbD i = true ∨
        ∃ j, i = reading.placeholders + j ∧ MarkedAt tokens before j := by
  induction tokens generalizing reading before with
  | nil =>
    refine ⟨fun token hmem => absurd hmem List.not_mem_nil, rfl, fun i => ?_⟩
    constructor
    · exact .inl
    · rintro (hbit | ⟨j, -, hmarked⟩)
      · exact hbit
      · exact absurd hmarked (not_markedAt_nil j)
  | cons token tokens ih =>
    rw [readTokens] at h ⊢
    by_cases hrefuses : token.refuses = true
    · rw [if_pos hrefuses] at h
      cases h
    rw [if_neg hrefuses] at h ⊢
    rw [Bool.not_eq_true] at hrefuses
    have hall : (∀ token ∈ tokens, token.refuses = false) → ∀ other ∈ token :: tokens, other.refuses = false := by
      intro hrest other hother
      rcases List.mem_cons.mp hother with rfl | hother
      · exact hrefuses
      · exact hrest other hother
    by_cases hkind : token.kind = .placeholder
    · rw [if_pos hkind] at h ⊢
      by_cases hinteger : integerPlaceholder (windowOf before) = true
      · rw [if_pos hinteger] at h ⊢
        by_cases hfull : 64 ≤ reading.placeholders
        · rw [if_pos hfull] at h
          cases h
        rw [if_neg hfull] at h ⊢
        rw [← windowOf_cons] at h ⊢
        obtain ⟨hrest, hcount, hbits⟩ := ih h
        refine ⟨hall hrest, ?_, fun i => ?_⟩
        · rw [hcount, placeholderCount_cons, if_pos hkind]
          simp only [SqlReading.count, SqlReading.mark]
          omega
        · have htakes := (integerPlaceholder_windowOf before).mp hinteger
          have hmark := mark_getLsbD (Nat.lt_of_not_le hfull) i
          rw [hbits, exists_markedAt_cons, if_pos hkind]
          simp only [hkind, htakes, true_and, and_true, ← or_assoc]
          exact or_congr_left hmark
      · rw [if_neg hinteger] at h ⊢
        rw [← windowOf_cons] at h ⊢
        obtain ⟨hrest, hcount, hbits⟩ := ih h
        refine ⟨hall hrest, ?_, fun i => ?_⟩
        · rw [hcount, placeholderCount_cons, if_pos hkind]
          simp only [SqlReading.count]
          omega
        · have hnot : ¬ TakesInteger before := fun htakes =>
            hinteger ((integerPlaceholder_windowOf before).mpr htakes)
          rw [hbits, exists_markedAt_cons, if_pos hkind]
          simp only [hnot, and_false, false_or]
          rfl
    · rw [if_neg hkind] at h ⊢
      rw [← windowOf_cons] at h ⊢
      obtain ⟨hrest, hcount, hbits⟩ := ih h
      refine ⟨hall hrest, ?_, fun i => ?_⟩
      · rw [hcount, placeholderCount_cons, if_neg hkind, Nat.add_zero]
      · rw [hbits, exists_markedAt_cons, if_neg hkind, Nat.add_zero]
        simp only [hkind, false_and, false_or]

theorem markedAt_nil_iff (i : Nat) : MarkedAt tokens [] i ↔ IntegerParam tokens i := by
  simp only [MarkedAt, IntegerParam, List.append_nil]

theorem markedAt_opens {opens : List SqlToken} (h : ∀ token ∈ opens, isOpen token = true) (i : Nat) :
    MarkedAt (opens ++ tokens) before i ↔ MarkedAt tokens (opens.reverse ++ before) i := by
  induction opens generalizing before with
  | nil => rfl
  | cons first opens ih =>
    have hkind : first.kind ≠ .placeholder := by
      rw [eq_of_beq (h first List.mem_cons_self)]
      decide
    rw [List.cons_append, markedAt_cons, List.reverse_cons, List.append_assoc]
    simp only [hkind, false_and, false_or, if_false, Nat.add_zero]
    rw [List.singleton_append, ← ih fun token hmem => h token (List.mem_cons_of_mem _ hmem)]
    exact ⟨fun ⟨j, hj, hmarked⟩ => hj ▸ hmarked, fun hmarked => ⟨i, rfl, hmarked⟩⟩

/-- Where the statement begins with parentheses, what is read behind them is read of all. -/
theorem integerParam_opens {opens : List SqlToken} (h : ∀ token ∈ opens, isOpen token = true) (i : Nat) :
    IntegerParam (opens ++ tokens) i ↔ IntegerParam tokens i := by
  rw [← markedAt_nil_iff, markedAt_opens h, ← markedAt_nil_iff]
  simp only [MarkedAt, List.append_nil, takesInteger_append_open fun token hmem => h token (List.mem_reverse.mp hmem)]

end

/-! ## One reading -/

section

variable {backslashEscapes : Bool} {sql : Bytes}

theorem refuses_open {token : SqlToken} (h : isOpen token = true) :
    token.refuses = false ∧ token.kind ≠ .placeholder := by
  have hkind : token.kind = .open_ := eq_of_beq h
  rw [SqlToken.refuses, SqlToken.isKeyword, hkind]
  exact ⟨rfl, by decide⟩

/-- **What one reading finds out**, if it does not refuse the statement. -/
theorem readMariadbStatement_spec (h : (readMariadbStatement backslashEscapes sql).traits.preparable = true) :
    (∀ token ∈ statementTokens (sqlAtoms backslashEscapes sql), token.refuses = false) ∧
    (readMariadbStatement backslashEscapes sql).placeholders =
      placeholderCount (statementTokens (sqlAtoms backslashEscapes sql)) ∧
    ∀ i, (readMariadbStatement backslashEscapes sql).traits.integerParams.getLsbD i = true ↔
      IntegerParam (statementTokens (sqlAtoms backslashEscapes sql)) i := by
  rw [← sqlTokens_eq]
  unfold readMariadbStatement at h ⊢
  generalize sqlTokens backslashEscapes sql = tokens at h ⊢
  have hopens : ∀ token ∈ tokens.takeWhile isOpen, isOpen token = true := fun token hmem => List.mem_takeWhile_imp hmem
  have hsplit : tokens = tokens.takeWhile isOpen ++ tokens.dropWhile isOpen := List.takeWhile_append_dropWhile.symm
  dsimp only at h ⊢
  generalize tokens.takeWhile isOpen = opens at hopens hsplit
  generalize tokens.dropWhile isOpen = behind at h hsplit ⊢
  subst hsplit
  split at h
  · cases h
  · rename_i hhead
    obtain ⟨hrefuses, hcount, hbits⟩ := @readTokens_spec behind [] {} h
    rw [if_neg hhead]
    refine ⟨fun token hmem => ?_, ?_, fun i => ?_⟩
    · rcases List.mem_append.mp hmem with hmem | hmem
      · exact (refuses_open (hopens token hmem)).1
      · exact hrefuses token hmem
    · have hnone : opens.countP (fun token => token.kind == .placeholder) = 0 := by
        rw [List.countP_eq_zero]
        intro token hmem
        rw [beq_iff_eq]
        exact (refuses_open (hopens token hmem)).2
      rw [placeholderCount, List.countP_append, hnone]
      exact hcount
    · have hzero : (0 : BitVec 64).getLsbD i = false := BitVec.getLsbD_zero
      rw [integerParam_opens hopens, ← markedAt_nil_iff]
      refine (hbits i).trans ?_
      simp only [hzero, Bool.false_eq_true, false_or, Nat.zero_add]
      exact ⟨fun ⟨j, hj, hmarked⟩ => hj ▸ hmarked, fun hmarked => ⟨i, rfl, hmarked⟩⟩

end

/-! ## Without a backslash -/

section

theorem skipSqlQuotedBody_plain {terminator : UInt8} {body : Bytes} (h : backslash ∉ body) :
    skipSqlQuotedBody terminator true body = skipSqlQuotedBody terminator false body := by
  fun_induction skipSqlQuotedBody terminator true body with
  | case1 | case2 character => rfl
  | case3 character next rest hescape ih =>
    rw [Bool.true_and] at hescape
    rw [eq_of_beq hescape] at h
    exact absurd List.mem_cons_self h
  | case4 character next rest hescape hterminator hdouble ih =>
    rw [skipSqlQuotedBody, ih fun hmem => h (List.mem_cons_of_mem _ (List.mem_cons_of_mem _ hmem))]
    simp only [Bool.false_and, Bool.false_eq_true, if_false, if_pos hterminator, if_pos hdouble]
  | case5 character next rest hescape hterminator hdouble =>
    rw [skipSqlQuotedBody]
    simp only [Bool.false_and, Bool.false_eq_true, if_false, if_pos hterminator, if_neg hdouble]
  | case6 character next rest hescape hterminator ih =>
    rw [skipSqlQuotedBody, ih fun hmem => h (List.mem_cons_of_mem _ hmem)]
    simp only [Bool.false_and, Bool.false_eq_true, if_false, if_neg hterminator]

theorem skipSqlAtom_plain {text : Bytes} (h : backslash ∉ text) : skipSqlAtom true text = skipSqlAtom false text := by
  cases text with
  | nil => rfl
  | cons first rest =>
    have hrest : backslash ∉ rest := fun hmem => h (List.mem_cons_of_mem _ hmem)
    simp only [skipSqlAtom, skipSqlQuotedRun, skipSqlQuotedBody_plain hrest]

/-- Without a backslash there is one way to read a statement. -/
theorem sqlAtoms_plain {sql : Bytes} (h : backslash ∉ sql) : sqlAtoms true sql = sqlAtoms false sql := by
  unfold sqlAtoms
  induction sql using (sqlScanner true).induct with
  | nil => rw [Scanner.tokens_nil, Scanner.tokens_nil]
  | cons token behind htoken hskip ih =>
    have hsame : (sqlScanner false).skip (token ++ behind) = token.length :=
      (skipSqlAtom_plain h).symm.trans hskip
    rw [Scanner.tokens_append _ hskip htoken, Scanner.tokens_append _ hsame htoken,
      ih fun hmem => h (List.mem_append_right _ hmem)]

end

/-! ## The placeholders of the binder -/

section

variable {backslashEscapes : Bool} {sql : Bytes}

def isPlaceholderAtom (atom : Bytes) : Bool := atomKind atom == some .placeholder

theorem placeholderCount_statementTokens (atoms : List Bytes) :
    placeholderCount (statementTokens atoms) = atoms.countP isPlaceholderAtom := by
  fun_induction statementTokens atoms with
  | case1 => rfl
  | case2 atom atoms hkind ih =>
    rw [ih, List.countP_cons, isPlaceholderAtom, hkind]
    rfl
  | case3 atom atoms hkind ih =>
    have hletters : (atoms.takeWhile isLetterAtom).countP isPlaceholderAtom = 0 := by
      rw [List.countP_eq_zero]
      intro letter hmem
      have hletter : isLetterAtom letter = true := List.mem_takeWhile_imp hmem
      rw [isPlaceholderAtom, eq_of_beq hletter]
      decide
    have hsplit := congrArg (List.countP isPlaceholderAtom)
      (@List.takeWhile_append_dropWhile _ isLetterAtom atoms)
    rw [List.countP_append, hletters, Nat.zero_add] at hsplit
    have hfirst : isPlaceholderAtom atom = false := by
      rw [isPlaceholderAtom, hkind]
      decide
    rw [placeholderCount_cons, ih, hsplit, List.countP_cons, hfirst, wordToken]
    split <;> rfl
  | case4 atom atoms kind hkind hword ih =>
    rw [placeholderCount_cons, ih, List.countP_cons, isPlaceholderAtom, hkind]
    simp only [beq_iff_eq, Option.some.injEq]

/-- The atom that begins with a placeholder is one. -/
theorem isPlaceholderAtom_iff : ∀ atom ∈ sqlAtoms backslashEscapes sql,
    isPlaceholderAtom atom = (atom == [placeholder]) := by
  unfold sqlAtoms
  induction sql using (sqlScanner backslashEscapes).induct with
  | nil =>
    rw [Scanner.tokens_nil]
    exact fun atom hmem => absurd hmem List.not_mem_nil
  | cons token behind htoken hskip ih =>
    rw [Scanner.tokens_append _ hskip htoken]
    intro atom hmem
    rcases List.mem_cons.mp hmem with rfl | hmem
    · obtain ⟨first, rest, rfl⟩ := List.exists_cons_of_ne_nil htoken
      by_cases hfirst : first = placeholder
      · subst hfirst
        have hone : skipSqlAtom backslashEscapes (placeholder :: rest ++ behind) = 1 := by
          rw [List.cons_append]
          exact skipSqlAtom_byte (by decide) (by decide) (fun heq => absurd heq (by decide))
            fun heq => absurd heq (by decide)
        have hlength : rest.length + 1 = 1 := by
          rw [← List.length_cons, ← hskip]
          exact hone
        have hrest : rest = [] := List.eq_nil_of_length_eq_zero (by omega)
        rw [hrest]
        rfl
      · have hother : (first :: rest == [placeholder]) = false := by
          rw [beq_eq_false_iff_ne]
          exact fun heq => hfirst (List.cons.inj heq).1
        rw [hother, isPlaceholderAtom, beq_eq_false_iff_ne]
        have hbyte : byteKind first ≠ .placeholder := by
          rw [byteKind, if_neg (by simpa using hfirst)]
          split
          · decide
          · split <;> decide
        rw [atomKind]
        split_ifs <;> simp_all
    · exact ih atom hmem

/-- The atoms from an offset on that are placeholders. -/
def placeholdersFrom (backslashEscapes : Bool) (sql : Bytes) (offset : Nat) : Nat :=
  (sqlAtoms backslashEscapes (sql.drop offset)).countP isPlaceholderAtom

theorem countP_isPlaceholderAtom (sql : Bytes) : (sqlAtoms backslashEscapes sql).countP isPlaceholderAtom =
    (sqlAtoms backslashEscapes sql).count [placeholder] := by
  exact List.countP_congr fun atom hmem => by rw [isPlaceholderAtom_iff atom hmem]

theorem placeholdersFrom_of_none {offset : Nat} (h : [placeholder] ∉ sqlAtoms backslashEscapes (sql.drop offset)) :
    placeholdersFrom backslashEscapes sql offset = 0 := by
  rw [placeholdersFrom, countP_isPlaceholderAtom, List.count_eq_zero]
  exact h

theorem placeholdersFrom_of_some {offset position : Nat}
    (h : findSqlSyntaxByte sql placeholder backslashEscapes offset = some position) :
    placeholdersFrom backslashEscapes sql offset = placeholdersFrom backslashEscapes sql (position + 1) + 1 := by
  obtain ⟨before, hbefore, -, -, hatoms⟩ := findSqlSyntaxByte_eq_some h
  rw [placeholdersFrom, placeholdersFrom, countP_isPlaceholderAtom, countP_isPlaceholderAtom, hatoms,
    List.count_append, List.count_eq_zero.mpr hbefore, List.count_cons_self, Nat.zero_add]

/-- The placeholders the binder finds are those atoms. -/
theorem Placed.count {offset last : Nat} {positions : List Nat}
    (h : Placed backslashEscapes sql offset positions last) :
    placeholdersFrom backslashEscapes sql offset = positions.length + placeholdersFrom backslashEscapes sql last := by
  induction h with
  | nil => exact (Nat.zero_add _).symm
  | cons hfind _ ih =>
    rw [placeholdersFrom_of_some hfind, ih, List.length_cons]
    omega

/-- The binder's searches end. -/
theorem exists_placed (backslashEscapes : Bool) (sql : Bytes) (offset : Nat) : ∃ positions last,
    Placed backslashEscapes sql offset positions last ∧
      findSqlSyntaxByte sql placeholder backslashEscapes last = none := by
  induction hleft : sql.length - offset using Nat.strong_induction_on generalizing offset with
  | _ left ih =>
    cases hfind : findSqlSyntaxByte sql placeholder backslashEscapes offset with
    | none => exact ⟨[], offset, .nil, hfind⟩
    | some position =>
      obtain ⟨hle, hlt⟩ := findSqlSyntaxByte_bounds hfind
      obtain ⟨positions, last, hplaced, hnone⟩ := ih (sql.length - (position + 1)) (by omega) (position + 1) rfl
      exact ⟨position :: positions, last, .cons hfind hplaced, hnone⟩

/-- Values bound to a statement are as many as it has placeholders. -/
theorem interpolateSql_length {format : DoubleFormat} {longMax : Nat} {charset : Option MariadbCharset}
    {params : List DbValue} {output : Bytes}
    (h : (interpolateSql format longMax backslashEscapes charset sql params output).1 = .ok ()) :
    params.length = placeholdersFrom backslashEscapes sql 0 := by
  unfold interpolateSql at h
  split at h
  · cases h
  · rename_i measured hmeasured
    obtain ⟨positions, hints, hmeasures, -, hnone⟩ := measureAll_ok hmeasured
    have hplaced : Placed backslashEscapes sql 0 positions measured.scanOffset := hmeasures.placed
    rw [hplaced.count, placeholdersFrom_of_none hnone, Nat.add_zero, hmeasures.length]

end

/-- A statement the traits call preparable is read to its end, in both ways a backslash may be meant. -/
theorem mariadbStatementTraitsOf_preparable {sql : Bytes} (h : (mariadbStatementTraitsOf sql).preparable = true) :
    (∀ escapes, (readMariadbStatement escapes sql).traits.preparable = true) ∧
    (readMariadbStatement true sql).placeholders = (readMariadbStatement false sql).placeholders ∧
    ∀ i, (mariadbStatementTraitsOf sql).integerParams.getLsbD i = true ↔
      ∃ escapes, (readMariadbStatement escapes sql).traits.integerParams.getLsbD i = true := by
  unfold mariadbStatementTraitsOf at h ⊢
  dsimp only at h ⊢
  by_cases hplain : backslash ∉ sql
  · rw [if_pos hplain] at h ⊢
    have hsame : readMariadbStatement false sql = readMariadbStatement true sql := by
      unfold readMariadbStatement
      rw [sqlTokens_eq, sqlTokens_eq, sqlAtoms_plain hplain]
    refine ⟨fun escapes => ?_, by rw [hsame], fun i => ⟨fun hbit => ⟨true, hbit⟩, fun ⟨escapes, hbit⟩ => ?_⟩⟩
    · cases escapes
      · rw [hsame]
        exact h
      · exact h
    · cases escapes
      · rwa [hsame] at hbit
      · exact hbit
  · rw [if_neg hplain] at h ⊢
    split at h
    · cases h
    · rename_i hagree
      rw [if_neg hagree]
      simp only [not_or, Bool.not_eq_false, ne_eq, not_not] at hagree
      obtain ⟨hescaped, hread, hcount⟩ := hagree
      refine ⟨fun escapes => ?_, hcount, fun i => ?_⟩
      · cases escapes
        · exact hread
        · exact hescaped
      · rw [BitVec.getLsbD_or, Bool.or_eq_true]
        constructor
        · rintro (hbit | hbit)
          · exact ⟨true, hbit⟩
          · exact ⟨false, hbit⟩
        · rintro ⟨escapes, hbit⟩
          cases escapes
          · exact .inr hbit
          · exact .inl hbit

/-- **Statement traits.** Of a statement they call preparable, the atoms the scanner of the binder cuts it into hold, in
either way a backslash may be meant, the same number of placeholders, no executable comment and no word RETURNING; a bit
of the integer parameters is set exactly if in one of the two readings that placeholder stands where the text protocol
takes only an integer; and what is counted are the placeholders the binder finds, each of which takes one value. -/
theorem statement_traits (sql : Bytes) (h : (mariadbStatementTraitsOf sql).preparable = true) :
    placeholderCount (statementTokens (sqlAtoms true sql)) =
      placeholderCount (statementTokens (sqlAtoms false sql)) ∧
    (∀ escapes, ∀ token ∈ statementTokens (sqlAtoms escapes sql),
      token.kind ≠ .hidden ∧ token.isKeyword (lit "returning") = false) ∧
    (∀ i, (mariadbStatementTraitsOf sql).integerParams.getLsbD i = true ↔
      ∃ escapes, IntegerParam (statementTokens (sqlAtoms escapes sql)) i) ∧
    ∀ escapes,
      (readMariadbStatement escapes sql).placeholders = placeholderCount (statementTokens (sqlAtoms escapes sql)) ∧
      (∃ positions last, Placed escapes sql 0 positions last ∧
        findSqlSyntaxByte sql placeholder escapes last = none ∧
        positions.length = (readMariadbStatement escapes sql).placeholders) ∧
      ∀ format longMax charset params output,
        (interpolateSql format longMax escapes charset sql params output).1 = .ok () →
          params.length = (readMariadbStatement escapes sql).placeholders := by
  obtain ⟨hpreparable, hagree, hbits⟩ := mariadbStatementTraitsOf_preparable h
  have hread := fun escapes => readMariadbStatement_spec (hpreparable escapes)
  have hcount : ∀ escapes, placeholdersFrom escapes sql 0 = (readMariadbStatement escapes sql).placeholders := by
    intro escapes
    rw [(hread escapes).2.1, placeholderCount_statementTokens]
    rfl
  refine ⟨?_, fun escapes token hmem => ?_, fun i => ?_, fun escapes => ⟨(hread escapes).2.1, ?_, ?_⟩⟩
  · rw [← (hread true).2.1, ← (hread false).2.1, hagree]
  · have hrefuses := (hread escapes).1 token hmem
    rw [SqlToken.refuses, Bool.or_eq_false_iff, beq_eq_false_iff_ne] at hrefuses
    exact hrefuses
  · rw [hbits i]
    exact exists_congr fun escapes => (hread escapes).2.2 i
  · obtain ⟨positions, last, hplaced, hnone⟩ := exists_placed escapes sql 0
    refine ⟨positions, last, hplaced, hnone, ?_⟩
    rw [← hcount, hplaced.count, placeholdersFrom_of_none (findSqlSyntaxByte_eq_none hnone), Nat.add_zero]
  · intro format longMax charset params output hok
    rw [interpolateSql_length hok, hcount]

theorem statement_traits_limit :
    (mariadbStatementTraitsOf (lit "SELECT a FROM t WHERE b = ? LIMIT ?, ?")).preparable = true ∧
      ∃ escapes, IntegerParam (statementTokens (sqlAtoms escapes (lit "SELECT a FROM t WHERE b = ? LIMIT ?, ?"))) 2 :=
  have hpreparable : (mariadbStatementTraitsOf (lit "SELECT a FROM t WHERE b = ? LIMIT ?, ?")).preparable = true := by
    decide +kernel
  ⟨hpreparable, ((statement_traits _ hpreparable).2.2.1 2).mp (by decide +kernel)⟩

end Ruvia.Web
