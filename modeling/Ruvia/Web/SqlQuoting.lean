import Ruvia.Http.HexText
import Ruvia.Http.Utf8
import Ruvia.Library.Doubling
import Ruvia.Library.PrefixCodec
import Ruvia.Web.SqlInterpolation

/-!
# `Web.SqlQuoting` — names and texts written as SQL tokens

The quoting functions of `db_sql_format.h` and, beside them, the lexical rules of the two dialects: a quoted
identifier ends at a quote that is not doubled, PostgreSQL's `E''` string has backslash escapes as well, and MariaDB
reads `X''` as the bytes its digits write. What a function appends is read by these rules as one token, which stands
for its argument; only a quote right behind an identifier or an `E''` string could lengthen it.
-/

namespace Ruvia.Web

open Library

inductive DbDriver where
  | unspecified
  | mariadb
  | postgresql
  deriving DecidableEq, Repr

def dot : UInt8 := 0x2e

/-! ## The writers -/

/-- `require_db_dialect`. -/
def requireDbDialect (driver : DbDriver) : Except SqlError Unit :=
  if driver ≠ .postgresql ∧ driver ≠ .mariadb then
    .error (.invalidArgument "SQL compilation requires an explicit database driver")
  else .ok ()

/-- The character count of `fits_db_identifier_limit`, without a result for ill-formed UTF-8. -/
def identifierCharacters (name : Bytes) (i characters : Nat) : Option Nat :=
  if i < name.length then
    if name.getD i 0 < 0x80 then identifierCharacters name (i + 1) (characters + 1)
    else if (Http.scanUtf8Sequence name i).wellFormed then
      identifierCharacters name (i + (Http.scanUtf8Sequence name i).length) (characters + 1)
    else none
  else some characters
termination_by name.length - i
decreasing_by
  · omega
  · have hpos := Http.scanUtf8Sequence_length_pos name i
    omega

/-- `fits_db_identifier_limit`. -/
def fitsDbIdentifierLimit (name : Bytes) (driver : DbDriver) : Bool :=
  if driver = .postgresql then name.length ≤ 63
  else
    match identifierCharacters name 0 0 with
    | none => false
    | some characters => characters ≤ 64

/-- `validate_db_identifier`. -/
def validateDbIdentifier (name : Bytes) (driver : DbDriver) : Except SqlError Unit := do
  requireDbDialect driver
  if name.isEmpty || name.contains 0 || !fitsDbIdentifierLimit name driver then
    throw (.invalidArgument "invalid or overlong database identifier")

def identifierQuote (driver : DbDriver) : UInt8 := if driver = .postgresql then doubleQuote else backtick

/-- `append_db_identifier`. -/
def appendDbIdentifier (output name : Bytes) (driver : DbDriver) : Except SqlError Bytes := do
  validateDbIdentifier name driver
  let quote := identifierQuote driver
  return doubleLoop (· == quote) (output ++ [quote]) name ++ [quote]

/-- `append_db_qualified_identifier`. -/
def appendDbQualifiedIdentifier (output name : Bytes) (driver : DbDriver) : Except SqlError Bytes :=
  match _ : findByte dot name 0 with
  | none => appendDbIdentifier output name driver
  | some position => do
    let output ← appendDbIdentifier output (name.take position) driver
    appendDbQualifiedIdentifier (output ++ [dot]) (name.drop (position + 1)) driver
termination_by name.length
decreasing_by
  have hlt := findByte_lt ‹_›
  rw [List.length_drop]
  omega

def hexLiteralStart : Bytes := lit "CONVERT(X'"
def hexLiteralEnd : Bytes := lit "' USING utf8mb4)"

/-- `append_db_string_literal`. -/
def appendDbStringLiteral (output value : Bytes) (driver : DbDriver) : Except SqlError Bytes := do
  requireDbDialect driver
  if value.contains 0 then throw (.invalidArgument "database text cannot contain NUL")
  else if driver = .mariadb then return output ++ hexLiteralStart ++ Http.httpEncodeLowerHex value ++ hexLiteralEnd
  else
    return doubleLoop (fun byte => byte == singleQuote || byte == backslash) (output ++ lit "E'") value ++ [singleQuote]

/-! ## The lexical rules -/

/-- The text behind a fixed front. -/
def stripFront (front text : Bytes) : Option Bytes :=
  if front.isPrefixOf text then some (text.drop front.length) else none

def identifierRule (driver : DbDriver) : QuoteRule := ⟨identifierQuote driver, none, fun _ => none⟩

/-- PostgreSQL's escapes of one byte. The ones that write a character by its number are left out. -/
def postgresqlEscaped (byte : UInt8) : Option UInt8 :=
  if byte = 0x62 then some 0x08
  else if byte = 0x66 then some 0x0c
  else if byte = 0x6e then some 0x0a
  else if byte = 0x72 then some 0x0d
  else if byte = 0x74 then some 0x09
  else if byte = 0x78 ∨ byte = 0x75 ∨ byte = 0x55 ∨ Http.isDigit byte = true then none
  else some byte

/-- The string behind `E'`. -/
def escapeStringRule : QuoteRule := ⟨singleQuote, some backslash, postgresqlEscaped⟩

/-- A quoted identifier: its name and the text behind it. -/
def readIdentifier (driver : DbDriver) : Bytes → Option (Bytes × Bytes)
  | [] => none
  | first :: rest => if first = identifierQuote driver then (identifierRule driver).read rest else none

/-- Quoted identifiers with dots between them. -/
def readQualifiedIdentifier (driver : DbDriver) : Nat → Bytes → Option (List Bytes × Bytes)
  | 0, _ => none
  | fuel + 1, text =>
    match readIdentifier driver text with
    | none => none
    | some (component, []) => some ([component], [])
    | some (component, first :: rest) =>
      if first = dot then
        (readQualifiedIdentifier driver fuel rest).map fun (components, behind) => (component :: components, behind)
      else some ([component], first :: rest)

/-- The digits of `X''` and its closing quote. -/
def readHexBody : Bytes → Option (Bytes × Bytes)
  | [] => none
  | [byte] => if byte = singleQuote then some ([], []) else none
  | high :: low :: rest =>
    if high = singleQuote then some ([], low :: rest)
    else
      match Http.decodeHexPair high low with
      | none => none
      | some byte => (readHexBody rest).map fun (bytes, behind) => (byte :: bytes, behind)

/-- A text constant: `E''`, or `X''` in its conversion. -/
def readStringLiteral (driver : DbDriver) (text : Bytes) : Option (Bytes × Bytes) :=
  match driver with
  | .unspecified => none
  | .postgresql => (stripFront (lit "E'") text).bind escapeStringRule.read
  | .mariadb => do
    let digits ← stripFront hexLiteralStart text
    let (bytes, behind) ← readHexBody digits
    let behind ← stripFront (lit " USING utf8mb4)") behind
    return (bytes, behind)

/-! ## What the writers append -/

section

variable {output result name value tail : Bytes} {driver : DbDriver}

theorem stripFront_append (front text : Bytes) : stripFront front (front ++ text) = some text := by
  rw [stripFront, if_pos (by simp), List.drop_left]

/-- The token of one name. -/
def identifierToken (driver : DbDriver) (name : Bytes) : Bytes :=
  identifierQuote driver :: (double (identifierRule driver).special name ++ [identifierQuote driver])

theorem special_identifierRule (driver : DbDriver) :
    (identifierRule driver).special = fun byte => byte == identifierQuote driver := by
  funext byte
  exact Bool.or_false _

theorem appendDbIdentifier_ok (h : appendDbIdentifier output name driver = .ok result) :
    result = output ++ identifierToken driver name := by
  obtain ⟨_, _, h⟩ := bind_eq_ok_iff.mp h
  cases h
  rw [doubleLoop_eq, identifierToken, special_identifierRule]
  simp only [List.append_assoc, List.cons_append, List.nil_append]

/-- **An identifier is read back**, unless a quote follows it. -/
theorem readIdentifier_token (htail : tail.head? ≠ some (identifierQuote driver)) :
    readIdentifier driver (identifierToken driver name ++ tail) = some (name, tail) := by
  rw [identifierToken, List.cons_append, List.append_assoc, readIdentifier, if_pos rfl]
  exact QuoteRule.read_double (fun _ h => by cases h) name htail

/-- The tokens of a qualified name. -/
def qualifiedTokens (driver : DbDriver) : List Bytes → Bytes
  | [] => []
  | [component] => identifierToken driver component
  | component :: next :: components =>
    identifierToken driver component ++ dot :: qualifiedTokens driver (next :: components)

theorem qualifiedTokens_cons {components : List Bytes} (hne : components ≠ []) (component : Bytes) :
    qualifiedTokens driver (component :: components) =
      identifierToken driver component ++ dot :: qualifiedTokens driver components := by
  cases components with
  | nil => exact absurd rfl hne
  | cons next components => rfl

/-- The first dot of a name, and the components on its sides. -/
theorem splitOn_dot {position : Nat} (h : findByte dot name 0 = some position) :
    name.splitOn dot = name.take position :: (name.drop (position + 1)).splitOn dot := by
  obtain ⟨-, hdot, hfirst⟩ := findByte_eq_some_iff.mp h
  have hlt := findByte_lt h
  have hfront : dot ∉ name.take position := by
    intro hmem
    obtain ⟨i, hi⟩ := List.getElem?_of_mem hmem
    rw [List.getElem?_take] at hi
    split at hi
    · exact hfirst i (Nat.zero_le _) ‹_› hi
    · cases hi
  have hsplit : name = name.take position ++ dot :: name.drop (position + 1) := by
    conv_lhs => rw [← List.take_append_drop position name, List.drop_eq_getElem_cons hlt]
    rw [List.getElem?_eq_getElem hlt, Option.some.injEq] at hdot
    rw [hdot]
  conv_lhs => rw [hsplit]
  exact List.splitOn_append_cons_self_of_not_mem hfront _

theorem appendDbQualifiedIdentifier_ok (h : appendDbQualifiedIdentifier output name driver = .ok result) :
    result = output ++ qualifiedTokens driver (name.splitOn dot) := by
  fun_induction appendDbQualifiedIdentifier output name driver with
  | case1 output name hnone =>
    have hdot : dot ∉ name := by
      intro hmem
      obtain ⟨i, hi⟩ := List.getElem?_of_mem hmem
      exact findByte_eq_none_iff.mp hnone i (Nat.zero_le _) hi
    rw [List.splitOn_eq_singleton hdot]
    exact appendDbIdentifier_ok h
  | case2 output name position hfound ih =>
    obtain ⟨first, hfirst, h⟩ := bind_eq_ok_iff.mp h
    rw [ih first h, appendDbIdentifier_ok hfirst, splitOn_dot hfound,
      qualifiedTokens_cons (List.splitOn_ne_nil _ _)]
    simp only [List.append_assoc, List.cons_append, List.nil_append]

theorem quote_ne_dot (driver : DbDriver) : identifierQuote driver ≠ dot := by
  cases driver <;> decide

/-- **A qualified name is read back** component by component. -/
theorem readQualifiedIdentifier_tokens {components : List Bytes} (hne : components ≠ []) {fuel : Nat}
    (hfuel : (qualifiedTokens driver components).length ≤ fuel)
    (htail : tail.head? ≠ some (identifierQuote driver)) (hdot : tail.head? ≠ some dot) :
    readQualifiedIdentifier driver fuel (qualifiedTokens driver components ++ tail) = some (components, tail) := by
  induction components generalizing fuel with
  | nil => exact absurd rfl hne
  | cons component components ih =>
    have hpos : 0 < fuel := by
      have htoken : 0 < (identifierToken driver component).length := Nat.succ_pos _
      cases components with
      | nil => exact Nat.lt_of_lt_of_le htoken hfuel
      | cons next components =>
        rw [qualifiedTokens, List.length_append] at hfuel
        omega
    obtain ⟨fuel, rfl⟩ : ∃ n, fuel = n + 1 := ⟨fuel - 1, by omega⟩
    rw [readQualifiedIdentifier]
    cases components with
    | nil =>
      rw [qualifiedTokens, readIdentifier_token htail]
      cases tail with
      | nil => rfl
      | cons first rest =>
        have hfirst : first ≠ dot := by simpa using hdot
        simp only [if_neg hfirst]
    | cons next components =>
      rw [qualifiedTokens, List.length_append, List.length_cons] at hfuel
      have hquote : (dot :: (qualifiedTokens driver (next :: components) ++ tail)).head? ≠
          some (identifierQuote driver) := by
        simpa using (quote_ne_dot driver).symm
      rw [qualifiedTokens, List.append_assoc, List.cons_append, readIdentifier_token hquote]
      simp only [if_true]
      rw [ih (List.cons_ne_nil _ _) (by omega)]
      rfl

theorem escapeStringRule_doubles : escapeStringRule.Doubles := by
  intro byte h
  cases h
  decide

theorem special_escapeStringRule :
    escapeStringRule.special = fun byte => byte == singleQuote || byte == backslash := by
  funext byte
  have hcomm : (some backslash == some byte) = (byte == backslash) := by
    rw [Bool.eq_iff_iff, beq_iff_eq, beq_iff_eq, Option.some.injEq, eq_comm]
  exact congrArg _ hcomm

theorem httpLowerHexDigit_ne_quote (value : Nat) : Http.httpLowerHexDigit value ≠ singleQuote := by
  intro h
  have hdecoded := Http.httpDecodeHexNibble_lowerHexDigit value
  rw [h] at hdecoded
  cases hdecoded

theorem readHexBody_encode (value tail : Bytes) :
    readHexBody (Http.httpEncodeLowerHex value ++ singleQuote :: tail) = some (value, tail) := by
  induction value with
  | nil => cases tail <;> rfl
  | cons byte value ih =>
    rw [Http.httpEncodeLowerHex_cons, List.cons_append, List.cons_append, readHexBody,
      if_neg (httpLowerHexDigit_ne_quote _), Http.decodeHexPair_encode, ih]
    rfl

/-- The token of a text. -/
def stringToken (driver : DbDriver) (value : Bytes) : Bytes :=
  if driver = .mariadb then hexLiteralStart ++ Http.httpEncodeLowerHex value ++ hexLiteralEnd
  else lit "E'" ++ double escapeStringRule.special value ++ [singleQuote]

theorem requireDbDialect_ok (h : requireDbDialect driver = .ok ()) : driver = .mariadb ∨ driver = .postgresql := by
  cases driver with
  | unspecified => cases h
  | mariadb => exact .inl rfl
  | postgresql => exact .inr rfl

theorem appendDbStringLiteral_ok (h : appendDbStringLiteral output value driver = .ok result) :
    result = output ++ stringToken driver value ∧ (driver = .mariadb ∨ driver = .postgresql) := by
  obtain ⟨_, hdialect, h⟩ := bind_eq_ok_iff.mp h
  refine ⟨?_, requireDbDialect_ok hdialect⟩
  obtain ⟨-, h⟩ := of_ite_error h
  rw [stringToken]
  split at h
  · rename_i hmaria
    cases h
    rw [if_pos hmaria]
    simp only [List.append_assoc]
  · rename_i hmaria
    cases h
    rw [if_neg hmaria, doubleLoop_eq, special_escapeStringRule]
    simp only [List.append_assoc]

/-- **A text is read back**, unless a quote follows it. -/
theorem readStringLiteral_token (hdriver : driver = .mariadb ∨ driver = .postgresql)
    (htail : tail.head? ≠ some singleQuote) :
    readStringLiteral driver (stringToken driver value ++ tail) = some (value, tail) := by
  rcases hdriver with rfl | rfl
  · have hend : hexLiteralEnd ++ tail = singleQuote :: (lit " USING utf8mb4)" ++ tail) := by rfl
    rw [stringToken, if_pos rfl, readStringLiteral, List.append_assoc, List.append_assoc, stripFront_append, hend]
    simp only [Option.bind_eq_bind, Option.bind_some, readHexBody_encode, stripFront_append, Option.pure_def]
  · rw [stringToken, if_neg (by decide), readStringLiteral, List.append_assoc, List.append_assoc, stripFront_append]
    exact QuoteRule.read_double escapeStringRule_doubles value htail

end

/-! ## Quoting -/

/-- Nothing a writer appends for one argument it appends for another. -/
def Distinguishes (append : Bytes → Except SqlError Bytes) : Prop :=
  ∀ argument other result, append argument = .ok result → append other = .ok result → argument = other

/-- A writer of what a reader inverts tells its arguments apart. -/
theorem distinguishes_of_read {append : Bytes → Except SqlError Bytes} (output : Bytes) (read : Bytes → Option Bytes)
    (h : ∀ argument result, append argument = .ok result →
      ∃ text, result = output ++ text ∧ read text = some argument) :
    Distinguishes append := by
  intro argument other result hargument hother
  obtain ⟨text, hresult, htext⟩ := h argument result hargument
  obtain ⟨same, hsame, hread⟩ := h other result hother
  obtain rfl := List.append_cancel_left (hresult.symm.trans hsame)
  exact Option.some.inj (htext.symm.trans hread)

/-- **SQL quoting cannot be broken.** For either driver, what is appended for a name, a dotted name and a text is read
by the dialect's rules as one token for each component, standing for exactly the bytes given, and nothing of the text
behind it is taken along unless it begins with the token's own quote (or, for a dotted name, with a dot). So different
arguments are never written alike. -/
theorem sql_quoting (driver : DbDriver) (output : Bytes) :
    (∀ name result, appendDbIdentifier output name driver = .ok result → ∃ token, result = output ++ token ∧
      ∀ tail, tail.head? ≠ some (identifierQuote driver) → readIdentifier driver (token ++ tail) = some (name, tail)) ∧
    (∀ name result, appendDbQualifiedIdentifier output name driver = .ok result → ∃ tokens, result = output ++ tokens ∧
      ∀ tail, tail.head? ≠ some (identifierQuote driver) → tail.head? ≠ some dot →
        readQualifiedIdentifier driver tokens.length (tokens ++ tail) = some (name.splitOn dot, tail)) ∧
    (∀ value result, appendDbStringLiteral output value driver = .ok result → ∃ token, result = output ++ token ∧
      ∀ tail, tail.head? ≠ some singleQuote → readStringLiteral driver (token ++ tail) = some (value, tail)) ∧
    Distinguishes (appendDbIdentifier output · driver) ∧ Distinguishes (appendDbQualifiedIdentifier output · driver) ∧
    Distinguishes (appendDbStringLiteral output · driver) := by
  have hempty : ∀ byte : UInt8, ([] : Bytes).head? ≠ some byte := fun byte h => by cases h
  refine ⟨fun name result h => ⟨_, appendDbIdentifier_ok h, fun tail htail => readIdentifier_token htail⟩,
    fun name result h => ⟨_, appendDbQualifiedIdentifier_ok h, fun tail htail hdot =>
      readQualifiedIdentifier_tokens (List.splitOn_ne_nil _ _) le_rfl htail hdot⟩,
    fun value result h => ⟨_, (appendDbStringLiteral_ok h).1, fun tail htail =>
      readStringLiteral_token (appendDbStringLiteral_ok h).2 htail⟩, ?_, ?_, ?_⟩
  · apply distinguishes_of_read output fun text => (readIdentifier driver text).map Prod.fst
    intro name result h
    refine ⟨_, appendDbIdentifier_ok h, ?_⟩
    rw [← List.append_nil (identifierToken driver name), readIdentifier_token (hempty _)]
    rfl
  · apply distinguishes_of_read output fun text =>
      (readQualifiedIdentifier driver text.length text).map fun (components, _) => [dot].intercalate components
    intro name result h
    have hread := readQualifiedIdentifier_tokens (List.splitOn_ne_nil dot name) le_rfl
      (hempty (identifierQuote driver)) (hempty dot)
    rw [List.append_nil] at hread
    refine ⟨_, appendDbQualifiedIdentifier_ok h, ?_⟩
    rw [hread]
    exact congrArg some (List.intercalate_splitOn dot)
  · apply distinguishes_of_read output fun text => (readStringLiteral driver text).map Prod.fst
    intro value result h
    obtain ⟨hresult, hdriver⟩ := appendDbStringLiteral_ok h
    refine ⟨_, hresult, ?_⟩
    rw [← List.append_nil (stringToken driver value), readStringLiteral_token hdriver (hempty _)]
    rfl

theorem sql_quoting_names :
    appendDbIdentifier [] (lit "a\"") .postgresql = .ok (lit "\"a\"\"\"") ∧
      ∃ token, lit "\"a\"\"\"" = [] ++ token ∧ ∀ tail, tail.head? ≠ some (identifierQuote .postgresql) →
        readIdentifier .postgresql (token ++ tail) = some (lit "a\"", tail) :=
  ⟨by decide +kernel, (sql_quoting .postgresql []).1 _ _ (by decide +kernel)⟩

end Ruvia.Web
