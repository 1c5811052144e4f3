import Ruvia.Http.Syntax
import Ruvia.Web.SqlScan

/-!
# `Web.SqlInterpolation` — parameters written into the text of a statement

`interpolate_sql` of `mariadb_sql.cpp`. What the function takes from elsewhere are parameters of the model: the
session's character set (`MariadbCharset`), the text of a double (`DoubleFormat`), and the largest `unsigned long`.
-/

namespace Ruvia.Web

open Library

/-- What `interpolate_sql` throws. -/
inductive SqlError where
  | invalidArgument (message : String)
  | lengthError (message : String)
  | logicError (message : String)
  deriving DecidableEq, Repr

/-- A `db_value`; a double by its bits. -/
inductive DbValue where
  | null
  | string (text : Bytes)
  | signedValue (value : Int64)
  | unsignedValue (value : UInt64)
  | doubleValue (bits : UInt64)
  | boolValue (value : Bool)
  deriving DecidableEq, Repr

/-! ## Character sets -/

/-- A backslash behind a byte above `0x7F`, which a multibyte character set may read as a lead byte. -/
def ambiguousBackslash : Bytes → Bool
  | first :: second :: rest => (second == backslash && 0x7f < first) || ambiguousBackslash (second :: rest)
  | _ => false

/-- A `MARIADB_CHARSET_INFO`. `mbValid` is the length of the multibyte character in front, or at most one. No
multibyte character holds a quote, and a backslash only behind a byte above `0x7F`. -/
structure MariadbCharset where
  charMaxlen : Nat
  mbValid : Bytes → Nat
  mbValid_le : ∀ text, 1 < mbValid text → mbValid text ≤ text.length
  quote_not_mem : ∀ text, 1 < mbValid text → singleQuote ∉ text.take (mbValid text)
  ambiguous_of_mem : ∀ text, 1 < mbValid text → backslash ∈ text.take (mbValid text) →
    ambiguousBackslash (text.take (mbValid text)) = true

/-! ## Literals -/

/-- `value` with each quote doubled, and each backslash where the session reads backslash escapes. -/
def escapeBytes (backslashEscapes : Bool) (value : Bytes) : Bytes :=
  value.flatMap fun byte =>
    if byte == singleQuote || (backslashEscapes && byte == backslash) then [byte, byte] else [byte]

/-- `value` with the quotes and backslashes doubled that are no part of a multibyte character. -/
def escapeCharacters (charset : MariadbCharset) (value : Bytes) : Bytes :=
  match value with
  | [] => []
  | byte :: rest =>
    if 1 < charset.mbValid (byte :: rest) then
      (byte :: rest).take (charset.mbValid (byte :: rest)) ++
        escapeCharacters charset ((byte :: rest).drop (charset.mbValid (byte :: rest)))
    else
      (if byte == singleQuote || byte == backslash then [byte, byte] else [byte]) ++ escapeCharacters charset rest
termination_by value.length
decreasing_by all_goals (simp only [List.length_drop, List.length_cons]; omega)

/-- The character set that decides which backslashes are escaped, if one does. -/
def multibyteCharset (backslashEscapes : Bool) (charset : Option MariadbCharset) (value : Bytes) :
    Option MariadbCharset :=
  charset.filter fun charset => backslashEscapes && 1 < charset.charMaxlen && value.contains backslash

/-- The bytes between the quotes of a string literal. -/
def escapeString (backslashEscapes : Bool) (charset : Option MariadbCharset) (value : Bytes) : Bytes :=
  match multibyteCharset backslashEscapes charset value with
  | none => escapeBytes backslashEscapes value
  | some charset => escapeCharacters charset value

/-- What `append_string_literal` appends. -/
def stringLiteral (backslashEscapes : Bool) (charset : Option MariadbCharset) (value : Bytes) : Bytes :=
  singleQuote :: (escapeString backslashEscapes charset value ++ [singleQuote])

/-- The bits of a double that is a number. -/
def isFinite (bits : UInt64) : Bool := bits.toNat / 2 ^ 52 % 2 ^ 11 != 2 ^ 11 - 1

/-- What `std::to_chars` writes of a number: the shortest decimal form that reads back the same, plain or with an
exponent of at least two digits. -/
structure DecimalText (text : Bytes) : Prop where
  length_le : text.length ≤ 24
  grammar : ∃ sign whole fraction exponent, text = sign ++ (whole ++ (fraction ++ exponent)) ∧
    (sign = [] ∨ sign = [dash]) ∧ (whole ≠ [] ∧ ∀ byte ∈ whole, Http.isDigit byte = true) ∧
    (fraction = [] ∨ ∃ digits, digits ≠ [] ∧ fraction = lit "." ++ digits ∧ ∀ byte ∈ digits, Http.isDigit byte = true) ∧
    (exponent = [] ∨ ∃ expSign digits, 2 ≤ digits.length ∧ exponent = lit "e" ++ expSign ++ digits ∧
      (expSign = lit "+" ∨ expSign = lit "-") ∧ ∀ byte ∈ digits, Http.isDigit byte = true)

/-- The text of each double that is a number. -/
structure DoubleFormat where
  toChars : UInt64 → Bytes
  decimal : ∀ bits, isFinite bits = true → DecimalText (toChars bits)

/-- `append_db_double_literal` for MariaDB: a literal with an exponent is a DOUBLE. -/
def doubleLiteral (format : DoubleFormat) (bits : UInt64) : Except SqlError Bytes :=
  if !isFinite bits then .error (.invalidArgument "database double value must be finite")
  else if 64 < (format.toChars bits).length then .error (.logicError "database double value cannot be formatted")
  else .ok (if (format.toChars bits).any fun byte => byte == 0x65 || byte == 0x45 then format.toChars bits
    else format.toChars bits ++ lit "e0")

/-- What `append_value_literal` appends. -/
def valueLiteral (format : DoubleFormat) (backslashEscapes : Bool) (charset : Option MariadbCharset) :
    DbValue → Except SqlError Bytes
  | .null => .ok (lit "NULL")
  | .string text => .ok (stringLiteral backslashEscapes charset text)
  | .signedValue value => .ok (signedDecimal value.toInt)
  | .unsignedValue value => .ok (decimal value.toNat)
  | .doubleValue bits => doubleLiteral format bits
  | .boolValue value => .ok (if value then lit "1" else lit "0")

/-! ## The function -/

def sizeMax : Nat := 2 ^ 64 - 1

/-- The lengths of the C API are `unsigned long`. -/
def validateMariadbSqlLength (longMax length : Nat) : Except SqlError Unit :=
  if longMax < length then .error (.lengthError "MariaDB SQL is too large for the client API") else .ok ()

def mariadbStringLiteralSizeHint (longMax valueSize : Nat) : Except SqlError Nat :=
  if longMax / 2 < valueSize ∨ (sizeMax - 2) / 2 < valueSize then
    .error (.lengthError "MariaDB string parameter is too large")
  else .ok (valueSize * 2 + 2)

def valueLiteralSizeHint (longMax : Nat) : DbValue → Except SqlError Nat
  | .null => .ok 4
  | .string text => mariadbStringLiteralSizeHint longMax text.length
  | .signedValue _ | .unsignedValue _ => .ok 32
  | .doubleValue _ => .ok 64
  | .boolValue _ => .ok 1

/-- The checks of a string parameter. -/
def validateParameter (backslashEscapes : Bool) (charset : Option MariadbCharset) : DbValue → Except SqlError Unit
  | .string text =>
    if text.contains 0 then .error (.invalidArgument "MariaDB string parameter must not contain NUL bytes")
    else if backslashEscapes && charset.isNone && ambiguousBackslash text then
      .error (.logicError "MariaDB string parameter needs the session's character set to be escaped")
    else .ok ()
  | _ => .ok ()

def inlinePlaceholderCapacity : Nat := 32

def countMismatch : SqlError := .invalidArgument "SQL parameter count does not match placeholders"

/-- What the first pass finds out. -/
structure Measured where
  inlinePlaceholders : List Nat := []
  scanOffset : Nat := 0
  sizeHint : Nat

section

variable (format : DoubleFormat) (longMax : Nat) (backslashEscapes : Bool) (charset : Option MariadbCharset)
  (sql : Bytes)

/-- The first pass, from the parameter of index `i` on. -/
def measure (i : Nat) (measured : Measured) : List DbValue → Except SqlError Measured
  | [] => .ok measured
  | param :: params => do
    match findSqlSyntaxByte sql placeholder backslashEscapes measured.scanOffset with
    | none => .error countMismatch
    | some position =>
      validateParameter backslashEscapes charset param
      let literalSizeHint ← valueLiteralSizeHint longMax param
      if sizeMax - literalSizeHint < measured.sizeHint then
        .error (.lengthError "MariaDB SQL size calculation overflowed")
      else
        validateMariadbSqlLength longMax (measured.sizeHint + literalSizeHint)
        measure (i + 1)
          { inlinePlaceholders :=
              if i < inlinePlaceholderCapacity then measured.inlinePlaceholders ++ [position]
              else measured.inlinePlaceholders
            scanOffset := position + 1
            sizeHint := measured.sizeHint + literalSizeHint } params

/-- Everything that is checked before the output is touched. -/
def measureAll (params : List DbValue) : Except SqlError Measured := do
  validateMariadbSqlLength longMax sql.length
  let measured ← measure longMax backslashEscapes charset sql 0 { sizeHint := sql.length } params
  if (findSqlSyntaxByte sql placeholder backslashEscapes measured.scanOffset).isSome then .error countMismatch
  else .ok measured

/-- The second pass: the offset it has come to and the output, as it returns or throws. -/
def writeParams (inlinePlaceholders : List Nat) (i offset : Nat) (output : Bytes) :
    List DbValue → Except SqlError Unit × Nat × Bytes
  | [] => (.ok (), offset, output)
  | param :: params =>
    let position :=
      if i < inlinePlaceholderCapacity then inlinePlaceholders.getD i 0
      else (findSqlSyntaxByte sql placeholder backslashEscapes offset).getD sql.length
    let before := output ++ sub sql offset (position - offset)
    match valueLiteral format backslashEscapes charset param with
    | .error error => (.error error, offset, before)
    | .ok literal => writeParams inlinePlaceholders (i + 1) (position + 1) (before ++ literal) params

/-- `interpolate_sql`: whether it throws, and the output as it leaves it. -/
def interpolateSql (params : List DbValue) (output : Bytes) : Except SqlError Unit × Bytes :=
  match measureAll longMax backslashEscapes charset sql params with
  | .error error => (.error error, output)
  | .ok measured =>
    match writeParams format backslashEscapes charset sql measured.inlinePlaceholders 0 0 [] params with
    | (.error error, _, written) => (.error error, written)
    | (.ok (), offset, written) =>
      (validateMariadbSqlLength longMax (written ++ sql.drop offset).length, written ++ sql.drop offset)

end

end Ruvia.Web
