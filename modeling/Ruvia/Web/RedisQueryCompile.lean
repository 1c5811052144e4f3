import Ruvia.Web.RedisPredicate

/-!
# `Web.RedisQueryCompile` — predicates as RediSearch queries

`redis_query_compiler`. A column is reached through its index: a TAG index through the encoded shadow, a NUMERIC one
through ranges, and absence through the presence shadow of either.
-/

namespace Ruvia.Web

open Library

/-! ## Terms -/

/-- The largest magnitude below which every integer is a double. -/
def redisMaxExactInteger : ℚ := 9007199254740991

def requireRedisExactNumber (value : ℚ) : Except String Unit :=
  if redisMaxExactInteger < |value| then
    .error "numeric search values must be finite and within the exact integer range of Redis Search"
  else .ok ()

/-- `encode_redis_tag`. -/
def encodeRedisTag (value : Bytes) : Bytes := 0x78 :: httpLowerHex value

/-- `@shadow_field:{value}`. -/
def appendShadowTagTerm (shadow field value : Bytes) : Bytes :=
  lit "@" ++ (shadow ++ field) ++ lit ":\x7b" ++ value ++ lit "\x7d"

/-- `@field:{x<hex>}`. -/
def appendEncodedTagTerm (field rawValue : Bytes) : Bytes :=
  lit "@" ++ field ++ lit ":\x7b" ++ encodeRedisTag rawValue ++ lit "\x7d"

/-- `@field:[low high]`. -/
def appendNumericRange (field low high : Bytes) : Bytes :=
  lit "@" ++ field ++ lit ":[" ++ low ++ lit " " ++ high ++ lit "]"

def appendPresence (field : Bytes) : Bytes := appendShadowTagTerm presentShadow field presentValue

/-- The decimal text of an integer in the exact range. -/
def exactInteger (value : Int) : Except String Bytes :=
  (requireRedisExactNumber (roundIntToDouble value : ℚ)).map fun () => signedDecimal value

/-- `format_canonical_numeric`: the text of a bound, behind `(` if it is exclusive. -/
def formatCanonicalNumeric (value : RedisLiteral) (exclusive : Bool) : Except String Bytes :=
  (match value with
    | .signedInteger value => exactInteger value.toInt
    | .unsignedInteger value => exactInteger value.toNat
    | _ => .error "Redis numeric predicate requires a numeric value").map fun number =>
  if exclusive then lit "(" ++ number else number

def rawTagValue (value : RedisLiteral) (columnKind : RedisColumnKind) : Except String Bytes :=
  match value, columnKind with
  | .string text, .text => .ok text
  | .boolean value, .boolValue => .ok (if value then lit "1" else lit "0")
  | _, _ => .error "Redis TAG predicate value type does not match column"

/-! ## Comparisons -/

def appendNullComparison (field : Bytes) (operation : RedisBinaryOperator) (unsupported : String) :
    Except String Bytes :=
  match operation with
  | .equal => .ok (lit "-" ++ appendPresence field)
  | .notEqual => .ok (appendPresence field)
  | _ => .error unsupported

def appendTagComparison (field : Bytes) (value : RedisLiteral) (columnKind : RedisColumnKind)
    (operation : RedisBinaryOperator) : Except String Bytes :=
  match value with
  | .null => appendNullComparison field operation "unsupported NULL TAG comparison"
  | value => do
    let raw ← rawTagValue value columnKind
    match operation with
    | .equal => .ok (appendEncodedTagTerm field raw)
    | .notEqual => .ok (lit "(" ++ appendPresence field ++ lit " -" ++ appendEncodedTagTerm field raw ++ lit ")")
    | _ => .error "Redis TAG indexes only support equality predicates"

def appendNumericComparison (field : Bytes) (value : RedisLiteral) (operation : RedisBinaryOperator) :
    Except String Bytes :=
  match value with
  | .null => appendNullComparison field operation "unsupported NULL NUMERIC comparison"
  | value => do
    match operation with
    | .equal =>
      let number ← formatCanonicalNumeric value false
      pure (appendNumericRange field number number)
    | .notEqual =>
      let number ← formatCanonicalNumeric value false
      pure (lit "(" ++ appendNumericRange field (lit "-inf") (lit "+inf") ++ lit " -" ++
        appendNumericRange field number number ++ lit ")")
    | .less =>
      let number ← formatCanonicalNumeric value true
      pure (appendNumericRange field (lit "-inf") number)
    | .lessEqual =>
      let number ← formatCanonicalNumeric value false
      pure (appendNumericRange field (lit "-inf") number)
    | .greater =>
      let number ← formatCanonicalNumeric value true
      pure (appendNumericRange field number (lit "+inf"))
    | .greaterEqual =>
      let number ← formatCanonicalNumeric value false
      pure (appendNumericRange field number (lit "+inf"))

/-! ## The tree -/

def findColumnInfo (columns : List RedisColumnInfo) (name : Bytes) : Except String RedisColumnInfo :=
  match columns.find? (·.name == name) with
  | some column => .ok column
  | none => .error "unknown Redis query column"

def validateEntityPrefix (entityPrefix tableValue : Bytes) : Except String Unit :=
  if !tableValue.isEmpty && tableValue != entityPrefix then
    .error "Redis predicate belongs to another entity prefix"
  else .ok ()

/-- The index kind of a column that has an index. -/
def requireIndexKind (mapping : RedisMapping) (field : Bytes) : Except String RedisIndexKind :=
  if mapping.indexKind field = .none then .error "Redis query column is not indexed"
  else .ok (mapping.indexKind field)

/-- The column of a comparison, IN or BETWEEN. -/
def columnComparison (mapping : RedisMapping) (field : RedisField) : Except String RedisColumnInfo := do
  validateEntityPrefix mapping.entityPrefix field.entityPrefix
  findColumnInfo mapping.columns field.name

/-- A text primary key is never empty. -/
def requirePrimaryKeyText (column : RedisColumnInfo) (value : RedisLiteral) : Except String Unit :=
  match value with
  | .string text =>
    if column.primaryKey && column.kind == .text && text.isEmpty then .error "Redis primary key cannot be empty"
    else .ok ()
  | _ => .ok ()

def appendComparison (mapping : RedisMapping) (field : RedisField) (operation : RedisBinaryOperator)
    (value : RedisLiteral) : Except String Bytes := do
  let column ← columnComparison mapping field
  requirePrimaryKeyText column value
  match ← requireIndexKind mapping column.name with
  | .tag => appendTagComparison column.name value column.kind operation
  | .numeric => appendNumericComparison column.name value operation
  | _ =>
    -- A TEXT index only answers presence tests.
    match value, operation with
    | .null, .equal => appendNullComparison column.name .equal ""
    | .null, .notEqual => appendNullComparison column.name .notEqual ""
    | _, _ => .error "Redis TEXT predicates are not exposed by redis_predicate"

/-- One turn of the loop over the values of an IN list. -/
def inListTerm (column : RedisColumnInfo) (kind : RedisIndexKind) (value : RedisLiteral) : Except String Bytes :=
  match value with
  | .null => .error "Redis IN list requires non-null literal values"
  | value => do
    requirePrimaryKeyText column value
    if kind = .tag then
      let raw ← rawTagValue value column.kind
      pure (appendEncodedTagTerm column.name raw)
    else
      let number ← formatCanonicalNumeric value false
      pure (appendNumericRange column.name number number)

def appendInList (mapping : RedisMapping) (negated : Bool) (field : RedisField) (values : List RedisLiteral) :
    Except String Bytes := do
  let column ← columnComparison mapping field
  let kind ← requireIndexKind mapping column.name
  if kind = .text then .error "Redis TEXT predicates are not supported"
  else if values.isEmpty && negated then pure (appendPresence column.name)
  -- Presence markers only ever hold 1, so this matches nothing.
  else if values.isEmpty then pure (appendShadowTagTerm presentShadow column.name (lit "x00"))
  else
    let terms ← values.mapM (inListTerm column kind)
    let list := lit "(" ++ (lit "|").intercalate terms ++ lit ")"
    pure (if negated then lit "(" ++ appendPresence column.name ++ lit " -" ++ list ++ lit ")" else list)

def appendBetween (mapping : RedisMapping) (field : RedisField) (lower upper : RedisLiteral) :
    Except String Bytes := do
  let column ← columnComparison mapping field
  let kind ← requireIndexKind mapping column.name
  match kind, lower, upper with
  | _, .null, _ | _, _, .null => .error "Redis BETWEEN requires a NUMERIC indexed column"
  | .numeric, lower, upper =>
    let low ← formatCanonicalNumeric lower false
    let high ← formatCanonicalNumeric upper false
    pure (appendNumericRange column.name low high)
  | _, _, _ => .error "Redis BETWEEN requires a NUMERIC indexed column"

/-- The deepest nesting of a predicate. -/
def redisMaxDepth : Nat := 64

def appendExpression (mapping : RedisMapping) (depth : Nat) (node : RedisPredicate) : Except String Bytes :=
  if redisMaxDepth < depth then .error "Redis predicate nesting is too deep"
  else
    match node with
    | .between field lower upper => appendBetween mapping field lower upper
    | .logicalNot operand => do
      let operand ← appendExpression mapping (depth + 1) operand
      pure (lit "-(" ++ operand ++ lit ")")
    | .logicalAnd left right => do
      let left ← appendExpression mapping (depth + 1) left
      let right ← appendExpression mapping (depth + 1) right
      pure (lit "(" ++ left ++ lit " " ++ right ++ lit ")")
    | .logicalOr left right => do
      let left ← appendExpression mapping (depth + 1) left
      let right ← appendExpression mapping (depth + 1) right
      pure (lit "(" ++ left ++ lit "|" ++ right ++ lit ")")
    | .inList field values => appendInList mapping false field values
    | .notInList field values => appendInList mapping true field values
    | .compare field operation value => appendComparison mapping field operation value

/-- `append_predicate`. -/
def appendPredicate (mapping : RedisMapping) (predicate : RedisPredicate) : Except String Bytes :=
  appendExpression mapping 0 predicate

/-! ## The command -/

structure RedisFindOrder where
  column : Bytes
  descending : Bool

structure RedisFindOptions where
  predicate : Option RedisPredicate
  order : Option RedisFindOrder
  skip : Option UInt64
  take : Option UInt64

def redisFindDefaultTake : UInt64 := 100

def validateSortField (mapping : RedisMapping) (field : Bytes) : Except String Unit := do
  discard (findColumnInfo mapping.columns field)
  if !mapping.sortable field then .error "Redis order column is not sortable" else .ok ()

/-- `sort_field`: a TAG column is sorted by a shadow of its own. -/
def sortField (mapping : RedisMapping) (field : Bytes) : Except String Bytes := do
  validateSortField mapping field
  pure (if mapping.indexKind field = .tag then sortShadow ++ field else field)

/-- The arguments of the sort, none of them in a count. -/
def sortArguments (mapping : RedisMapping) (order : Option RedisFindOrder) (countOnly : Bool) :
    Except String (List Bytes) :=
  match order with
  | none => .ok []
  | some order =>
    if countOnly then (validateSortField mapping order.column).map fun () => []
    else (sortField mapping order.column).map fun field =>
      [lit "SORTBY", field, if order.descending then lit "DESC" else lit "ASC"]

/-- The query of a search: everything without a predicate. -/
def findQuery (mapping : RedisMapping) (predicate : Option RedisPredicate) : Except String Bytes :=
  match predicate with
  | none => .ok (lit "*")
  | some predicate => appendPredicate mapping predicate

/-- `compile_redis_find`. -/
def compileRedisFind (mapping : RedisMapping) (options : RedisFindOptions) (countOnly : Bool)
    (takeOverride : Option UInt64) : Except String (List Bytes) := do
  let sort ← sortArguments mapping options.order countOnly
  let query ← findQuery mapping options.predicate
  let skip := options.skip.getD 0
  let take := takeOverride.getD (options.take.getD redisFindDefaultTake)
  let limit := if countOnly then [lit "0", lit "0"] else [decimal skip.toNat, decimal take.toNat]
  pure ([lit "FT.SEARCH", redisIndexName mapping.keyPrefix, query, lit "LIMIT"] ++ limit ++ sort ++
    [lit "DIALECT", lit "2"])

end Ruvia.Web
