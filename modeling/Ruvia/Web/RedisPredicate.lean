import Mathlib.Algebra.Order.Ring.Rat
import Ruvia.Library.DoubleRounding
import Ruvia.Web.RedisMapping

/-!
# `Web.RedisPredicate` — what a predicate says of an entity

The tree `redis_field_reference` and `redis_predicate` build, and its meaning: a comparison with an absent value is
false, but for `= NULL` and `<> NULL`, which test absence; NOT is the complement.
-/

namespace Ruvia.Web

open Library

/-! ## Values -/

/-- How numeric text is read, by `std::from_chars` before a write and by the search index behind it: as the double
nearest to what is written. -/
structure NumberReader where
  read : Bytes → Option ℚ
  read_signedDecimal : ∀ i : Int, read (signedDecimal i) = some (roundIntToDouble i : ℚ)

/-- A value of an entity. A floating-point value is the text `encode_redis_number` writes of it. -/
inductive RedisScalar where
  | text (value : Bytes)
  | bool (value : Bool)
  | signed (value : Int64)
  | unsigned (value : UInt64)
  | real (written : Bytes)

/-- Whether a value is one of a column of this kind. -/
def RedisScalar.Fits : RedisScalar → RedisColumnKind → Prop
  | .text _, kind => kind = .text
  | .bool _, kind => kind = .boolValue
  | .signed _, kind => kind = .signedValue
  | .unsigned _, kind => kind = .unsignedValue
  | .real _, kind => kind = .float32 ∨ kind = .float64

/-- `encode_redis_scalar`. -/
def encodeRedisScalar : RedisScalar → Bytes
  | .text value => value
  | .bool value => if value then lit "1" else lit "0"
  | .signed value => signedDecimal value.toInt
  | .unsigned value => signedDecimal value.toNat
  | .real written => written

/-- An entity: the values of its columns by name. -/
abbrev RedisEntity := Bytes → Option RedisScalar

/-! ## Predicates -/

/-- A literal of a predicate, but for the floating-point ones. -/
inductive RedisLiteral where
  | null
  | string (text : Bytes)
  | signedInteger (value : Int64)
  | unsignedInteger (value : UInt64)
  | boolean (value : Bool)

/-- A column named by a predicate, and the entity it is of. -/
structure RedisField where
  entityPrefix : Bytes
  name : Bytes

/-- The operators that compare with one literal. -/
inductive RedisBinaryOperator where
  | equal | notEqual | less | lessEqual | greater | greaterEqual

/-- The shapes `redis_field_reference` and `redis_predicate` build. -/
inductive RedisPredicate where
  | compare (field : RedisField) (operation : RedisBinaryOperator) (value : RedisLiteral)
  | inList (field : RedisField) (values : List RedisLiteral)
  | notInList (field : RedisField) (values : List RedisLiteral)
  | between (field : RedisField) (lower upper : RedisLiteral)
  | logicalAnd (left right : RedisPredicate)
  | logicalOr (left right : RedisPredicate)
  | logicalNot (operand : RedisPredicate)

/-! ## Meaning -/

section

variable (reader : NumberReader)

/-- The number a value is. -/
def RedisScalar.number : RedisScalar → Option ℚ
  | .signed value => some (value.toInt : ℚ)
  | .unsigned value => some (value.toNat : ℚ)
  | .real written => reader.read written
  | _ => none

def RedisLiteral.number : RedisLiteral → Option ℚ
  | .signedInteger value => some (value.toInt : ℚ)
  | .unsignedInteger value => some (value.toNat : ℚ)
  | _ => none

/-- Whether a value and a literal are the same string, Boolean or number. -/
def RedisScalar.Equals : RedisScalar → RedisLiteral → Prop
  | .text value, .string other => value = other
  | .bool value, .boolean other => value = other
  | value, literal => ∃ number, value.number reader = some number ∧ literal.number = some number

/-- Whether the numbers of a value and a literal are in a relation. -/
def RedisScalar.Relates (value : RedisScalar) (relation : ℚ → ℚ → Prop) (literal : RedisLiteral) : Prop :=
  ∃ number bound, value.number reader = some number ∧ literal.number = some bound ∧ relation number bound

/-- What a comparison of a value with a literal says. -/
def RedisBinaryOperator.Holds (value : RedisScalar) (literal : RedisLiteral) : RedisBinaryOperator → Prop
  | .equal => value.Equals reader literal
  | .notEqual => ¬ value.Equals reader literal
  | .less => value.Relates reader (· < ·) literal
  | .lessEqual => value.Relates reader (· ≤ ·) literal
  | .greater => value.Relates reader (· > ·) literal
  | .greaterEqual => value.Relates reader (· ≥ ·) literal

/-- **What a predicate says** of an entity. -/
def RedisPredicate.Holds (entity : RedisEntity) : RedisPredicate → Prop
  | .compare field .equal .null => entity field.name = none
  | .compare field .notEqual .null => entity field.name ≠ none
  | .compare field operation value => ∃ held, entity field.name = some held ∧ operation.Holds reader held value
  | .inList field values => ∃ held, entity field.name = some held ∧ ∃ value ∈ values, held.Equals reader value
  | .notInList field values => ∃ held, entity field.name = some held ∧ ∀ value ∈ values, ¬ held.Equals reader value
  | .between field lower upper => ∃ held, entity field.name = some held ∧
      held.Relates reader (· ≥ ·) lower ∧ held.Relates reader (· ≤ ·) upper
  | .logicalAnd left right => left.Holds entity ∧ right.Holds entity
  | .logicalOr left right => left.Holds entity ∨ right.Holds entity
  | .logicalNot operand => ¬ operand.Holds entity

end

end Ruvia.Web
