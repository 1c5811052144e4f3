import Ruvia.Library.DecimalFraction

/-!
# `Library.JsonNumber` — the numbers of a JSON text

The grammar of RFC 8259 as a record: a sign, an integer without leading zeros, a fraction and an exponent. Its text
is what the parts spell (`JsonNumber.text`), and its value is the exact rational number they stand for
(`JsonNumber.value`).
-/

namespace Library

/-- One or more decimal digits. -/
abbrev DigitRun := { digits : Bytes // digits ≠ [] ∧ ∀ digit ∈ digits, IsDecimalDigit digit }

structure JsonExponent where
  marker : UInt8
  sign : Option UInt8
  digits : DigitRun
  marker_mem : marker = 0x65 ∨ marker = 0x45
  sign_mem : ∀ byte ∈ sign, byte = 0x2b ∨ byte = 0x2d

structure JsonNumber where
  negative : Bool
  integer : DigitRun
  fraction : Option DigitRun
  exponent : Option JsonExponent
  /-- A zero in front stands alone. -/
  leading : integer.val.head? = some 0x30 → integer.val = [0x30]

def JsonExponent.text (e : JsonExponent) : Bytes := e.marker :: (e.sign.toList ++ e.digits.val)

def JsonExponent.value (e : JsonExponent) : ℤ :=
  if e.sign = some 0x2d then -(decimalNumber e.digits.val : ℤ) else decimalNumber e.digits.val

namespace JsonNumber

/-- The digits behind the point. -/
def fractionDigits (n : JsonNumber) : Bytes := (n.fraction.map Subtype.val).getD []

def fractionText (n : JsonNumber) : Bytes := (n.fraction.map fun run => 0x2e :: run.val).getD []

def exponentText (n : JsonNumber) : Bytes := (n.exponent.map JsonExponent.text).getD []

def exponentValue (n : JsonNumber) : ℤ := (n.exponent.map JsonExponent.value).getD 0

def text (n : JsonNumber) : Bytes :=
  (if n.negative then [0x2d] else []) ++ (n.integer.val ++ (n.fractionText ++ n.exponentText))

/-- The number without its sign. -/
def magnitude (n : JsonNumber) : ℚ :=
  decimalNumber (n.integer.val ++ n.fractionDigits) * 10 ^ (n.exponentValue - n.fractionDigits.length)

/-- The exact value. -/
def value (n : JsonNumber) : ℚ := if n.negative then -n.magnitude else n.magnitude

/-- The magnitude as a fraction with an order. -/
theorem magnitude_eq_scaled (n : JsonNumber) :
    n.magnitude = scaled (n.integer.val ++ n.fractionDigits) (n.integer.val.length + n.exponentValue) := by
  have hne : (10 : ℚ) ≠ 0 := by norm_num
  rw [magnitude, scaled, decimalFraction_eq, List.length_append, pow_add, zpow_sub₀ hne, zpow_add₀ hne, zpow_natCast,
    zpow_natCast]
  field_simp

end JsonNumber

/-- The text spells the number. -/
def Spells (text : Bytes) (q : ℚ) : Prop := ∃ n : JsonNumber, n.text = text ∧ n.value = q

/-- An integer in decimal form. -/
def JsonNumber.ofDecimal (negative : Bool) (m : Nat) : JsonNumber where
  negative := negative
  integer := ⟨decimal m, decimal_ne_nil m, fun _ => isDecimalDigit_of_mem_decimal⟩
  fraction := none
  exponent := none
  leading := decimal_eq_of_head?_eq

theorem JsonNumber.value_ofDecimal (negative : Bool) (m : Nat) :
    (ofDecimal negative m).value = if negative then -(m : ℚ) else m := by
  have hmagnitude : (ofDecimal negative m).magnitude = m := by
    simp [magnitude, ofDecimal, fractionDigits, exponentValue]
  rw [value, hmagnitude]
  rfl

end Library
