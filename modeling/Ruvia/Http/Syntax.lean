import Ruvia.Library.Decimal
import Mathlib.Data.List.TakeWhile
import Mathlib.Data.List.DropRight

/-!
# `Http.Syntax` — byte classes and the field-line primitives

The character tables, the case-insensitive comparison and the prefix scans of `http_field_syntax.h`,
`http_ascii.h` and `http_hex.h`, and the limits of `http_limits.h`. The token scan keeps its four-wide
loop; `httpTokenPrefixSize_eq` says that it stops where the bytewise scan does.
-/

namespace Ruvia.Http

open Library

/-! ## Limits -/

def maxHttpHeaderBytes : Nat := 64 * 1024
def maxHttpHeaderFields : Nat := 256

/-! ## Bytes -/

abbrev cr : UInt8 := 0x0d
abbrev lf : UInt8 := 0x0a
abbrev sp : UInt8 := 0x20
abbrev htab : UInt8 := 0x09
abbrev dquote : UInt8 := 0x22
abbrev backslash : UInt8 := 0x5c
abbrev comma : UInt8 := 0x2c
abbrev semicolon : UInt8 := 0x3b
abbrev colon : UInt8 := 0x3a
abbrev equalsSign : UInt8 := 0x3d
abbrev slash : UInt8 := 0x2f
abbrev percent : UInt8 := 0x25

def isDigit (b : UInt8) : Bool := 0x30 ≤ b && b ≤ 0x39
def isUpper (b : UInt8) : Bool := 0x41 ≤ b && b ≤ 0x5a
def isLower (b : UInt8) : Bool := 0x61 ≤ b && b ≤ 0x7a
def isAlpha (b : UInt8) : Bool := isUpper b || isLower b

/-- OWS / BWS byte. -/
def isHttpOwsChar (b : UInt8) : Bool := b == sp || b == htab

def isHttpTokenChar (b : UInt8) : Bool :=
  isDigit b || isAlpha b || (lit "!#$%&'*+-.^_`|~").contains b

/-- field-content bytes: HTAB, printable ASCII and obs-text. -/
def isHttpFieldValueChar (b : UInt8) : Bool := b == htab || (0x20 ≤ b && b != 0x7f)

def httpAsciiToLower (b : UInt8) : UInt8 := if isUpper b then b + 0x20 else b

def httpAsciiEqualsIgnoreCase (left right : Bytes) : Bool :=
  left.map httpAsciiToLower == right.map httpAsciiToLower

/-- One hex digit in either case; `none` for a non-hex character. -/
def httpDecodeHexNibble (b : UInt8) : Option Nat :=
  if isDigit b then some (b.toNat - 0x30)
  else if 0x41 ≤ b && b ≤ 0x46 then some (b.toNat - 0x41 + 10)
  else if 0x61 ≤ b && b ≤ 0x66 then some (b.toNat - 0x61 + 10)
  else none

theorem isDigit_of_mem_decimal {n : Nat} : ∀ byte ∈ decimal n, isDigit byte = true := by
  intro byte hmem
  have hdigit := decimal_digits n byte hmem
  simp only [isDigit, Bool.and_eq_true, decide_eq_true_eq, UInt8.le_iff_toNat_le]
  exact hdigit

theorem httpDecodeHexNibble_lt {b : UInt8} {n : Nat} (h : httpDecodeHexNibble b = some n) : n < 16 := by
  simp only [httpDecodeHexNibble, isDigit, Bool.and_eq_true, decide_eq_true_eq, UInt8.le_iff_toNat_le] at h
  simp only [UInt8.reduceToNat] at h
  grind

/-! ## Scans -/

/-- Removes SP and HTAB from both ends. -/
def httpTrimOws (value : Bytes) : Bytes :=
  (value.dropWhile isHttpOwsChar).rdropWhile isHttpOwsChar

/-- Behind leading OWS, trimming the end is trimming. -/
theorem httpTrimOws_rdropWhile {l : Bytes} (h : ∀ b, l.head? = some b → isHttpOwsChar b = false) :
    httpTrimOws (l.rdropWhile isHttpOwsChar) = l.rdropWhile isHttpOwsChar := by
  have hfront : (l.rdropWhile isHttpOwsChar).dropWhile isHttpOwsChar = l.rdropWhile isHttpOwsChar := by
    cases hd : l.rdropWhile isHttpOwsChar with
    | nil => rfl
    | cons b rest =>
      have hprefix := List.rdropWhile_prefix isHttpOwsChar l
      rw [hd] at hprefix
      obtain ⟨tail, rfl⟩ := hprefix
      exact List.dropWhile_cons_of_neg (by simp [h b rfl])
  rw [httpTrimOws, hfront]
  exact List.rdropWhile_idempotent _ _

theorem isHttpOwsChar_head_dropWhile (l : Bytes) (b : UInt8)
    (h : (l.dropWhile isHttpOwsChar).head? = some b) : isHttpOwsChar b = false := by
  have := List.head?_dropWhile_not isHttpOwsChar l
  rwa [h] at this

theorem httpTrimOws_idem (value : Bytes) : httpTrimOws (httpTrimOws value) = httpTrimOws value :=
  httpTrimOws_rdropWhile (isHttpOwsChar_head_dropWhile value)

/-- A text that neither begins nor ends with whitespace is trimmed already. -/
theorem httpTrimOws_of_ends {text : Bytes} (hfirst : ∀ byte ∈ text.head?, isHttpOwsChar byte = false)
    (hlast : ∀ byte ∈ text.getLast?, isHttpOwsChar byte = false) : httpTrimOws text = text := by
  have hfront : text.dropWhile isHttpOwsChar = text := by
    cases text with
    | nil => rfl
    | cons first rest => exact List.dropWhile_cons_of_neg (by simp [hfirst first rfl])
  rw [httpTrimOws, hfront, List.rdropWhile_eq_self_iff]
  intro hne
  rw [hlast _ (List.getLast?_eq_some_getLast hne)]
  exact Bool.false_ne_true

/-- Length of the leading run of token bytes, four at a time while four remain. -/
def httpTokenPrefixSize : Bytes → Nat
  | b0 :: b1 :: b2 :: b3 :: rest =>
    if isHttpTokenChar b0 && isHttpTokenChar b1 && isHttpTokenChar b2 && isHttpTokenChar b3 then
      4 + httpTokenPrefixSize rest
    else ((b0 :: b1 :: b2 :: b3 :: rest).takeWhile isHttpTokenChar).length
  | tail => (tail.takeWhile isHttpTokenChar).length

/-- **The four-wide scan stops at the first non-token byte.** -/
theorem httpTokenPrefixSize_eq (value : Bytes) :
    httpTokenPrefixSize value = (value.takeWhile isHttpTokenChar).length := by
  fun_induction httpTokenPrefixSize value with
  | case1 b0 b1 b2 b3 rest h ih =>
    simp only [Bool.and_eq_true] at h
    obtain ⟨⟨⟨h0, h1⟩, h2⟩, h3⟩ := h
    simp only [List.takeWhile_cons, h0, h1, h2, h3, if_true, List.length_cons, ih]
    omega
  | case2 | case3 => rfl

/-- Length of the leading run of field-content bytes. -/
def httpFieldValuePrefixSize (value : Bytes) : Nat := (value.takeWhile isHttpFieldValueChar).length

/-- Byte repertoire only. -/
def isValidHttpFieldValueBytes (value : Bytes) : Bool := value.all isHttpFieldValueChar

/-- field-name = token. -/
def isValidHttpHeaderName (name : Bytes) : Bool :=
  !name.isEmpty && httpTokenPrefixSize name == name.length

theorem isValidHttpHeaderName_iff {name : Bytes} :
    isValidHttpHeaderName name = true ↔ name ≠ [] ∧ ∀ b ∈ name, isHttpTokenChar b = true := by
  rw [isValidHttpHeaderName, httpTokenPrefixSize_eq, Bool.and_eq_true, beq_iff_eq]
  refine and_congr (by simp) ?_
  rw [← List.takeWhile_eq_self_iff]
  exact ⟨fun h => (List.takeWhile_prefix _).eq_of_length h, fun h => by rw [h]⟩

end Ruvia.Http
