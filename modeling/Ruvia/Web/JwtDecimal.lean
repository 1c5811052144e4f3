import Ruvia.Library.JsonNumber

/-!
# `Web.JwtDecimal` — the decimal numbers of `jwt_date.cpp`

A JSON number of any length is scanned once (`scanDecimal`) and brought to a view of its digits with an order
(`normalizeDecimal`), which two numbers are compared by (`compareDecimal`). The order is clipped to `[-64, 64]`. The
first half of the file is the code.

`Represents` says what a view stands for. Every JSON number is scanned (`scanDecimal_text`) and its view represents
its exact value (`normalizeDecimal_represents`), and the comparison decides between two views as soon as the order of
one of them is not clipped (`compareDecimal_compares`).
-/

namespace Ruvia.Web.JwtDate

open Library

/-! ## Scanning -/

def isDigit (value : UInt8) : Bool := 0x30 ≤ value && value ≤ 0x39

structure DecimalParts where
  text : Bytes
  exponent : Bytes := []
  integerEnd : Nat := 0
  firstNonzero : Option Nat := none
  lastNonzero : Nat := 0
  negative : Bool := false
  exponentNegative : Bool := false

/-- The state of the two loops over digits; `rest` is the text from the position on. -/
structure DigitScan where
  rest : Bytes
  position : Nat
  firstNonzero : Option Nat
  lastNonzero : Nat

def scanDigits : Bytes → Nat → Option Nat → Nat → DigitScan
  | [], position, first, last => ⟨[], position, first, last⟩
  | byte :: rest, position, first, last =>
    if isDigit byte then
      if byte ≠ 0x30 then scanDigits rest (position + 1) (first.or (some position)) position
      else scanDigits rest (position + 1) first last
    else ⟨byte :: rest, position, first, last⟩

/-- The `.` and the digits behind it. -/
def scanFraction (scan : DigitScan) : Option DigitScan :=
  if scan.rest.head? = some 0x2e then
    let after := scanDigits scan.rest.tail (scan.position + 1) scan.firstNonzero scan.lastNonzero
    if after.position = scan.position + 1 then none else some after
  else some scan

structure ExponentScan where
  negative : Bool
  digits : Bytes
  rest : Bytes

def scanExponent (rest : Bytes) : Option ExponentScan :=
  if rest.head? = some 0x65 ∨ rest.head? = some 0x45 then
    let signed := rest.tail.head? = some 0x2b ∨ rest.tail.head? = some 0x2d
    let digits := if signed then rest.tail.tail else rest.tail
    let significant := digits.dropWhile (· == 0x30)
    let after := significant.dropWhile isDigit
    if after.length = digits.length then none
    else some ⟨rest.tail.head? = some 0x2d, significant.takeWhile isDigit, after⟩
  else some ⟨false, [], rest⟩

def scanDecimal (text : Bytes) : Option DecimalParts :=
  let negative := decide (text.head? = some 0x2d)
  let integerBegin := if negative then 1 else 0
  let rest := text.drop integerBegin
  if (rest.head?.map isDigit).getD false = false then none
  else
    let integer := scanDigits rest integerBegin none 0
    if integer.position - integerBegin > 1 ∧ rest.head? = some 0x30 then none
    else
      (scanFraction integer).bind fun fraction =>
      (scanExponent fraction.rest).bind fun exponent =>
        if exponent.rest ≠ [] then none
        else some
          { text := text
            exponent := exponent.digits
            integerEnd := integer.position
            firstNonzero := fraction.firstNonzero
            lastNonzero := fraction.lastNonzero
            negative := negative
            exponentNegative := exponent.negative }

/-! ## Orders clipped to `[-64, 64]` -/

def clippedUnsigned (digits : Bytes) : Int :=
  if digits.length > 2 then 64 else min (decimalNumber digits : Int) 64

/-- The subtraction from the last digits on; both texts are given backwards. -/
def differenceLoop : Bytes → Bytes → Int → Int → Int → Int
  | [], _, value, _, _ => value
  | left :: lefts, rights, value, place, borrow =>
    let digit := (left.toNat : Int) - 0x30 - borrow
    let digit := digit - (rights.head?.map fun right => (right.toNat : Int) - 0x30).getD 0
    let borrow : Int := if digit < 0 then 1 else 0
    let digit := if borrow ≠ 0 then digit + 10 else digit
    differenceLoop lefts rights.tail (min 64 (value + digit * place)) (min 64 (place * 10)) borrow

def clippedDifference (left right : Bytes) : Int :=
  let negative := left.length < right.length ∨ (left.length = right.length ∧ left < right)
  let larger := if negative then right else left
  let smaller := if negative then left else right
  if larger.length > 2 ∧ larger.length - smaller.length > 1 then
    if negative then -64 else 64
  else
    let value := differenceLoop larger.reverse smaller.reverse 0 1 0
    if negative then -value else value

/-! ## Views -/

structure DecimalView where
  digits : Bytes := []
  digitCount : Nat := 0
  order : Int := 0
  negative : Bool := false

/-- The `order` of `normalize_decimal`. -/
def decimalOrder (parts : DecimalParts) (firstNonzero : Nat) : Int :=
  let shiftNegative := decide (firstNonzero > parts.integerEnd)
  let shift := if shiftNegative then firstNonzero - parts.integerEnd - 1 else parts.integerEnd - firstNonzero
  let clippedShift : Int := min shift 64
  if parts.exponent = [] then
    if shiftNegative then -clippedShift else clippedShift
  else if shiftNegative = parts.exponentNegative then
    let order := min 64 (clippedShift + clippedUnsigned parts.exponent)
    if shiftNegative then -order else order
  else
    let order := clippedDifference parts.exponent (decimal shift)
    if parts.exponentNegative then -order else order

def normalizeDecimal (parts : DecimalParts) : DecimalView :=
  match parts.firstNonzero with
  | none => {}
  | some firstNonzero =>
    let digits := sub parts.text firstNonzero (parts.lastNonzero - firstNonzero + 1)
    let containsPoint := firstNonzero < parts.integerEnd ∧ parts.lastNonzero > parts.integerEnd
    { digits := digits
      digitCount := digits.length - if containsPoint then 1 else 0
      order := decimalOrder parts firstNonzero
      negative := parts.negative }

/-- The digit in front, and what is left of the text. -/
def nextDigit (digits : Bytes) : UInt8 × Bytes :=
  let digits := if digits.head? = some 0x2e then digits.tail else digits
  match digits with
  | [] => (0x30, [])
  | digit :: rest => (digit, rest)

theorem length_nextDigit_le (digits : Bytes) : (nextDigit digits).2.length ≤ digits.length - 1 := by
  rcases digits with _ | ⟨digit, rest⟩
  · simp [nextDigit]
  · by_cases hpoint : digit = 0x2e
    · rcases rest with _ | ⟨behind, rest⟩ <;> simp [nextDigit, hpoint]
    · simp [nextDigit, hpoint]

/-- The loop over the digits of two numbers of the same order. -/
def compareDigits (left right : Bytes) : Ordering :=
  if left = [] ∧ right = [] then .eq
  else
    match compare (nextDigit left).1.toNat (nextDigit right).1.toNat with
    | .eq => compareDigits (nextDigit left).2 (nextDigit right).2
    | magnitude => magnitude
termination_by left.length + right.length
decreasing_by
  have hleft := length_nextDigit_le left
  have hright := length_nextDigit_le right
  rcases not_and_or.mp ‹_› with h | h
  all_goals
    have := List.length_pos_iff.mpr h
    omega

def compareDecimal (left right : DecimalView) : Ordering :=
  if left.negative ≠ right.negative then
    if left.negative then .lt else .gt
  else
    let magnitude :=
      if left.digits = [] ∨ right.digits = [] then
        compare (if left.digits ≠ [] then 1 else 0) (if right.digits ≠ [] then 1 else 0 : Nat)
      else if left.order ≠ right.order then compare left.order right.order
      else compareDigits left.digits right.digits
    if left.negative then magnitude.swap else magnitude

/-! ## The clipped arithmetic -/

/-- The nearest number of `[-64, 64]`. -/
def clip (order : Int) : Int := max (-64) (min 64 order)

section

variable {left right digits : Bytes}

/-- Digits that are given backwards. -/
def backwardNumber : Bytes → Int
  | [] => 0
  | digit :: rest => digitNumber digit + 10 * backwardNumber rest

theorem backwardNumber_nonneg (digits : Bytes) : 0 ≤ backwardNumber digits := by
  induction digits with
  | nil => exact le_rfl
  | cons digit rest ih =>
    rw [backwardNumber]
    omega

theorem backwardNumber_reverse (digits : Bytes) : backwardNumber digits.reverse = decimalNumber digits := by
  induction digits using List.reverseRecOn with
  | nil => rfl
  | append_singleton digits digit ih =>
    rw [List.reverse_append, List.reverse_singleton, List.singleton_append, backwardNumber, ih,
      decimalNumber_append_singleton]
    push_cast
    ring

theorem backwardNumber_eq_head_add (digits : Bytes) (h : ∀ digit ∈ digits, IsDecimalDigit digit) :
    backwardNumber digits =
      (digits.head?.map fun digit => (digit.toNat : Int) - 0x30).getD 0 + 10 * backwardNumber digits.tail := by
  cases digits with
  | nil => rfl
  | cons digit rest =>
    have := (h digit List.mem_cons_self).1
    rw [backwardNumber, digitNumber, List.head?_cons, List.tail_cons, Option.map_some, Option.getD_some]
    omega

/-- Adding a digit at a clipped place. -/
theorem min_add_mul_min {value place digit : Int} (hvalue : 0 ≤ value) (hplace : 0 ≤ place) (hdigit : 0 ≤ digit) :
    min 64 (min 64 value + digit * min 64 place) = min 64 (value + digit * place) := by
  rcases hdigit.eq_or_lt with rfl | hpos
  · simp
  · rcases le_or_gt place 64 with hle | hgt
    · rw [min_eq_right hle]
      have : 0 ≤ digit * place := Int.mul_nonneg hdigit hplace
      omega
    · rw [min_eq_left hgt.le]
      have hlarge : 1 * place ≤ digit * place := Int.mul_le_mul_of_nonneg_right hpos hplace
      omega

/-- **The loop subtracts**, and clips what it returns. -/
theorem differenceLoop_eq {value place borrow : Int} (hleft : ∀ digit ∈ left, IsDecimalDigit digit)
    (hright : ∀ digit ∈ right, IsDecimalDigit digit) (hvalue : 0 ≤ value) (hplace : 1 ≤ place) (hborrow : 0 ≤ borrow)
    (hborrow' : borrow ≤ 1) (h : 0 ≤ backwardNumber left - backwardNumber right - borrow) :
    differenceLoop left right (min 64 value) (min 64 place) borrow =
      min 64 (value + place * (backwardNumber left - backwardNumber right - borrow)) := by
  induction left generalizing right value place borrow with
  | nil =>
    have hpos := backwardNumber_nonneg right
    have hzero : backwardNumber [] - backwardNumber right - borrow = 0 := by
      rw [backwardNumber] at h ⊢
      omega
    rw [differenceLoop, hzero]
    simp
  | cons digit rest ih =>
    have hdigit := hleft digit List.mem_cons_self
    have hrest : ∀ digit ∈ rest, IsDecimalDigit digit := fun d hmem => hleft d (List.mem_cons_of_mem _ hmem)
    have htail : ∀ digit ∈ right.tail, IsDecimalDigit digit := fun d hmem => hright d (List.mem_of_mem_tail hmem)
    have hhead : 0 ≤ (right.head?.map fun digit => (digit.toNat : Int) - 0x30).getD 0 ∧
        (right.head?.map fun digit => (digit.toNat : Int) - 0x30).getD 0 ≤ 9 := by
      cases right with
      | nil => exact ⟨le_rfl, by decide⟩
      | cons other others =>
        obtain ⟨hlow, hhigh⟩ := hright other List.mem_cons_self
        rw [List.head?_cons, Option.map_some, Option.getD_some]
        omega
    have hsplit := backwardNumber_eq_head_add right hright
    generalize hother : (right.head?.map fun digit => (digit.toNat : Int) - 0x30).getD 0 = other at hhead hsplit ⊢
    rw [backwardNumber, hsplit, digitNumber] at h ⊢
    obtain ⟨hlow, hhigh⟩ := hdigit
    -- One digit of the difference, with the borrow that keeps it a digit.
    obtain ⟨d, b, hd, hd', hb, hb', heq, hstep⟩ : ∃ d b : Int, 0 ≤ d ∧ d ≤ 9 ∧ 0 ≤ b ∧ b ≤ 1 ∧
        d = (digit.toNat : Int) - 0x30 - borrow - other + 10 * b ∧
        differenceLoop (digit :: rest) right (min 64 value) (min 64 place) borrow =
          differenceLoop rest right.tail (min 64 (min 64 value + d * min 64 place)) (min 64 (min 64 place * 10)) b := by
      by_cases hneg : (digit.toNat : Int) - 0x30 - borrow - other < 0
      · refine ⟨_, 1, ?_, ?_, by omega, le_rfl, rfl, ?_⟩
        · omega
        · omega
        · simp [differenceLoop, hother, hneg]
      · refine ⟨_, 0, ?_, ?_, le_rfl, by omega, rfl, ?_⟩
        · omega
        · omega
        · simp [differenceLoop, hother, hneg]
    have hplace' : min 64 (min 64 place * 10) = min 64 (place * 10) := by omega
    have hrest' : 0 ≤ backwardNumber rest - backwardNumber right.tail - b := by omega
    have hvalue' : 0 ≤ value + d * place := by positivity
    have hnumber : (digit.toNat - 0x30 : Nat) + 10 * backwardNumber rest - (other + 10 * backwardNumber right.tail) -
        borrow = d + 10 * (backwardNumber rest - backwardNumber right.tail - b) := by omega
    rw [hstep, min_add_mul_min hvalue (by omega) hd, hplace', ih hrest htail hvalue' (by omega) hb hb' hrest', hnumber]
    congr 1
    ring

theorem clippedUnsigned_eq (hdigits : ∀ digit ∈ digits, IsDecimalDigit digit) (hne : digits ≠ [])
    (hhead : digits.head? ≠ some 0x30) : clippedUnsigned digits = min 64 (decimalNumber digits : Int) := by
  rw [clippedUnsigned]
  split
  · rename_i hlength
    have hpow := pow_le_decimalNumber hdigits hne hhead
    have hmono : 10 ^ 2 ≤ 10 ^ (digits.length - 1) := Nat.pow_le_pow_right (by omega) (by omega)
    omega
  · exact min_comm _ _

/-- The larger of two texts without leading zeros; the smaller may be a zero. -/
theorem difference_eq (hleft : ∀ digit ∈ left, IsDecimalDigit digit) (hright : ∀ digit ∈ right, IsDecimalDigit digit)
    (h : decimalNumber right ≤ decimalNumber left) :
    differenceLoop left.reverse right.reverse 0 1 0 = min 64 ((decimalNumber left : Int) - decimalNumber right) := by
  have hreverse : ∀ digit ∈ left.reverse, IsDecimalDigit digit := fun d hmem => hleft d (List.mem_reverse.mp hmem)
  have hreverse' : ∀ digit ∈ right.reverse, IsDecimalDigit digit := fun d hmem => hright d (List.mem_reverse.mp hmem)
  have hloop := @differenceLoop_eq left.reverse right.reverse 0 1 0 hreverse hreverse' le_rfl le_rfl le_rfl (by omega)
    (by rw [backwardNumber_reverse, backwardNumber_reverse]; omega)
  rw [backwardNumber_reverse, backwardNumber_reverse] at hloop
  calc differenceLoop left.reverse right.reverse 0 1 0
      = differenceLoop left.reverse right.reverse (min 64 0) (min 64 1) 0 := rfl
    _ = min 64 (0 + 1 * ((decimalNumber left : Int) - decimalNumber right - 0)) := hloop
    _ = min 64 ((decimalNumber left : Int) - decimalNumber right) := by
      congr 1
      ring

/-- The shortcut by the lengths is only taken for a difference that the clip hides. -/
theorem le_difference_of_length (hleft : ∀ digit ∈ left, IsDecimalDigit digit) (hhead : left.head? ≠ some 0x30)
    (hright : ∀ digit ∈ right, IsDecimalDigit digit) (hlength : left.length > 2)
    (hgap : left.length - right.length > 1) : decimalNumber right + 64 ≤ decimalNumber left := by
  obtain ⟨k, hk⟩ : ∃ k, left.length = k + 2 := ⟨left.length - 2, by omega⟩
  have hne : left ≠ [] := by
    rintro rfl
    cases hlength
  have hlow := pow_le_decimalNumber hleft hne hhead
  have hhigh := decimalNumber_lt hright
  have hmono : 10 ^ right.length ≤ 10 ^ k := Nat.pow_le_pow_right (by omega) (by omega)
  have hpow : 10 ^ 1 ≤ 10 ^ k := Nat.pow_le_pow_right (by omega) (by omega)
  rw [hk, Nat.add_succ_sub_one, Nat.pow_succ] at hlow
  omega

/-- **The clipped difference** of an exponent and a shift. -/
theorem clippedDifference_eq {shift : Nat} (hleft : ∀ digit ∈ left, IsDecimalDigit digit) (hne : left ≠ [])
    (hhead : left.head? ≠ some 0x30) :
    clippedDifference left (decimal shift) = clip ((decimalNumber left : Int) - shift) := by
  have hright : ∀ digit ∈ decimal shift, IsDecimalDigit digit := fun _ => isDecimalDigit_of_mem_decimal
  have hnumber : decimalNumber (decimal shift) = shift := decimalNumber_decimal shift
  have hlow := pow_le_decimalNumber hleft hne hhead
  have hhigh := decimalNumber_lt hleft
  have hshift := decimalNumber_lt hright
  have hpos := List.length_pos_iff.mpr hne
  -- The second text is longer only when it is not a zero.
  have hleading : left.length ≤ (decimal shift).length → decimalNumber left < shift →
      (decimal shift).head? ≠ some 0x30 := by
    intro _ hlt hzero
    rw [decimal_eq_of_head?_eq hzero] at hnumber
    simp [decimalNumber] at hnumber
    omega
  have hnegative : (left.length < (decimal shift).length ∨
      (left.length = (decimal shift).length ∧ left < decimal shift)) ↔ decimalNumber left < shift := by
    rcases Nat.lt_trichotomy left.length (decimal shift).length with h | h | h
    · have hhead' : (decimal shift).head? ≠ some 0x30 := by
        intro hzero
        rw [decimal_eq_of_head?_eq hzero, List.length_singleton] at h
        omega
      have hpow := pow_le_decimalNumber hright (decimal_ne_nil shift) hhead'
      have hmono : 10 ^ left.length ≤ 10 ^ ((decimal shift).length - 1) :=
        Nat.pow_le_pow_right (by omega) (by omega)
      constructor
      · intro _
        omega
      · intro _
        exact Or.inl h
    · rw [lt_iff_decimalNumber_lt hleft hright h, hnumber]
      constructor
      · rintro (hlt | ⟨-, hlt⟩) <;> omega
      · intro hlt
        exact Or.inr ⟨h, hlt⟩
    · have hmono : 10 ^ (decimal shift).length ≤ 10 ^ (left.length - 1) :=
        Nat.pow_le_pow_right (by omega) (by omega)
      constructor
      · rintro (hlt | ⟨heq, -⟩) <;> omega
      · intro hlt
        omega
  unfold clippedDifference
  rw [clip]
  by_cases hlt : decimalNumber left < shift
  · simp only [hnegative, hlt, if_true]
    split
    · rename_i hlong
      have hhead' := hleading (by omega) hlt
      have := le_difference_of_length hright hhead' hleft hlong.1 hlong.2
      omega
    · rw [difference_eq hright hleft (by omega), hnumber]
      omega
  · simp only [hnegative, hlt, if_false]
    split
    · rename_i hlong
      have := le_difference_of_length hleft hhead hright hlong.1 hlong.2
      omega
    · rw [difference_eq hleft hright (by omega), hnumber]
      omega

end
end Ruvia.Web.JwtDate
