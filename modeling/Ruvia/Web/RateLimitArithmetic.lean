import Mathlib.Algebra.Group.Nat.Defs
import Mathlib.Tactic.Ring

/-!
# `Web.RateLimitArithmetic` — the 64- and 128-bit arithmetic of the rate limiter

`saturating_add`, `multiply_wide`, `wide_predecessor` and `divide_wide`. A word is a number below `2 ^ 64`; each
function computes what the arithmetic of numbers says (`multiplyWide_value`, `divideWide_eq`).
-/

namespace Ruvia.Web

def maxWord : Nat := 2 ^ 64 - 1

def saturatingAdd (left right : Nat) : Nat := if maxWord - left < right then maxWord else left + right

theorem saturatingAdd_of_le {left right : Nat} (h : left + right ≤ maxWord) :
    saturatingAdd left right = left + right := by
  unfold saturatingAdd
  rw [if_neg (by omega)]

/-! ## Wide values -/

structure WideUnsigned where
  high : Nat
  low : Nat
  deriving DecidableEq, Repr

namespace WideUnsigned

def value (wide : WideUnsigned) : Nat := wide.high * 2 ^ 64 + wide.low

/-- The defaulted ordering, the high word first. -/
def less (left right : WideUnsigned) : Bool :=
  left.high < right.high || (left.high == right.high && left.low < right.low)

theorem less_iff {left right : WideUnsigned} (hleft : left.low < 2 ^ 64) (hright : right.low < 2 ^ 64) :
    left.less right = true ↔ left.value < right.value := by
  unfold less value
  simp only [Bool.or_eq_true, Bool.and_eq_true, decide_eq_true_eq, beq_iff_eq]
  omega

end WideUnsigned

/-- The product by halves of words. The source's `|` joins bits that do not meet. -/
def multiplyWide (left right : Nat) : WideUnsigned :=
  let lowLow := (left % 2 ^ 32) * (right % 2 ^ 32)
  let lowHigh := (left % 2 ^ 32) * (right / 2 ^ 32)
  let highLow := (left / 2 ^ 32) * (right % 2 ^ 32)
  let highHigh := (left / 2 ^ 32) * (right / 2 ^ 32)
  let middle := lowLow / 2 ^ 32 + lowHigh % 2 ^ 32 + highLow % 2 ^ 32
  { high := (highHigh + lowHigh / 2 ^ 32 + highLow / 2 ^ 32 + middle / 2 ^ 32) % 2 ^ 64
    low := middle * 2 ^ 32 % 2 ^ 64 + lowLow % 2 ^ 32 }

theorem multiplyWide_low_lt (left right : Nat) : (multiplyWide left right).low < 2 ^ 64 := by
  unfold multiplyWide
  dsimp only
  omega

/-- **The product is exact.** -/
theorem multiplyWide_value {left right : Nat} (hleft : left < 2 ^ 64) (hright : right < 2 ^ 64) :
    (multiplyWide left right).value = left * right := by
  have hbound : left * right < 2 ^ 64 * 2 ^ 64 := Nat.mul_lt_mul'' hleft hright
  have hsplit : left * right = (left / 2 ^ 32) * (right / 2 ^ 32) * 2 ^ 64 +
      ((left % 2 ^ 32) * (right / 2 ^ 32) + (left / 2 ^ 32) * (right % 2 ^ 32)) * 2 ^ 32 +
      (left % 2 ^ 32) * (right % 2 ^ 32) := by
    have hl := Nat.div_add_mod left (2 ^ 32)
    have hr := Nat.div_add_mod right (2 ^ 32)
    calc left * right
        = (2 ^ 32 * (left / 2 ^ 32) + left % 2 ^ 32) * (2 ^ 32 * (right / 2 ^ 32) + right % 2 ^ 32) := by rw [hl, hr]
      _ = _ := by ring
  unfold multiplyWide WideUnsigned.value
  dsimp only
  generalize (left % 2 ^ 32) * (right % 2 ^ 32) = lowLow at *
  generalize (left % 2 ^ 32) * (right / 2 ^ 32) = lowHigh at *
  generalize (left / 2 ^ 32) * (right % 2 ^ 32) = highLow at *
  generalize (left / 2 ^ 32) * (right / 2 ^ 32) = highHigh at *
  omega

/-- Requires a nonzero value. -/
def widePredecessor (value : WideUnsigned) : WideUnsigned :=
  if value.low = 0 then { high := value.high - 1, low := maxWord } else { high := value.high, low := value.low - 1 }

theorem widePredecessor_value {wide : WideUnsigned} (h : wide.value ≠ 0) :
    (widePredecessor wide).value = wide.value - 1 := by
  unfold widePredecessor WideUnsigned.value maxWord at *
  split
  all_goals
    dsimp only
    omega

theorem widePredecessor_low_lt {wide : WideUnsigned} (h : wide.low < 2 ^ 64) :
    (widePredecessor wide).low < 2 ^ 64 := by
  unfold widePredecessor maxWord
  split
  · exact Nat.sub_lt (by decide) (by decide)
  · dsimp only
    omega

/-! ## Division -/

/-- The restoring division of the bits that are left, the highest one first. -/
def divideBits (low divisor : Nat) : Nat → Nat → Nat → Nat
  | 0, _, quotient => quotient
  | bit + 1, remainder, quotient =>
    -- A set top bit makes the shifted remainder 2^64 or more; the subtraction then comes around.
    let carry := remainder / 2 ^ 63 ≠ 0
    let shifted := remainder * 2 % 2 ^ 64 + low / 2 ^ bit % 2
    if carry ∨ divisor ≤ shifted then
      divideBits low divisor bit ((shifted + 2 ^ 64 - divisor) % 2 ^ 64) (quotient * 2 + 1)
    else divideBits low divisor bit shifted (quotient * 2)

/-- Requires `dividend.high < divisor`. -/
def divideWide (dividend : WideUnsigned) (divisor : Nat) : Nat :=
  if dividend.high = 0 then dividend.low / divisor else divideBits dividend.low divisor 64 dividend.high 0

/-- One step of the division keeps the part of the dividend read so far. -/
theorem divideBits_eq {dividend low divisor : Nat} (hdivisor : divisor < 2 ^ 64) (bits : Nat)
    (hlow : ∀ bit, bit < bits → dividend / 2 ^ bit % 2 = low / 2 ^ bit % 2) (remainder quotient : Nat)
    (hremainder : remainder < divisor) (hread : dividend / 2 ^ bits = quotient * divisor + remainder) :
    divideBits low divisor bits remainder quotient = dividend / divisor := by
  induction bits generalizing remainder quotient with
  | zero =>
    rw [Nat.pow_zero, Nat.div_one] at hread
    show quotient = dividend / divisor
    rw [hread, Nat.add_comm, Nat.mul_comm, Nat.add_mul_div_left _ _ (by omega), Nat.div_eq_of_lt hremainder,
      Nat.zero_add]
  | succ bit ih =>
    have hbit := hlow bit (Nat.lt_succ_self bit)
    have hhalf : dividend / 2 ^ bit / 2 = dividend / 2 ^ (bit + 1) := by
      rw [Nat.div_div_eq_div_mul, Nat.pow_succ]
    have hnext : dividend / 2 ^ bit = quotient * divisor * 2 + remainder * 2 + low / 2 ^ bit % 2 := by omega
    have hbelow : low / 2 ^ bit % 2 < 2 := Nat.mod_lt _ (by decide)
    have hlow' : ∀ other, other < bit → dividend / 2 ^ other % 2 = low / 2 ^ other % 2 :=
      fun other hother => hlow other (Nat.lt_succ_of_lt hother)
    unfold divideBits
    dsimp only
    split
    · rename_i htake
      refine ih hlow' _ _ (by omega) ?_
      rw [hnext, Nat.add_mul, Nat.mul_right_comm]
      omega
    · rename_i hleave
      refine ih hlow' _ _ (by omega) ?_
      rw [hnext, Nat.mul_right_comm]
      omega

/-- **The quotient is exact**, if it fits. -/
theorem divideWide_eq {dividend : WideUnsigned} {divisor : Nat} (hlow : dividend.low < 2 ^ 64)
    (hhigh : dividend.high < divisor) (hdivisor : divisor < 2 ^ 64) :
    divideWide dividend divisor = dividend.value / divisor := by
  unfold divideWide
  split
  · rename_i hzero
    unfold WideUnsigned.value
    rw [hzero, Nat.zero_mul, Nat.zero_add]
  · refine divideBits_eq hdivisor 64 (fun bit hbit => ?_) dividend.high 0 hhigh ?_
    · unfold WideUnsigned.value
      have hpow : 2 ^ 64 = 2 ^ (63 - bit) * 2 * 2 ^ bit := by
        rw [Nat.mul_assoc, ← Nat.pow_succ', ← Nat.pow_add]
        congr 1
        omega
      rw [hpow, ← Nat.mul_assoc, ← Nat.mul_assoc, Nat.mul_comm _ (2 ^ bit), Nat.add_comm,
        Nat.add_mul_div_left _ _ (Nat.two_pow_pos bit), Nat.add_mul_mod_self_right]
    · unfold WideUnsigned.value
      omega

/-- **The wide arithmetic is exact**: the product of two words, the predecessor of every wide value but zero, and
the quotient by every divisor but zero with which it fits a word; each result is made of words. -/
theorem wide_arithmetic :
    (∀ left right : Nat, left < 2 ^ 64 → right < 2 ^ 64 →
      (multiplyWide left right).value = left * right ∧ (multiplyWide left right).high < 2 ^ 64 ∧
        (multiplyWide left right).low < 2 ^ 64) ∧
    (∀ wide : WideUnsigned, wide.high < 2 ^ 64 → wide.low < 2 ^ 64 → wide.value ≠ 0 →
      (widePredecessor wide).value = wide.value - 1 ∧ (widePredecessor wide).high < 2 ^ 64 ∧
        (widePredecessor wide).low < 2 ^ 64) ∧
    ∀ (dividend : WideUnsigned) (divisor : Nat), dividend.high < 2 ^ 64 → dividend.low < 2 ^ 64 →
      divisor < 2 ^ 64 → divisor ≠ 0 → dividend.value / divisor < 2 ^ 64 →
      divideWide dividend divisor = dividend.value / divisor := by
  refine ⟨fun left right hleft hright => ?_, fun wide hhigh hlow hnonzero => ?_, ?_⟩
  · exact ⟨multiplyWide_value hleft hright, Nat.mod_lt _ (by decide), multiplyWide_low_lt left right⟩
  · refine ⟨widePredecessor_value hnonzero, ?_, widePredecessor_low_lt hlow⟩
    unfold widePredecessor
    split
    · exact lt_of_le_of_lt (Nat.sub_le _ _) hhigh
    · exact hhigh
  · intro dividend divisor _ hlow hdivisor hnonzero hfits
    -- the quotient fits exactly when the high word is below the divisor
    have hhigh : dividend.high < divisor := by
      have hbelow := (Nat.div_lt_iff_lt_mul (Nat.pos_of_ne_zero hnonzero)).mp hfits
      unfold WideUnsigned.value at hbelow
      by_contra hle
      have := Nat.mul_le_mul_right (2 ^ 64) (not_lt.mp hle)
      rw [Nat.mul_comm divisor] at this
      omega
    exact divideWide_eq hlow hhigh hdivisor

end Ruvia.Web
