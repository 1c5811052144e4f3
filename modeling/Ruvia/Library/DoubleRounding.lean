import Mathlib.Algebra.Group.Nat.Defs
import Mathlib.Algebra.Order.Group.Int
import Mathlib.Data.Nat.Log

/-!
# `Library.DoubleRounding` — integers as doubles

The conversion of an integer to a binary64 number: the nearest with 53 significant bits, ties to an even last bit.
An integer below `2 ^ 53` is kept, and one that is not stays there.
-/

namespace Library

/-- The bits of a number that a double drops. -/
def droppedBits (n : Nat) : Nat := Nat.log2 n + 1 - 53

/-- The double nearest to a number. -/
def roundToDouble (n : Nat) : Nat :=
  let unit := 2 ^ droppedBits n
  let kept := n / unit
  let rest := n % unit
  if unit < 2 * rest ∨ 2 * rest = unit ∧ kept % 2 = 1 then (kept + 1) * unit else kept * unit

/-- The double nearest to an integer. -/
def roundIntToDouble (i : Int) : Int := if i < 0 then -(roundToDouble i.natAbs : Int) else roundToDouble i.natAbs

variable {n : Nat} {i : Int}

theorem droppedBits_eq_zero (h : n < 2 ^ 53) : droppedBits n = 0 := by
  rcases Nat.eq_zero_or_pos n with rfl | hpos
  · rfl
  · have := (Nat.log2_lt (by omega)).mpr h
    rw [droppedBits]
    omega

/-- A number below `2 ^ 53` is a double. -/
theorem roundToDouble_of_lt (h : n < 2 ^ 53) : roundToDouble n = n := by
  simp only [roundToDouble, droppedBits_eq_zero h, Nat.pow_zero, Nat.mod_one, Nat.div_one, Nat.mul_zero, Nat.mul_one]
  rw [if_neg (by omega)]

/-- Rounding does not go below a power of two. -/
theorem le_roundToDouble (h : 2 ^ 53 ≤ n) : 2 ^ 53 ≤ roundToDouble n := by
  have hne : n ≠ 0 := by
    rintro rfl
    omega
  have hlog : 53 ≤ Nat.log2 n := (Nat.le_log2 hne).mpr h
  have hself : 2 ^ Nat.log2 n ≤ n := Nat.log2_self_le hne
  have hsplit : 2 ^ (Nat.log2 n - droppedBits n) * 2 ^ droppedBits n = 2 ^ Nat.log2 n := by
    rw [← Nat.pow_add]
    congr 1
    rw [droppedBits]
    omega
  have hkept : 2 ^ (Nat.log2 n - droppedBits n) ≤ n / 2 ^ droppedBits n := by
    rw [Nat.le_div_iff_mul_le (Nat.two_pow_pos _), hsplit]
    exact hself
  have hlow : 2 ^ 53 ≤ n / 2 ^ droppedBits n * 2 ^ droppedBits n :=
    calc 2 ^ 53 ≤ 2 ^ Nat.log2 n := Nat.pow_le_pow_right (by omega) hlog
      _ = 2 ^ (Nat.log2 n - droppedBits n) * 2 ^ droppedBits n := hsplit.symm
      _ ≤ _ := Nat.mul_le_mul_right _ hkept
  simp only [roundToDouble]
  split
  · exact hlow.trans (Nat.mul_le_mul_right _ (Nat.le_succ _))
  · exact hlow

theorem roundToDouble_lt_iff : roundToDouble n < 2 ^ 53 ↔ n < 2 ^ 53 := by
  rcases Nat.lt_or_ge n (2 ^ 53) with h | h
  · rw [roundToDouble_of_lt h]
  · have := le_roundToDouble h
    omega

theorem natAbs_roundIntToDouble (i : Int) : (roundIntToDouble i).natAbs = roundToDouble i.natAbs := by
  rw [roundIntToDouble]
  split <;> simp

theorem roundIntToDouble_of_lt (h : i.natAbs < 2 ^ 53) : roundIntToDouble i = i := by
  rw [roundIntToDouble, roundToDouble_of_lt h]
  split <;> omega

end Library
