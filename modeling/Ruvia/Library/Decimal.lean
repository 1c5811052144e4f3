import Ruvia.Library.ByteString

/-!
# `Library.Decimal` — integers as decimal text

`decimal` and `signedDecimal` are the shortest decimal forms, as `std::to_chars` writes integers; `decimalValue`
reads digits back.
-/

namespace Library

/-- The digit of a number below ten. -/
def digitByte (n : Nat) : UInt8 := UInt8.ofNat (0x30 + n)

/-- The decimal form of a number. -/
def decimal (n : Nat) : Bytes :=
  if n < 10 then [digitByte n] else decimal (n / 10) ++ [digitByte (n % 10)]

/-- The decimal form of an integer. -/
def signedDecimal (i : Int) : Bytes := if i < 0 then 0x2d :: decimal i.natAbs else decimal i.natAbs

/-- The number a text of digits stands for. -/
def decimalNumber (digits : Bytes) : Nat := digits.foldl (fun n digit => 10 * n + (digit.toNat - 0x30)) 0

variable {n k : Nat}

theorem toNat_digitByte (h : n < 10) : (digitByte n).toNat = 0x30 + n := by
  rw [digitByte, UInt8.toNat_ofNat']
  omega

theorem decimal_of_lt (h : n < 10) : decimal n = [digitByte n] := by
  rw [decimal, if_pos h]

theorem decimal_of_le (h : 10 ≤ n) : decimal n = decimal (n / 10) ++ [digitByte (n % 10)] := by
  rw [decimal, if_neg (by omega)]

theorem decimal_ne_nil (n : Nat) : decimal n ≠ [] := by
  rcases Nat.lt_or_ge n 10 with h | h
  · simp [decimal_of_lt h]
  · simp [decimal_of_le h]

/-- A decimal form is made of digits. -/
theorem decimal_digits (n : Nat) : ∀ byte ∈ decimal n, 0x30 ≤ byte.toNat ∧ byte.toNat ≤ 0x39 := by
  fun_induction decimal n with
  | case1 n h =>
    intro byte hmem
    rw [List.mem_singleton.mp hmem, toNat_digitByte h]
    omega
  | case2 n h ih =>
    intro byte hmem
    rcases List.mem_append.mp hmem with hmem | hmem
    · exact ih byte hmem
    · rw [List.mem_singleton.mp hmem, toNat_digitByte (Nat.mod_lt _ (by omega))]
      omega

/-- A number below `10 ^ k` takes at most `k` digits. -/
theorem length_decimal_le (hk : 0 < k) (h : n < 10 ^ k) : (decimal n).length ≤ k := by
  induction k generalizing n with
  | zero => omega
  | succ k ih =>
    rcases Nat.lt_or_ge n 10 with hn | hn
    · rw [decimal_of_lt hn, List.length_singleton]
      omega
    · have hkpos : 0 < k := by
        rcases Nat.eq_zero_or_pos k with rfl | hpos
        · omega
        · exact hpos
      have hdiv : n / 10 < 10 ^ k := by
        omega
      rw [decimal_of_le hn, List.length_append, List.length_singleton]
      have := ih hkpos hdiv
      omega

/-- **The digits of a number** stand for it. -/
@[simp] theorem decimalNumber_decimal (n : Nat) : decimalNumber (decimal n) = n := by
  fun_induction decimal n with
  | case1 n h =>
    simp only [decimalNumber, List.foldl_cons, List.foldl_nil, toNat_digitByte h]
    omega
  | case2 n h ih =>
    have hdigit := toNat_digitByte (Nat.mod_lt n (show 0 < 10 by omega))
    simp only [decimalNumber] at ih
    simp only [decimalNumber, List.foldl_append, List.foldl_cons, List.foldl_nil, ih, hdigit]
    omega

theorem decimal_injective {m : Nat} (h : decimal n = decimal m) : n = m := by
  rw [← decimalNumber_decimal n, h, decimalNumber_decimal]

end Library
