import Mathlib.Algebra.Order.Field.Power
import Mathlib.Algebra.Order.Ring.Rat
import Mathlib.Data.Rat.Cast.Order
import Mathlib.Order.Compare
import Mathlib.Tactic.FieldSimp
import Mathlib.Tactic.Linarith
import Mathlib.Tactic.Positivity
import Mathlib.Tactic.Ring
import Ruvia.Library.Decimal

/-!
# `Library.DecimalFraction` — digits behind a point and their order

A positive decimal number is `0.d₁d₂… · 10 ^ order`, where the first digit is not zero. In this form the order of two
numbers is read off: first from the two orders (`scaled_lt_scaled`), then from the first pair of digits that differ
(`compares_cons`).
-/

namespace Library

/-- The byte is a decimal digit. -/
def IsDecimalDigit (byte : UInt8) : Prop := 0x30 ≤ byte.toNat ∧ byte.toNat ≤ 0x39

instance (byte : UInt8) : Decidable (IsDecimalDigit byte) := inferInstanceAs (Decidable (_ ∧ _))

/-- The number a digit stands for. -/
def digitNumber (digit : UInt8) : Nat := digit.toNat - 0x30

/-- The number `0.d₁d₂…`. -/
def decimalFraction : Bytes → ℚ
  | [] => 0
  | digit :: rest => (digitNumber digit + decimalFraction rest) / 10

/-- The number `0.d₁d₂… · 10 ^ order`. -/
def scaled (digits : Bytes) (order : ℤ) : ℚ := decimalFraction digits * 10 ^ order

section

variable {digit : UInt8} {rest ds es : Bytes} {n : Nat}

theorem digitNumber_le (h : IsDecimalDigit digit) : digitNumber digit ≤ 9 := by
  have := h.2
  rw [digitNumber]
  omega

theorem digitNumber_pos (h : IsDecimalDigit digit) (hne : digit ≠ 0x30) : 1 ≤ digitNumber digit := by
  have hlow := h.1
  have : digit.toNat ≠ 0x30 := fun heq => hne (UInt8.toNat_inj.mp heq)
  rw [digitNumber]
  omega

@[simp] theorem digitNumber_zero : digitNumber 0x30 = 0 := by
  simp [digitNumber]

theorem compare_digitNumber {digit' : UInt8} (h : IsDecimalDigit digit) (h' : IsDecimalDigit digit') :
    compare (digitNumber digit) (digitNumber digit') = compare digit.toNat digit'.toNat := by
  have hlow := h.1
  have hlow' := h'.1
  rcases Nat.lt_trichotomy digit.toNat digit'.toNat with hlt | heq | hgt
  · rw [Nat.compare_eq_lt.mpr hlt, Nat.compare_eq_lt, digitNumber, digitNumber]
    omega
  · rw [Nat.compare_eq_eq.mpr heq, Nat.compare_eq_eq, digitNumber, digitNumber]
    omega
  · rw [Nat.compare_eq_gt.mpr hgt, Nat.compare_eq_gt, digitNumber, digitNumber]
    omega

theorem isDecimalDigit_digitByte (h : n < 10) : IsDecimalDigit (digitByte n) := by
  rw [IsDecimalDigit, toNat_digitByte h]
  omega

theorem digitNumber_digitByte (h : n < 10) : digitNumber (digitByte n) = n := by
  rw [digitNumber, toNat_digitByte h]
  omega

/-- The decimal form of a positive number does not begin with a zero. -/
theorem exists_decimal_eq_cons (h : 0 < n) : ∃ digit rest, decimal n = digit :: rest ∧ digit ≠ 0x30 := by
  fun_induction decimal n with
  | case1 n hn =>
    refine ⟨digitByte n, [], rfl, fun heq => ?_⟩
    have := congrArg UInt8.toNat heq
    rw [toNat_digitByte hn] at this
    exact absurd this (by simp; omega)
  | case2 n hn ih =>
    obtain ⟨digit, rest, hdecimal, hne⟩ := ih (by omega)
    exact ⟨digit, rest ++ [digitByte (n % 10)], by rw [hdecimal, List.cons_append], hne⟩

theorem decimal_eq_of_head?_eq (h : (decimal n).head? = some 0x30) : decimal n = [0x30] := by
  rcases Nat.eq_zero_or_pos n with rfl | hpos
  · exact decimal_of_lt (by omega)
  · obtain ⟨digit, rest, hdecimal, hne⟩ := exists_decimal_eq_cons hpos
    rw [hdecimal] at h
    exact absurd (Option.some.inj h) hne

theorem isDecimalDigit_of_mem_decimal (h : digit ∈ decimal n) : IsDecimalDigit digit :=
  decimal_digits n digit h

theorem decimalNumber_append_singleton (ds : Bytes) (digit : UInt8) :
    decimalNumber (ds ++ [digit]) = 10 * decimalNumber ds + digitNumber digit := by
  simp [decimalNumber, digitNumber]

theorem decimalNumber_append (ds es : Bytes) :
    decimalNumber (ds ++ es) = decimalNumber ds * 10 ^ es.length + decimalNumber es := by
  induction es using List.reverseRecOn with
  | nil => simp [decimalNumber]
  | append_singleton es digit ih =>
    rw [← List.append_assoc, decimalNumber_append_singleton, ih, decimalNumber_append_singleton, List.length_append,
      List.length_singleton, Nat.pow_succ]
    ring

theorem decimalNumber_singleton (digit : UInt8) : decimalNumber [digit] = digitNumber digit := by
  simp [decimalNumber, digitNumber]

theorem decimalNumber_lt (h : ∀ digit ∈ ds, IsDecimalDigit digit) : decimalNumber ds < 10 ^ ds.length := by
  induction ds using List.reverseRecOn with
  | nil => simp [decimalNumber]
  | append_singleton ds digit ih =>
    have hds := ih fun digit hmem => h digit (List.mem_append_left _ hmem)
    have hdigit := digitNumber_le (h digit (List.mem_append_right _ List.mem_cons_self))
    rw [decimalNumber_append_singleton, List.length_append, List.length_singleton, Nat.pow_succ]
    omega

/-! ## Fractions -/

theorem decimalFraction_nonneg (ds : Bytes) : 0 ≤ decimalFraction ds := by
  induction ds with
  | nil => exact le_rfl
  | cons digit rest ih =>
    rw [decimalFraction]
    positivity

theorem decimalFraction_lt_one (h : ∀ digit ∈ ds, IsDecimalDigit digit) : decimalFraction ds < 1 := by
  induction ds with
  | nil => exact zero_lt_one
  | cons digit rest ih =>
    have hrest := ih fun digit hmem => h digit (List.mem_cons_of_mem _ hmem)
    have hdigit : (digitNumber digit : ℚ) ≤ 9 := by
      exact_mod_cast digitNumber_le (h digit List.mem_cons_self)
    rw [decimalFraction, div_lt_one (by norm_num)]
    linarith

theorem decimalFraction_append (ds es : Bytes) :
    decimalFraction (ds ++ es) = decimalFraction ds + decimalFraction es / 10 ^ ds.length := by
  induction ds with
  | nil => simp [decimalFraction]
  | cons digit rest ih =>
    rw [List.cons_append, decimalFraction, ih, decimalFraction, List.length_cons, pow_succ]
    field_simp
    ring

theorem decimalFraction_eq (ds : Bytes) : decimalFraction ds = decimalNumber ds / 10 ^ ds.length := by
  induction ds using List.reverseRecOn with
  | nil => simp [decimalFraction, decimalNumber]
  | append_singleton ds digit ih =>
    rw [decimalFraction_append, ih, decimalNumber_append_singleton, List.length_append, List.length_singleton,
      pow_succ, decimalFraction, decimalFraction]
    push_cast
    field_simp
    ring

theorem decimalFraction_zeros (n : Nat) : decimalFraction (List.replicate n 0x30) = 0 := by
  induction n with
  | zero => rfl
  | succ n ih => rw [List.replicate_succ, decimalFraction, ih, digitNumber_zero]; simp

/-- **Zeros behind** the digits change nothing. -/
theorem decimalFraction_append_zeros (ds : Bytes) (n : Nat) :
    decimalFraction (ds ++ List.replicate n 0x30) = decimalFraction ds := by
  rw [decimalFraction_append, decimalFraction_zeros, zero_div, add_zero]

/-- **Zeros in front** of the digits move the point. -/
theorem decimalFraction_zeros_append (ds : Bytes) (n : Nat) :
    decimalFraction (List.replicate n 0x30 ++ ds) = decimalFraction ds / 10 ^ n := by
  rw [decimalFraction_append, decimalFraction_zeros, zero_add, List.length_replicate]

theorem one_tenth_le (h : IsDecimalDigit digit) (hne : digit ≠ 0x30) : 1 / 10 ≤ decimalFraction (digit :: rest) := by
  have hdigit : (1 : ℚ) ≤ digitNumber digit := by
    exact_mod_cast digitNumber_pos h hne
  have hrest := decimalFraction_nonneg rest
  rw [decimalFraction]
  linarith

/-- The **first pair of digits** that differ decides. -/
theorem compares_cons {digit' : UInt8} {rest' : Bytes} {next : Ordering} (hrest : decimalFraction rest < 1)
    (hrest' : decimalFraction rest' < 1) (hnext : next.Compares (decimalFraction rest) (decimalFraction rest')) :
    ((compare (digitNumber digit) (digitNumber digit')).then next).Compares (decimalFraction (digit :: rest))
      (decimalFraction (digit' :: rest')) := by
  have hpos := decimalFraction_nonneg rest
  have hpos' := decimalFraction_nonneg rest'
  simp only [decimalFraction]
  rcases Nat.lt_trichotomy (digitNumber digit) (digitNumber digit') with h | h | h
  · have hlt : (digitNumber digit : ℚ) + 1 ≤ digitNumber digit' := by
      exact_mod_cast h
    rw [Nat.compare_eq_lt.mpr h]
    exact show _ < _ by linarith
  · rw [Nat.compare_eq_eq.mpr h, h]
    cases next with
    | lt => exact show _ < _ by have : _ < _ := hnext; linarith
    | eq => exact show _ = _ by have : _ = _ := hnext; rw [this]
    | gt => exact show _ > _ by have : _ > _ := hnext; simp only [gt_iff_lt] at this ⊢; linarith
  · have hlt : (digitNumber digit' : ℚ) + 1 ≤ digitNumber digit := by
      exact_mod_cast h
    rw [Nat.compare_eq_gt.mpr h]
    exact show _ > _ by simp only [gt_iff_lt]; linarith

end

/-! ## Significant digits -/

section

variable {digit : UInt8} {ds es rest : Bytes}

/-- Digits that begin and end with one that is not zero. -/
structure IsSignificant (core : Bytes) : Prop where
  digits : ∀ digit ∈ core, IsDecimalDigit digit
  ne_nil : core ≠ []
  head_ne : core.head? ≠ some 0x30
  last_ne : core.getLast? ≠ some 0x30

/-- Digits are zeros, or end with zeros behind one that is not. -/
theorem eq_zeros_or_trim (ds : Bytes) :
    ds = List.replicate ds.length 0x30 ∨
      ∃ front k, ds = front ++ List.replicate k 0x30 ∧ front ≠ [] ∧ front.getLast? ≠ some 0x30 := by
  induction ds using List.reverseRecOn with
  | nil => exact Or.inl rfl
  | append_singleton ds digit ih =>
    by_cases hzero : digit = 0x30
    · subst hzero
      rcases ih with h | ⟨front, k, rfl, hne, hlast⟩
      · left
        rw [List.length_append, List.length_singleton, List.replicate_succ', ← h]
      · right
        exact ⟨front, k + 1, by rw [List.replicate_succ', List.append_assoc], hne, hlast⟩
    · right
      refine ⟨ds ++ [digit], 0, by simp, by simp, ?_⟩
      rw [List.getLast?_concat]
      exact fun h => hzero (Option.some.inj h)

/-- Digits with one that is not zero have a significant part between zeros. -/
theorem eq_zeros_or_significant (hds : ∀ digit ∈ ds, IsDecimalDigit digit) :
    ds = List.replicate ds.length 0x30 ∨
      ∃ m core k, ds = List.replicate m 0x30 ++ (core ++ List.replicate k 0x30) ∧ IsSignificant core := by
  induction ds with
  | nil => exact Or.inl rfl
  | cons digit rest ih =>
    by_cases hzero : digit = 0x30
    · subst hzero
      rcases ih fun digit hmem => hds digit (List.mem_cons_of_mem _ hmem) with h | ⟨m, core, k, rfl, hcore⟩
      · left
        rw [List.length_cons, List.replicate_succ, ← h]
      · right
        exact ⟨m + 1, core, k, by rw [List.replicate_succ, List.cons_append], hcore⟩
    · right
      rcases eq_zeros_or_trim (digit :: rest) with h | ⟨front, k, h, hne, hlast⟩
      · rw [List.length_cons, List.replicate_succ, List.cons.injEq] at h
        exact absurd h.1 hzero
      · refine ⟨0, front, k, h, ?_, hne, ?_, hlast⟩
        · intro digit hmem
          exact hds digit (by rw [h]; exact List.mem_append_left _ hmem)
        · intro hhead
          rw [List.head?_eq_some_iff] at hhead
          obtain ⟨behind, rfl⟩ := hhead
          rw [List.cons_append, List.cons.injEq] at h
          exact hzero h.1

theorem IsSignificant.one_tenth_le {core : Bytes} (h : IsSignificant core) : 1 / 10 ≤ decimalFraction core := by
  cases core with
  | nil => exact absurd rfl h.ne_nil
  | cons digit rest =>
    have hne : digit ≠ 0x30 := fun heq => h.head_ne (by rw [heq, List.head?_cons])
    exact Library.one_tenth_le (h.digits digit List.mem_cons_self) hne

/-! ## Digits without leading zeros -/

theorem decimalNumber_cons (digit : UInt8) (rest : Bytes) :
    decimalNumber (digit :: rest) = digitNumber digit * 10 ^ rest.length + decimalNumber rest := by
  rw [← List.singleton_append, decimalNumber_append, decimalNumber_singleton]

theorem pow_le_decimalNumber (hdigits : ∀ digit ∈ ds, IsDecimalDigit digit) (hne : ds ≠ [])
    (hhead : ds.head? ≠ some 0x30) : 10 ^ (ds.length - 1) ≤ decimalNumber ds := by
  cases ds with
  | nil => exact absurd rfl hne
  | cons digit rest =>
    have hpos := digitNumber_pos (hdigits digit List.mem_cons_self) fun heq => hhead (by rw [heq, List.head?_cons])
    rw [decimalNumber_cons, List.length_cons, Nat.add_sub_cancel]
    have := Nat.mul_le_mul_right (10 ^ rest.length) hpos
    omega

/-- Digit texts of one length are ordered as the numbers are. -/
theorem lt_iff_decimalNumber_lt (hds : ∀ digit ∈ ds, IsDecimalDigit digit) (hes : ∀ digit ∈ es, IsDecimalDigit digit)
    (hlength : ds.length = es.length) : ds < es ↔ decimalNumber ds < decimalNumber es := by
  induction ds generalizing es with
  | nil =>
    rw [List.length_eq_zero_iff.mp hlength.symm]
    simp
  | cons digit rest ih =>
    cases es with
    | nil => cases hlength
    | cons digit' rest' =>
      have hlength : rest.length = rest'.length := Nat.succ.inj hlength
      have hrest : ∀ digit ∈ rest, IsDecimalDigit digit := fun d hmem => hds d (List.mem_cons_of_mem _ hmem)
      have hrest' : ∀ digit ∈ rest', IsDecimalDigit digit := fun d hmem => hes d (List.mem_cons_of_mem _ hmem)
      have hdigit := hds digit List.mem_cons_self
      have hdigit' := hes digit' List.mem_cons_self
      have hbound := decimalNumber_lt hrest
      have hbound' := decimalNumber_lt hrest'
      rw [List.cons_lt_cons_iff, ih hrest hrest' hlength, decimalNumber_cons, decimalNumber_cons, hlength]
      rw [hlength] at hbound
      have hlt : digit < digit' ↔ digitNumber digit < digitNumber digit' := by
        rw [UInt8.lt_iff_toNat_lt, digitNumber, digitNumber]
        have := hdigit.1
        have := hdigit'.1
        omega
      have heq : digit = digit' ↔ digitNumber digit = digitNumber digit' := by
        rw [← UInt8.toNat_inj, digitNumber, digitNumber]
        have := hdigit.1
        have := hdigit'.1
        omega
      rw [hlt, heq]
      rcases Nat.lt_trichotomy (digitNumber digit) (digitNumber digit') with h | h | h
      · have := Nat.mul_le_mul_right (10 ^ rest'.length) h
        rw [Nat.succ_mul] at this
        constructor
        · intro _
          omega
        · intro _
          exact Or.inl h
      · rw [h]
        simp
      · have := Nat.mul_le_mul_right (10 ^ rest'.length) h
        rw [Nat.succ_mul] at this
        constructor
        · rintro (hlt | ⟨heq, -⟩) <;> omega
        · intro _
          omega

end

/-! ## Scaled fractions -/

section

variable {ds es : Bytes} {order order' : ℤ}

theorem scaled_lt (h : decimalFraction ds < 1) : scaled ds order < 10 ^ order := by
  exact mul_lt_of_lt_one_left (by positivity) h

theorem scaled_pos (h : 1 / 10 ≤ decimalFraction ds) : 0 < scaled ds order := by
  rw [scaled]
  positivity

theorem le_scaled (h : 1 / 10 ≤ decimalFraction ds) : 10 ^ (order - 1) ≤ scaled ds order := by
  rw [zpow_sub_one₀ (by norm_num), scaled, mul_comm, inv_eq_one_div]
  exact mul_le_mul_of_nonneg_right h (by positivity)

/-- The **larger order** decides. -/
theorem scaled_lt_scaled (hds : decimalFraction ds < 1) (hes : 1 / 10 ≤ decimalFraction es) (h : order < order') :
    scaled ds order < scaled es order' :=
  calc scaled ds order < 10 ^ order := scaled_lt hds
    _ ≤ 10 ^ (order' - 1) := zpow_le_zpow_right₀ (by norm_num) (by omega)
    _ ≤ scaled es order' := le_scaled hes

theorem scaled_compares {o : Ordering} (h : o.Compares (decimalFraction ds) (decimalFraction es)) :
    o.Compares (scaled ds order) (scaled es order) := by
  have hpos : (0 : ℚ) < 10 ^ order := by positivity
  cases o with
  | lt | gt => exact mul_lt_mul_of_pos_right h hpos
  | eq => exact congrArg (· * (10 : ℚ) ^ order) h

end

end Library
