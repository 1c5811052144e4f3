import Ruvia.Web.JwtScan

/-!
# `Web.JwtOrder` — views of decimal numbers and their order

A view stands for `±0.d₁d₂… · 10 ^ order`, where `order` may lie outside the interval that the view's own order is
clipped to (`Denotes`). Every JSON number has a view (`normalizeDecimal_represents`), and `compareDecimal` decides
between two views once the order of one of them is inside the interval (`compareDecimal_compares`).
-/

namespace Ruvia.Web.JwtDate

open Library

/-- A magnitude with its sign. -/
def signed (negative : Bool) (magnitude : ℚ) : ℚ := if negative then -magnitude else magnitude

/-- The view stands for the value, which is not zero. -/
structure Denotes (view : DecimalView) (order : Int) (value : ℚ) : Prop where
  order_eq : view.order = clip order
  mantissa : Mantissa view.digits
  significant : IsSignificant (mantissaDigits view.digits)
  count : view.digitCount = (mantissaDigits view.digits).length
  value_eq : value = signed view.negative (scaled (mantissaDigits view.digits) order)

/-- The view stands for zero. -/
def DenotesZero (view : DecimalView) (value : ℚ) : Prop := view.digits = [] ∧ view.negative = false ∧ value = 0

/-! ## The view of a JSON number -/

section

variable {parts : DecimalParts} {n : JsonNumber}

/-- **The order is clipped once**, at the end. -/
theorem decimalOrder_eq (h : Reads parts n) (first : Nat) :
    decimalOrder parts first = clip (orderAt first parts.integerEnd + n.exponentValue) := by
  have hvalue := h.exponent_value
  by_cases hempty : parts.exponent = []
  · have hzero : n.exponentValue = 0 := by
      rw [hvalue, hempty]
      simp [decimalNumber]
    simp only [decimalOrder, if_pos hempty, hzero, orderAt, clip]
    by_cases hshift : first > parts.integerEnd
    · simp only [hshift, decide_true, if_true]
      omega
    · simp only [hshift, decide_false, if_false, Bool.false_eq_true]
      omega
  · have hunsigned := clippedUnsigned_eq h.exponent_digits hempty h.exponent_head
    have hdifference := fun shift =>
      @clippedDifference_eq parts.exponent shift h.exponent_digits hempty h.exponent_head
    rw [hvalue]
    simp only [decimalOrder, if_neg hempty, hunsigned, hdifference, orderAt, clip]
    -- The shift and the exponent have one sign, or they are subtracted.
    by_cases hshift : first > parts.integerEnd
    · cases hnegative : parts.exponentNegative
      · simp only [hshift, decide_true, if_true, if_false, Bool.false_eq_true, reduceCtorEq]
        omega
      · simp only [hshift, decide_true, if_true]
        omega
    · cases hnegative : parts.exponentNegative
      all_goals
        simp only [hshift, decide_false, if_true, if_false, Bool.false_eq_true]
        omega

/-- **Every JSON number has a view.** -/
theorem normalizeDecimal_represents (h : Reads parts n) :
    DenotesZero (normalizeDecimal parts) n.value ∨ ∃ order, Denotes (normalizeDecimal parts) order n.value := by
  rcases h.located with ⟨hnone, hzero⟩ | ⟨before, core, behind, hloc⟩
  · left
    rw [normalizeDecimal, hnone, JsonNumber.value, hzero]
    refine ⟨rfl, rfl, ?_⟩
    simp
  · right
    have hcore := hloc.length_pos
    have hcount : parts.lastNonzero - before.length + 1 = core.length := by
      rw [hloc.last]
      omega
    have hdigits : sub parts.text before.length (parts.lastNonzero - before.length + 1) = core := by
      rw [sub, hcount, hloc.text, List.drop_left, List.take_left]
    refine ⟨orderAt before.length parts.integerEnd + n.exponentValue, ?_⟩
    simp only [normalizeDecimal, hloc.first, hdigits]
    refine ⟨decimalOrder_eq h _, hloc.mantissa, hloc.significant, ?_, ?_⟩
    · have := hloc.length
      simp only
      omega
    · rw [JsonNumber.value, signed, h.negative, hloc.magnitude]

end

/-! ## Comparing digits -/

variable {digits : Bytes}

theorem nextDigit_spec (h : Mantissa digits) :
    IsDecimalDigit (nextDigit digits).1 ∧ Mantissa (nextDigit digits).2 ∧
      decimalFraction (mantissaDigits digits) =
        decimalFraction ((nextDigit digits).1 :: mantissaDigits (nextDigit digits).2) := by
  cases h with
  | nil =>
    refine ⟨by decide, .nil, ?_⟩
    simp [nextDigit, mantissaDigits, decimalFraction]
  | @digit digit rest hdigit hrest =>
    have hpoint := ne_point hdigit
    have hnext : nextDigit (digit :: rest) = (digit, rest) := by
      simp [nextDigit, hpoint]
    rw [hnext]
    refine ⟨hdigit, hrest, ?_⟩
    rw [mantissaDigits, List.filter_cons_of_pos (by simpa using hpoint)]
    rfl
  | @point digit rest hdigit hrest =>
    have hpoint := ne_point hdigit
    have hnext : nextDigit (0x2e :: digit :: rest) = (digit, rest) := by
      simp [nextDigit]
    refine ⟨hdigit, hrest, ?_⟩
    rw [mantissaDigits, List.filter_cons_of_neg (by simp), List.filter_cons_of_pos (by simpa using hpoint)]
    rfl

theorem mantissaDigits_digits (h : Mantissa digits) : ∀ digit ∈ mantissaDigits digits, IsDecimalDigit digit := by
  induction h with
  | nil => simp [mantissaDigits]
  | digit hdigit hrest ih | point hdigit hrest ih => simpa [mantissaDigits, ne_point hdigit, hdigit] using ih

theorem mantissa_fraction_lt_one (h : Mantissa digits) : decimalFraction (mantissaDigits digits) < 1 :=
  decimalFraction_lt_one (mantissaDigits_digits h)

theorem nextDigit_compares {left right : Bytes} {order : Ordering} (hleft : Mantissa left) (hright : Mantissa right)
    (h : order.Compares (decimalFraction (mantissaDigits (nextDigit left).2))
      (decimalFraction (mantissaDigits (nextDigit right).2))) :
    ((compare (nextDigit left).1.toNat (nextDigit right).1.toNat).then order).Compares
      (decimalFraction (mantissaDigits left)) (decimalFraction (mantissaDigits right)) := by
  obtain ⟨hdigit, hrest, hfraction⟩ := nextDigit_spec hleft
  obtain ⟨hdigit', hrest', hfraction'⟩ := nextDigit_spec hright
  rw [hfraction, hfraction', ← compare_digitNumber hdigit hdigit']
  exact compares_cons (mantissa_fraction_lt_one hrest) (mantissa_fraction_lt_one hrest') h

/-- **The loop compares the fractions**, as if zeros stood behind the shorter text. -/
theorem compareDigits_compares {left right : Bytes} (hleft : Mantissa left) (hright : Mantissa right) :
    (compareDigits left right).Compares (decimalFraction (mantissaDigits left))
      (decimalFraction (mantissaDigits right)) := by
  fun_induction compareDigits left right with
  | case1 left right h =>
    rw [h.1, h.2]
    exact rfl
  | case2 left right h heq ih =>
    have hcons := nextDigit_compares hleft hright (ih (nextDigit_spec hleft).2.1 (nextDigit_spec hright).2.1)
    rw [heq] at hcons
    exact hcons
  | case3 left right h hne =>
    have hcons := nextDigit_compares hleft hright ((compare_iff _ _).mp rfl)
    cases hmagnitude : compare (nextDigit left).1.toNat (nextDigit right).1.toNat with
    | lt | gt =>
      rw [hmagnitude] at hcons
      exact hcons
    | eq => exact absurd hmagnitude hne

/-! ## Comparing views -/

variable {view : DecimalView} {order : Int} {value : ℚ}

theorem scaled_view_pos (h : Denotes view order value) : 0 < scaled (mantissaDigits view.digits) order :=
  scaled_pos h.significant.one_tenth_le

theorem digits_ne_nil (h : Denotes view order value) : view.digits ≠ [] := by
  intro hnil
  apply h.significant.ne_nil
  rw [hnil]
  rfl

/-- **The order decides** between magnitudes, or the digits do. -/
theorem compare_magnitude {left right : DecimalView} {order' : Int} {value' : ℚ} (hleft : Denotes left order value)
    (hright : Denotes right order' value') (hlow : -64 < order') (hhigh : order' < 64) :
    (if left.order ≠ right.order then compare left.order right.order
      else compareDigits left.digits right.digits).Compares (scaled (mantissaDigits left.digits) order)
      (scaled (mantissaDigits right.digits) order') := by
  have hl := hleft.order_eq
  have hr := hright.order_eq
  rw [clip] at hl hr
  have hlone := mantissa_fraction_lt_one hleft.mantissa
  have hrone := mantissa_fraction_lt_one hright.mantissa
  rcases lt_trichotomy order order' with hlt | heq | hgt
  · have hlt' : left.order < right.order := by omega
    rw [if_pos hlt'.ne, compare_lt_iff_lt.mpr hlt']
    exact scaled_lt_scaled hlone hright.significant.one_tenth_le hlt
  · have heq' : left.order = right.order := by omega
    rw [if_neg (not_not.mpr heq'), heq]
    exact scaled_compares (compareDigits_compares hleft.mantissa hright.mantissa)
  · have hgt' : right.order < left.order := by omega
    rw [if_pos hgt'.ne', compare_gt_iff_gt.mpr hgt']
    exact scaled_lt_scaled hrone hleft.significant.one_tenth_le hgt

/-- **The comparison is exact** against a view whose order is not clipped. -/
theorem compareDecimal_compares {left right : DecimalView} {value' : ℚ}
    (hleft : DenotesZero left value ∨ ∃ order, Denotes left order value)
    (hright : DenotesZero right value' ∨ ∃ order, (-64 < order ∧ order < 64) ∧ Denotes right order value') :
    (compareDecimal left right).Compares value value' := by
  rcases hleft with ⟨hnil, hsign, rfl⟩ | ⟨order, hleft⟩
  · rcases hright with ⟨hnil', hsign', rfl⟩ | ⟨order', hbounds, hright⟩
    · simp [compareDecimal, hnil, hnil', hsign, hsign']
    · have hpos := scaled_view_pos hright
      have hne := digits_ne_nil hright
      have hlt : compare 0 1 = Ordering.lt := rfl
      rw [hright.value_eq, signed]
      cases hsign' : right.negative with
      | false | true => simpa [compareDecimal, hnil, hsign, hsign', hne, hlt] using hpos
  · have hpos := scaled_view_pos hleft
    have hne := digits_ne_nil hleft
    rcases hright with ⟨hnil', hsign', rfl⟩ | ⟨order', ⟨hlow, hhigh⟩, hright⟩
    · have hgt : compare 1 0 = Ordering.gt := rfl
      rw [hleft.value_eq, signed]
      cases hsign : left.negative with
      | false | true => simpa [compareDecimal, hnil', hsign, hsign', hne, hgt] using hpos
    · have hpos' := scaled_view_pos hright
      have hne' := digits_ne_nil hright
      have hmagnitude := compare_magnitude hleft hright hlow hhigh
      rw [hleft.value_eq, hright.value_eq, signed, signed]
      cases hsign : left.negative with
      | false =>
        cases hsign' : right.negative with
        | false => simpa [compareDecimal, hsign, hsign', hne, hne'] using hmagnitude
        | true =>
          have : -scaled (mantissaDigits right.digits) order' < scaled (mantissaDigits left.digits) order := by linarith
          simpa [compareDecimal, hsign, hsign'] using this
      | true =>
        cases hsign' : right.negative with
        | false =>
          have : -scaled (mantissaDigits left.digits) order < scaled (mantissaDigits right.digits) order' := by linarith
          simpa [compareDecimal, hsign, hsign'] using this
        | true =>
          have hswap : ∀ {o : Ordering} {a b : ℚ}, o.Compares a b → o.swap.Compares (-a) (-b) := by
            intro o a b h
            cases o with
            | lt | gt => exact neg_lt_neg h
            | eq => exact congrArg Neg.neg h
          simpa [compareDecimal, hsign, hsign', hne, hne'] using hswap hmagnitude

end Ruvia.Web.JwtDate
