import Mathlib.Algebra.GroupWithZero.Nat
import Mathlib.Algebra.BigOperators.Group.List.Basic
import Ruvia.Library.Decimal

/-!
# `Library.FixedColumns` — texts of fixed columns

A text is cut into columns of given widths (`columns`), which its pieces are exactly when it is their concatenation
(`eq_flatten_iff`). The numbers of such texts have a fixed count of digits (`fixedDecimal`).
-/

namespace Library

/-! ## Numbers of a fixed width -/

section

variable {width n : Nat} {text : Bytes}

/-- The last digits of a number. -/
def fixedDecimal : Nat → Nat → Bytes
  | 0, _ => []
  | width + 1, n => fixedDecimal width (n / 10) ++ [digitByte (n % 10)]

@[simp] theorem length_fixedDecimal (width n : Nat) : (fixedDecimal width n).length = width := by
  induction width generalizing n with
  | zero => rfl
  | succ width ih => rw [fixedDecimal, List.length_append, ih, List.length_singleton]

theorem fixedDecimal_digits (width n : Nat) :
    ∀ byte ∈ fixedDecimal width n, 0x30 ≤ byte.toNat ∧ byte.toNat ≤ 0x39 := by
  induction width generalizing n with
  | zero => exact fun _ hbyte => absurd hbyte List.not_mem_nil
  | succ width ih =>
    intro byte hbyte
    rcases List.mem_append.mp hbyte with hbyte | hbyte
    · exact ih _ byte hbyte
    · rw [List.mem_singleton.mp hbyte, toNat_digitByte (Nat.mod_lt _ (by decide))]
      omega

theorem decimalNumber_concat (text : Bytes) (digit : UInt8) :
    decimalNumber (text ++ [digit]) = 10 * decimalNumber text + (digit.toNat - 0x30) := by
  unfold decimalNumber
  rw [List.foldl_append]
  rfl

theorem decimalNumber_fixedDecimal (h : n < 10 ^ width) : decimalNumber (fixedDecimal width n) = n := by
  induction width generalizing n with
  | zero =>
    rw [Nat.pow_zero, Nat.lt_one_iff] at h
    exact h.symm
  | succ width ih =>
    rw [Nat.pow_succ'] at h
    rw [fixedDecimal, decimalNumber_concat, ih (Nat.div_lt_of_lt_mul h),
      toNat_digitByte (Nat.mod_lt _ (by decide))]
    omega

/-- A text of digits is the number that it stands for, at its width. -/
theorem fixedDecimal_decimalNumber (h : ∀ byte ∈ text, 0x30 ≤ byte.toNat ∧ byte.toNat ≤ 0x39) :
    fixedDecimal text.length (decimalNumber text) = text ∧ decimalNumber text < 10 ^ text.length := by
  induction text using List.reverseRecOn with
  | nil => exact ⟨rfl, Nat.one_pos⟩
  | append_singleton text digit ih =>
    obtain ⟨hfixed, hlt⟩ := ih fun byte hbyte => h byte (List.mem_append_left _ hbyte)
    have hdigit := h digit (by simp)
    have hdiv : (10 * decimalNumber text + (digit.toNat - 0x30)) / 10 = decimalNumber text := by omega
    have hmod : (10 * decimalNumber text + (digit.toNat - 0x30)) % 10 = digit.toNat - 0x30 := by omega
    have hbyte : digitByte (digit.toNat - 0x30) = digit := by
      apply UInt8.toNat_inj.mp
      rw [toNat_digitByte (by omega)]
      omega
    rw [decimalNumber_concat, List.length_append, List.length_singleton]
    constructor
    · rw [fixedDecimal, hdiv, hmod, hfixed, hbyte]
    · rw [Nat.pow_succ]
      omega

end

/-! ## Columns -/

section

variable {α : Type*}

/-- The columns of a text from a position on. -/
def columns (text : List α) : Nat → List Nat → List (List α)
  | _, [] => []
  | position, width :: widths => sub text position width :: columns text (position + width) widths

theorem flatten_columns {text : List α} {widths : List Nat} {position : Nat}
    (h : text.length = position + widths.sum) : (columns text position widths).flatten = text.drop position := by
  induction widths generalizing position with
  | nil =>
    rw [List.sum_nil, Nat.add_zero] at h
    rw [columns, ← h, List.drop_length]
    rfl
  | cons width widths ih =>
    rw [List.sum_cons, ← Nat.add_assoc] at h
    rw [columns, List.flatten_cons, ih h, ← List.drop_drop, sub, List.take_append_drop]

theorem columns_flatten (front : List α) (pieces : List (List α)) :
    columns (front ++ pieces.flatten) front.length (pieces.map List.length) = pieces := by
  induction pieces generalizing front with
  | nil => rfl
  | cons piece pieces ih =>
    have hpiece : sub (front ++ (piece ++ pieces.flatten)) front.length piece.length = piece := by
      rw [sub, List.drop_left, List.take_left]
    have hrest := ih (front ++ piece)
    rw [List.append_assoc, List.length_append] at hrest
    rw [List.flatten_cons, List.map_cons, columns, hpiece, hrest]

/-- **A text is its columns.** -/
theorem eq_flatten_iff {text : List α} {widths : List Nat} {pieces : List (List α)}
    (h : pieces.map List.length = widths) :
    text = pieces.flatten ↔ text.length = widths.sum ∧ columns text 0 widths = pieces := by
  constructor
  · rintro rfl
    rw [← h]
    exact ⟨List.length_flatten, columns_flatten [] pieces⟩
  · rintro ⟨hlength, rfl⟩
    rw [flatten_columns (by rw [hlength, Nat.zero_add])]
    rfl

end

end Library
