import Ruvia.Http.Syntax

/-!
# `Http.Utf8` — UTF-8 well-formedness

`http_utf8.h`. `scanUtf8Sequence` classifies the sequence at a position whose lead byte is not ASCII under
the constraints of Unicode Table 3-7: no overlong form, no surrogate, nothing above U+10FFFF.
`isValidUtf8` walks a whole string with it.
-/

namespace Ruvia.Http

open Library

/-- `length` counts the bytes of a well-formed sequence, or of the maximal subpart in front of the first
    ill-formed byte. -/
structure Utf8Sequence where
  length : Nat
  wellFormed : Bool
  deriving DecidableEq, Repr

/-- The trail bytes from `k` on, `remaining` of them; only the first one has a range of its own. -/
def scanUtf8Trail (input : Bytes) (i : Nat) : Nat → Nat → UInt8 → UInt8 → Utf8Sequence
  | 0, k, _, _ => ⟨k, true⟩
  | remaining + 1, k, low, high =>
    match input[i + k]? with
    | none => ⟨k, false⟩
    | some byte =>
      if byte < low ∨ high < byte then ⟨k, false⟩
      else scanUtf8Trail input i remaining (k + 1) 0x80 0xBF

/-- The sequence at `i`, a position inside the string with a lead byte of `0x80` or more. -/
def scanUtf8Sequence (input : Bytes) (i : Nat) : Utf8Sequence :=
  let lead := input.getD i 0
  if 0xC2 ≤ lead ∧ lead ≤ 0xDF then scanUtf8Trail input i 1 1 0x80 0xBF
  else if 0xE0 ≤ lead ∧ lead ≤ 0xEF then
    scanUtf8Trail input i 2 1 (if lead = 0xE0 then 0xA0 else 0x80) (if lead = 0xED then 0x9F else 0xBF)
  else if 0xF0 ≤ lead ∧ lead ≤ 0xF4 then
    scanUtf8Trail input i 3 1 (if lead = 0xF0 then 0x90 else 0x80) (if lead = 0xF4 then 0x8F else 0xBF)
  else ⟨1, false⟩

theorem le_scanUtf8Trail_length (input : Bytes) (i remaining k : Nat) (low high : UInt8) :
    k ≤ (scanUtf8Trail input i remaining k low high).length := by
  induction remaining generalizing k low high with
  | zero => exact Nat.le_refl k
  | succ remaining ih =>
    unfold scanUtf8Trail
    split
    · exact Nat.le_refl k
    · split
      · exact Nat.le_refl k
      · exact Nat.le_of_succ_le (ih (k + 1) 0x80 0xBF)

/-- Every classified sequence has a byte, so the walk over the string ends. -/
theorem scanUtf8Sequence_length_pos (input : Bytes) (i : Nat) : 1 ≤ (scanUtf8Sequence input i).length := by
  unfold scanUtf8Sequence
  generalize input.getD i 0 = lead
  by_cases htwo : 0xC2 ≤ lead ∧ lead ≤ 0xDF
  · rw [if_pos htwo]
    apply le_scanUtf8Trail_length
  · rw [if_neg htwo]
    by_cases hthree : 0xE0 ≤ lead ∧ lead ≤ 0xEF
    · rw [if_pos hthree]
      apply le_scanUtf8Trail_length
    · rw [if_neg hthree]
      by_cases hfour : 0xF0 ≤ lead ∧ lead ≤ 0xF4
      · rw [if_pos hfour]
        apply le_scanUtf8Trail_length
      · rw [if_neg hfour]

/-- The walk of `is_valid_utf8` from position `i` on. -/
def isValidUtf8From (value : Bytes) (i : Nat) : Bool :=
  if i < value.length then
    if value.getD i 0 < 0x80 then isValidUtf8From value (i + 1)
    else
      if (scanUtf8Sequence value i).wellFormed then
        isValidUtf8From value (i + (scanUtf8Sequence value i).length)
      else false
  else true
termination_by value.length - i
decreasing_by
  · omega
  · have hpos := scanUtf8Sequence_length_pos value i
    omega

def isValidUtf8 (value : Bytes) : Bool := isValidUtf8From value 0

end Ruvia.Http
