import Mathlib.Algebra.Order.Group.Int
import Ruvia.Http.UriPath

/-!
# `Http.UriPathOrder` — the order of well-formed paths

`validate_url_encoding` accepts the paths without a malformed escape (`validateUrlEncoding_iff`), and among these
`compare_uri_paths` says equal exactly where `uri_paths_equivalent` does.
-/

namespace Ruvia.Http

open Library

/-- `validate_url_encoding`. -/
def validateUrlEncoding : Bytes → Bool
  | [] => true
  | byte :: rest =>
    if byte ≠ percent then validateUrlEncoding rest
    else
      match httpTryDecodePercentByte (byte :: rest) with
      | none => false
      | some _ => validateUrlEncoding (rest.drop 2)
termination_by value => value.length
decreasing_by
  · exact Nat.lt_succ_self _
  · exact Nat.lt_succ_of_le (List.length_drop ▸ Nat.sub_le _ _)

theorem wellFormedPath_cons (byte : UInt8) (rest : Bytes) :
    WellFormedPath (byte :: rest) ↔
      0 ≤ (nextUriPathUnit byte rest).1 ∧ WellFormedPath (nextUriPathUnit byte rest).2 := by
  rw [WellFormedPath, uriPathUnits_cons]
  exact List.forall_mem_cons

/-- The validation refuses the malformed escapes. -/
theorem validateUrlEncoding_iff (path : Bytes) : validateUrlEncoding path = true ↔ WellFormedPath path := by
  fun_induction validateUrlEncoding path with
  | case1 => simp [WellFormedPath]
  | case2 byte rest hbyte ih =>
    rw [wellFormedPath_cons, nextUriPathUnit, ih]
    by_cases hslash : byte = slash
    · rw [if_pos hslash]
      exact ⟨fun h => ⟨(by decide : (0 : Int) ≤ uriPathSeparatorUnit), h⟩, And.right⟩
    · rw [if_neg hslash, if_neg hbyte]
      exact ⟨fun h => ⟨Int.natCast_nonneg _, h⟩, And.right⟩
  | case3 byte rest hbyte hdecode =>
    obtain rfl := not_not.mp hbyte
    rw [wellFormedPath_cons, nextUriPathUnit, if_neg (by decide), if_pos rfl, hdecode]
    simp
  | case4 byte rest hbyte decoded hdecode ih =>
    obtain rfl := not_not.mp hbyte
    rw [wellFormedPath_cons, nextUriPathUnit, if_neg (by decide), if_pos rfl, hdecode, ih]
    exact ⟨fun h => ⟨Int.natCast_nonneg _, h⟩, And.right⟩

section

variable {a b c : Bytes}

theorem compareUriPaths_eq_zero_iff (left right : Bytes) :
    compareUriPaths left right = 0 ↔ uriPathUnits left = uriPathUnits right := by
  fun_induction compareUriPaths left right with
  | case1 b left c right hne hlt | case2 b left c right hne hge => simp [uriPathUnits_cons, hne]
  | case3 b left c right heq ih =>
    rw [not_not] at heq
    rw [ih, uriPathUnits_cons, uriPathUnits_cons, heq, List.cons_inj_right]
  | case4 | case5 => simp [uriPathUnits_cons]
  | case6 => simp

theorem compareUriPaths_nonpos_iff : compareUriPaths a b ≤ 0 ↔ uriPathUnits a ≤ uriPathUnits b := by
  rw [le_iff_lt_or_eq, compareUriPaths_neg_iff, compareUriPaths_eq_zero_iff, ← le_iff_lt_or_eq]

theorem compareUriPaths_pos_iff : 0 < compareUriPaths a b ↔ uriPathUnits b < uriPathUnits a := by
  rw [← not_le, compareUriPaths_nonpos_iff, not_le]

/-- Two well-formed paths compare equal if and only if they are equivalent. -/
theorem compareUriPaths_eq_zero_iff_equivalent (ha : WellFormedPath a) :
    compareUriPaths a b = 0 ↔ uriPathsEquivalent a b = true := by
  rw [compareUriPaths_eq_zero_iff, uriPathsEquivalent_iff]
  exact ⟨fun h => ⟨ha, h⟩, And.right⟩

end

end Ruvia.Http
