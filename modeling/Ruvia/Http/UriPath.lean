import Mathlib.Data.List.Lex
import Ruvia.Http.UriGrammar

/-!
# `Http.UriPath` — the canonical form of an origin-form path

`next_uri_path_unit`, `compare_uri_paths` and `uri_paths_equivalent`. Both comparisons walk two spellings
unit by unit; they are characterised on the lists of units (`uriPathUnits`):

* `uriPathsEquivalent_iff` — equal units, none of them a malformed escape;
* `compareUriPaths_neg_iff` — the lexicographic order of the units.

A separator is a unit of its own, so splitting the units is splitting the spelling
(`uriPathUnits_splitOn`).
-/

namespace Ruvia.Http

open Library

def uriPathSeparatorUnit : Int := 0x100

/-- The unit at the front of `b :: rest`, and the bytes behind it; `-1` is a malformed escape. -/
def nextUriPathUnit (b : UInt8) (rest : Bytes) : Int × Bytes :=
  if b = slash then (uriPathSeparatorUnit, rest)
  else if b = percent then
    match httpTryDecodePercentByte (b :: rest) with
    | none => (-1, rest)
    | some byte => (byte, rest.drop 2)
  else (b.toNat, rest)

theorem nextUriPathUnit_length (b : UInt8) (rest : Bytes) :
    (nextUriPathUnit b rest).2.length < (b :: rest).length := by
  rw [nextUriPathUnit, List.length_cons]
  split
  · exact Nat.lt_succ_self _
  · split
    · split
      · exact Nat.lt_succ_self _
      · simp only [List.length_drop]
        omega
    · exact Nat.lt_succ_self _

/-- Three-way order of two paths by their units. -/
def compareUriPaths : Bytes → Bytes → Int
  | b :: left, c :: right =>
    if (nextUriPathUnit b left).1 ≠ (nextUriPathUnit c right).1 then
      if (nextUriPathUnit b left).1 < (nextUriPathUnit c right).1 then -1 else 1
    else compareUriPaths (nextUriPathUnit b left).2 (nextUriPathUnit c right).2
  | _ :: _, [] => 1
  | [], _ :: _ => -1
  | [], [] => 0
termination_by left => left.length
decreasing_by exact nextUriPathUnit_length b left

/-- The same canonical form; malformed escapes never compare equal. -/
def uriPathsEquivalent : Bytes → Bytes → Bool
  | b :: left, c :: right =>
    if (nextUriPathUnit b left).1 < 0 ∨ (nextUriPathUnit b left).1 ≠ (nextUriPathUnit c right).1 then false
    else uriPathsEquivalent (nextUriPathUnit b left).2 (nextUriPathUnit c right).2
  | [], [] => true
  | _, _ => false
termination_by left => left.length
decreasing_by exact nextUriPathUnit_length b left

example : uriPathsEquivalent (lit "/%61dmin%3a") (lit "/admin:") = true := by decide +kernel
example : uriPathsEquivalent (lit "/a%2Fb") (lit "/a/b") = false := by decide +kernel

/-! ## Units -/

/-- All units of a path. -/
def uriPathUnits : Bytes → List Int
  | [] => []
  | b :: rest => (nextUriPathUnit b rest).1 :: uriPathUnits (nextUriPathUnit b rest).2
termination_by path => path.length
decreasing_by exact nextUriPathUnit_length b rest

/-- No malformed escape. -/
def WellFormedPath (path : Bytes) : Prop := ∀ u ∈ uriPathUnits path, 0 ≤ u

@[simp] theorem uriPathUnits_nil : uriPathUnits [] = [] := by rw [uriPathUnits]

theorem uriPathUnits_cons (b : UInt8) (rest : Bytes) :
    uriPathUnits (b :: rest) = (nextUriPathUnit b rest).1 :: uriPathUnits (nextUriPathUnit b rest).2 := by
  rw [uriPathUnits]

theorem uriPathUnits_ne_nil {path : Bytes} (h : path ≠ []) : uriPathUnits path ≠ [] := by
  obtain ⟨b, rest, rfl⟩ := List.exists_cons_of_ne_nil h
  rw [uriPathUnits_cons]
  exact List.cons_ne_nil _ _

/-- **Equivalence is equality of well-formed units.** -/
theorem uriPathsEquivalent_iff (left right : Bytes) :
    uriPathsEquivalent left right = true ↔ WellFormedPath left ∧ uriPathUnits left = uriPathUnits right := by
  fun_induction uriPathsEquivalent left right with
  | case1 b left c right hne =>
    simp only [Bool.false_eq_true, false_iff, not_and, WellFormedPath, uriPathUnits_cons, List.cons.injEq,
      List.mem_cons, forall_eq_or_imp]
    rintro ⟨hpos, -⟩ heq
    rcases hne with hneg | hne
    · omega
    · exact absurd heq hne
  | case2 b left c right heq ih =>
    rw [not_or, not_not] at heq
    rw [ih]
    simp only [WellFormedPath, uriPathUnits_cons, List.cons.injEq, List.mem_cons, forall_eq_or_imp, heq.2, true_and]
    rw [heq.2, Int.not_lt] at heq
    simp only [heq.1, true_and]
  | case3 => simp [WellFormedPath]
  | case4 left right hcons hnil =>
    simp only [Bool.false_eq_true, false_iff, not_and]
    intro _ heq
    cases left with
    | nil =>
      cases right with
      | nil => exact hnil rfl rfl
      | cons c right => simp [uriPathUnits_cons] at heq
    | cons b left =>
      cases right with
      | nil => simp [uriPathUnits_cons] at heq
      | cons c right => exact hcons b left c right rfl rfl

/-- **The comparison is the lexicographic order of the units.** -/
theorem compareUriPaths_neg_iff (left right : Bytes) :
    compareUriPaths left right < 0 ↔ uriPathUnits left < uriPathUnits right := by
  fun_induction compareUriPaths left right with
  | case1 b left c right hne hlt => simp [uriPathUnits_cons, List.cons_lt_cons_iff, hlt]
  | case2 b left c right hne hge => simp [uriPathUnits_cons, List.cons_lt_cons_iff, hge, hne]
  | case3 b left c right heq ih =>
    rw [not_not] at heq
    rw [ih, uriPathUnits_cons, uriPathUnits_cons, heq, List.cons_lt_cons_iff]
    simp
  | case4 | case5 => simp [uriPathUnits_cons]
  | case6 => simp

/-! ## Equivalence of paths -/

section

variable {a b c : Bytes}

theorem WellFormedPath.of_units_eq (h : WellFormedPath a) (heq : uriPathUnits a = uriPathUnits b) :
    WellFormedPath b := by
  rw [WellFormedPath, ← heq]
  exact h

theorem uriPathsEquivalent_symm (h : uriPathsEquivalent a b = true) : uriPathsEquivalent b a = true := by
  rw [uriPathsEquivalent_iff] at h ⊢
  exact ⟨h.1.of_units_eq h.2, h.2.symm⟩

theorem uriPathsEquivalent_comm : uriPathsEquivalent a b = uriPathsEquivalent b a := by
  rw [Bool.eq_iff_iff]
  exact ⟨uriPathsEquivalent_symm, uriPathsEquivalent_symm⟩

theorem uriPathsEquivalent_trans (h : uriPathsEquivalent a b = true) (h' : uriPathsEquivalent b c = true) :
    uriPathsEquivalent a c = true := by
  rw [uriPathsEquivalent_iff] at h h' ⊢
  exact ⟨h.1, h.2.trans h'.2⟩

/-- Equivalent spellings are equivalent to the same paths. -/
theorem uriPathsEquivalent_congr_left (h : uriPathsEquivalent a b = true) :
    uriPathsEquivalent a c = uriPathsEquivalent b c := by
  rw [Bool.eq_iff_iff]
  exact ⟨uriPathsEquivalent_trans (uriPathsEquivalent_symm h), uriPathsEquivalent_trans h⟩

theorem uriPathsEquivalent_refl (h : WellFormedPath a) : uriPathsEquivalent a a = true :=
  (uriPathsEquivalent_iff _ _).mpr ⟨h, rfl⟩

/-- An equivalent spelling is empty when the other one is. -/
theorem uriPathsEquivalent_ne_nil (h : uriPathsEquivalent a b = true) (ha : a ≠ []) : b ≠ [] := by
  rintro rfl
  rw [uriPathsEquivalent_iff, uriPathUnits_nil] at h
  exact uriPathUnits_ne_nil ha h.2

end

/-! ## Separators -/

theorem httpTryDecodePercentByte_lt {input : Bytes} {byte : Nat}
    (h : httpTryDecodePercentByte input = some byte) : byte < 256 := by
  unfold httpTryDecodePercentByte at h
  split at h
  · split at h
    · cases h
    · split at h
      · rename_i high low hhigh hlow
        have := httpDecodeHexNibble_lt hhigh
        have := httpDecodeHexNibble_lt hlow
        cases h
        omega
      · cases h
  · cases h

/-- An escape never reaches over a separator. -/
theorem httpTryDecodePercentByte_append_slash (input behind : Bytes) (h : input ≠ []) :
    httpTryDecodePercentByte (input ++ slash :: behind) = httpTryDecodePercentByte input := by
  have hslash : httpDecodeHexNibble slash = none := by decide
  match input, h with
  | [p], _ => cases behind <;> simp [httpTryDecodePercentByte, hslash]
  | [p, high], _ =>
    simp only [List.cons_append, List.nil_append, httpTryDecodePercentByte, hslash]
    split
    · rfl
    · split <;> simp_all
  | p :: high :: low :: rest, _ => rfl

theorem nextUriPathUnit_append_slash (b : UInt8) (rest behind : Bytes) :
    nextUriPathUnit b (rest ++ slash :: behind) =
      ((nextUriPathUnit b rest).1, (nextUriPathUnit b rest).2 ++ slash :: behind) := by
  rw [nextUriPathUnit, nextUriPathUnit]
  split
  · rfl
  · split
    · rw [← List.cons_append, httpTryDecodePercentByte_append_slash _ _ (List.cons_ne_nil _ _)]
      cases hdecode : httpTryDecodePercentByte (b :: rest) with
      | none => rfl
      | some byte =>
        have hlen : 2 ≤ rest.length := by
          match rest with
          | [] | [_] => simp [httpTryDecodePercentByte] at hdecode
          | _ :: _ :: _ => simp
        simp only
        rw [List.drop_append_of_le_length hlen]
    · rfl

theorem uriPathUnits_append_slash (front behind : Bytes) :
    uriPathUnits (front ++ slash :: behind) =
      uriPathUnits front ++ uriPathSeparatorUnit :: uriPathUnits behind := by
  fun_induction uriPathUnits front with
  | case1 => rw [List.nil_append, uriPathUnits_cons, nextUriPathUnit, if_pos rfl, List.nil_append]
  | case2 b rest ih => rw [List.cons_append, uriPathUnits_cons, nextUriPathUnit_append_slash, ih, List.cons_append]

theorem nextUriPathUnit_ne_separator {b : UInt8} (rest : Bytes) (h : b ≠ slash) :
    (nextUriPathUnit b rest).1 ≠ uriPathSeparatorUnit := by
  rw [nextUriPathUnit, if_neg h, uriPathSeparatorUnit]
  split
  · split
    · simp
    · rename_i byte hdecode
      have := httpTryDecodePercentByte_lt hdecode
      simp only
      omega
  · have := b.toNat_lt
    simp only
    omega

theorem nextUriPathUnit_suffix (b : UInt8) (rest : Bytes) : (nextUriPathUnit b rest).2 <:+ rest := by
  rw [nextUriPathUnit]
  split
  · exact List.suffix_rfl
  · split
    · split
      · exact List.suffix_rfl
      · exact List.drop_suffix _ _
    · exact List.suffix_rfl

theorem separator_not_mem_uriPathUnits {path : Bytes} (h : slash ∉ path) :
    uriPathSeparatorUnit ∉ uriPathUnits path := by
  fun_induction uriPathUnits path with
  | case1 => simp
  | case2 b rest ih =>
    simp only [List.mem_cons, not_or] at h ⊢
    exact ⟨(nextUriPathUnit_ne_separator rest (Ne.symm h.1)).symm,
      ih fun hmem => h.2 ((nextUriPathUnit_suffix b rest).subset hmem)⟩

/-- **Splitting the units is splitting the spelling.** -/
theorem uriPathUnits_splitOn (path : Bytes) :
    (uriPathUnits path).splitOn uriPathSeparatorUnit = (path.splitOn slash).map uriPathUnits := by
  induction h : path.length using Nat.strong_induction_on generalizing path with
  | _ n ih =>
    by_cases hslash : slash ∈ path
    · obtain ⟨front, behind, rfl, hfront⟩ := List.eq_append_cons_of_mem hslash
      rw [uriPathUnits_append_slash, List.splitOn_append_cons_self_of_not_mem hfront,
        List.splitOn_append_cons_self_of_not_mem (separator_not_mem_uriPathUnits hfront),
        ih behind.length (by simp at h; omega) behind rfl, List.map_cons]
    · rw [List.splitOn_eq_singleton hslash, List.splitOn_eq_singleton (separator_not_mem_uriPathUnits hslash)]
      rfl

/-- The segments of a well-formed path are well formed. -/
theorem WellFormedPath.segment {path segment : Bytes} (h : WellFormedPath path)
    (hmem : segment ∈ path.splitOn slash) : WellFormedPath segment := by
  have hsplit : uriPathUnits segment ∈ (uriPathUnits path).splitOn uriPathSeparatorUnit := by
    rw [uriPathUnits_splitOn]
    exact List.mem_map_of_mem hmem
  intro u hu
  exact h u (mem_of_mem_splitOn hsplit hu)

/-- Percent validation leaves no malformed escape. -/
theorem wellFormedPath_of_isValidPercentEncoded {isAllowed : UInt8 → Bool} {path : Bytes}
    (h : isValidPercentEncoded isAllowed path = true) : WellFormedPath path := by
  have hcons : ∀ b rest, 0 ≤ (nextUriPathUnit b rest).1 → WellFormedPath (nextUriPathUnit b rest).2 →
      WellFormedPath (b :: rest) := by
    intro b rest hunit hrest u hu
    rw [uriPathUnits_cons, List.mem_cons] at hu
    rcases hu with rfl | hu
    · exact hunit
    · exact hrest u hu
  fun_induction isValidPercentEncoded isAllowed path with
  | case1 => simp [WellFormedPath]
  | case2 high low rest ih =>
    rw [Bool.and_eq_true] at h
    obtain ⟨byte, hbyte⟩ := Option.isSome_iff_exists.mp h.1
    have hunit : nextUriPathUnit percent (high :: low :: rest) = ((byte : Int), rest) := by
      have : httpTryDecodePercentByte (percent :: high :: low :: rest) = some byte := hbyte
      rw [nextUriPathUnit, if_neg (by decide), if_pos rfl, this]
      rfl
    refine hcons _ _ (by rw [hunit]; exact Int.natCast_nonneg _) ?_
    rw [hunit]
    exact ih h.2
  | case3 => cases h
  | case4 b rest hb ih =>
    rw [Bool.and_eq_true] at h
    by_cases hslash : b = slash
    · refine hcons _ _ ?_ ?_ <;> rw [nextUriPathUnit, if_pos hslash]
      · exact (by decide : (0 : Int) ≤ uriPathSeparatorUnit)
      · exact ih h.2
    · refine hcons _ _ ?_ ?_ <;> rw [nextUriPathUnit, if_neg hslash, if_neg hb]
      · exact Int.natCast_nonneg _
      · exact ih h.2

end Ruvia.Http
