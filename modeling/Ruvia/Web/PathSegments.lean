import Mathlib.Data.List.Forall2
import Ruvia.Http.UriPath

/-!
# `Web.PathSegments` — `split_path_segment` and the segments of a path

The router walks a path segment by segment, always keeping the `/` in front of what is left
(`splitPathSegment`). `pathSegments` is the list of all segments such a walk meets, and
`splitPathSegment_some` the step every loop over a path is unfolded with.
-/

namespace Ruvia.Web

open Library Ruvia.Http

/-- A path without the `/` it starts with. -/
def dropLeadingSlash (path : Bytes) : Bytes := if path.head? = some slash then path.tail else path

/-- The first segment, and the rest with its leading `/`; `none` for the empty path. -/
def splitPathSegment (path : Bytes) : Option (Bytes × Bytes) :=
  if path.isEmpty then none
  else
    let path := dropLeadingSlash path
    match findByte slash path 0 with
    | none => some (path, [])
    | some separator => some (path.take separator, path.drop separator)

def isDotSegment (segment : Bytes) : Bool :=
  !segment.isEmpty && segment.length ≤ 6 &&
    (uriPathsEquivalent segment (lit ".") || uriPathsEquivalent segment (lit ".."))

/-- Some stretch between two slashes is a dot segment. -/
def hasDotSegment (path : Bytes) : Bool := (path.splitOn slash).any isDotSegment

/-! ## Segments -/

/-- The segments of a path; the empty path has none, `/` has one empty segment. -/
def pathSegments (path : Bytes) : List Bytes :=
  if path.isEmpty then [] else (dropLeadingSlash path).splitOn slash

@[simp] theorem pathSegments_nil : pathSegments [] = [] := rfl

theorem pathSegments_cons_slash (path : Bytes) : pathSegments (slash :: path) = path.splitOn slash := by
  simp [pathSegments, dropLeadingSlash]

variable {path : Bytes}

theorem pathSegments_ne_nil (h : path ≠ []) : pathSegments path ≠ [] := by
  rw [pathSegments, if_neg (by simpa using h)]
  exact List.splitOn_ne_nil _ _

theorem slash_not_mem_take {i : Nat} (h : findByte slash path 0 = some i) : slash ∉ path.take i := by
  intro hmem
  obtain ⟨j, hlt, hj⟩ := List.mem_iff_getElem.mp hmem
  rw [List.length_take] at hlt
  rw [List.getElem_take] at hj
  refine (findByte_eq_some_iff.mp h).2.2 j (Nat.zero_le _) (by omega) ?_
  rw [List.getElem?_eq_getElem (by omega), hj]

theorem drop_eq_slash_cons {i : Nat} (h : findByte slash path 0 = some i) :
    path.drop i = slash :: path.drop (i + 1) := by
  obtain ⟨hlt, hi⟩ := List.getElem?_eq_some_iff.mp (findByte_eq_some_iff.mp h).2.1
  rw [List.drop_eq_getElem_cons hlt, hi]

theorem slash_not_mem_of_findByte_none (h : findByte slash path 0 = none) : slash ∉ path := by
  intro hmem
  obtain ⟨j, hj⟩ := List.getElem?_of_mem hmem
  exact findByte_eq_none_iff.mp h j (Nat.zero_le _) hj

/-- Splitting at the first slash. -/
theorem splitOn_of_findByte_some {i : Nat} (h : findByte slash path 0 = some i) :
    path.splitOn slash = path.take i :: (path.drop (i + 1)).splitOn slash := by
  conv_lhs => rw [← List.take_append_drop i path, drop_eq_slash_cons h]
  exact List.splitOn_append_cons_self_of_not_mem (slash_not_mem_take h) _

theorem splitPathSegment_eq_none_iff : splitPathSegment path = none ↔ path = [] := by
  rw [splitPathSegment]
  split
  · rename_i h
    exact ⟨fun _ => by simpa using h, fun _ => rfl⟩
  · rename_i h
    simp only
    split <;> exact ⟨(fun h => by cases h), fun heq => absurd (by simpa using heq) h⟩

/-- **One step over a path.** The rest is empty or starts with a slash. -/
theorem splitPathSegment_some {segment rest : Bytes} (h : splitPathSegment path = some (segment, rest)) :
    pathSegments path = segment :: pathSegments rest ∧ rest.length < path.length ∧
      (rest = [] ∨ rest.head? = some slash) := by
  rw [splitPathSegment] at h
  split at h
  · cases h
  · rename_i hne
    have hpos : 0 < path.length := List.length_pos_iff.mpr (by simpa using hne)
    simp only at h
    rw [pathSegments, if_neg hne]
    cases hfind : findByte slash (dropLeadingSlash path) 0 with
    | none =>
      simp only [hfind, Option.some.injEq, Prod.mk.injEq] at h
      obtain ⟨rfl, rfl⟩ := h
      rw [List.splitOn_eq_singleton (slash_not_mem_of_findByte_none hfind)]
      exact ⟨rfl, hpos, .inl rfl⟩
    | some i =>
      simp only [hfind, Option.some.injEq, Prod.mk.injEq] at h
      obtain ⟨rfl, rfl⟩ := h
      refine ⟨?_, ?_, .inr ?_⟩
      · rw [splitOn_of_findByte_some hfind, drop_eq_slash_cons hfind, pathSegments_cons_slash]
      · rw [List.length_drop, dropLeadingSlash]
        split
        · rw [List.length_tail]
          omega
        · -- without a leading slash the first slash is not in front
          rename_i hhead
          have : i ≠ 0 := by
            rintro rfl
            have hzero := (findByte_eq_some_iff.mp hfind).2.1
            rw [dropLeadingSlash, if_neg hhead, ← List.head?_eq_getElem?] at hzero
            exact hhead hzero
          omega
      · rw [drop_eq_slash_cons hfind]
        rfl

/-- A segment ends before the next slash. -/
theorem splitPathSegment_no_slash {segment rest : Bytes} (h : splitPathSegment path = some (segment, rest)) :
    slash ∉ segment := by
  rw [splitPathSegment] at h
  split at h
  · cases h
  · dsimp only at h
    split at h
    · rename_i hnone
      cases h
      exact slash_not_mem_of_findByte_none hnone
    · rename_i hsome
      cases h
      exact slash_not_mem_take hsome

theorem splitPathSegment_length {segment rest : Bytes} (h : splitPathSegment path = some (segment, rest)) :
    rest.length < path.length := (splitPathSegment_some h).2.1

/-- Behind the leading slash stands the segments' text. -/
theorem intercalate_pathSegments (h : path ≠ []) :
    [slash].intercalate (pathSegments path) = dropLeadingSlash path := by
  rw [pathSegments, if_neg (by simpa using h), List.intercalate_splitOn]

/-- **Equivalent origin paths have equivalent segments.** -/
theorem pathSegments_equivalent {other : Bytes} (hpath : path.head? = some slash) (hother : other.head? = some slash)
    (h : uriPathsEquivalent path other = true) :
    List.Forall₂ (fun s t => uriPathsEquivalent s t = true) (pathSegments path) (pathSegments other) := by
  obtain ⟨path, rfl⟩ : ∃ rest, path = slash :: rest := List.head?_eq_some_iff.mp hpath
  obtain ⟨other, rfl⟩ : ∃ rest, other = slash :: rest := List.head?_eq_some_iff.mp hother
  rw [uriPathsEquivalent_iff] at h
  obtain ⟨hwell, hunits⟩ := h
  have hslash : ∀ rest, uriPathUnits (slash :: rest) = uriPathSeparatorUnit :: uriPathUnits rest :=
    fun rest => by simpa using uriPathUnits_append_slash [] rest
  rw [hslash, hslash, List.cons.injEq] at hunits
  have hpieces : (path.splitOn slash).map uriPathUnits = (other.splitOn slash).map uriPathUnits := by
    rw [← uriPathUnits_splitOn, ← uriPathUnits_splitOn, hunits.2]
  have hrest : WellFormedPath path := fun u hu => hwell u (by rw [hslash]; exact List.mem_cons_of_mem _ hu)
  have hrel : List.Forall₂ (fun s t => uriPathUnits s = uriPathUnits t) (path.splitOn slash) (other.splitOn slash) := by
    rw [← List.forall₂_eq_eq_eq, List.forall₂_map_left_iff, List.forall₂_map_right_iff] at hpieces
    exact hpieces
  have hboth := (List.forall₂_and_left (p := WellFormedPath) _ _).mpr ⟨fun s hs => hrest.segment hs, hrel⟩
  exact hboth.imp fun s t hst => (uriPathsEquivalent_iff s t).mpr hst

end Ruvia.Web
