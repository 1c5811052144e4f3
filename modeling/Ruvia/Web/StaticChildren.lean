import Ruvia.Http.UriPathOrder
import Ruvia.Web.RouteLookup

/-!
# `Web.StaticChildren` — the search among sorted literals

`compare_uri_paths` orders the spellings by their units, so on well-formed paths it is a total preorder whose classes
are those of `uri_paths_equivalent`. Among children sorted by it, `partition_point` stops at the first one that is not
in front of the segment, which is the first equivalent one if there is one (`uri_path_order`).
-/

namespace Ruvia.Web

open Library Ruvia.Http

/-- **The order of paths.** On well-formed paths the comparison is a total preorder, its classes are those of the
equivalence, and among children sorted by it the binary search finds the child that the scan finds. -/
theorem uri_path_order :
    (∀ a b c : Bytes, validateUrlEncoding a = true → validateUrlEncoding b = true → validateUrlEncoding c = true →
      compareUriPaths a a = 0 ∧
      (compareUriPaths a b = 0 ↔ uriPathsEquivalent a b = true) ∧
      (compareUriPaths a b ≤ 0 → compareUriPaths b a ≤ 0 → uriPathsEquivalent a b = true) ∧
      (compareUriPaths a b ≤ 0 → compareUriPaths b c ≤ 0 → compareUriPaths a c ≤ 0) ∧
      (compareUriPaths a b ≤ 0 ∨ compareUriPaths b a ≤ 0) ∧
      (compareUriPaths a b < 0 ↔ 0 < compareUriPaths b a)) ∧
    ∀ (children : List (Bytes × DynamicNode)) (segment : Bytes),
      (children.Pairwise fun left right => compareUriPaths left.1 right.1 ≤ 0) →
        findDynamicStaticChild children segment =
          children.find? fun child => uriPathsEquivalent child.1 segment := by
  refine ⟨fun a b c ha _ _ => ?_, fun children segment hsorted =>
    findDynamicStaticChild_eq_find? segment (hsorted.imp compareUriPaths_nonpos_iff.mp)⟩
  have hwell := (validateUrlEncoding_iff a).mp ha
  simp only [compareUriPaths_nonpos_iff]
  refine ⟨(compareUriPaths_eq_zero_iff a a).mpr rfl, compareUriPaths_eq_zero_iff_equivalent hwell,
    fun hab hba => (uriPathsEquivalent_iff a b).mpr ⟨hwell, le_antisymm hab hba⟩, le_trans, le_total _ _, ?_⟩
  rw [compareUriPaths_neg_iff, compareUriPaths_pos_iff]

/-- Five literals in order, one of them searched in another spelling. -/
def orderedChildren : List (Bytes × DynamicNode) :=
  [lit "a", lit "b", lit "%63", lit "d", lit "e"].map fun literal => (literal, .node none none [] none)

theorem uri_path_order_children :
    compareUriPaths (lit "%61") (lit "b") < 0 ∧
      findDynamicStaticChild orderedChildren (lit "c") =
        orderedChildren.find? fun child => uriPathsEquivalent child.1 (lit "c") := by
  have horder := uri_path_order.1 (lit "%61") (lit "b") (lit "/%2F") (by decide +kernel) (by decide +kernel)
    (by decide +kernel)
  exact ⟨horder.2.2.2.2.2.mpr (by decide +kernel),
    uri_path_order.2 orderedChildren (lit "c") (by decide +kernel)⟩

end Ruvia.Web
