import Ruvia.Web.RoutePattern

/-!
# `Web.PathScope` — path scopes, and how much of a route they cover

`path_is_under_prefix` is the scope rule at dispatch; `route_scope_coverage` answers it once for all the
request paths a route serves. Both are read on segments: a path is under a scope when its leading segments
are equivalent to the scope's (`segmentsUnder`), and the coverage loop decides that for every list of
segments the pattern matches (`coverageFrom_spec`).
-/

namespace Ruvia.Web

open Library Ruvia.Http

/-! ## Scopes -/

/-- Trailing slashes go, but for a single one in front. -/
def stripTrailingSlashes : Bytes → Bytes
  | [] => []
  | first :: rest => first :: rest.rdropWhile (· == slash)

def normalizeFallbackPrefix (given : Bytes) : Except String Bytes :=
  if given.head? ≠ some slash then .error "fallback prefix must start with '/'"
  else if (findByte questionMark given 0).isSome ∨ isValidHttpOriginFormTarget given = false then
    .error "fallback prefix must be an origin-form path without query"
  else if stripTrailingSlashes given = lit "/" then
    .error "fallback prefix must not be '/'; register app-wide without a prefix"
  else .ok (stripTrailingSlashes given)

/-- The scope of a registration: empty for an app-wide one, else a normalized prefix. -/
structure ScopePrefix where
  text : Bytes
  normalized : text = [] ∨ ∃ given, normalizeFallbackPrefix given = .ok text

theorem normalizeFallbackPrefix_head {given text : Bytes} (h : normalizeFallbackPrefix given = .ok text) :
    text.head? = some slash := by
  unfold normalizeFallbackPrefix at h
  split_ifs at h with hhead
  rw [not_not] at hhead
  obtain ⟨rest, rfl⟩ := List.head?_eq_some_iff.mp hhead
  cases h
  rfl

theorem ScopePrefix.head (scope : ScopePrefix) (h : scope.text ≠ []) : scope.text.head? = some slash := by
  rcases scope.normalized with hnil | ⟨given, hgiven⟩
  · exact absurd hnil h
  · exact normalizeFallbackPrefix_head hgiven

/-! ## Paths under a scope -/

/-- End of the segment in front. -/
def segmentEnd (path : Bytes) : Nat := (findByte slash path 0).getD path.length

/-- The loop of `path_is_under_prefix`, on what lies behind the two cursors. -/
def pathUnderFrom (path scope : Bytes) : Bool :=
  if uriPathsEquivalent (path.take (segmentEnd path)) (scope.take (segmentEnd scope)) = false then false
  else if segmentEnd scope = scope.length then true
  else if segmentEnd path = path.length then false
  else pathUnderFrom (path.drop (segmentEnd path + 1)) (scope.drop (segmentEnd scope + 1))
termination_by scope.length
decreasing_by
  rename_i hend _
  have : scope ≠ [] := fun hnil => hend (by rw [hnil]; rfl)
  have := List.length_pos_iff.mpr this
  simp only [List.length_drop]
  omega

def pathIsUnderPrefix (path scope : Bytes) : Bool :=
  if scope.isEmpty then true
  else if path.head? ≠ some slash then false
  else pathUnderFrom path.tail scope.tail

example : pathIsUnderPrefix (lit "/%61pi/x") (lit "/api") = true := by decide +kernel
example : pathIsUnderPrefix (lit "/apix") (lit "/api") = false := by decide +kernel

/-- The leading segments are equivalent to the scope's. -/
def segmentsUnder : List Bytes → List Bytes → Bool
  | _, [] => true
  | [], _ :: _ => false
  | segment :: path, scopeSegment :: scope => uriPathsEquivalent segment scopeSegment && segmentsUnder path scope

/-- The segment in front, and the segments behind its end. -/
theorem splitOn_segmentEnd (path : Bytes) :
    path.splitOn slash = path.take (segmentEnd path) ::
      if segmentEnd path = path.length then [] else (path.drop (segmentEnd path + 1)).splitOn slash := by
  rw [segmentEnd]
  cases hfind : findByte slash path 0 with
  | none =>
    rw [Option.getD_none, if_pos rfl, List.take_length]
    exact List.splitOn_eq_singleton (slash_not_mem_of_findByte_none hfind)
  | some i =>
    rw [Option.getD_some, if_neg (findByte_lt hfind).ne]
    exact splitOn_of_findByte_some hfind

theorem pathUnderFrom_eq (path scope : Bytes) :
    pathUnderFrom path scope = segmentsUnder (path.splitOn slash) (scope.splitOn slash) := by
  fun_induction pathUnderFrom path scope with
  | case1 path scope hne =>
    rw [splitOn_segmentEnd path, splitOn_segmentEnd scope, segmentsUnder, hne, Bool.false_and]
  | case2 path scope hequiv hlast =>
    rw [Bool.not_eq_false] at hequiv
    rw [splitOn_segmentEnd path, splitOn_segmentEnd scope, segmentsUnder, hequiv, if_pos hlast, segmentsUnder]
    rfl
  | case3 path scope hequiv hmore hlast =>
    rw [splitOn_segmentEnd path, splitOn_segmentEnd scope, segmentsUnder, if_pos hlast, if_neg hmore]
    obtain ⟨segment, rest, hsplit⟩ := List.exists_cons_of_ne_nil
      (List.splitOn_ne_nil slash (scope.drop (segmentEnd scope + 1)))
    rw [hsplit, segmentsUnder, Bool.and_false]
  | case4 path scope hequiv hmore hmore' ih =>
    rw [Bool.not_eq_false] at hequiv
    rw [ih, splitOn_segmentEnd path, splitOn_segmentEnd scope, segmentsUnder, hequiv, Bool.true_and,
      if_neg hmore, if_neg hmore']

/-- **The scope rule on segments.** -/
theorem pathIsUnderPrefix_eq {path : Bytes} (hpath : path.head? = some slash) (scope : ScopePrefix) :
    pathIsUnderPrefix path scope.text = segmentsUnder (pathSegments path) (pathSegments scope.text) := by
  by_cases hscope : scope.text = []
  · rw [hscope, pathSegments_nil, segmentsUnder]
    rfl
  · obtain ⟨path, rfl⟩ := List.head?_eq_some_iff.mp hpath
    obtain ⟨rest, hrest⟩ := List.head?_eq_some_iff.mp (scope.head hscope)
    rw [pathIsUnderPrefix, if_neg (by simpa using hscope), if_neg (not_not.mpr hpath), pathUnderFrom_eq, hrest,
      pathSegments_cons_slash, pathSegments_cons_slash, List.tail_cons, List.tail_cons]

/-- Equivalent paths are under the same scopes. -/
theorem segmentsUnder_congr {path other : List Bytes} (scope : List Bytes)
    (h : List.Forall₂ (fun s t => uriPathsEquivalent s t = true) path other) :
    segmentsUnder path scope = segmentsUnder other scope := by
  induction h generalizing scope with
  | nil => rfl
  | cons hequiv _ ih =>
    cases scope with
    | nil => rfl
    | cons scopeSegment scope => rw [segmentsUnder, segmentsUnder, uriPathsEquivalent_congr_left hequiv, ih]

/-! ## Coverage -/

/-- How much of a route's request paths a scope covers. -/
inductive MiddlewareScopeCoverage where
  | none
  | partialCoverage
  | full
  deriving DecidableEq, Repr

/-- The loop of `route_scope_coverage`; `requestDependent` once a parameter has faced a scope segment. -/
def coverageFrom (pattern scope : Bytes) (requestDependent : Bool) : MiddlewareScopeCoverage :=
  match _hscope : splitPathSegment scope with
  | none => if requestDependent then .partialCoverage else .full
  | some (scopeSegment, scopeRest) =>
    match splitPathSegment pattern with
    | none => .none
    | some (patternSegment, patternRest) =>
      if isWildcardSegment patternSegment then .partialCoverage
      else if isParamSegment patternSegment then
        if scopeSegment.isEmpty then .none else coverageFrom patternRest scopeRest true
      else if uriPathsEquivalent patternSegment scopeSegment = false then .none
      else coverageFrom patternRest scopeRest requestDependent
termination_by scope.length
decreasing_by all_goals exact splitPathSegment_length _hscope

def routeScopeCoverage (pattern : Bytes) (dynamic : Bool) (scope : Bytes) : MiddlewareScopeCoverage :=
  if dynamic = false then if pathIsUnderPrefix pattern scope then .full else .none
  else if scope.isEmpty then .full
  else coverageFrom pattern scope false

/-- A scope that some request decides never covers the whole route. -/
theorem coverageFrom_dependent (pattern scope : Bytes) : coverageFrom pattern scope true ≠ .full := by
  generalize hdependent : true = requestDependent
  fun_induction coverageFrom pattern scope requestDependent with
  | case1 => simp_all
  | case2 _ _ _ _ hfull => exact absurd hdependent.symm hfull
  | case3 | case4 | case5 | case7 => simp
  | case6 _ _ _ _ _ _ _ _ _ _ _ _ ih => exact ih rfl
  | case8 _ _ _ _ _ _ _ _ _ _ _ _ ih => exact ih hdependent

/-- **The coverage loop answers for every list of segments the pattern matches.** -/
theorem coverageFrom_spec (pattern scope : Bytes) (requestDependent : Bool) {segments captures : List Bytes}
    (h : SegmentsMatch (patternSegments pattern) segments captures) :
    (coverageFrom pattern scope requestDependent = .full →
        segmentsUnder segments (pathSegments scope) = true) ∧
      (coverageFrom pattern scope requestDependent = .none →
        segmentsUnder segments (pathSegments scope) = false) := by
  fun_induction coverageFrom pattern scope requestDependent generalizing segments captures with
  | case1 =>
    simp
  | case2 pattern scope dependent hscope hdependent =>
    rw [splitPathSegment_eq_none_iff.mp hscope, pathSegments_nil, segmentsUnder]
    simp
  | case3 pattern scope dependent scopeSegment scopeRest hscope hpattern =>
    rw [splitPathSegment_eq_none_iff.mp hpattern, patternSegments, pathSegments_nil, List.map_nil,
      segmentsMatch_nil_left] at h
    rw [h.1, (splitPathSegment_some hscope).1, segmentsUnder]
    simp
  | case4 => simp
  | case5 pattern scope dependent scopeSegment scopeRest hscope patternSegment patternRest hpattern hwild hparam hempty =>
    rw [patternSegments_param hpattern hwild hparam, segmentsMatch_param_cons] at h
    obtain ⟨segment, rest, captured, rfl, rfl, hne, _⟩ := h
    have hnil : scopeSegment = [] := by simpa using hempty
    have : uriPathsEquivalent segment scopeSegment = false := by
      rw [Bool.eq_false_iff]
      exact fun hequiv => uriPathsEquivalent_ne_nil hequiv hne hnil
    rw [(splitPathSegment_some hscope).1, segmentsUnder, this]
    simp
  | case6 pattern scope dependent scopeSegment scopeRest hscope patternSegment patternRest hpattern hwild hparam hne ih =>
    rw [patternSegments_param hpattern hwild hparam, segmentsMatch_param_cons] at h
    obtain ⟨segment, rest, captured, rfl, rfl, _, hmatch⟩ := h
    rw [(splitPathSegment_some hscope).1, segmentsUnder]
    refine ⟨fun hfull => absurd hfull (coverageFrom_dependent _ _), fun hnone => ?_⟩
    rw [(ih hmatch).2 hnone, Bool.and_false]
  | case7 pattern scope dependent scopeSegment scopeRest hscope patternSegment patternRest hpattern hwild hparam hne =>
    rw [patternSegments_literal hpattern hwild hparam, segmentsMatch_literal_cons] at h
    obtain ⟨segment, rest, rfl, hequiv, _⟩ := h
    rw [(splitPathSegment_some hscope).1, segmentsUnder, ← uriPathsEquivalent_congr_left hequiv, hne]
    simp
  | case8 pattern scope dependent scopeSegment scopeRest hscope patternSegment patternRest hpattern hwild hparam heq ih =>
    rw [patternSegments_literal hpattern hwild hparam, segmentsMatch_literal_cons] at h
    obtain ⟨segment, rest, rfl, hequiv, hmatch⟩ := h
    rw [Bool.not_eq_false] at heq
    rw [(splitPathSegment_some hscope).1, segmentsUnder, ← uriPathsEquivalent_congr_left hequiv, heq, Bool.true_and]
    exact ih hmatch

/-- **Build-time coverage is sound for every request a route serves.** -/
theorem routeScopeCoverage_spec (route : RouteEntry) (scope : ScopePrefix) {path : Bytes}
    (hserves : route.Serves path) :
    (routeScopeCoverage route.path route.dynamic scope.text = .full → pathIsUnderPrefix path scope.text = true) ∧
      (routeScopeCoverage route.path route.dynamic scope.text = .none →
        pathIsUnderPrefix path scope.text = false) := by
  have hunscoped : ∀ other, scope.text = [] → pathIsUnderPrefix other scope.text = true := by
    intro other hnil
    rw [hnil]
    rfl
  by_cases hdynamic : route.dynamic = true
  · rw [RouteEntry.Serves, if_pos hdynamic] at hserves
    obtain ⟨hpath, captures, hmatch⟩ := hserves
    rw [routeScopeCoverage, if_neg (by simp [hdynamic])]
    by_cases hscope : scope.text = []
    · simp [hscope, pathIsUnderPrefix]
    · rw [if_neg (by simpa using hscope), pathIsUnderPrefix_eq hpath]
      exact coverageFrom_spec _ _ _ hmatch
  · have hsame : pathIsUnderPrefix route.path scope.text = pathIsUnderPrefix path scope.text := by
      rw [RouteEntry.Serves, if_neg hdynamic] at hserves
      by_cases hconnect : route.tunnel = some []
      · -- two authorities: no scope but the empty one holds either
        rw [if_pos hconnect] at hserves
        by_cases hscope : scope.text = []
        · rw [hunscoped _ hscope, hunscoped _ hscope]
        · rw [pathIsUnderPrefix, if_neg (by simpa using hscope), if_pos (route.connect hconnect), pathIsUnderPrefix,
            if_neg (by simpa using hscope), if_pos hserves]
      · rw [if_neg hconnect] at hserves
        have hpattern := (route.origin hconnect).1
        rw [pathIsUnderPrefix_eq hpattern, pathIsUnderPrefix_eq hserves.1]
        exact segmentsUnder_congr _ (pathSegments_equivalent hpattern hserves.1 hserves.2)
    rw [Bool.not_eq_true] at hdynamic
    rw [routeScopeCoverage, if_pos hdynamic, hsame]
    split <;> simp_all

example : routeScopeCoverage (lit "/users/:id/posts") true (lit "/users/7") = .partialCoverage := by decide +kernel
example : routeScopeCoverage (lit "/%75sers/:id") true (lit "/users") = .full := by decide +kernel

end Ruvia.Web
