import Ruvia.Web.RouteLookup

/-!
# `Web.DynamicWalk` — the trie walk without captures

`find_dynamic_node_no_params` asks only whether a path has a route. The walk with captures gives up where a match has
no room for one more; registration refuses a route with that many parameters, so in a trie that was built from routes
there always is room (`Roomy`), and both walks find the same route (`findDynamicNodeNoParams_eq`).
-/

namespace Ruvia.Web

open Library Ruvia.Http

def findDynamicNodeNoParams (node : DynamicNode) (path : Bytes) : Option Nat :=
  match _hsplit : splitPathSegment path with
  | none =>
    match node.routeIndex with
    | some routeIndex => some routeIndex
    | none => node.wildcardRouteIndex
  | some (segment, rest) =>
    let viaStatic :=
      match findDynamicStaticChild node.staticChildren segment with
      | some child => findDynamicNodeNoParams child.2 rest
      | none => none
    match viaStatic with
    | some routeIndex => some routeIndex
    | none =>
      let viaParam :=
        match node.paramChild with
        | none => none
        | some child => if segment.isEmpty then none else findDynamicNodeNoParams child rest
      match viaParam with
      | some routeIndex => some routeIndex
      | none => node.wildcardRouteIndex
termination_by path.length
decreasing_by all_goals exact splitPathSegment_length _hsplit

variable {segment : Bytes}

/-! ## Room for captures -/

/-- **There is room**: below a node that is entered with so many captures, no way comes to more than a match holds. -/
inductive Roomy : Nat → DynamicNode → Prop where
  | node {count : Nat} {node : DynamicNode} :
      (node.wildcardRouteIndex ≠ none → count < maxRouteParams) →
      (∀ child ∈ node.staticChildren, Roomy count child.2) →
      (node.paramChild ≠ none → count < maxRouteParams) →
      (∀ child, node.paramChild = some child → Roomy (count + 1) child) → Roomy count node

theorem roomy_empty (count : Nat) : Roomy count .empty :=
  .node (fun h => absurd rfl h) nofun (fun h => absurd rfl h)
    nofun

section

variable {count : Nat} {node : DynamicNode}

theorem Roomy.wildcard (h : Roomy count node) (hwild : node.wildcardRouteIndex ≠ none) : count < maxRouteParams := by
  cases h with
  | node hwildcard _ _ _ => exact hwildcard hwild

theorem Roomy.static (h : Roomy count node) {child : Bytes × DynamicNode} (hchild : child ∈ node.staticChildren) :
    Roomy count child.2 := by
  cases h with
  | node _ hstatic _ _ => exact hstatic child hchild

theorem Roomy.param (h : Roomy count node) {child : DynamicNode} (hchild : node.paramChild = some child) :
    count < maxRouteParams ∧ Roomy (count + 1) child := by
  cases h with
  | node _ _ hroom hparam => exact ⟨hroom (by rw [hchild]; exact Option.some_ne_none child), hparam child hchild⟩

end

variable {count : Nat} {children : List (Bytes × DynamicNode)}

theorem staticChildOrNew_roomy (h : ∀ child ∈ children, Roomy count child.2) (segment : Bytes) :
    Roomy count (staticChildOrNew children segment) := by
  unfold staticChildOrNew
  cases hfind : children.find? fun child => uriPathsEquivalent child.1 segment with
  | none => exact roomy_empty count
  | some child => exact h child (List.mem_of_find?_eq_some hfind)

theorem mem_setStaticChild {child : DynamicNode} {other : Bytes × DynamicNode}
    (h : other ∈ setStaticChild segment child children) :
    other.2 = child ∨ other ∈ children := by
  induction children with
  | nil => exact .inl (by rw [List.mem_singleton.mp h])
  | cons first rest ih =>
    rw [setStaticChild] at h
    split at h
    · rcases List.mem_cons.mp h with rfl | hmem
      · exact .inl rfl
      · exact .inr (List.mem_cons_of_mem _ hmem)
    · rcases List.mem_cons.mp h with rfl | hmem
      · exact .inr List.mem_cons_self
      · exact (ih hmem).imp_right (List.mem_cons_of_mem _)

theorem appendDynamicParamName_length {names names' : List Bytes} {name : Bytes}
    (h : appendDynamicParamName names name = .ok names') :
    names.length < maxRouteParams ∧ names'.length = names.length + 1 := by
  rw [appendDynamicParamName] at h
  split at h
  · cases h
  · cases h
    exact ⟨by omega, List.length_append⟩

/-- An insertion counts the captures of the route on its way. -/
theorem insertDynamic_roomy {i : Nat} {path : Bytes} {node node' : DynamicNode} {names names' : List Bytes}
    (hroomy : Roomy names.length node) (h : insertDynamic i path node names = .ok (node', names')) :
    Roomy names.length node' := by
  induction hlen : path.length using Nat.strong_induction_on generalizing path node node' names names' with
  | _ n ih =>
    have hstatic := fun child hchild => @hroomy.static _ _ child hchild
    have hparamRoom : node.paramChild ≠ none → names.length < maxRouteParams := by
      intro hne
      obtain ⟨child, hchild⟩ := Option.ne_none_iff_exists'.mp hne
      exact (hroomy.param hchild).1
    have hparam := fun child hchild => (@hroomy.param _ _ child hchild).2
    rcases insertDynamic_ok h with ⟨_, _, rfl⟩ | ⟨_, _, _, happend, rfl⟩ |
      ⟨segment, rest, entered, child, hsplit, _, _, happend, hchild, rfl⟩ |
      ⟨segment, rest, child, hsplit, _, _, hchild, rfl⟩
    · exact .node hroomy.wildcard hstatic hparamRoom hparam
    · exact .node (fun _ => (appendDynamicParamName_length happend).1) hstatic hparamRoom hparam
    · obtain ⟨hroom, hcount⟩ := appendDynamicParamName_length happend
      have hold : Roomy entered.length (node.paramChild.getD .empty) := by
        rw [hcount]
        cases hold : node.paramChild with
        | none => exact roomy_empty _
        | some old => exact hparam old hold
      have hnew := ih _ (hlen ▸ splitPathSegment_length hsplit) hold hchild rfl
      rw [hcount] at hnew
      refine .node hroomy.wildcard hstatic (fun _ => hroom) fun other hother => ?_
      obtain rfl := Option.some.inj hother
      exact hnew
    · have hnew := ih _ (hlen ▸ splitPathSegment_length hsplit) (staticChildOrNew_roomy hstatic segment) hchild rfl
      refine .node hroomy.wildcard (fun other hother => ?_) hparamRoom hparam
      rcases mem_setStaticChild hother with heq | hmem
      · rw [heq]
        exact hnew
      · exact hstatic other hmem

theorem sortDynamicNode_roomy {node : DynamicNode} (h : Roomy count node) : Roomy count (sortDynamicNode node) := by
  induction h with
  | @node count node hwildcard _ hroom _ hstatic hparam =>
    rw [sortDynamicNode_eq]
    refine .node hwildcard (fun child hchild => ?_) (fun hne => hroom ?_) fun child hchild => ?_
    · obtain ⟨unsorted, hunsorted, rfl⟩ := List.mem_map.mp ((List.mergeSort_perm _ _).mem_iff.mp hchild)
      exact hstatic unsorted hunsorted
    · rintro hnone
      exact hne (by rw [DynamicNode.paramChild, hnone]; rfl)
    · obtain ⟨unsorted, hunsorted, rfl⟩ := Option.map_eq_some_iff.mp hchild
      exact hparam unsorted hunsorted

variable {order : List RouteEntry} {index : DynamicIndex}

/-- **In a trie that is built, no walk runs out of captures.** -/
theorem buildDynamicRoutes_roomy (h : buildDynamicRoutes order = .ok index) : Roomy 0 index.root := by
  have hfold : ∀ (routes : List RouteEntry) (start built : DynamicIndex), Roomy 0 start.root →
      routes.foldlM insertDynamicRoute start = .ok built → Roomy 0 built.root := by
    intro routes
    induction routes with
    | nil =>
      intro start built hstart hbuilt
      cases hbuilt
      exact hstart
    | cons route rest ih =>
      intro start built hstart hbuilt
      rw [List.foldlM_cons] at hbuilt
      unfold insertDynamicRoute at hbuilt
      split at hbuilt
      · cases hbuilt
      · rename_i root names hinsert
        exact ih _ built (@insertDynamic_roomy _ _ _ _ [] _ hstart hinsert) hbuilt
  unfold buildDynamicRoutes at h
  split at h
  · cases h
  · rename_i built hbuilt
    cases h
    exact sortDynamicNode_roomy (hfold order {} built (roomy_empty 0) hbuilt)

/-! ## The two walks -/

theorem findDynamicStaticChild_mem {child : Bytes × DynamicNode}
    (h : findDynamicStaticChild children segment = some child) : child ∈ children := by
  unfold findDynamicStaticChild at h
  split at h
  · exact List.mem_of_find?_eq_some h
  · split at h
    · cases h
    · rename_i hget
      split at h
      · cases h
        exact List.mem_of_getElem? hget
      · cases h

/-- A walk with captures comes to the same end, and gives back what it has captured when it finds nothing. -/
def SameEnd (captured : RouteMatch) (out : Option Nat × RouteMatch) (found : Option Nat) : Prop :=
  out.1 = found ∧ (out.1 = none → out.2.truncate captured.length = captured)

theorem sameEnd_none (captured : RouteMatch) : SameEnd captured (none, captured) none :=
  ⟨rfl, fun _ => truncate_self captured⟩

variable {captured : RouteMatch}

/-- Where there is room, the wildcard slot decides. -/
theorem matchWildcard_sameEnd {node : DynamicNode} (hroomy : Roomy captured.length node) (capture : Bytes) :
    SameEnd captured (matchWildcard node capture captured) node.wildcardRouteIndex := by
  unfold matchWildcard
  cases hwild : node.wildcardRouteIndex with
  | none => exact sameEnd_none captured
  | some routeIndex =>
    have hroom := hroomy.wildcard (by rw [hwild]; exact Option.some_ne_none routeIndex)
    rw [RouteMatch.add, if_neg (by omega)]
    exact ⟨rfl, by simp⟩

/-- One way is tried after another. -/
theorem SameEnd.orElse {out : Option Nat × RouteMatch} {found : Option Nat}
    {next : RouteMatch → Option Nat × RouteMatch} {found' : Option Nat} :
    SameEnd captured out found →
    (∀ left, left.truncate captured.length = captured → SameEnd captured (next left) found') →
    SameEnd captured
      (match out with
        | (some routeIndex, kept) => (some routeIndex, kept)
        | (none, left) => next left)
      (match found with
        | some routeIndex => some routeIndex
        | none => found') := by
  intro hout hnext
  obtain ⟨result, left⟩ := out
  obtain ⟨rfl, hleft⟩ := hout
  cases result with
  | some routeIndex => exact ⟨rfl, nofun⟩
  | none => exact hnext left (hleft rfl)

/-- **The walk with captures finds what the walk without them finds.** -/
theorem findDynamicNode_sameEnd {node : DynamicNode} {path : Bytes} {captured : RouteMatch}
    (hroomy : Roomy captured.length node) :
    SameEnd captured (findDynamicNode node path captured) (findDynamicNodeNoParams node path) := by
  induction hlen : path.length using Nat.strong_induction_on generalizing path node captured with
  | _ n ih =>
    rw [findDynamicNode]
    have hwalk := findDynamicNodeNoParams.eq_def node path
    split
    · rename_i hsplit
      split at hwalk
      swap
      · rename_i hsome
        cases hsplit.symm.trans hsome
      rw [hwalk]
      cases node.routeIndex with
      | some routeIndex => exact ⟨rfl, nofun⟩
      | none => exact matchWildcard_sameEnd hroomy []
    · rename_i segment rest hsplit
      split at hwalk
      · rename_i hnone
        cases hsplit.symm.trans hnone
      rename_i hsome
      cases hsplit.symm.trans hsome
      rw [hwalk]
      have hlt : rest.length < n := hlen ▸ splitPathSegment_length hsplit
      have hstatic : SameEnd captured
          (match findDynamicStaticChild node.staticChildren segment with
            | some child => findDynamicNode child.2 rest captured
            | none => (none, captured))
          (match findDynamicStaticChild node.staticChildren segment with
            | some child => findDynamicNodeNoParams child.2 rest
            | none => none) := by
        cases hchild : findDynamicStaticChild node.staticChildren segment with
        | none => exact sameEnd_none captured
        | some child => exact ih _ hlt (hroomy.static (findDynamicStaticChild_mem hchild)) rfl
      refine hstatic.orElse fun left hleft => ?_
      rw [hleft]
      refine SameEnd.orElse ?_ fun left hleft => ?_
      · cases hchild : node.paramChild with
        | none => exact sameEnd_none captured
        | some child =>
          dsimp only
          split
          · exact sameEnd_none captured
          · obtain ⟨hroom, hbelow⟩ := hroomy.param hchild
            have hadd : captured.add segment = some (captured ++ [segment]) := by
              rw [RouteMatch.add, if_neg (by omega)]
            have hlength : (captured ++ [segment]).length = captured.length + 1 := List.length_append
            rw [hadd]
            obtain ⟨hsame, hleft⟩ := ih _ hlt (hlength.symm ▸ hbelow) rfl
            refine ⟨hsame, fun hnone => ?_⟩
            -- Fewer captures are kept than the walk below has come with.
            have htake := congrArg (List.take captured.length) (hleft hnone)
            rw [RouteMatch.truncate, List.take_take, hlength, Nat.min_eq_left (by omega),
              List.take_left] at htake
            exact htake
      · rw [hleft]
        exact matchWildcard_sameEnd hroomy (dropLeadingSlash path)

/-- **Both walks agree** on every trie that is built, and every path. -/
theorem findDynamicNodeNoParams_eq (h : buildDynamicRoutes order = .ok index) (path : Bytes) :
    findDynamicNodeNoParams index.root path = (findDynamicNode index.root path []).1 :=
  (@findDynamicNode_sameEnd index.root path [] (buildDynamicRoutes_roomy h)).1.symm

end Ruvia.Web
