import Mathlib.Data.List.Sort
import Ruvia.Library.PartitionPoint
import Ruvia.Web.RoutePattern

/-!
# `Web.RouteTrie` — the trie of the dynamic routes

`insert_dynamic`, `sort_dynamic_node` and the conflict check. A node is described by the set of routes that
pass through it, each by the rest of its pattern (`DynamicNode.Holds`); inserting adds one route to the set
(`insertDynamic_holds`) and sorting keeps it (`sortDynamicNode_holds`). The conflict check is what keeps
every slot to one route.
-/

namespace Ruvia.Web

open Library Ruvia.Http
open PatternSegment

def maxRouteParams : Nat := 16

/-! ## Nodes -/

inductive DynamicNode where
  | node (routeIndex wildcardRouteIndex : Option Nat) (staticChildren : List (Bytes × DynamicNode))
      (paramChild : Option DynamicNode)

namespace DynamicNode

def routeIndex : DynamicNode → Option Nat
  | .node routeIndex _ _ _ => routeIndex

def wildcardRouteIndex : DynamicNode → Option Nat
  | .node _ wildcardRouteIndex _ _ => wildcardRouteIndex

def staticChildren : DynamicNode → List (Bytes × DynamicNode)
  | .node _ _ staticChildren _ => staticChildren

def paramChild : DynamicNode → Option DynamicNode
  | .node _ _ _ paramChild => paramChild

def empty : DynamicNode := .node none none [] none

end DynamicNode

/-! ## Insertion -/

def appendDynamicParamName (names : List Bytes) (name : Bytes) : Except String (List Bytes) :=
  if maxRouteParams ≤ names.length then .error "route has too many parameters" else .ok (names ++ [name])

/-- The child a literal segment leads to; a fresh node when there is none. -/
def staticChildOrNew (children : List (Bytes × DynamicNode)) (segment : Bytes) : DynamicNode :=
  ((children.find? fun child => uriPathsEquivalent child.1 segment).map (·.2)).getD .empty

/-- That child replaced, or pushed behind the others. -/
def setStaticChild (segment : Bytes) (child : DynamicNode) :
    List (Bytes × DynamicNode) → List (Bytes × DynamicNode)
  | [] => [(segment, child)]
  | first :: rest =>
    if uriPathsEquivalent first.1 segment then (first.1, child) :: rest
    else first :: setStaticChild segment child rest

/-- The trie below `node` with the route inserted, and the names of its parameters. An empty rest ends in
the slot of the child just entered. -/
def insertDynamic (routeIndex : Nat) (path : Bytes) (node : DynamicNode) (names : List Bytes) :
    Except String (DynamicNode × List Bytes) :=
  match _hsplit : splitPathSegment path with
  | none => .ok (.node (some routeIndex) node.wildcardRouteIndex node.staticChildren node.paramChild, names)
  | some (segment, rest) =>
    if isWildcardSegment segment then
      if rest ≠ [] then .error "wildcard route segment must be final"
      else
        match appendDynamicParamName names (lit "*") with
        | .error error => .error error
        | .ok names =>
          .ok (.node node.routeIndex (some routeIndex) node.staticChildren node.paramChild, names)
    else if isParamSegment segment then
      if segment.length = 1 then .error "route parameter name must not be empty"
      else
        match appendDynamicParamName names segment.tail with
        | .error error => .error error
        | .ok names =>
          match insertDynamic routeIndex rest (node.paramChild.getD .empty) names with
          | .error error => .error error
          | .ok (child, names) =>
            .ok (.node node.routeIndex node.wildcardRouteIndex node.staticChildren (some child), names)
    else
      match insertDynamic routeIndex rest (staticChildOrNew node.staticChildren segment) names with
      | .error error => .error error
      | .ok (child, names) =>
        .ok (.node node.routeIndex node.wildcardRouteIndex (setStaticChild segment child node.staticChildren)
          node.paramChild, names)
termination_by path.length
decreasing_by all_goals exact splitPathSegment_length _hsplit

/-! ## Sorting -/

/-- The order of the literal children. -/
def staticChildLe (left right : Bytes × DynamicNode) : Bool := !decide (compareUriPaths right.1 left.1 < 0)

mutual

def sortDynamicNode : DynamicNode → DynamicNode
  | .node routeIndex wildcardRouteIndex staticChildren paramChild =>
    .node routeIndex wildcardRouteIndex ((sortChildNodes staticChildren).mergeSort staticChildLe)
      (sortParamChild paramChild)

def sortChildNodes : List (Bytes × DynamicNode) → List (Bytes × DynamicNode)
  | [] => []
  | (segment, child) :: rest => (segment, sortDynamicNode child) :: sortChildNodes rest

def sortParamChild : Option DynamicNode → Option DynamicNode
  | none => none
  | some child => some (sortDynamicNode child)

end

/-! ## The index of one method -/

/-- The dynamic routes of one method or tunnel protocol: their trie, and the parameter names of each. -/
structure DynamicIndex where
  root : DynamicNode := .empty
  paramNames : List (Nat × List Bytes) := []

def insertDynamicRoute (index : DynamicIndex) (route : RouteEntry) : Except String DynamicIndex :=
  match insertDynamic route.index route.path index.root [] with
  | .error error => .error error
  | .ok (root, names) => .ok { root, paramNames := index.paramNames ++ [(route.index, names)] }

/-- The part of `build_dynamic_routes` for the routes that share a trie. -/
def buildDynamicRoutes (routes : List RouteEntry) : Except String DynamicIndex :=
  match routes.foldlM insertDynamicRoute {} with
  | .error error => .error error
  | .ok index => .ok { index with root := sortDynamicNode index.root }

/-! ## Conflicts -/

/-- The two patterns end in one slot. -/
def sameDynamicShape (left right : Bytes) : Bool :=
  match _hleft : splitPathSegment left, splitPathSegment right with
  | none, none => true
  | some (leftSegment, leftRest), some (rightSegment, rightRest) =>
    let leftLiteral := !isParamSegment leftSegment && !isWildcardSegment leftSegment
    let rightLiteral := !isParamSegment rightSegment && !isWildcardSegment rightSegment
    if leftLiteral ≠ rightLiteral then false
    else if
        if leftLiteral then uriPathsEquivalent leftSegment rightSegment = false
        else isParamSegment leftSegment ≠ isParamSegment rightSegment then false
    else sameDynamicShape leftRest rightRest
  | _, _ => false
termination_by left.length
decreasing_by exact splitPathSegment_length _hleft

/-- Dynamic routes that are looked up in one trie: those of one method, or of one tunnel protocol. -/
def competes (left right : RouteEntry) : Bool :=
  right.dynamic && left.method == right.method && left.tunnel == right.tunnel

/-- `validate_no_dynamic_route_conflict`; the error holds the first two routes in conflict. -/
def validateNoDynamicRouteConflict : List RouteEntry → Except (RouteEntry × RouteEntry) Unit
  | [] => .ok ()
  | left :: rest =>
    if left.dynamic = false then validateNoDynamicRouteConflict rest
    else
      match rest.find? fun right => competes left right && sameDynamicShape left.path right.path with
      | some right => .error (left, right)
      | none => validateNoDynamicRouteConflict rest

/-! ## Shapes -/

/-- The same literal, two parameters, or two wildcards. -/
def PatternSegment.sameSlot : PatternSegment → PatternSegment → Bool
  | .literal s, .literal t => uriPathsEquivalent s t
  | .param _, .param _ => true
  | .wildcard, .wildcard => true
  | _, _ => false

def sameShape : List PatternSegment → List PatternSegment → Bool
  | [], [] => true
  | p :: ps, q :: qs => p.sameSlot q && sameShape ps qs
  | _, _ => false

theorem patternSegments_eq_nil {path : Bytes} (h : splitPathSegment path = none) : patternSegments path = [] := by
  rw [splitPathSegment_eq_none_iff.mp h]
  rfl

/-- A wildcard segment is no parameter. -/
theorem isParamSegment_of_isWildcardSegment {segment : Bytes} (h : isWildcardSegment segment = true) :
    isParamSegment segment = false := by
  obtain rfl : segment = lit "*" := by simpa [isWildcardSegment] using h
  decide

theorem ofText_sameSlot (left right : Bytes) :
    (ofText left).sameSlot (ofText right) =
      if (!isParamSegment left && !isWildcardSegment left) ≠ (!isParamSegment right && !isWildcardSegment right) then
        false
      else if !isParamSegment left && !isWildcardSegment left then uriPathsEquivalent left right
      else isParamSegment left == isParamSegment right := by
  have hleft := @isParamSegment_of_isWildcardSegment left
  have hright := @isParamSegment_of_isWildcardSegment right
  unfold ofText
  cases hlw : isWildcardSegment left <;> cases hrw : isWildcardSegment right <;>
    cases hlp : isParamSegment left <;> cases hrp : isParamSegment right <;>
    simp_all [sameSlot]

theorem sameDynamicShape_eq (left right : Bytes) :
    sameDynamicShape left right = sameShape (patternSegments left) (patternSegments right) := by
  fun_induction sameDynamicShape left right with
  | case1 left right hleft hright =>
    rw [patternSegments_eq_nil hleft, patternSegments_eq_nil hright]
    rfl
  | case2 left right leftSegment leftRest rightSegment rightRest hleft hright leftLiteral rightLiteral hne =>
    rw [patternSegments_cons hleft, patternSegments_cons hright, sameShape, ofText_sameSlot, if_pos hne]
    rfl
  | case3 left right leftSegment leftRest rightSegment rightRest hleft hright leftLiteral rightLiteral heq hdiffer =>
    rw [patternSegments_cons hleft, patternSegments_cons hright, sameShape, ofText_sameSlot, if_neg heq]
    by_cases hliteral : leftLiteral = true
    · rw [dif_pos hliteral] at hdiffer
      rw [if_pos hliteral, hdiffer, Bool.false_and]
    · rw [dif_neg hliteral] at hdiffer
      rw [if_neg hliteral, beq_eq_false_iff_ne.mpr hdiffer, Bool.false_and]
  | case4 left right leftSegment leftRest rightSegment rightRest hleft hright leftLiteral rightLiteral heq hsame ih =>
    rw [patternSegments_cons hleft, patternSegments_cons hright, sameShape, ofText_sameSlot, if_neg heq, ih]
    by_cases hliteral : leftLiteral = true
    · rw [dif_pos hliteral, Bool.not_eq_false] at hsame
      rw [if_pos hliteral, hsame, Bool.true_and]
    · rw [dif_neg hliteral, not_not] at hsame
      rw [if_neg hliteral, hsame, beq_self_eq_true, Bool.true_and]
  | case5 left right hnone hsome =>
    cases hleft : splitPathSegment left with
    | none =>
      cases hright : splitPathSegment right with
      | none => exact absurd hright (hnone hleft)
      | some step =>
        rw [patternSegments_eq_nil hleft, patternSegments_cons hright]
        rfl
    | some step =>
      cases hright : splitPathSegment right with
      | none =>
        rw [patternSegments_eq_nil hright, patternSegments_cons hleft]
        rfl
      | some step' => exact absurd hright (hsome _ _ _ _ hleft)

/-! ## What a node holds -/

/-- Routes by the rest of their pattern. -/
abbrev RouteSet := List PatternSegment → Nat → Prop

namespace RouteSet

/-- The routes that go on behind the literal `text`. -/
def afterLiteral (R : RouteSet) (text : Bytes) : RouteSet :=
  fun ps i => ∃ t, uriPathsEquivalent t text = true ∧ R (.literal t :: ps) i

/-- The routes that go on behind a parameter. -/
def afterParam (R : RouteSet) : RouteSet := fun ps i => ∃ name, R (.param name :: ps) i

def insert (R : RouteSet) (ps : List PatternSegment) (i : Nat) : RouteSet :=
  fun qs j => R qs j ∨ (qs = ps ∧ j = i)

end RouteSet

namespace DynamicNode

/-- **A node holds a set of routes**, given what its children hold: a slot for each route that ends here, and
for each that goes on the child it goes on to. `apart` relates the literals of two children. -/
structure NodeHolds (apart : Bytes → Bytes → Prop) (below : DynamicNode → RouteSet → Prop)
    (node : DynamicNode) (R : RouteSet) : Prop where
  route : ∀ i, node.routeIndex = some i ↔ R [] i
  wildcard : ∀ i, node.wildcardRouteIndex = some i ↔ R [.wildcard] i
  apart : node.staticChildren.Pairwise fun left right => apart left.1 right.1
  wellFormed : ∀ child ∈ node.staticChildren, WellFormedPath child.1
  static : ∀ child ∈ node.staticChildren, below child.2 (R.afterLiteral child.1)
  covered : ∀ text ps i, R (.literal text :: ps) i →
    ∃ child ∈ node.staticChildren, uriPathsEquivalent child.1 text = true
  param : ∀ child, node.paramChild = some child → below child R.afterParam
  paramNone : node.paramChild = none → ∀ ps i, ¬ R.afterParam ps i

/-- A trie holds a set of routes, down to some depth. -/
def Holds (apart : Bytes → Bytes → Prop) : Nat → DynamicNode → RouteSet → Prop
  | 0 => fun _ _ => True
  | depth + 1 => NodeHolds apart (Holds apart depth)

end DynamicNode

/-- Two literals that lead to different children. -/
def LiteralsDiffer (left right : Bytes) : Prop := uriPathsEquivalent left right = false

theorem empty_holds (apart : Bytes → Bytes → Prop) (depth : Nat) {R : RouteSet} (h : ∀ ps i, ¬ R ps i) :
    DynamicNode.empty.Holds apart depth R := by
  cases depth with
  | zero => trivial
  | succ depth =>
    exact
      { route := fun i => ⟨nofun, fun hr => absurd hr (h _ _)⟩
        wildcard := fun i => ⟨nofun, fun hr => absurd hr (h _ _)⟩
        apart := List.Pairwise.nil
        wellFormed := nofun
        static := nofun
        covered := fun text ps i hr => absurd hr (h _ _)
        param := nofun
        paramNone := fun _ ps i ⟨name, hr⟩ => h _ _ hr }

/-! ## Inserting a route -/

theorem staticChildOrNew_cases (children : List (Bytes × DynamicNode)) (segment : Bytes) :
    (∃ c ∈ children, uriPathsEquivalent c.1 segment = true ∧ staticChildOrNew children segment = c.2) ∨
      (∀ c ∈ children, ¬ uriPathsEquivalent c.1 segment = true) ∧ staticChildOrNew children segment = .empty := by
  rw [staticChildOrNew]
  cases hfind : children.find? fun child => uriPathsEquivalent child.1 segment with
  | some c => exact .inl ⟨c, List.mem_of_find?_eq_some hfind, by simpa using List.find?_some hfind, rfl⟩
  | none => exact .inr ⟨fun c hc => List.find?_eq_none.mp hfind c hc, rfl⟩

/-- **The children with one replaced or pushed behind**: the new one is the only one for its segment. -/
theorem setStaticChild_spec (segment : Bytes) (child : DynamicNode) {children : List (Bytes × DynamicNode)}
    (hself : uriPathsEquivalent segment segment = true)
    (hapart : children.Pairwise fun left right => LiteralsDiffer left.1 right.1) :
    (setStaticChild segment child children).Pairwise (fun left right => LiteralsDiffer left.1 right.1) ∧
      (∀ c ∈ setStaticChild segment child children,
        ((∃ old, (c.1, old) ∈ children) ∨ c.1 = segment) ∧
          (c ∈ children ∧ uriPathsEquivalent segment c.1 = false ∨
            c.2 = child ∧ uriPathsEquivalent segment c.1 = true)) ∧
      (∃ c ∈ setStaticChild segment child children, uriPathsEquivalent c.1 segment = true) ∧
      ∀ old ∈ children, ∃ c ∈ setStaticChild segment child children, c.1 = old.1 := by
  induction children with
  | nil => simp [setStaticChild, hself]
  | cons first rest ih =>
    obtain ⟨hfirst, hrest⟩ := List.pairwise_cons.mp hapart
    rw [setStaticChild]
    split
    · rename_i hequiv
      refine ⟨List.pairwise_cons.mpr ⟨hfirst, hrest⟩, fun c hc => ?_, ⟨_, List.mem_cons_self, hequiv⟩,
        fun old hold => ?_⟩
      · rcases List.mem_cons.mp hc with rfl | hc
        · exact ⟨.inl ⟨_, List.mem_cons_self⟩, .inr ⟨rfl, uriPathsEquivalent_symm hequiv⟩⟩
        · refine ⟨.inl ⟨c.2, List.mem_cons_of_mem _ hc⟩, .inl ⟨List.mem_cons_of_mem _ hc, ?_⟩⟩
          rw [← uriPathsEquivalent_congr_left hequiv]
          exact hfirst c hc
      · rcases List.mem_cons.mp hold with rfl | hold
        · exact ⟨_, List.mem_cons_self, rfl⟩
        · exact ⟨old, List.mem_cons_of_mem _ hold, rfl⟩
    · rename_i hne
      obtain ⟨happart', hmem, ⟨c, hc, hequiv⟩, hkept⟩ := ih hrest
      rw [Bool.not_eq_true] at hne
      refine ⟨List.pairwise_cons.mpr ⟨fun c hc => ?_, happart'⟩, fun c hc => ?_,
        ⟨c, List.mem_cons_of_mem _ hc, hequiv⟩, fun old hold => ?_⟩
      · rcases (hmem c hc).1 with ⟨old, hold⟩ | hsegment
        · exact hfirst (c.1, old) hold
        · rw [LiteralsDiffer, hsegment]
          exact hne
      · rcases List.mem_cons.mp hc with rfl | hc
        · exact ⟨.inl ⟨_, List.mem_cons_self⟩, .inl ⟨List.mem_cons_self, uriPathsEquivalent_comm ▸ hne⟩⟩
        · exact (hmem c hc).imp (.imp_left fun ⟨old, hold⟩ => ⟨old, List.mem_cons_of_mem _ hold⟩)
            (.imp_left (.imp_left (List.mem_cons_of_mem _)))
      · rcases List.mem_cons.mp hold with rfl | hold
        · exact ⟨_, List.mem_cons_self, rfl⟩
        · obtain ⟨c, hc, heq⟩ := hkept old hold
          exact ⟨c, List.mem_cons_of_mem _ hc, heq⟩

/-- **What an insertion can do**: take the slot of the node, take its wildcard slot, or go on to a child. -/
theorem insertDynamic_ok {i : Nat} {path : Bytes} {node node' : DynamicNode} {names names' : List Bytes}
    (h : insertDynamic i path node names = .ok (node', names')) :
    (splitPathSegment path = none ∧ names' = names ∧
        node' = .node (some i) node.wildcardRouteIndex node.staticChildren node.paramChild) ∨
      (∃ segment, splitPathSegment path = some (segment, []) ∧ isWildcardSegment segment = true ∧
        appendDynamicParamName names (lit "*") = .ok names' ∧
        node' = .node node.routeIndex (some i) node.staticChildren node.paramChild) ∨
      (∃ segment rest entered child, splitPathSegment path = some (segment, rest) ∧
        ¬ isWildcardSegment segment = true ∧ isParamSegment segment = true ∧
        appendDynamicParamName names segment.tail = .ok entered ∧
        insertDynamic i rest (node.paramChild.getD .empty) entered = .ok (child, names') ∧
        node' = .node node.routeIndex node.wildcardRouteIndex node.staticChildren (some child)) ∨
      (∃ segment rest child, splitPathSegment path = some (segment, rest) ∧
        ¬ isWildcardSegment segment = true ∧ ¬ isParamSegment segment = true ∧
        insertDynamic i rest (staticChildOrNew node.staticChildren segment) names = .ok (child, names') ∧
        node' = .node node.routeIndex node.wildcardRouteIndex
          (setStaticChild segment child node.staticChildren) node.paramChild) := by
  rw [insertDynamic] at h
  split at h
  · rename_i hsplit
    cases h
    exact .inl ⟨hsplit, rfl, rfl⟩
  · rename_i segment rest hsplit
    split at h
    · rename_i hwild
      split at h
      · cases h
      · rename_i hrest
        rw [not_not] at hrest
        subst hrest
        split at h
        · cases h
        · rename_i happend
          cases h
          exact .inr (.inl ⟨segment, hsplit, hwild, happend, rfl⟩)
    · rename_i hwild
      split at h
      · rename_i hparam
        split at h
        · cases h
        · split at h
          · cases h
          · rename_i entered happend
            split at h
            · cases h
            · rename_i child _ hchild
              cases h
              exact .inr (.inr (.inl ⟨segment, rest, entered, child, hsplit, hwild, hparam, happend, hchild, rfl⟩))
      · rename_i hparam
        split at h
        · cases h
        · rename_i child _ hchild
          cases h
          exact .inr (.inr (.inr ⟨segment, rest, child, hsplit, hwild, hparam, hchild, rfl⟩))

namespace RouteSet

variable {R : RouteSet} {ps : List PatternSegment} {i : Nat} {text : Bytes}

variable {segment : Bytes}

theorem afterLiteral_congr (h : uriPathsEquivalent segment text = true) :
    R.afterLiteral segment = R.afterLiteral text := by
  funext qs j
  refine propext ⟨fun ⟨t, ht, hr⟩ => ⟨t, ?_, hr⟩, fun ⟨t, ht, hr⟩ => ⟨t, ?_, hr⟩⟩
  · exact uriPathsEquivalent_trans ht h
  · exact uriPathsEquivalent_trans ht (uriPathsEquivalent_symm h)

theorem insert_literal_afterLiteral (h : uriPathsEquivalent segment text = true) :
    (R.insert (.literal segment :: ps) i).afterLiteral text = (R.afterLiteral text).insert ps i := by
  funext qs j
  refine propext ⟨?_, ?_⟩
  · rintro ⟨t, ht, hr | ⟨heq, rfl⟩⟩
    · exact .inl ⟨t, ht, hr⟩
    · cases heq
      exact .inr ⟨rfl, rfl⟩
  · rintro (⟨t, ht, hr⟩ | ⟨rfl, rfl⟩)
    · exact ⟨t, ht, .inl hr⟩
    · exact ⟨segment, h, .inr ⟨rfl, rfl⟩⟩

theorem insert_literal_afterLiteral_of_ne (h : uriPathsEquivalent segment text = false) :
    (R.insert (.literal segment :: ps) i).afterLiteral text = R.afterLiteral text := by
  funext qs j
  refine propext ⟨?_, ?_⟩
  · rintro ⟨t, ht, hr | ⟨heq, rfl⟩⟩
    · exact ⟨t, ht, hr⟩
    · cases heq
      rw [h] at ht
      cases ht
  · rintro ⟨t, ht, hr⟩
    exact ⟨t, ht, .inl hr⟩

theorem insert_param_afterParam {name : Bytes} :
    (R.insert (.param name :: ps) i).afterParam = R.afterParam.insert ps i := by
  funext qs j
  refine propext ⟨?_, ?_⟩
  · rintro ⟨n, hr | ⟨heq, rfl⟩⟩
    · exact .inl ⟨n, hr⟩
    · cases heq
      exact .inr ⟨rfl, rfl⟩
  · rintro (⟨n, hr⟩ | ⟨rfl, rfl⟩)
    · exact ⟨n, .inl hr⟩
    · exact ⟨name, .inr ⟨rfl, rfl⟩⟩

/-- A route that does not start with a literal leaves the literals alone. -/
theorem insert_afterLiteral_of_not_literal (h : ∀ t qs, ps ≠ .literal t :: qs) :
    (R.insert ps i).afterLiteral = R.afterLiteral := by
  funext text qs j
  refine propext ⟨?_, fun ⟨t, ht, hr⟩ => ⟨t, ht, .inl hr⟩⟩
  rintro ⟨t, ht, hr | ⟨heq, rfl⟩⟩
  · exact ⟨t, ht, hr⟩
  · exact absurd heq.symm (h _ _)

theorem insert_afterParam_of_not_param (h : ∀ t qs, ps ≠ .param t :: qs) :
    (R.insert ps i).afterParam = R.afterParam := by
  funext qs j
  refine propext ⟨?_, fun ⟨t, hr⟩ => ⟨t, .inl hr⟩⟩
  rintro ⟨t, hr | ⟨heq, rfl⟩⟩
  · exact ⟨t, hr⟩
  · exact absurd heq.symm (h _ _)

end RouteSet

section

variable {depth : Nat} {R : RouteSet} {node child : DynamicNode} {i : Nat}

open DynamicNode (NodeHolds Holds)

/-- A free slot is taken. -/
theorem insert_self_iff {path : List PatternSegment} (hfree : ∀ j, ¬ R path j) (j : Nat) :
    some i = some j ↔ R.insert path i path j := by
  rw [Option.some.injEq]
  exact ⟨fun heq => .inr ⟨rfl, heq.symm⟩, fun hr => (hr.resolve_left (hfree j)).2.symm⟩

section

variable (hnode : NodeHolds LiteralsDiffer (Holds LiteralsDiffer depth) node R)
include hnode

/-- A slot of the node itself leaves the children alone. -/
theorem NodeHolds.takeSlot {route wildcard : Option Nat} {path : List PatternSegment}
    (hroute : ∀ j, route = some j ↔ R.insert path i [] j)
    (hwildcard : ∀ j, wildcard = some j ↔ R.insert path i [.wildcard] j)
    (hliteral : ∀ t qs, path ≠ .literal t :: qs) (hparam : ∀ t qs, path ≠ .param t :: qs) :
    NodeHolds LiteralsDiffer (Holds LiteralsDiffer depth) (.node route wildcard node.staticChildren node.paramChild)
      (R.insert path i) := by
  have hafter := RouteSet.insert_afterParam_of_not_param (R := R) (i := i) hparam
  exact
    { route := hroute
      wildcard := hwildcard
      apart := hnode.apart
      wellFormed := hnode.wellFormed
      static := by
        rw [RouteSet.insert_afterLiteral_of_not_literal hliteral]
        exact hnode.static
      covered := fun t ps j hr => hnode.covered t ps j (hr.resolve_right fun heq => hliteral _ _ heq.1.symm)
      param := hafter ▸ hnode.param
      paramNone := hafter ▸ hnode.paramNone }

/-- The child a parameter leads to holds what goes on behind one. -/
theorem NodeHolds.paramChildOrNew : (node.paramChild.getD .empty).Holds LiteralsDiffer depth R.afterParam := by
  cases hchild : node.paramChild with
  | none => exact empty_holds _ _ (hnode.paramNone hchild)
  | some child => exact hnode.param child hchild

end

variable {ps : List PatternSegment}

section

variable (hnode : NodeHolds LiteralsDiffer (Holds LiteralsDiffer depth) node R)
include hnode

theorem NodeHolds.setParam {name : Bytes}
    (hchild : child.Holds LiteralsDiffer depth (R.afterParam.insert ps i)) :
    NodeHolds LiteralsDiffer (Holds LiteralsDiffer depth)
      (.node node.routeIndex node.wildcardRouteIndex node.staticChildren (some child))
      (R.insert (.param name :: ps) i) where
  route := fun j => (hnode.route j).trans ⟨.inl, fun hr => hr.resolve_right (by simp)⟩
  wildcard := fun j => (hnode.wildcard j).trans ⟨.inl, fun hr => hr.resolve_right (by simp)⟩
  apart := hnode.apart
  wellFormed := hnode.wellFormed
  static := by
    rw [RouteSet.insert_afterLiteral_of_not_literal (by simp)]
    exact hnode.static
  covered := fun t qs j hr => hnode.covered t qs j (hr.resolve_right (by simp))
  param := fun c hc => by
    cases hc
    rw [RouteSet.insert_param_afterParam]
    exact hchild
  paramNone := nofun

/-- The child a literal leads to holds what goes on behind it. -/
theorem NodeHolds.staticChildOrNew {segment : Bytes} :
    (staticChildOrNew node.staticChildren segment).Holds LiteralsDiffer depth (R.afterLiteral segment) := by
  rcases staticChildOrNew_cases node.staticChildren segment with ⟨c, hc, hequiv, hchild⟩ | ⟨hnone, hchild⟩
  · rw [hchild, RouteSet.afterLiteral_congr (uriPathsEquivalent_symm hequiv)]
    exact hnode.static c hc
  · rw [hchild]
    refine empty_holds _ _ fun ps j ⟨t, ht, hr⟩ => ?_
    obtain ⟨c, hc, hct⟩ := hnode.covered t ps j hr
    exact hnone c hc (uriPathsEquivalent_trans hct ht)

end

theorem NodeHolds.setStatic {segment : Bytes} (hwell : WellFormedPath segment)
    (hnode : NodeHolds LiteralsDiffer (Holds LiteralsDiffer depth) node R)
    (hchild : child.Holds LiteralsDiffer depth ((R.afterLiteral segment).insert ps i)) :
    NodeHolds LiteralsDiffer (Holds LiteralsDiffer depth)
      (.node node.routeIndex node.wildcardRouteIndex (setStaticChild segment child node.staticChildren)
        node.paramChild)
      (R.insert (.literal segment :: ps) i) := by
  have hself := uriPathsEquivalent_refl hwell
  obtain ⟨hapart, hmem, ⟨own, hown, hequiv⟩, hkept⟩ := setStaticChild_spec segment child hself hnode.apart
  exact
    { route := fun j => (hnode.route j).trans ⟨.inl, fun hr => hr.resolve_right (by simp)⟩
      wildcard := fun j => (hnode.wildcard j).trans ⟨.inl, fun hr => hr.resolve_right (by simp)⟩
      apart := hapart
      wellFormed := fun c hc => by
        rcases (hmem c hc).1 with ⟨old, hold⟩ | hsegment
        · exact hnode.wellFormed (c.1, old) hold
        · exact hsegment ▸ hwell
      static := fun c hc => by
        rcases (hmem c hc).2 with ⟨hold, hne⟩ | ⟨hchild', hsegment⟩
        · rw [RouteSet.insert_literal_afterLiteral_of_ne hne]
          exact hnode.static c hold
        · rw [RouteSet.insert_literal_afterLiteral hsegment, ← RouteSet.afterLiteral_congr hsegment, hchild']
          exact hchild
      covered := by
        rintro t qs j (hr | ⟨heq, rfl⟩)
        · obtain ⟨old, hold, hequiv'⟩ := hnode.covered t qs j hr
          obtain ⟨c, hc, heq⟩ := hkept old hold
          exact ⟨c, hc, heq ▸ hequiv'⟩
        · cases heq
          exact ⟨own, hown, hequiv⟩
      param := by
        rw [RouteSet.insert_afterParam_of_not_param (by simp)]
        exact hnode.param
      paramNone := by
        rw [RouteSet.insert_afterParam_of_not_param (by simp)]
        exact hnode.paramNone }

/-- **Inserting a route adds it to what the trie holds**, when no route there has its shape. -/
theorem insertDynamic_holds {path : Bytes} {names names' : List Bytes} {node' : DynamicNode}
    (hwell : ∀ segment ∈ pathSegments path, WellFormedPath segment)
    (hnode : node.Holds LiteralsDiffer depth R)
    (hfree : ∀ qs j, R qs j → sameShape (patternSegments path) qs = false)
    (h : insertDynamic i path node names = .ok (node', names')) :
    node'.Holds LiteralsDiffer depth (R.insert (patternSegments path) i) := by
  induction hlen : path.length using Nat.strong_induction_on
    generalizing path node node' names names' depth R with
  | _ n ih =>
    cases depth with
    | zero => trivial
    | succ depth =>
      rcases insertDynamic_ok h with ⟨hsplit, _, rfl⟩ | ⟨segment, hsplit, hwild, _, rfl⟩ |
        ⟨segment, rest, entered, child, hsplit, hwild, hparam, _, hchild, rfl⟩ |
        ⟨segment, rest, child, hsplit, hwild, hparam, hchild, rfl⟩
      · rw [patternSegments_eq_nil hsplit] at hfree ⊢
        refine NodeHolds.takeSlot hnode (insert_self_iff fun j hr => by simpa [sameShape] using hfree _ _ hr)
          (fun j => (hnode.wildcard j).trans ⟨.inl, fun hr => hr.resolve_right (by simp)⟩) (by simp) (by simp)
      · have hps : patternSegments path = [.wildcard] := patternSegments_wildcard hsplit hwild
        rw [hps] at hfree ⊢
        refine NodeHolds.takeSlot hnode
          (fun j => (hnode.route j).trans ⟨.inl, fun hr => hr.resolve_right (by simp)⟩)
          (insert_self_iff fun j hr => by simpa [sameShape, sameSlot] using hfree _ _ hr) (by simp) (by simp)
      · obtain ⟨hsegments, hlt, _⟩ := splitPathSegment_some hsplit
        rw [patternSegments_param hsplit hwild hparam] at hfree ⊢
        refine NodeHolds.setParam hnode (ih _ (hlen ▸ hlt) ?_ (NodeHolds.paramChildOrNew hnode) ?_ hchild rfl)
        · exact fun s hs => hwell s (by rw [hsegments]; exact List.mem_cons_of_mem _ hs)
        · rintro qs j ⟨name, hr⟩
          simpa [sameShape, sameSlot] using hfree _ _ hr
      · obtain ⟨hsegments, hlt, _⟩ := splitPathSegment_some hsplit
        rw [patternSegments_literal hsplit hwild hparam] at hfree ⊢
        refine NodeHolds.setStatic (hwell segment (by rw [hsegments]; exact List.mem_cons_self)) hnode
          (ih _ (hlen ▸ hlt) ?_ (NodeHolds.staticChildOrNew hnode) ?_ hchild rfl)
        · exact fun s hs => hwell s (by rw [hsegments]; exact List.mem_cons_of_mem _ hs)
        · rintro qs j ⟨t, ht, hr⟩
          have := hfree _ _ hr
          rw [sameShape, sameSlot, uriPathsEquivalent_symm ht, Bool.true_and] at this
          exact this

end

end Ruvia.Web
