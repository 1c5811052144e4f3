import Ruvia.Web.RouteTrie

/-!
# `Web.RouteIndex` — the sorted trie of a set of routes

Sorting the children keeps what a trie holds and puts the literals in order (`sortDynamicNode_holds`).
Building inserts the routes one after the other; the conflict check makes each of these insertions find its
slot free, in any order of the routes (`buildDynamicRoutes_holds`).
-/

namespace Ruvia.Web

open Library Ruvia.Http

/-! ## Sorting -/

/-- Two literals in the order of the binary search. -/
def LiteralsSorted (left right : Bytes) : Prop := uriPathUnits left < uriPathUnits right

theorem staticChildLe_iff (left right : Bytes × DynamicNode) :
    staticChildLe left right = true ↔ uriPathUnits left.1 ≤ uriPathUnits right.1 := by
  rw [staticChildLe, Bool.not_eq_true', decide_eq_false_iff_not, compareUriPaths_neg_iff, not_lt]

theorem sortChildNodes_eq (children : List (Bytes × DynamicNode)) :
    sortChildNodes children = children.map fun child => (child.1, sortDynamicNode child.2) := by
  induction children with
  | nil => rw [sortChildNodes]; rfl
  | cons first rest ih =>
    rw [sortChildNodes, ih]
    rfl

theorem sortDynamicNode_eq (node : DynamicNode) :
    sortDynamicNode node =
      .node node.routeIndex node.wildcardRouteIndex
        ((node.staticChildren.map fun child => (child.1, sortDynamicNode child.2)).mergeSort staticChildLe)
        (node.paramChild.map sortDynamicNode) := by
  obtain ⟨routeIndex, wildcardRouteIndex, staticChildren, paramChild⟩ := node
  rw [sortDynamicNode, sortChildNodes_eq]
  cases paramChild with
  | none | some child => rfl

/-- Well-formed literals that differ and are in order are strictly in order. -/
theorem literalsSorted_of_le {left right : Bytes} (hwell : WellFormedPath left)
    (hdiffer : LiteralsDiffer left right) (hle : uriPathUnits left ≤ uriPathUnits right) :
    LiteralsSorted left right := by
  refine lt_of_le_of_ne hle fun heq => ?_
  have := (uriPathsEquivalent_iff left right).mpr ⟨hwell, heq⟩
  rw [hdiffer] at this
  cases this

/-- **Sorting keeps what the trie holds.** -/
theorem sortDynamicNode_holds (depth : Nat) :
    ∀ {node : DynamicNode} {R : RouteSet}, node.Holds LiteralsDiffer depth R →
      (sortDynamicNode node).Holds LiteralsSorted depth R := by
  induction depth with
  | zero => exact fun _ => trivial
  | succ depth ih =>
    intro node R hnode
    have hnode : DynamicNode.NodeHolds LiteralsDiffer (DynamicNode.Holds LiteralsDiffer depth) node R := hnode
    rw [sortDynamicNode_eq]
    have hperm := List.mergeSort_perm
      (node.staticChildren.map fun child => (child.1, sortDynamicNode child.2)) staticChildLe
    have hmem : ∀ child ∈ (node.staticChildren.map fun child => (child.1, sortDynamicNode child.2)).mergeSort
        staticChildLe, ∃ unsorted ∈ node.staticChildren, child = (unsorted.1, sortDynamicNode unsorted.2) := by
      intro child hchild
      obtain ⟨unsorted, hunsorted, rfl⟩ := List.mem_map.mp (hperm.mem_iff.mp hchild)
      exact ⟨unsorted, hunsorted, rfl⟩
    have hsorted : ((node.staticChildren.map fun child => (child.1, sortDynamicNode child.2)).mergeSort
        staticChildLe).Pairwise fun left right => LiteralsSorted left.1 right.1 := by
      have hle := @List.pairwise_mergeSort _ staticChildLe
        (fun a b c hab hbc => by
          rw [staticChildLe_iff] at hab hbc ⊢
          exact le_trans hab hbc)
        (fun a b => by
          rw [Bool.or_eq_true, staticChildLe_iff, staticChildLe_iff]
          exact le_total _ _)
        (node.staticChildren.map fun child => (child.1, sortDynamicNode child.2))
      have hdiffer : (node.staticChildren.map fun child => (child.1, sortDynamicNode child.2)).Pairwise
          fun left right => LiteralsDiffer left.1 right.1 := List.pairwise_map.mpr hnode.apart
      have hdiffer := hdiffer.perm hperm.symm fun h => by
        rw [LiteralsDiffer, uriPathsEquivalent_comm]
        exact h
      refine (hle.and hdiffer).imp_of_mem fun {left right} hleft _ hboth => ?_
      obtain ⟨unsorted, hunsorted, rfl⟩ := hmem left hleft
      exact literalsSorted_of_le (hnode.wellFormed unsorted hunsorted) hboth.2 ((staticChildLe_iff _ _).mp hboth.1)
    exact
      { route := hnode.route
        wildcard := hnode.wildcard
        apart := hsorted
        wellFormed := fun child hchild => by
          obtain ⟨unsorted, hunsorted, rfl⟩ := hmem child hchild
          exact hnode.wellFormed unsorted hunsorted
        static := fun child hchild => by
          obtain ⟨unsorted, hunsorted, rfl⟩ := hmem child hchild
          exact ih (hnode.static _ hunsorted)
        covered := fun text ps i hr => by
          obtain ⟨child, hchild, htext⟩ := hnode.covered text ps i hr
          exact ⟨(child.1, sortDynamicNode child.2), hperm.mem_iff.mpr (List.mem_map_of_mem hchild), htext⟩
        param := fun child hchild => by
          obtain ⟨unsorted, hunsorted, rfl⟩ := Option.map_eq_some_iff.mp hchild
          exact ih (hnode.param unsorted hunsorted)
        paramNone := fun hnone => hnode.paramNone (Option.map_eq_none_iff.mp hnone) }

/-! ## Parameter names -/

/-- The names of the parameters of a pattern, in order. -/
def patternParamNames : List PatternSegment → List Bytes
  | [] => []
  | .literal _ :: ps => patternParamNames ps
  | .param name :: ps => name :: patternParamNames ps
  | .wildcard :: ps => lit "*" :: patternParamNames ps

theorem appendDynamicParamName_ok {names names' : List Bytes} {name : Bytes}
    (h : appendDynamicParamName names name = .ok names') :
    names' = names ++ [name] ∧ names'.length ≤ maxRouteParams := by
  rw [appendDynamicParamName] at h
  split at h
  · cases h
  · cases h
    refine ⟨rfl, ?_⟩
    rw [List.length_append, List.length_singleton]
    omega

variable {i : Nat} {path : Bytes} {node node' : DynamicNode}

/-- **The names an insertion collects**: those of the pattern, and never more than a match has room for. -/
theorem insertDynamic_names {names names' : List Bytes} (hroom : names.length ≤ maxRouteParams)
    (h : insertDynamic i path node names = .ok (node', names')) :
    names' = names ++ patternParamNames (patternSegments path) ∧ names'.length ≤ maxRouteParams := by
  induction hlen : path.length using Nat.strong_induction_on generalizing path node node' names names' with
  | _ n ih =>
    rcases insertDynamic_ok h with ⟨hsplit, rfl, _⟩ | ⟨segment, hsplit, hwild, happend, _⟩ |
      ⟨segment, rest, entered, child, hsplit, hwild, hparam, happend, hchild, _⟩ |
      ⟨segment, rest, child, hsplit, hwild, hparam, hchild, _⟩
    · rw [patternSegments_eq_nil hsplit, patternParamNames, List.append_nil]
      exact ⟨rfl, hroom⟩
    · rw [patternSegments_wildcard hsplit hwild]
      exact appendDynamicParamName_ok happend
    · obtain ⟨rfl, hentered⟩ := appendDynamicParamName_ok happend
      obtain ⟨rfl, hnames⟩ := ih _ (hlen ▸ splitPathSegment_length hsplit) hentered hchild rfl
      rw [patternSegments_param hsplit hwild hparam, patternParamNames]
      exact ⟨List.append_assoc _ _ _, hnames⟩
    · obtain ⟨rfl, hnames⟩ := ih _ (hlen ▸ splitPathSegment_length hsplit) hroom hchild rfl
      rw [patternSegments_literal hsplit hwild hparam, patternParamNames]
      exact ⟨rfl, hnames⟩

/-- The wildcard is the last segment. -/
def WildcardFinal : List PatternSegment → Prop
  | [] => True
  | .wildcard :: ps => ps = []
  | _ :: ps => WildcardFinal ps

theorem insertDynamic_wildcardFinal {names names' : List Bytes}
    (h : insertDynamic i path node names = .ok (node', names')) :
    WildcardFinal (patternSegments path) := by
  induction hlen : path.length using Nat.strong_induction_on generalizing path node node' names names' with
  | _ n ih =>
    rcases insertDynamic_ok h with ⟨hsplit, _⟩ | ⟨segment, hsplit, hwild, _⟩ |
      ⟨segment, rest, entered, child, hsplit, hwild, hparam, _, hchild, _⟩ |
      ⟨segment, rest, child, hsplit, hwild, hparam, hchild, _⟩
    · rw [patternSegments_eq_nil hsplit]
      trivial
    · rw [patternSegments_wildcard hsplit hwild]
      rfl
    · rw [patternSegments_param hsplit hwild hparam]
      exact ih _ (hlen ▸ splitPathSegment_length hsplit) hchild rfl
    · rw [patternSegments_literal hsplit hwild hparam]
      exact ih _ (hlen ▸ splitPathSegment_length hsplit) hchild rfl

/-! ## Slots -/

/-- The slot a pattern ends in. -/
def slotAt : DynamicNode → List PatternSegment → Option Nat
  | node, [] => node.routeIndex
  | node, .wildcard :: _ => node.wildcardRouteIndex
  | node, .param _ :: ps => node.paramChild.bind fun child => slotAt child ps
  | node, .literal text :: ps =>
    (node.staticChildren.find? fun child => uriPathsEquivalent child.1 text).bind fun child => slotAt child.2 ps

/-- **Every route a trie holds is in the slot its pattern ends in.** -/
theorem slotAt_of_holds {apart : Bytes → Bytes → Prop} {ps : List PatternSegment} :
    ∀ {node : DynamicNode} {R : RouteSet}, node.Holds apart (ps.length + 1) R → WildcardFinal ps → R ps i →
      slotAt node ps = some i := by
  induction ps with
  | nil => exact fun hnode _ hr => (DynamicNode.NodeHolds.route hnode i).mpr hr
  | cons p ps ih =>
    intro node R hnode hfinal hr
    have hnode : DynamicNode.NodeHolds apart (DynamicNode.Holds apart (ps.length + 1)) node R := hnode
    cases p with
    | wildcard =>
      obtain rfl : ps = [] := hfinal
      exact (hnode.wildcard i).mpr hr
    | param name =>
      rw [slotAt]
      cases hchild : node.paramChild with
      | none => exact absurd ⟨name, hr⟩ (hnode.paramNone hchild ps i)
      | some child => exact ih (hnode.param child hchild) hfinal ⟨name, hr⟩
    | literal text =>
      rw [slotAt]
      cases hfind : node.staticChildren.find? fun child => uriPathsEquivalent child.1 text with
      | none =>
        obtain ⟨child, hchild, htext⟩ := hnode.covered text ps i hr
        exact absurd htext (List.find?_eq_none.mp hfind child hchild)
      | some child =>
        have htext : uriPathsEquivalent child.1 text = true := by simpa using List.find?_some hfind
        exact ih (hnode.static child (List.mem_of_find?_eq_some hfind)) hfinal
          ⟨text, uriPathsEquivalent_symm htext, hr⟩

/-! ## Building -/

/-- The segments of a registered path are well formed. -/
theorem RouteEntry.segments_wellFormed (route : RouteEntry) (h : route.tunnel ≠ some []) :
    ∀ segment ∈ pathSegments route.path, WellFormedPath segment := by
  intro segment hsegment
  obtain ⟨hhead, hwell⟩ := route.origin h
  obtain ⟨rest, hrest⟩ := List.head?_eq_some_iff.mp hhead
  rw [hrest, pathSegments_cons_slash] at hsegment
  refine WellFormedPath.segment (fun u hu => hwell u ?_) hsegment
  rw [hrest, show slash :: rest = [] ++ slash :: rest from rfl, uriPathUnits_append_slash]
  exact List.mem_append_right _ (List.mem_cons_of_mem _ hu)

/-- The routes of a list, by their pattern. -/
def RouteSet.of (routes : List RouteEntry) : RouteSet :=
  fun ps i => ∃ route ∈ routes, patternSegments route.path = ps ∧ route.index = i

/-- No two routes end in one slot. -/
def ShapesDiffer (left right : RouteEntry) : Prop := sameDynamicShape left.path right.path = false

/-- What an index is of the routes inserted so far. -/
structure DynamicIndex.Indexes (index : DynamicIndex) (routes : List RouteEntry) : Prop where
  root : ∀ depth, index.root.Holds LiteralsDiffer depth (RouteSet.of routes)
  paramNames : index.paramNames =
    routes.map fun route => (route.index, patternParamNames (patternSegments route.path))
  room : ∀ route ∈ routes, (patternParamNames (patternSegments route.path)).length ≤ maxRouteParams
  final : ∀ route ∈ routes, WildcardFinal (patternSegments route.path)

variable {index : DynamicIndex} {route : RouteEntry}

theorem insertDynamicRoute_indexes {index' : DynamicIndex} {done : List RouteEntry} (horigin : route.tunnel ≠ some [])
    (hshapes : ∀ other ∈ done, ShapesDiffer route other) (hdone : index.Indexes done)
    (h : insertDynamicRoute index route = .ok index') :
    index'.Indexes (done ++ [route]) := by
  unfold insertDynamicRoute at h
  split at h
  · cases h
  · rename_i root names hinsert
    cases h
    obtain ⟨hnames, hroom⟩ := insertDynamic_names (Nat.zero_le _) hinsert
    rw [List.nil_append] at hnames
    subst hnames
    refine ⟨fun depth => ?_, ?_, fun other hother => ?_, fun other hother => ?_⟩
    · have hset : RouteSet.of (done ++ [route]) =
          (RouteSet.of done).insert (patternSegments route.path) route.index := by
        funext ps i
        refine propext ⟨?_, ?_⟩
        · rintro ⟨other, hother, rfl, rfl⟩
          rcases List.mem_append.mp hother with hother | hother
          · exact .inl ⟨other, hother, rfl, rfl⟩
          · obtain rfl := List.mem_singleton.mp hother
            exact .inr ⟨rfl, rfl⟩
        · rintro (⟨other, hother, rfl, rfl⟩ | ⟨rfl, rfl⟩)
          · exact ⟨other, List.mem_append_left _ hother, rfl, rfl⟩
          · exact ⟨route, by simp, rfl, rfl⟩
      rw [hset]
      refine insertDynamic_holds ?_ (hdone.root depth) ?_ hinsert
      · exact route.segments_wellFormed horigin
      · rintro qs j ⟨other, hother, rfl, rfl⟩
        rw [← sameDynamicShape_eq]
        exact hshapes other hother
    · simp [hdone.paramNames]
    · rcases List.mem_append.mp hother with hother | hother
      · exact hdone.room other hother
      · obtain rfl := List.mem_singleton.mp hother
        exact hroom
    · rcases List.mem_append.mp hother with hother | hother
      · exact hdone.final other hother
      · obtain rfl := List.mem_singleton.mp hother
        exact insertDynamic_wildcardFinal hinsert

theorem foldlM_insertDynamicRoute_indexes (routes : List RouteEntry) :
    ∀ {index index' : DynamicIndex} {done : List RouteEntry},
      (∀ route ∈ routes, route.tunnel ≠ some []) →
      (done ++ routes).Pairwise (fun left right => ShapesDiffer right left) → index.Indexes done →
      routes.foldlM insertDynamicRoute index = .ok index' → index'.Indexes (done ++ routes) := by
  induction routes with
  | nil =>
    intro index index' done _ _ hdone h
    cases h
    simpa using hdone
  | cons route rest ih =>
    intro index index' done horigin hshapes hdone h
    rw [List.foldlM_cons] at h
    cases hstep : insertDynamicRoute index route with
    | error error => simp [hstep, bind, Except.bind] at h
    | ok next =>
      rw [hstep] at h
      have hfree : ∀ other ∈ done, ShapesDiffer route other := fun other hother =>
        (List.pairwise_append.mp hshapes).2.2 other hother route List.mem_cons_self
      have hnext := insertDynamicRoute_indexes (horigin route List.mem_cons_self) hfree hdone hstep
      rw [List.append_cons] at hshapes
      have := ih (fun r hr => horigin r (List.mem_cons_of_mem _ hr)) hshapes hnext h
      rwa [List.append_assoc, List.singleton_append] at this

/-! ## Conflicts -/

theorem sameShape_comm (ps qs : List PatternSegment) : sameShape ps qs = sameShape qs ps := by
  induction ps generalizing qs with
  | nil => cases qs <;> rfl
  | cons p ps ih =>
    cases qs with
    | nil => rfl
    | cons q qs =>
      have hslot : p.sameSlot q = q.sameSlot p := by
        cases p <;> cases q <;> simp [PatternSegment.sameSlot, uriPathsEquivalent_comm]
      rw [sameShape, sameShape, hslot, ih]

theorem ShapesDiffer.symm {left right : RouteEntry} (h : ShapesDiffer left right) : ShapesDiffer right left := by
  rw [ShapesDiffer, sameDynamicShape_eq, sameShape_comm, ← sameDynamicShape_eq]
  exact h

/-- The dynamic routes that share a trie. -/
def dynamicRoutesOf (routes : List RouteEntry) (method : HttpKnownMethod) (tunnel : Option Bytes) :
    List RouteEntry :=
  routes.filter fun route => route.dynamic && route.method == method && route.tunnel == tunnel

variable {routes : List RouteEntry}

theorem dynamicRoutesOf_origin {method : HttpKnownMethod} {tunnel : Option Bytes}
    (h : route ∈ dynamicRoutesOf routes method tunnel) : route.tunnel ≠ some [] := by
  have := (List.mem_filter.mp h).2
  simp only [Bool.and_eq_true, RouteEntry.dynamic, decide_eq_true_eq] at this
  exact this.1.1.1

/-- **What the conflict check guarantees**: routes that share a trie end in different slots. -/
theorem validateNoDynamicRouteConflict_spec (method : HttpKnownMethod) (tunnel : Option Bytes)
    (h : validateNoDynamicRouteConflict routes = .ok ()) :
    (dynamicRoutesOf routes method tunnel).Pairwise ShapesDiffer := by
  induction routes with
  | nil => exact List.Pairwise.nil
  | cons left rest ih =>
    rw [validateNoDynamicRouteConflict] at h
    rw [dynamicRoutesOf, List.filter_cons]
    split at h
    · rename_i hstatic
      rw [hstatic]
      exact ih h
    · split at h
      · cases h
      · rename_i hdynamic hnone
        split
        · rename_i hleft
          refine List.pairwise_cons.mpr ⟨fun right hright => ?_, ih h⟩
          obtain ⟨hmem, hright⟩ := List.mem_filter.mp hright
          have hcompare := List.find?_eq_none.mp hnone right hmem
          simp only [Bool.and_eq_true, beq_iff_eq] at hleft hright
          rw [ShapesDiffer, Bool.eq_false_iff]
          intro hshape
          refine hcompare ?_
          simp [competes, hright.1.1, hleft.1.2, hright.1.2, hleft.2, hright.2, hshape]
        · exact ih h

/-- **The index built from conflict-free routes**, in any order. -/
theorem buildDynamicRoutes_holds {order : List RouteEntry} (horigin : ∀ route ∈ order, route.tunnel ≠ some [])
    (hshapes : order.Pairwise ShapesDiffer) (h : buildDynamicRoutes order = .ok index) :
    (∀ depth, index.root.Holds LiteralsSorted depth (RouteSet.of order)) ∧
      index.paramNames = order.map (fun route => (route.index, patternParamNames (patternSegments route.path))) ∧
      ∀ route ∈ order, (patternParamNames (patternSegments route.path)).length ≤ maxRouteParams ∧
        WildcardFinal (patternSegments route.path) := by
  unfold buildDynamicRoutes at h
  split at h
  · cases h
  · rename_i built hbuilt
    cases h
    have hempty : ({} : DynamicIndex).Indexes [] :=
      ⟨fun depth => empty_holds _ _ fun ps i ⟨route, hroute, _⟩ => absurd hroute List.not_mem_nil, rfl, nofun, nofun⟩
    obtain ⟨hroot, hnames, hroom, hfinal⟩ := foldlM_insertDynamicRoute_indexes order horigin
      (by rw [List.nil_append]; exact hshapes.imp ShapesDiffer.symm) hempty hbuilt
    exact ⟨fun depth => sortDynamicNode_holds depth (hroot depth), hnames,
      fun route hroute => ⟨hroom route hroute, hfinal route hroute⟩⟩

end Ruvia.Web
