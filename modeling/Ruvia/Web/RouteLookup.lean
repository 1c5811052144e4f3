import Ruvia.Web.MiddlewareChain
import Ruvia.Web.RouteIndex

/-!
# `Web.RouteLookup` — `find_dynamic_node` and its reference semantics

The lookup descends into the literal child, then the parameter child, then takes the wildcard, and gives the
captures of a failed descent back. Against the set of routes a node holds it answers with the greatest
matching pattern (`findDynamicNode_spec`), in the order that puts a literal before a parameter before the
wildcard, segment by segment (`precedence`).
-/

namespace Ruvia.Web

open Library Ruvia.Http

/-! ## Captures -/

/-- `route_match`: the captured values, at most `max_route_params` of them. -/
abbrev RouteMatch := List Bytes

namespace RouteMatch

def add (captured : RouteMatch) (value : Bytes) : Option RouteMatch :=
  if maxRouteParams ≤ captured.length then none else some (captured ++ [value])

def truncate (captured : RouteMatch) (count : Nat) : RouteMatch := captured.take count

end RouteMatch

/-! ## Lookup -/

/-- The literal child of a segment: a scan for few children, a binary search for more. -/
def findDynamicStaticChild (children : List (Bytes × DynamicNode)) (segment : Bytes) :
    Option (Bytes × DynamicNode) :=
  if children.length ≤ 4 then children.find? fun child => uriPathsEquivalent child.1 segment
  else
    match children[partitionPoint (fun child => decide (compareUriPaths child.1 segment < 0)) children]? with
    | none => none
    | some child => if uriPathsEquivalent child.1 segment then some child else none

/-- The wildcard of a node, with what it captures. -/
def matchWildcard (node : DynamicNode) (capture : Bytes) (captured : RouteMatch) : Option Nat × RouteMatch :=
  match node.wildcardRouteIndex, captured.add capture with
  | some routeIndex, some captured => (some routeIndex, captured)
  | _, _ => (none, captured)

def findDynamicNode (node : DynamicNode) (path : Bytes) (captured : RouteMatch) : Option Nat × RouteMatch :=
  match _hsplit : splitPathSegment path with
  | none =>
    match node.routeIndex with
    | some routeIndex => (some routeIndex, captured)
    | none => matchWildcard node [] captured
  | some (segment, rest) =>
    let viaStatic :=
      match findDynamicStaticChild node.staticChildren segment with
      | some child => findDynamicNode child.2 rest captured
      | none => (none, captured)
    match viaStatic with
    | (some routeIndex, found) => (some routeIndex, found)
    | (none, left) =>
      let viaParam :=
        match node.paramChild with
        | none => (none, left.truncate captured.length)
        | some child =>
          if segment.isEmpty then (none, left.truncate captured.length)
          else
            match (left.truncate captured.length).add segment with
            | none => (none, left.truncate captured.length)
            | some entered => findDynamicNode child rest entered
      match viaParam with
      | (some routeIndex, found) => (some routeIndex, found)
      | (none, left) => matchWildcard node (dropLeadingSlash path) (left.truncate captured.length)
termination_by path.length
decreasing_by all_goals exact splitPathSegment_length _hsplit

/-- `find_dynamic_route`, for the index of one method. -/
def findDynamicRoute (index : DynamicIndex) (path : Bytes) : Option (Nat × RouteMatch) :=
  match findDynamicNode index.root path [] with
  | (none, _) => none
  | (some routeIndex, captured) =>
    if (index.paramNames.find? fun entry => entry.1 == routeIndex).map (·.2.length) ≠ some captured.length then none
    else some (routeIndex, captured)

/-! ## The literal child -/

section

variable {children : List (Bytes × DynamicNode)} {segment : Bytes}

/-- **The binary search is the scan**, among children in the order of their paths. -/
theorem findDynamicStaticChild_eq_find? (segment : Bytes)
    (hsorted : children.Pairwise fun left right => uriPathUnits left.1 ≤ uriPathUnits right.1) :
    findDynamicStaticChild children segment = children.find? fun child => uriPathsEquivalent child.1 segment := by
  rw [findDynamicStaticChild]
  by_cases hfew : children.length ≤ 4
  · rw [if_pos hfew]
  rw [if_neg hfew]
  have hpartitioned : Partitioned (fun child => decide (compareUriPaths child.1 segment < 0)) children := by
    refine partitioned_of_pairwise hsorted fun left right hle hlt => ?_
    rw [decide_eq_true_eq, compareUriPaths_neg_iff] at hlt ⊢
    exact lt_of_le_of_lt hle hlt
  obtain ⟨hbefore, hbehind⟩ := partitionPoint_spec hpartitioned
  generalize partitionPoint (fun child : Bytes × DynamicNode => decide (compareUriPaths child.1 segment < 0))
    children = k at hbefore hbehind
  have hfront : ∀ (j : Nat) (child : Bytes × DynamicNode), j < k → children[j]? = some child →
      uriPathsEquivalent child.1 segment = false := by
    intro j child hjk hj
    have hlt := hbefore j child hjk hj
    rw [decide_eq_true_eq, compareUriPaths_neg_iff] at hlt
    rw [← Bool.not_eq_true, uriPathsEquivalent_iff]
    exact fun hequiv => ne_of_lt hlt hequiv.2
  -- behind the partition point an equivalent child makes the child at it equivalent
  have hback : ∀ (j : Nat) (child : Bytes × DynamicNode), k ≤ j → children[j]? = some child →
      uriPathsEquivalent child.1 segment = true →
        ∃ first, children[k]? = some first ∧ uriPathsEquivalent first.1 segment = true := by
    intro j child hkj hj hequiv
    obtain ⟨hjlt, rfl⟩ := List.getElem?_eq_some_iff.mp hj
    have hk : k < children.length := Nat.lt_of_le_of_lt hkj hjlt
    refine ⟨children[k], List.getElem?_eq_getElem hk, ?_⟩
    rcases Nat.lt_or_eq_of_le hkj with hlt | rfl
    · obtain ⟨hwell, hunits⟩ := (uriPathsEquivalent_iff _ _).mp hequiv
      have hle := List.pairwise_iff_getElem.mp hsorted k j hk hjlt hlt
      have hge := hbehind k children[k] le_rfl (List.getElem?_eq_getElem hk)
      rw [decide_eq_false_iff_not, compareUriPaths_neg_iff, not_lt] at hge
      have heq : uriPathUnits children[k].1 = uriPathUnits segment := le_antisymm (hunits ▸ hle) hge
      exact (uriPathsEquivalent_iff _ _).mpr ⟨hwell.of_units_eq (hunits.trans heq.symm), heq⟩
    · exact hequiv
  symm
  cases hk : children[k]? with
  | none =>
    refine List.find?_eq_none.mpr fun child hchild => ?_
    obtain ⟨j, hj⟩ := List.getElem?_of_mem hchild
    rcases Nat.lt_or_ge j k with hjk | hkj
    · rw [hfront j child hjk hj]
      exact Bool.false_ne_true
    · intro hequiv
      obtain ⟨first, hfirst, -⟩ := hback j child hkj hj hequiv
      rw [hk] at hfirst
      cases hfirst
  | some child =>
    dsimp only
    by_cases hequiv : uriPathsEquivalent child.1 segment = true
    · rw [if_pos hequiv]
      obtain ⟨hklt, rfl⟩ := List.getElem?_eq_some_iff.mp hk
      refine List.find?_eq_some_iff_getElem.mpr ⟨hequiv, k, hklt, rfl, fun j hj => ?_⟩
      rw [hfront j _ hj (List.getElem?_eq_getElem _)]
      rfl
    · rw [if_neg hequiv]
      refine List.find?_eq_none.mpr fun other hother => ?_
      obtain ⟨j, hj⟩ := List.getElem?_of_mem hother
      rcases Nat.lt_or_ge j k with hjk | hkj
      · rw [hfront j other hjk hj]
        exact Bool.false_ne_true
      · intro hother
        obtain ⟨first, hfirst, hfound⟩ := hback j other hkj hj hother
        rw [hk] at hfirst
        cases hfirst
        exact hequiv hfound

/-- **Scan and binary search find the same child**: the one equivalent to the segment. -/
theorem findDynamicStaticChild_spec
    (hsorted : children.Pairwise fun left right => LiteralsSorted left.1 right.1) :
    match findDynamicStaticChild children segment with
    | some child => child ∈ children ∧ uriPathsEquivalent child.1 segment = true
    | none => ∀ child ∈ children, uriPathsEquivalent child.1 segment = false := by
  rw [findDynamicStaticChild_eq_find? segment (hsorted.imp le_of_lt)]
  cases hfind : children.find? fun child => uriPathsEquivalent child.1 segment with
  | none => exact fun child hchild => by simpa using List.find?_eq_none.mp hfind child hchild
  | some child => exact ⟨List.mem_of_find?_eq_some hfind, by simpa using List.find?_some hfind⟩

end

/-! ## The reference order -/

/-- Left to right: a literal before a parameter before the wildcard, and the end before the wildcard. -/
def precedence : List PatternSegment → List Nat
  | [] => [2]
  | .literal _ :: ps => 3 :: precedence ps
  | .param _ :: ps => 2 :: precedence ps
  | .wildcard :: _ => [1]

/-- **The reference answer** of a lookup among the routes `R`: no match, with the captures made on the way still
in front; or the greatest match, with its captures behind these. -/
def Answers (R : RouteSet) (segments : List Bytes) (captured : RouteMatch) :
    Option Nat × RouteMatch → Prop
  | (none, left) => left.truncate captured.length = captured ∧
      ∀ ps i captures, R ps i → ¬ SegmentsMatch ps segments captures
  | (some i, found) => ∃ ps captures, R ps i ∧ SegmentsMatch ps segments captures ∧
      found = captured ++ captures ∧
      ∀ qs j captures', R qs j → SegmentsMatch qs segments captures' → j = i ∨ precedence qs < precedence ps

section

variable {R : RouteSet} {segment : Bytes} {segments : List Bytes} {captured : RouteMatch}
  {out : Option Nat × RouteMatch} {node : DynamicNode}

/-- The routes that start with a literal, and those that start with a parameter. -/
def RouteSet.literals (R : RouteSet) : RouteSet := fun ps i => R ps i ∧ ∃ text qs, ps = .literal text :: qs

def RouteSet.params (R : RouteSet) : RouteSet := fun ps i => R ps i ∧ ∃ name qs, ps = .param name :: qs

theorem truncate_self (captured : RouteMatch) : captured.truncate captured.length = captured :=
  List.take_length

/-- The literal child answers for the routes that start with a literal. -/
theorem answers_literals {text : Bytes} (htext : uriPathsEquivalent text segment = true)
    (h : Answers (R.afterLiteral text) segments captured out) :
    Answers R.literals (segment :: segments) captured out := by
  have hafter : ∀ {t ps i captures}, R (.literal t :: ps) i →
      SegmentsMatch (.literal t :: ps) (segment :: segments) captures →
      R.afterLiteral text ps i ∧ SegmentsMatch ps segments captures := by
    intro t ps i captures hr hmatch
    obtain ⟨_, _, hcons, hequiv, hrest⟩ := segmentsMatch_literal_cons.mp hmatch
    cases hcons
    exact ⟨⟨t, uriPathsEquivalent_trans hequiv (uriPathsEquivalent_symm htext), hr⟩, hrest⟩
  obtain ⟨found, left⟩ := out
  cases found with
  | none =>
    refine ⟨h.1, ?_⟩
    rintro _ i captures ⟨hr, t, ps, rfl⟩ hmatch
    obtain ⟨hr', hrest⟩ := hafter hr hmatch
    exact h.2 ps i captures hr' hrest
  | some i =>
    obtain ⟨ps, captures, ⟨t, ht, hr⟩, hmatch, rfl, hmax⟩ := h
    refine ⟨.literal t :: ps, captures, ⟨hr, t, ps, rfl⟩,
      .literal (uriPathsEquivalent_trans ht htext) hmatch, rfl, ?_⟩
    rintro _ j captures' ⟨hr', t', qs, rfl⟩ hmatch'
    obtain ⟨hr'', hrest⟩ := hafter hr' hmatch'
    refine (hmax qs j captures' hr'' hrest).imp id fun hlt => ?_
    exact List.cons_lt_cons_iff.mpr (.inr ⟨rfl, hlt⟩)

/-- Without a literal child no route that starts with a literal matches. -/
theorem answers_no_literal
    (hcovered : ∀ text ps i, R (.literal text :: ps) i → uriPathsEquivalent text segment = false) :
    Answers R.literals (segment :: segments) captured (none, captured) := by
  refine ⟨truncate_self captured, ?_⟩
  rintro _ i captures ⟨hr, text, ps, rfl⟩ hmatch
  obtain ⟨_, _, hcons, hequiv, _⟩ := segmentsMatch_literal_cons.mp hmatch
  cases hcons
  rw [hcovered text ps i hr] at hequiv
  cases hequiv

/-- The parameter child answers for the routes that start with a parameter. -/
theorem answers_params (hne : segment ≠ []) (h : Answers R.afterParam segments (captured ++ [segment]) out) :
    Answers R.params (segment :: segments) captured out := by
  have hafter : ∀ {name ps i captures}, R (.param name :: ps) i →
      SegmentsMatch (.param name :: ps) (segment :: segments) captures →
      R.afterParam ps i ∧ ∃ rest, captures = segment :: rest ∧ SegmentsMatch ps segments rest := by
    intro name ps i captures hr hmatch
    obtain ⟨_, _, rest, hcons, rfl, _, hrest⟩ := segmentsMatch_param_cons.mp hmatch
    cases hcons
    exact ⟨⟨name, hr⟩, rest, rfl, hrest⟩
  obtain ⟨found, left⟩ := out
  cases found with
  | none =>
    refine ⟨?_, ?_⟩
    · have hleft := congrArg (List.take captured.length) h.1
      rw [RouteMatch.truncate, List.take_take, List.length_append, List.length_singleton,
        Nat.min_eq_left (by omega), List.take_left] at hleft
      exact hleft
    · rintro _ i captures ⟨hr, name, ps, rfl⟩ hmatch
      obtain ⟨hr', rest, _, hrest⟩ := hafter hr hmatch
      exact h.2 ps i rest hr' hrest
  | some i =>
    obtain ⟨ps, captures, ⟨name, hr⟩, hmatch, rfl, hmax⟩ := h
    refine ⟨.param name :: ps, segment :: captures, ⟨hr, name, ps, rfl⟩, .param hne hmatch, by simp, ?_⟩
    rintro _ j captures' ⟨hr', name', qs, rfl⟩ hmatch'
    obtain ⟨hr'', rest, _, hrest⟩ := hafter hr' hmatch'
    refine (hmax qs j rest hr'' hrest).imp id fun hlt => ?_
    exact List.cons_lt_cons_iff.mpr (.inr ⟨rfl, hlt⟩)

theorem answers_no_param (hnone : ∀ name ps i captures, R (.param name :: ps) i →
      ¬ SegmentsMatch (.param name :: ps) (segment :: segments) captures) :
    Answers R.params (segment :: segments) captured (none, captured) :=
  ⟨truncate_self captured, fun _ i captures ⟨hr, name, ps, heq⟩ hmatch =>
    hnone name ps i captures (heq ▸ hr) (heq ▸ hmatch)⟩

/-- A literal match is greatest among all routes. -/
theorem Answers.of_literals {i : Nat} {found : RouteMatch}
    (h : Answers R.literals (segment :: segments) captured (some i, found)) :
    Answers R (segment :: segments) captured (some i, found) := by
  obtain ⟨ps, captures, ⟨hr, text, rest, rfl⟩, hmatch, rfl, hmax⟩ := h
  refine ⟨_, captures, hr, hmatch, rfl, fun qs j captures' hr' hmatch' => ?_⟩
  cases qs with
  | nil => cases hmatch'
  | cons q qs =>
    cases q with
    | literal t => exact hmax _ j captures' ⟨hr', t, qs, rfl⟩ hmatch'
    | param _ | wildcard => exact .inr (List.cons_lt_cons_iff.mpr (.inl (by decide)))

/-- Without a literal match a parameter match is greatest. -/
theorem Answers.of_params {i : Nat} {found left : RouteMatch}
    (hliterals : Answers R.literals (segment :: segments) captured (none, left))
    (h : Answers R.params (segment :: segments) captured (some i, found)) :
    Answers R (segment :: segments) captured (some i, found) := by
  obtain ⟨ps, captures, ⟨hr, name, rest, rfl⟩, hmatch, rfl, hmax⟩ := h
  refine ⟨_, captures, hr, hmatch, rfl, fun qs j captures' hr' hmatch' => ?_⟩
  cases qs with
  | nil => cases hmatch'
  | cons q qs =>
    cases q with
    | literal t => exact absurd hmatch' (hliterals.2 _ j captures' ⟨hr', t, qs, rfl⟩)
    | param n => exact hmax _ j captures' ⟨hr', n, qs, rfl⟩ hmatch'
    | wildcard => exact .inr (List.cons_lt_cons_iff.mpr (.inl (by decide)))

/-- The wildcard answers when nothing else matches. -/
theorem matchWildcard_answers {capture : Bytes} (hslot : ∀ i, node.wildcardRouteIndex = some i ↔ R [.wildcard] i)
    (hroom : ∀ i, R [.wildcard] i → captured.length + 1 ≤ maxRouteParams)
    (hcapture : capture = [slash].intercalate segments)
    (hothers : ∀ ps i captures, R ps i → (∀ qs, ps ≠ .wildcard :: qs) → ¬ SegmentsMatch ps segments captures) :
    Answers R segments captured (matchWildcard node capture captured) := by
  have hwildcard : ∀ {ps i captures}, R ps i → SegmentsMatch ps segments captures → ps = [.wildcard] := by
    intro ps i captures hr hmatch
    by_contra hne
    refine hothers ps i captures hr (fun qs heq => ?_) hmatch
    subst heq
    rw [(segmentsMatch_wildcard_cons.mp hmatch).1] at hne
    exact hne rfl
  rw [matchWildcard]
  cases hindex : node.wildcardRouteIndex with
  | none =>
    refine ⟨truncate_self captured, fun ps i captures hr hmatch => ?_⟩
    have := (hslot i).mpr (hwildcard hr hmatch ▸ hr)
    rw [hindex] at this
    cases this
  | some i =>
    have hr := (hslot i).mp hindex
    have hadd : captured.add capture = some (captured ++ [capture]) := by
      rw [RouteMatch.add, if_neg]
      have := hroom i hr
      omega
    rw [hadd]
    refine ⟨[.wildcard], [capture], hr, hcapture ▸ .wildcard, rfl, fun qs j captures' hr' hmatch' => .inl ?_⟩
    have := (hslot j).mpr (hwildcard hr' hmatch' ▸ hr')
    rw [hindex] at this
    exact (Option.some.inj this).symm

end

/-- **The lookup gives the reference answer** among the routes the node holds. -/
theorem findDynamicNode_spec {node : DynamicNode} {path : Bytes} {captured : RouteMatch} {R : RouteSet}
    (hpath : path = [] ∨ path.head? = some slash)
    (hnode : node.Holds LiteralsSorted ((pathSegments path).length + 1) R)
    (hroom : ∀ ps i, R ps i → captured.length + (patternParamNames ps).length ≤ maxRouteParams) :
    Answers R (pathSegments path) captured (findDynamicNode node path captured) := by
  induction hlen : path.length using Nat.strong_induction_on generalizing path node captured R with
  | _ n ih =>
    have hnode : DynamicNode.NodeHolds LiteralsSorted
        (DynamicNode.Holds LiteralsSorted (pathSegments path).length) node R := hnode
    have hroomWildcard : ∀ i, R [.wildcard] i → captured.length + 1 ≤ maxRouteParams :=
      fun i hr => hroom [.wildcard] i hr
    rw [findDynamicNode]
    split
    · -- the path ends here
      rename_i hsplit
      rw [splitPathSegment_eq_none_iff.mp hsplit, pathSegments_nil]
      cases hindex : node.routeIndex with
      | some i =>
        refine ⟨[], [], (hnode.route i).mp hindex, .done, (List.append_nil _).symm, fun qs j captures' hr hmatch => ?_⟩
        cases hmatch with
        | done =>
          have := (hnode.route j).mpr hr
          rw [hindex] at this
          exact .inl (Option.some.inj this).symm
        | wildcard => exact .inr (List.cons_lt_cons_iff.mpr (.inl (by decide)))
      | none =>
        refine matchWildcard_answers hnode.wildcard hroomWildcard (by simp) fun ps i captures hr hne hmatch => ?_
        cases hmatch with
        | done =>
          have := (hnode.route i).mpr hr
          rw [hindex] at this
          cases this
        | wildcard => exact hne [] rfl
    · rename_i segment rest hsplit
      obtain ⟨hsegments, hlt, hrest⟩ := splitPathSegment_some hsplit
      have hcapture : dropLeadingSlash path = [slash].intercalate (segment :: pathSegments rest) := by
        rw [← hsegments, intercalate_pathSegments]
        rintro rfl
        cases hsplit
      rw [hsegments] at hnode ⊢
      -- the literal child
      have hstatic : Answers R.literals (segment :: pathSegments rest) captured
          (match findDynamicStaticChild node.staticChildren segment with
            | some child => findDynamicNode child.2 rest captured
            | none => (none, captured)) := by
        have hfind := @findDynamicStaticChild_spec _ segment hnode.apart
        split at hfind
        · rename_i child hchild
          refine answers_literals hfind.2 (ih _ (hlen ▸ hlt) hrest (hnode.static child hfind.1) ?_ rfl)
          rintro ps i ⟨t, _, hr⟩
          exact hroom (.literal t :: ps) i hr
        · refine answers_no_literal fun text ps i hr => ?_
          obtain ⟨child, hmem, htext⟩ := hnode.covered text ps i hr
          rw [← uriPathsEquivalent_congr_left htext]
          exact hfind child hmem
      simp only
      split
      · rename_i i found heq
        rw [heq] at hstatic
        exact hstatic.of_literals
      · rename_i left heq
        rw [heq] at hstatic
        rw [hstatic.1]
        -- the parameter child
        have hparam : Answers R.params (segment :: pathSegments rest) captured
            (match node.paramChild with
              | none => (none, captured)
              | some child =>
                if segment.isEmpty then (none, captured)
                else
                  match captured.add segment with
                  | none => (none, captured)
                  | some entered => findDynamicNode child rest entered) := by
          cases hchild : node.paramChild with
          | none =>
            exact answers_no_param fun name ps i captures hr => absurd ⟨name, hr⟩ (hnode.paramNone hchild ps i)
          | some child =>
            simp only
            by_cases hempty : segment = []
            · rw [if_pos (by simpa using hempty)]
              refine answers_no_param fun name ps i captures _ hmatch => ?_
              obtain ⟨_, _, _, hcons, _, hne, _⟩ := segmentsMatch_param_cons.mp hmatch
              cases hcons
              exact hne hempty
            · rw [if_neg (by simpa using hempty), RouteMatch.add]
              by_cases hfull : maxRouteParams ≤ captured.length
              · rw [if_pos hfull]
                refine answers_no_param fun name ps i captures hr => ?_
                have := hroom _ i hr
                rw [patternParamNames, List.length_cons] at this
                omega
              · rw [if_neg hfull]
                refine answers_params hempty (ih _ (hlen ▸ hlt) hrest (hnode.param child hchild) ?_ rfl)
                rintro ps i ⟨name, hr⟩
                have := hroom _ i hr
                rw [patternParamNames, List.length_cons] at this
                rw [List.length_append, List.length_singleton]
                omega
        split
        · rename_i i found heq'
          rw [heq'] at hparam
          exact Answers.of_params hstatic hparam
        · rename_i left' heq'
          rw [heq'] at hparam
          rw [hparam.1]
          refine matchWildcard_answers hnode.wildcard hroomWildcard hcapture fun ps i captures hr hne hmatch => ?_
          cases ps with
          | nil => cases hmatch
          | cons p ps =>
            cases p with
            | literal t => exact hstatic.2 _ i captures ⟨hr, t, ps, rfl⟩ hmatch
            | param name => exact hparam.2 _ i captures ⟨hr, name, ps, rfl⟩ hmatch
            | wildcard => exact hne ps rfl

/-! ## The routes of one method -/

variable {ps : List PatternSegment} {segments captures : List Bytes}

/-- A match captures one text for each parameter. -/
theorem SegmentsMatch.captures_length (h : SegmentsMatch ps segments captures) :
    captures.length = (patternParamNames ps).length := by
  induction h with
  | done | wildcard => rfl
  | literal _ _ ih => exact ih
  | param _ _ ih => rw [List.length_cons, ih, patternParamNames, List.length_cons]

/-- A pattern captures one thing from a path. -/
theorem SegmentsMatch.captures_unique {captures' : List Bytes} (h : SegmentsMatch ps segments captures)
    (h' : SegmentsMatch ps segments captures') : captures = captures' := by
  induction h generalizing captures' with
  | done => exact (segmentsMatch_nil_left.mp h').2.symm
  | literal _ _ ih =>
    obtain ⟨_, _, hcons, _, hrest⟩ := segmentsMatch_literal_cons.mp h'
    cases hcons
    exact ih hrest
  | param _ _ ih =>
    obtain ⟨_, _, _, hcons, rfl, _, hrest⟩ := segmentsMatch_param_cons.mp h'
    cases hcons
    rw [ih hrest]
  | wildcard => exact (segmentsMatch_wildcard_cons.mp h').2.symm

/-- The walk down the trie of one route ends at it, with what its pattern captures. -/
theorem findDynamicNode_of_match {route : RouteEntry} {index : DynamicIndex} {path : Bytes}
    (hbuild : buildDynamicRoutes [route] = .ok index) (horigin : route.tunnel ≠ some [])
    (hpath : path.head? = some slash) (hmatch : PatternMatches route.path path captures) :
    findDynamicNode index.root path [] = (some route.index, captures) := by
  obtain ⟨hroot, -, hroom⟩ := buildDynamicRoutes_holds
    (fun other hother => by rw [List.mem_singleton.mp hother]; exact horigin) (List.pairwise_singleton _ _) hbuild
  have hanswer : Answers (RouteSet.of [route]) (pathSegments path) [] (findDynamicNode index.root path []) := by
    refine findDynamicNode_spec (.inr hpath) (hroot _) ?_
    rintro ps i ⟨other, hother, rfl, rfl⟩
    rw [List.length_nil, Nat.zero_add]
    exact (hroom other hother).1
  cases hfind : findDynamicNode index.root path [] with
  | mk found captured =>
    rw [hfind] at hanswer
    cases found with
    | none => exact absurd hmatch (hanswer.2 _ _ captures ⟨route, List.mem_singleton_self _, rfl, rfl⟩)
    | some i =>
      obtain ⟨ps, captures', ⟨other, hother, rfl, rfl⟩, hmatch', rfl, -⟩ := hanswer
      rw [List.mem_singleton.mp hother] at hmatch' ⊢
      rw [hmatch'.captures_unique hmatch]

variable {router : Router} {registrations : List RouteRegistration}

section

variable (h : router.Declared registrations)
include h

/-- The index of a route is its place in the table. -/
theorem Router.Declared.getElem?_index {route : RouteEntry}
    (hroute : route ∈ router.routes) :
    router.routes[route.index]? = some route := by
  obtain ⟨i, hi⟩ := List.getElem?_of_mem hroute
  have hlt := (List.getElem?_eq_some_iff.mp hi).1
  rw [h.routes] at hlt
  obtain ⟨other, hother⟩ := h.registered i registrations[i] (List.getElem?_eq_getElem hlt)
  rw [hother.entry] at hi
  cases hi
  rw [hother.index]
  exact hother.entry

/-- The routes of a table are told apart by their index. -/
theorem Router.Declared.index_inj {left right : RouteEntry}
    (hleft : left ∈ router.routes) (hright : right ∈ router.routes) (hindex : left.index = right.index) :
    left = right := by
  have hsame := h.getElem?_index hleft
  rw [hindex, h.getElem?_index hright] at hsame
  exact (Option.some.inj hsame).symm

/-- No two routes of a table have one index. -/
theorem Router.Declared.pairwise_index : router.routes.Pairwise fun left right => left.index ≠ right.index := by
  have hat : ∀ (i : Nat) (hi : i < router.routes.length), router.routes[i].index = i := by
    intro i hi
    have hlt := hi
    rw [h.routes] at hlt
    obtain ⟨other, hother⟩ := h.registered i registrations[i] (List.getElem?_eq_getElem hlt)
    have hentry := hother.entry
    rw [List.getElem?_eq_getElem hi] at hentry
    rw [Option.some.inj hentry, hother.index]
  rw [List.pairwise_iff_getElem]
  intro i j hi hj hlt heq
  rw [hat i hi, hat j hj] at heq
  omega

end

section

variable {registrations : List RouteRegistration} {globals : List MiddlewareDescriptor} {router : Router}
  {method : HttpKnownMethod} {tunnel : Option Bytes} {order : List RouteEntry} {index : DynamicIndex} {path : Bytes}

/-- The routes of a trie are told apart by their index. -/
theorem trieRoutes_index_inj (hdeclared : router.Declared registrations)
    (hperm : order.Perm (dynamicRoutesOf router.routes method tunnel)) {left right : RouteEntry}
    (hleft : left ∈ order) (hright : right ∈ order) (hindex : left.index = right.index) : left = right :=
  hdeclared.index_inj (List.mem_filter.mp (hperm.mem_iff.mp hleft)).1 (List.mem_filter.mp (hperm.mem_iff.mp hright)).1
    hindex

/-- The trie of conflict-free routes, and the answer of a lookup in it. -/
theorem findDynamicNode_answers (hconflict : validateNoDynamicRouteConflict router.routes = .ok ())
    (hperm : order.Perm (dynamicRoutesOf router.routes method tunnel)) (hbuild : buildDynamicRoutes order = .ok index) :
    (∀ route ∈ order, slotAt index.root (patternSegments route.path) = some route.index) ∧
      (path.head? = some slash →
        Answers (RouteSet.of order) (pathSegments path) [] (findDynamicNode index.root path [])) := by
  have hgroup : ∀ route ∈ order, route ∈ dynamicRoutesOf router.routes method tunnel :=
    fun route hroute => hperm.mem_iff.mp hroute
  have hshapes : order.Pairwise ShapesDiffer :=
    (validateNoDynamicRouteConflict_spec method tunnel hconflict).perm hperm.symm ShapesDiffer.symm
  obtain ⟨hroot, -, hroom⟩ :=
    buildDynamicRoutes_holds (fun route hroute => dynamicRoutesOf_origin (hgroup route hroute)) hshapes hbuild
  refine ⟨fun route hroute => slotAt_of_holds (hroot _) (hroom route hroute).2 ⟨route, hroute, rfl, rfl⟩,
    fun hpath => findDynamicNode_spec (.inr hpath) (hroot _) ?_⟩
  rintro ps i ⟨route, hroute, rfl, rfl⟩
  rw [List.length_nil, Nat.zero_add]
  exact (hroom route hroute).1

/-- A route's own count of parameters never turns a match down. -/
theorem findDynamicRoute_of_match (hdeclared : router.Declared registrations)
    (hconflict : validateNoDynamicRouteConflict router.routes = .ok ())
    (hperm : order.Perm (dynamicRoutesOf router.routes method tunnel)) (hbuild : buildDynamicRoutes order = .ok index)
    {route : RouteEntry} (hroute : route ∈ order) {captured : RouteMatch}
    (hfind : findDynamicNode index.root path [] = (some route.index, captured))
    (hmatch : PatternMatches route.path path captured) :
    findDynamicRoute index path = some (route.index, captured) := by
  have hshapes : order.Pairwise ShapesDiffer :=
    (validateNoDynamicRouteConflict_spec method tunnel hconflict).perm hperm.symm ShapesDiffer.symm
  obtain ⟨-, hnames, -⟩ :=
    buildDynamicRoutes_holds (fun other hother => dynamicRoutesOf_origin (hperm.mem_iff.mp hother)) hshapes hbuild
  have hcount : (index.paramNames.find? fun entry => entry.1 == route.index).map (·.2.length) =
      some captured.length := by
    rw [hnames, List.find?_map]
    cases hentry : order.find? ((fun entry : Nat × List Bytes => entry.1 == route.index) ∘
        fun route => (route.index, patternParamNames (patternSegments route.path))) with
    | none =>
      have := List.find?_eq_none.mp hentry route hroute
      simp at this
    | some other =>
      have hindex : other.index = route.index := by simpa using List.find?_some hentry
      rw [trieRoutes_index_inj hdeclared hperm (List.mem_of_find?_eq_some hentry) hroute hindex, Option.map_some,
        Option.map_some, hmatch.captures_length]
  rw [findDynamicRoute, hfind]
  simp only [hcount, ne_eq, not_true_eq_false, if_false]

/-- **A lookup among the routes of a method** answers with one of them, whenever the walk finds one. -/
theorem findDynamicRoute_spec (hdeclared : router.Declared registrations)
    (hconflict : validateNoDynamicRouteConflict router.routes = .ok ())
    (hperm : order.Perm (dynamicRoutesOf router.routes method tunnel)) (hbuild : buildDynamicRoutes order = .ok index)
    (hpath : path.head? = some slash) :
    (findDynamicNode index.root path []).1 = none ∧ findDynamicRoute index path = none ∨
      ∃ route ∈ order, ∃ captured, (findDynamicNode index.root path []).1 = some route.index ∧
        findDynamicRoute index path = some (route.index, captured) := by
  have hanswer := (findDynamicNode_answers hconflict hperm hbuild).2 hpath
  cases hfind : findDynamicNode index.root path [] with
  | mk found captured =>
    rw [hfind] at hanswer
    cases found with
    | none => exact .inl ⟨rfl, by rw [findDynamicRoute, hfind]⟩
    | some i =>
      obtain ⟨ps, captures, ⟨route, hroute, rfl, rfl⟩, hmatch, rfl, -⟩ := hanswer
      exact .inr ⟨route, hroute, _, rfl,
        findDynamicRoute_of_match hdeclared hconflict hperm hbuild hroute hfind hmatch⟩

end

/-- **Dynamic lookup has its reference semantics.** For the dynamic routes that share a trie in a table without
conflicts, inserted in any order: every route keeps the slot its pattern ends in; the lookup of a path
finds no route when no pattern matches, and otherwise the route of the greatest matching pattern with its
captures; and the route's own count of parameters never turns that answer down. -/
theorem findDynamicNode_reference {registrations : List RouteRegistration} {globals : List MiddlewareDescriptor}
    {router : Router} (hdeclare : Router.declare registrations globals = .ok router)
    (hconflict : validateNoDynamicRouteConflict router.routes = .ok ())
    (method : HttpKnownMethod) (tunnel : Option Bytes) {order : List RouteEntry}
    (hperm : order.Perm (dynamicRoutesOf router.routes method tunnel))
    {index : DynamicIndex} (hbuild : buildDynamicRoutes order = .ok index)
    {path : Bytes} (hpath : path.head? = some slash) :
    (∀ route ∈ order, slotAt index.root (patternSegments route.path) = some route.index) ∧
      match findDynamicNode index.root path [] with
      | (none, _) =>
        (∀ route ∈ order, ∀ captures, ¬ PatternMatches route.path path captures) ∧
          findDynamicRoute index path = none
      | (some i, captured) =>
        ∃ route ∈ order, route.index = i ∧ PatternMatches route.path path captured ∧
          (∀ other ∈ order, ∀ captures, PatternMatches other.path path captures →
            other = route ∨
              precedence (patternSegments other.path) < precedence (patternSegments route.path)) ∧
          findDynamicRoute index path = some (i, captured) := by
  obtain ⟨hdeclared, _⟩ := Router.declare_declared hdeclare
  obtain ⟨hslots, hanswer⟩ := @findDynamicNode_answers router method tunnel order index path hconflict hperm hbuild
  refine ⟨hslots, ?_⟩
  have hanswer := hanswer hpath
  cases hfind : findDynamicNode index.root path [] with
  | mk found captured =>
    rw [hfind] at hanswer
    cases found with
    | none =>
      exact ⟨fun route hroute captures hmatch => hanswer.2 _ _ captures ⟨route, hroute, rfl, rfl⟩ hmatch,
        by rw [findDynamicRoute, hfind]⟩
    | some i =>
      obtain ⟨ps, captures, ⟨route, hroute, rfl, rfl⟩, hmatch, rfl, hmax⟩ := hanswer
      refine ⟨route, hroute, rfl, hmatch, fun other hother captures' hmatch' => ?_,
        findDynamicRoute_of_match hdeclared hconflict hperm hbuild hroute hfind hmatch⟩
      exact (hmax _ _ captures' ⟨other, hother, rfl, rfl⟩ hmatch').imp
        (trieRoutes_index_inj hdeclared hperm hother hroute) id

/-! A table whose routes overlap. -/

def fileRegistrations : List RouteRegistration :=
  [{ method := .get, path := lit "/files/*" }, { method := .get, path := lit "/files/:name" },
    { method := .get, path := lit "/:dir/raw/x" }, { method := .get, path := lit "/%66iles/:name/raw" }]

def fileRouter : Router := (Router.declare fileRegistrations []).toOption.getD {}

def fileOrder : List RouteEntry := (dynamicRoutesOf fileRouter.routes .get none).reverse

def fileIndex : DynamicIndex := (buildDynamicRoutes fileOrder).toOption.getD {}

/-- The conflict-free table above, inserted last route first. -/
theorem fileIndex_reference :
    (∀ route ∈ fileOrder, slotAt fileIndex.root (patternSegments route.path) = some route.index) ∧
      findDynamicRoute fileIndex (lit "/files/a/raw") = some (3, [lit "a"]) := by
  have hok : ∀ {ε α : Type} (result : Except ε α) (default : α), result.toOption.isSome = true →
      result = .ok (result.toOption.getD default) := by
    intro ε α result default h
    cases result with
    | error _ => cases h
    | ok _ => rfl
  have hdeclare : Router.declare fileRegistrations [] = .ok fileRouter := by
    rw [fileRouter]
    exact hok _ _ (by decide +kernel)
  have hconflict : validateNoDynamicRouteConflict fileRouter.routes = .ok () := by
    have hsome : (validateNoDynamicRouteConflict fileRouter.routes).toOption.isSome = true := by decide +kernel
    revert hsome
    generalize validateNoDynamicRouteConflict fileRouter.routes = result
    cases result with
    | error _ => exact nofun
    | ok _ => exact fun _ => rfl
  have hbuild : buildDynamicRoutes fileOrder = .ok fileIndex := by
    rw [fileIndex]
    exact hok _ _ (by decide +kernel)
  have hpath : (lit "/files/a/raw").head? = some slash := by decide +kernel
  have hall := findDynamicNode_reference hdeclare hconflict .get none (List.reverse_perm _) hbuild hpath
  exact ⟨hall.1, by decide +kernel⟩

end Ruvia.Web
