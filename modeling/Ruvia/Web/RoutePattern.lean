import Ruvia.Http.RequestTarget
import Ruvia.Web.PathSegments

/-!
# `Web.RoutePattern` — registered routes and the requests they serve

A registered route carries the proof that registration accepted it (`RouteEntry`). What its pattern means is
stated on segments: `SegmentsMatch` reads a pattern against the segments of a path and collects the
captures; `RouteEntry.Serves` is the set of request paths a route answers.
-/

namespace Ruvia.Web

open Library Ruvia.Http

/-! ## Pattern segments -/

def isWildcardSegment (segment : Bytes) : Bool := segment == lit "*"

def isParamSegment (segment : Bytes) : Bool := segment.head? == some colon

/-- Some segment is a parameter or the wildcard. -/
def isDynamicPath (path : Bytes) : Bool :=
  match _hsplit : splitPathSegment path with
  | none => false
  | some (segment, rest) =>
    if isWildcardSegment segment || isParamSegment segment then true else isDynamicPath rest
termination_by path.length
decreasing_by exact splitPathSegment_length _hsplit

inductive PatternSegment where
  | literal (text : Bytes)
  | param (name : Bytes)
  | wildcard
  deriving DecidableEq, Repr

def PatternSegment.ofText (text : Bytes) : PatternSegment :=
  if isWildcardSegment text then .wildcard
  else if isParamSegment text then .param text.tail
  else .literal text

/-- The segments of a pattern, read as literals, parameters and the wildcard. -/
def patternSegments (pattern : Bytes) : List PatternSegment := (pathSegments pattern).map PatternSegment.ofText

/-- **What a pattern matches**, and what it captures: a literal any spelling of itself, a parameter one
nonempty segment, the final wildcard whatever is left. -/
inductive SegmentsMatch : List PatternSegment → List Bytes → List Bytes → Prop where
  | done : SegmentsMatch [] [] []
  | literal {text segment ps ss captures} : uriPathsEquivalent text segment = true →
      SegmentsMatch ps ss captures → SegmentsMatch (.literal text :: ps) (segment :: ss) captures
  | param {name segment ps ss captures} : segment ≠ [] →
      SegmentsMatch ps ss captures → SegmentsMatch (.param name :: ps) (segment :: ss) (segment :: captures)
  | wildcard {ss} : SegmentsMatch [.wildcard] ss [[slash].intercalate ss]

/-- The pattern matches the path and captures these texts. -/
def PatternMatches (pattern path : Bytes) (captures : List Bytes) : Prop :=
  SegmentsMatch (patternSegments pattern) (pathSegments path) captures

section

variable {pattern segment rest : Bytes} (hsplit : splitPathSegment pattern = some (segment, rest))
include hsplit

theorem patternSegments_cons : patternSegments pattern = .ofText segment :: patternSegments rest := by
  rw [patternSegments, (splitPathSegment_some hsplit).1, List.map_cons]
  rfl

theorem patternSegments_wildcard (hwild : isWildcardSegment segment = true) :
    patternSegments pattern = .wildcard :: patternSegments rest := by
  rw [patternSegments_cons hsplit, PatternSegment.ofText, if_pos hwild]

variable (hwild : ¬ isWildcardSegment segment = true)
include hwild

theorem patternSegments_param (hparam : isParamSegment segment = true) :
    patternSegments pattern = .param segment.tail :: patternSegments rest := by
  rw [patternSegments_cons hsplit, PatternSegment.ofText, if_neg hwild, if_pos hparam]

theorem patternSegments_literal (hparam : ¬ isParamSegment segment = true) :
    patternSegments pattern = .literal segment :: patternSegments rest := by
  rw [patternSegments_cons hsplit, PatternSegment.ofText, if_neg hwild, if_neg hparam]

end

/-! ## Registration -/

def methodIndex : HttpKnownMethod → Nat
  | .get => 0
  | .post => 1
  | .put => 2
  | .delete => 3
  | .patch => 4
  | .head => 5
  | .options => 6
  | .connect => 7
  | .unknown => 8

def routableMethodCount : Nat := 7

def isRoutableMethod (method : HttpKnownMethod) : Bool := methodIndex method < routableMethodCount

def isValidHttpOriginFormTarget (target : Bytes) : Bool := (splitOriginFormTarget target).isSome

def isValidHttpConnectAuthority (authority : Bytes) : Bool := (parseRequestTarget .connect authority).isSome

/-- `validate_route_target`; `tunnel` is the protocol of a tunnel endpoint. -/
def validateRouteTarget (method : HttpKnownMethod) (methodToken path : Bytes) (tunnel : Option Bytes) :
    Except String Unit :=
  match tunnel with
  | some protocol =>
    if method ≠ .connect ∨ methodToken ≠ [] then .error "tunnel route requires CONNECT"
    else if protocol = [] then
      if path ≠ lit "*" ∧ isValidHttpConnectAuthority path = false then
        .error "CONNECT route requires host:port authority or *"
      else .ok ()
    else if (findByte questionMark path 0).isSome ∨ isValidHttpOriginFormTarget path = false ∨
        hasDotSegment path = true then
      .error "upgrade-protocol tunnel route requires an origin-form path"
    else .ok ()
  | none =>
    if methodToken = [] ∧ isRoutableMethod method = false then .error "route method must be routable"
    else if methodToken ≠ [] ∧ isDynamicPath path = true then
      .error "extension method routes must use a static path"
    else if (findByte questionMark path 0).isSome ∨ isValidHttpOriginFormTarget path = false then
      .error "route path must be an origin-form path without query"
    else if hasDotSegment path then .error "route path must not contain dot segments"
    else .ok ()

/-- `route_entry`: a route that registration has accepted. -/
structure RouteEntry where
  index : Nat
  method : HttpKnownMethod
  methodToken : Bytes
  path : Bytes
  tunnel : Option Bytes
  maxRequestBodyBytes : Nat
  accepted : validateRouteTarget method methodToken path tunnel = .ok ()

namespace RouteEntry

def dynamic (route : RouteEntry) : Bool := decide (route.tunnel ≠ some []) && isDynamicPath route.path

/-- The request paths a route answers. A plain CONNECT route answers authorities, and is found by comparing
these; any other static route answers the spellings of its path. -/
def Serves (route : RouteEntry) (path : Bytes) : Prop :=
  if route.dynamic = true then path.head? = some slash ∧ ∃ captures, PatternMatches route.path path captures
  else if route.tunnel = some [] then path.head? ≠ some slash
  else path.head? = some slash ∧ uriPathsEquivalent route.path path = true

end RouteEntry

/-! ## What registration checks -/

theorem isValidHttpOriginFormTarget_spec {target : Bytes} (h : isValidHttpOriginFormTarget target = true)
    (hquery : findByte questionMark target 0 = none) :
    target.head? = some slash ∧ WellFormedPath target := by
  simp only [isValidHttpOriginFormTarget, splitOriginFormTarget, splitQuery, hquery] at h
  split at h
  · rename_i hhead
    split at h
    · rename_i hvalid
      rw [Bool.and_eq_true] at hvalid
      exact ⟨hhead, wellFormedPath_of_isValidPercentEncoded hvalid.1⟩
    · cases h
  · cases h

/-- What registration checks of every route but a plain CONNECT. -/
theorem RouteEntry.checked (route : RouteEntry) (h : route.tunnel ≠ some []) :
    findByte questionMark route.path 0 = none ∧ isValidHttpOriginFormTarget route.path = true ∧
      hasDotSegment route.path = false := by
  have haccepted := route.accepted
  cases htunnel : route.tunnel with
  | none =>
    simp only [validateRouteTarget, htunnel] at haccepted
    split_ifs at haccepted with _ _ htarget hdots
    simp only [not_or, Bool.not_eq_false, Bool.not_eq_true, Option.isSome_eq_false_iff, Option.isNone_iff_eq_none]
      at htarget
    exact ⟨htarget.1, htarget.2, eq_false_of_ne_true hdots⟩
  | some protocol =>
    simp only [validateRouteTarget, htunnel] at haccepted
    have hprotocol : protocol ≠ [] := fun hnil => h (htunnel.trans (by rw [hnil]))
    rw [if_neg hprotocol] at haccepted
    split_ifs at haccepted with _ htarget
    simp only [not_or, Bool.not_eq_false, Bool.not_eq_true, Option.isSome_eq_false_iff, Option.isNone_iff_eq_none]
      at htarget
    exact htarget

/-- Every route but a plain CONNECT names a well-formed origin path. -/
theorem RouteEntry.origin (route : RouteEntry) (h : route.tunnel ≠ some []) :
    route.path.head? = some slash ∧ WellFormedPath route.path :=
  isValidHttpOriginFormTarget_spec (route.checked h).2.1 (route.checked h).1

/-- No authority starts with a slash. -/
theorem isValidHttpConnectAuthority_head {authority : Bytes} (h : isValidHttpConnectAuthority authority = true) :
    authority.head? ≠ some slash := by
  intro hhead
  obtain ⟨rest, rfl⟩ := List.head?_eq_some_iff.mp hhead
  have hhost : ∀ host : Bytes, (host = [] ∨ host.head? = some slash) → isValidHttpHost host = false := by
    rintro host (rfl | hhost)
    · rfl
    · obtain ⟨tail, rfl⟩ := List.head?_eq_some_iff.mp hhost
      have hreg : isValidRegName (slash :: tail) = false := by
        have hchar : isRegNameChar slash = false := by decide
        rw [isValidRegName]
        unfold isValidPercentEncoded
        rw [if_neg (by decide : ¬ slash = percent), hchar, Bool.false_and, Bool.and_false]
      rw [isValidHttpHost, if_neg (by decide), hreg, Bool.and_false]
  have hparse : parseHttpAuthority (slash :: rest) = none := by
    rw [parseHttpAuthority, if_neg (by simp), splitUriHostPort, if_neg (by simp; decide)]
    cases hfind : findByte colon (slash :: rest) 0 with
    | none => simp [hhost (slash :: rest) (.inr rfl)]
    | some i =>
      have htake : isValidHttpHost ((slash :: rest).take i) = false := by
        refine hhost _ ?_
        cases i with
        | zero => exact .inl rfl
        | succ i => exact .inr rfl
      simp only
      split <;> simp_all
  have hstar : slash :: rest ≠ lit "*" := by simp [lit, slash]
  rw [isValidHttpConnectAuthority, parseRequestTarget, if_neg hstar, if_pos rfl, isValidConnectAuthorityForm,
    hparse] at h
  cases h

/-- A plain CONNECT route names no origin path. -/
theorem RouteEntry.connect (route : RouteEntry) (h : route.tunnel = some []) : route.path.head? ≠ some slash := by
  have haccepted := route.accepted
  simp only [validateRouteTarget, h, if_true] at haccepted
  split_ifs at haccepted with _ hpath
  rw [not_and_or, not_not, Bool.not_eq_false] at hpath
  rcases hpath with hstar | hauthority
  · rw [hstar]
    decide
  · exact isValidHttpConnectAuthority_head hauthority

/-! ## Matching -/

section

variable {ps : List PatternSegment} {ss captures : List Bytes} {text name segment : Bytes}

theorem segmentsMatch_nil_left : SegmentsMatch [] ss captures ↔ ss = [] ∧ captures = [] := by
  constructor
  · rintro ⟨⟩
    exact ⟨rfl, rfl⟩
  · rintro ⟨rfl, rfl⟩
    exact .done

theorem segmentsMatch_literal_cons :
    SegmentsMatch (.literal text :: ps) ss captures ↔
      ∃ segment rest, ss = segment :: rest ∧ uriPathsEquivalent text segment = true ∧
        SegmentsMatch ps rest captures := by
  constructor
  · rintro ⟨⟩
    rename_i segment rest hequiv hrest
    exact ⟨segment, rest, rfl, hequiv, hrest⟩
  · rintro ⟨segment, rest, rfl, hequiv, hrest⟩
    exact .literal hequiv hrest

theorem segmentsMatch_param_cons :
    SegmentsMatch (.param name :: ps) ss captures ↔
      ∃ segment rest captured, ss = segment :: rest ∧ captures = segment :: captured ∧ segment ≠ [] ∧
        SegmentsMatch ps rest captured := by
  constructor
  · rintro ⟨⟩
    rename_i segment rest captured hne hrest
    exact ⟨segment, rest, captured, rfl, rfl, hne, hrest⟩
  · rintro ⟨segment, rest, captured, rfl, rfl, hne, hrest⟩
    exact .param hne hrest

theorem segmentsMatch_wildcard_cons :
    SegmentsMatch (.wildcard :: ps) ss captures ↔ ps = [] ∧ captures = [[slash].intercalate ss] := by
  constructor
  · rintro ⟨⟩
    exact ⟨rfl, rfl⟩
  · rintro ⟨rfl, rfl⟩
    exact .wildcard

end

end Ruvia.Web
