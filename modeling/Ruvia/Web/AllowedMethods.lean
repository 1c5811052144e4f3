import Mathlib.Data.List.Destutter
import Ruvia.Web.DynamicWalk
import Ruvia.Web.StaticIndex

/-!
# `Web.AllowedMethods` — resolving a request, and the methods a path allows

`resolve` looks a request up among the static routes of its method, then in the trie of its method, and answers a HEAD
request with the GET route; when it finds nothing, it asks the same of every other method, with code of its own that
collects no captures (`allowed_methods`). The answer is exact (`allowedMethods_exact`): the mask has a method exactly
if a request with it resolves, and OPTIONS besides.
-/

namespace Ruvia.Web

open Library Ruvia.Http

/-! ## Masks of methods -/

abbrev MethodMask := BitVec 32

def methodBit (method : HttpKnownMethod) : MethodMask := 1#32 <<< methodIndex method

namespace MethodMask

def has (mask : MethodMask) (method : HttpKnownMethod) : Bool := mask &&& methodBit method != 0

end MethodMask

/-- All methods, by their index. -/
def knownMethods : List HttpKnownMethod :=
  [.get, .post, .put, .delete, .patch, .head, .options, .connect, .unknown]

def routableMethods : List HttpKnownMethod := knownMethods.filter isRoutableMethod

/-- The loop over the bits of a mask, from the lowest on. -/
def candidateMethods (mask : MethodMask) : List HttpKnownMethod := knownMethods.filter mask.has

/-- The mask of the methods of some routes. -/
def maskOf (routes : List RouteEntry) : MethodMask := routes.foldl (fun mask route => mask ||| methodBit route.method) 0

/-! ## The plan -/

/-- The kind of an endpoint; the callbacks themselves do not matter here. -/
inductive EndpointKind where
  | buffered
  | responseStream
  | webSocket
  | tunnel
  deriving DecidableEq, Repr

/-- `compiled_route_plan`, as far as resolving and `url_for` read it. -/
structure CompiledRoutePlan where
  routes : List RouteEntry
  /-- The endpoint of each route, by its index. -/
  endpoints : Nat → EndpointKind
  staticMethodMask : MethodMask
  staticIndex : StaticIndex
  dynamicMethodMask : MethodMask
  dynamicRoots : List DynamicIndex
  connectProtocols : List (Bytes × DynamicIndex)
  extensionPaths : List (Bytes × List Bytes)
  urlPatterns : List Bytes

inductive CompileFailure where
  | conflict
  | staticRoutes (failure : StaticIndexFailure)
  | dynamicRoutes (message : String)
  deriving DecidableEq, Repr

/-- Extension tokens have no method of their own. -/
def isExtensionRoute (route : RouteEntry) : Bool := route.method == .unknown

/-- The loop of `build_extension_paths`. -/
def groupExtensionPaths : List (Bytes × List Bytes) → List RouteEntry → List (Bytes × List Bytes)
  | entries, [] => entries
  | entries, route :: rest =>
    if entries.any fun entry => uriPathsEquivalent entry.1 route.path then groupExtensionPaths entries rest
    else
      let tokens := ((route :: rest).filter fun other => uriPathsEquivalent other.path route.path).map (·.methodToken)
      groupExtensionPaths (entries ++ [(route.path, tokens)]) rest

/-- The routes of the trie of a routable method, whichever it is. -/
def isDynamicMethodRoute (route : RouteEntry) : Bool := route.dynamic && route.tunnel == none

/-- The protocols of the dynamic tunnel routes, each once. -/
def dynamicProtocols (routes : List RouteEntry) : List Bytes :=
  ((routes.filter (·.dynamic)).filterMap (·.tunnel)).eraseDups

def buildProtocol (routes : List RouteEntry) (protocol : Bytes) : Except String (Bytes × DynamicIndex) :=
  match buildDynamicRoutes (dynamicRoutesOf routes .connect (some protocol)) with
  | .error message => .error message
  | .ok index => .ok (protocol, index)

/-- `build_url_patterns`: the path of every route but a plain CONNECT, sorted, each once. -/
def buildUrlPatterns (routes : List RouteEntry) : List Bytes :=
  (((routes.filter fun route => route.tunnel != some []).map (·.path)).insertionSort (· ≤ ·)).destutter (· ≠ ·)

/-- `router::compile`, without the middlewares and the list of the CONNECT routes. -/
def compileRoutePlan (maxSize : Nat) (routes : List RouteEntry) (endpoints : Nat → EndpointKind) :
    Except CompileFailure CompiledRoutePlan :=
  match validateNoDynamicRouteConflict routes with
  | .error _ => .error .conflict
  | .ok () =>
    match buildStaticIndex maxSize routes with
    | .error failure => .error (.staticRoutes failure)
    | .ok staticIndex =>
      match routableMethods.mapM fun method => buildDynamicRoutes (dynamicRoutesOf routes method none) with
      | .error message => .error (.dynamicRoutes message)
      | .ok dynamicRoots =>
        match (dynamicProtocols routes).mapM (buildProtocol routes) with
        | .error message => .error (.dynamicRoutes message)
        | .ok connectProtocols =>
          .ok
            { routes
              endpoints
              staticMethodMask := maskOf (routes.filter isIndexed)
              staticIndex
              dynamicMethodMask := maskOf (routes.filter isDynamicMethodRoute)
              dynamicRoots
              connectProtocols
              extensionPaths := groupExtensionPaths [] (routes.filter isExtensionRoute)
              urlPatterns := buildUrlPatterns routes }

/-! ## Resolving -/

inductive RouteResolution where
  | notFound
  | methodNotAllowed (allowedMethods : MethodMask) (extensionMethods : List Bytes)
  | resolved (route : RouteEntry) (captured : RouteMatch)
  | rejected

/-- `route_resolution::method_not_allowed`: a path that nothing serves is not found. -/
def RouteResolution.refuse (allowedMethods : MethodMask) (extensionMethods : List Bytes) : RouteResolution :=
  if allowedMethods = 0 ∧ extensionMethods = [] then .notFound
  else .methodNotAllowed allowedMethods extensionMethods

def isRoutableOriginOrAsteriskPath (method : HttpKnownMethod) (path : Bytes) : Bool :=
  path != [] && (path.head? == some Http.slash || (path == lit "*" && method == .options)) && !hasDotSegment path

namespace CompiledRoutePlan

variable (plan : CompiledRoutePlan)

def supportsHeadFallback (route : RouteEntry) : Bool :=
  route.method == .get &&
    (plan.endpoints route.index == .buffered || plan.endpoints route.index == .responseStream)

/-- `find_static_route` behind its guard; `none` when the probe is still running after a whole round. -/
def findStaticRoute (method : HttpKnownMethod) (path : Bytes) (hash : UInt64) : Option (Option RouteEntry) :=
  if plan.staticMethodMask.has method then
    if h : 0 < plan.staticIndex.size then
      let keyHash := routeHash method hash
      findStaticRouteFrom plan.staticIndex.slots plan.routes method path keyHash plan.staticIndex.size
        (startSlot keyHash h)
    else none
  else some none

def findDynamicRoute (method : HttpKnownMethod) (path : Bytes) : Option (RouteEntry × RouteMatch) :=
  if !isRoutableMethod method then none
  else if !plan.dynamicMethodMask.has method then none
  else
    match plan.dynamicRoots[methodIndex method]? with
    | none => none
    | some index =>
      match Web.findDynamicRoute index path with
      | none => none
      | some (routeIndex, captured) => plan.routes[routeIndex]?.map fun route => (route, captured)

/-- The trie lookup of `allowed_methods`. -/
def findDynamicRouteNoParams (method : HttpKnownMethod) (path : Bytes) : Option RouteEntry :=
  if !plan.dynamicMethodMask.has method then none
  else
    match plan.dynamicRoots[methodIndex method]? with
    | none => none
    | some index =>
      match findDynamicNodeNoParams index.root path with
      | none => none
      | some routeIndex => plan.routes[routeIndex]?

/-- The loop body of `allowed_methods`. -/
def allowMethod (path : Bytes) (hash : UInt64) (mask : MethodMask) (method : HttpKnownMethod) : Option MethodMask := do
  let staticRoute ← plan.findStaticRoute method path hash
  let route :=
    match staticRoute with
    | some route => some route
    | none => plan.findDynamicRouteNoParams method path
  match route with
  | none => some mask
  | some route =>
    let mask := mask ||| methodBit method
    some (if plan.supportsHeadFallback route then mask ||| methodBit .head else mask)

def allowedMethods (path : Bytes) (hash : UInt64) (excludedMask initialMask : MethodMask) : Option MethodMask :=
  (candidateMethods ((plan.staticMethodMask ||| plan.dynamicMethodMask) &&& ~~~excludedMask)).foldlM
    (plan.allowMethod path hash) initialMask

def extensionMethodsFor (path : Bytes) : List Bytes :=
  match plan.extensionPaths.find? fun entry => uriPathsEquivalent entry.1 path with
  | none => []
  | some entry => entry.2

/-- The end of both resolving functions. -/
def refusal (path : Bytes) (hash : UInt64) (excludedMask initialMask : MethodMask) : Option RouteResolution := do
  let methodMask ← plan.allowedMethods path hash excludedMask initialMask
  let extensionMethods := plan.extensionMethodsFor path
  let methodMask :=
    if methodMask ≠ 0 ∨ extensionMethods ≠ [] then methodMask ||| methodBit .options else methodMask
  some (.refuse methodMask extensionMethods)

/-- The GET route that may answer a HEAD request. -/
def headFallback (path : Bytes) (hash : UInt64) : Option (Option (RouteEntry × RouteMatch)) := do
  match ← plan.findStaticRoute .get path hash with
  | some route => some (some (route, []))
  | none => some (plan.findDynamicRoute .get path)

/-- A HEAD request without a route of its own. -/
def resolveHead (path : Bytes) (hash : UInt64) (excludedMask : MethodMask) : Option RouteResolution :=
  (plan.headFallback path hash).bind fun
    | none => plan.refusal path hash (excludedMask ||| methodBit .get) 0
    | some (route, captured) =>
      if plan.supportsHeadFallback route then some (.resolved route captured)
      else plan.refusal path hash (excludedMask ||| methodBit .get) (methodBit .get)

/-- `resolve` of a known method. -/
def resolveKnownMethod (method : HttpKnownMethod) (path : Bytes) : Option RouteResolution :=
  if method = .options ∧ path = lit "*" then some .notFound
  else
    let hasStaticMethod := isRoutableMethod method && plan.staticMethodMask.has method
    let hash := if hasStaticMethod then pathHash path else 0
    let staticRoute := if hasStaticMethod then plan.findStaticRoute method path hash else some none
    staticRoute.bind fun
      | some route => some (.resolved route [])
      | none =>
        match plan.findDynamicRoute method path with
        | some (route, captured) => some (.resolved route captured)
        | none =>
          let hash := if !hasStaticMethod && plan.staticMethodMask != 0 then pathHash path else hash
          let excludedMask := if isRoutableMethod method then methodBit method else 0
          if method = .head then plan.resolveHead path hash excludedMask
          else plan.refusal path hash excludedMask 0

/-- `resolve_extension_method`. -/
def resolveExtensionMethod (methodToken path : Bytes) : Option RouteResolution :=
  let recognized := plan.routes.filter fun route => isExtensionRoute route && route.methodToken == methodToken
  match recognized.find? fun route => uriPathsEquivalent route.path path with
  | some route => some (.resolved route [])
  | none =>
    if recognized = [] then some .notFound
    else plan.refusal path (if plan.staticMethodMask != 0 then pathHash path else 0) 0 0

/-- `resolve` of a request that is no CONNECT and no protocol upgrade. -/
def resolve (method : HttpKnownMethod) (methodToken path : Bytes) : Option RouteResolution :=
  if !isRoutableOriginOrAsteriskPath method path then some .rejected
  else if method = .unknown then plan.resolveExtensionMethod methodToken path
  else plan.resolveKnownMethod method path

end CompiledRoutePlan

/-! ## Masks -/

namespace MethodMask

theorem has_eq (mask : MethodMask) (method : HttpKnownMethod) :
    mask.has method = mask.getLsbD (methodIndex method) := by
  have hbit : methodBit method = BitVec.twoPow 32 (methodIndex method) := rfl
  have hne : BitVec.twoPow 32 (methodIndex method) ≠ 0#32 := by cases method <;> decide
  rw [has, hbit, BitVec.and_twoPow]
  cases mask.getLsbD (methodIndex method) with
  | false => rfl
  | true => exact bne_iff_ne.mpr hne

@[simp] theorem has_zero (method : HttpKnownMethod) : has 0 method = false := by
  rw [has_eq]
  exact BitVec.getLsbD_zero

@[simp] theorem has_or (left right : MethodMask) (method : HttpKnownMethod) :
    has (left ||| right) method = (left.has method || right.has method) := by
  simp only [has_eq, BitVec.getLsbD_or]

@[simp] theorem has_and (left right : MethodMask) (method : HttpKnownMethod) :
    has (left &&& right) method = (left.has method && right.has method) := by
  simp only [has_eq, BitVec.getLsbD_and]

@[simp] theorem has_not (mask : MethodMask) (method : HttpKnownMethod) : has (~~~mask) method = !mask.has method := by
  have hlt : methodIndex method < 32 := by cases method <;> decide
  rw [has_eq, has_eq, BitVec.getLsbD_not, decide_eq_true hlt, Bool.true_and]

@[simp] theorem has_methodBit (bit method : HttpKnownMethod) : has (methodBit bit) method = decide (bit = method) := by
  cases bit <;> cases method <;> decide

end MethodMask

theorem has_maskOf (routes : List RouteEntry) (method : HttpKnownMethod) :
    (maskOf routes).has method = routes.any fun route => route.method == method := by
  have hfold : ∀ (routes : List RouteEntry) (mask : MethodMask),
      (routes.foldl (fun mask route => mask ||| methodBit route.method) mask).has method =
        (mask.has method || routes.any fun route => route.method == method) := by
    intro routes
    induction routes with
    | nil => exact fun mask => (Bool.or_false _).symm
    | cons route rest ih =>
      intro mask
      rw [List.foldl_cons, ih, MethodMask.has_or, MethodMask.has_methodBit, List.any_cons, Bool.or_assoc]
      rfl
  rw [maskOf, hfold, MethodMask.has_zero, Bool.false_or]

theorem mem_candidateMethods (mask : MethodMask) (method : HttpKnownMethod) :
    method ∈ candidateMethods mask ↔ mask.has method = true := by
  rw [candidateMethods, List.mem_filter]
  exact and_iff_right (by cases method <;> decide)

/-! ## What the lookups of a path find -/

/-- **The lookups of a path**: what the static index has for each method, and what the tries have; the route that is
found is one of the method, and the walk without captures finds the same one. -/
structure PathLookups (plan : CompiledRoutePlan) (path : Bytes) (static : HttpKnownMethod → Option RouteEntry) :
    Prop where
  findStatic : ∀ method hash, (plan.staticMethodMask ≠ 0 → hash = pathHash path) →
    plan.findStaticRoute method path hash = some (static method)
  noParams : ∀ method, plan.findDynamicRouteNoParams method path = (plan.findDynamicRoute method path).map (·.1)
  staticMethod : ∀ method route, static method = some route →
    route.method = method ∧ plan.staticMethodMask.has method = true ∧ isRoutableMethod method = true
  dynamicMethod : ∀ method found, plan.findDynamicRoute method path = some found →
    found.1.method = method ∧ plan.dynamicMethodMask.has method = true ∧ isRoutableMethod method = true

namespace CompiledRoutePlan

variable (plan : CompiledRoutePlan)

/-- The route of a method itself: a static one before a dynamic one. -/
def ownRoute (path : Bytes) (static : HttpKnownMethod → Option RouteEntry) (method : HttpKnownMethod) :
    Option RouteEntry :=
  match static method with
  | some route => some route
  | none => (plan.findDynamicRoute method path).map (·.1)

/-- A request with the method has a route: its own, or for HEAD the GET route if that can do without content. -/
def Served (path : Bytes) (static : HttpKnownMethod → Option RouteEntry) (method : HttpKnownMethod) : Prop :=
  plan.ownRoute path static method ≠ none ∨
    method = .head ∧ ∃ route, plan.ownRoute path static .get = some route ∧ plan.supportsHeadFallback route = true

/-- The mask with the bits of a route of a method. -/
def addAllowed (route : Option RouteEntry) (mask : MethodMask) (method : HttpKnownMethod) : MethodMask :=
  match route with
  | none => mask
  | some route =>
    if plan.supportsHeadFallback route then mask ||| methodBit method ||| methodBit .head
    else mask ||| methodBit method

end CompiledRoutePlan

section

variable {plan : CompiledRoutePlan} {path : Bytes} {static : HttpKnownMethod → Option RouteEntry}

variable {method : HttpKnownMethod}

theorem PathLookups.ownRoute_method (h : PathLookups plan path static) {route : RouteEntry}
    (hroute : plan.ownRoute path static method = some route) :
    route.method = method ∧ (plan.staticMethodMask ||| plan.dynamicMethodMask).has method = true ∧
      isRoutableMethod method = true := by
  rw [MethodMask.has_or, Bool.or_eq_true]
  unfold CompiledRoutePlan.ownRoute at hroute
  split at hroute
  · rename_i other hstatic
    cases hroute
    obtain ⟨hmethod, hmask, hroutable⟩ := h.staticMethod method route hstatic
    exact ⟨hmethod, .inl hmask, hroutable⟩
  · obtain ⟨found, hfound, rfl⟩ := Option.map_eq_some_iff.mp hroute
    obtain ⟨hmethod, hmask, hroutable⟩ := h.dynamicMethod method found hfound
    exact ⟨hmethod, .inr hmask, hroutable⟩

variable {hash : UInt64}

theorem PathLookups.allowMethod_eq (h : PathLookups plan path static)
    (hhash : plan.staticMethodMask ≠ 0 → hash = pathHash path) (mask : MethodMask) (method : HttpKnownMethod) :
    plan.allowMethod path hash mask method =
      some (plan.addAllowed (plan.ownRoute path static method) mask method) := by
  rw [CompiledRoutePlan.allowMethod, h.findStatic method hash hhash, CompiledRoutePlan.ownRoute, h.noParams]
  cases static method with
  | some route => rfl
  | none =>
    cases plan.findDynamicRoute method path with
    | none | some found => rfl

theorem PathLookups.allowedMethods_eq (h : PathLookups plan path static)
    (hhash : plan.staticMethodMask ≠ 0 → hash = pathHash path) (excluded initial : MethodMask) :
    plan.allowedMethods path hash excluded initial =
      some ((candidateMethods ((plan.staticMethodMask ||| plan.dynamicMethodMask) &&& ~~~excluded)).foldl
        (fun mask method => plan.addAllowed (plan.ownRoute path static method) mask method) initial) := by
  rw [CompiledRoutePlan.allowedMethods]
  generalize candidateMethods _ = methods
  induction methods generalizing initial with
  | nil => rfl
  | cons method rest ih =>
    rw [List.foldlM_cons, h.allowMethod_eq hhash, List.foldl_cons]
    exact ih _

/-- What one method adds to the mask. -/
theorem has_addAllowed (route : Option RouteEntry) (mask : MethodMask) (method bit : HttpKnownMethod) :
    (plan.addAllowed route mask method).has bit = true ↔
      mask.has bit = true ∨ ∃ found, route = some found ∧
        (bit = method ∨ plan.supportsHeadFallback found = true ∧ bit = .head) := by
  unfold CompiledRoutePlan.addAllowed
  cases route with
  | none =>
    refine ⟨.inl, ?_⟩
    rintro (hmask | ⟨_, hnone, _⟩)
    · exact hmask
    · cases hnone
  | some found =>
    dsimp only
    split
    · rename_i hsupports
      rw [MethodMask.has_or, MethodMask.has_or, MethodMask.has_methodBit, MethodMask.has_methodBit, Bool.or_eq_true,
        Bool.or_eq_true, decide_eq_true_eq, decide_eq_true_eq]
      constructor
      · rintro ((hmask | hmethod) | hhead)
        · exact .inl hmask
        · exact .inr ⟨found, rfl, .inl hmethod.symm⟩
        · exact .inr ⟨found, rfl, .inr ⟨hsupports, hhead.symm⟩⟩
      · rintro (hmask | ⟨_, _, hmethod | ⟨_, hhead⟩⟩)
        · exact .inl (.inl hmask)
        · exact .inl (.inr hmethod.symm)
        · exact .inr hhead.symm
    · rename_i hsupports
      rw [MethodMask.has_or, MethodMask.has_methodBit, Bool.or_eq_true, decide_eq_true_eq]
      constructor
      · rintro (hmask | hmethod)
        · exact .inl hmask
        · exact .inr ⟨found, rfl, .inl hmethod.symm⟩
      · rintro (hmask | ⟨_, heq, hmethod | ⟨hhead, _⟩⟩)
        · exact .inl hmask
        · exact .inr hmethod.symm
        · rw [← Option.some.inj heq] at hhead
          exact absurd hhead hsupports

theorem has_foldl_addAllowed (own : HttpKnownMethod → Option RouteEntry) (methods : List HttpKnownMethod)
    (initial : MethodMask) (bit : HttpKnownMethod) :
    (methods.foldl (fun mask method => plan.addAllowed (own method) mask method) initial).has bit = true ↔
      initial.has bit = true ∨ ∃ method ∈ methods, ∃ found, own method = some found ∧
        (bit = method ∨ plan.supportsHeadFallback found = true ∧ bit = .head) := by
  induction methods generalizing initial with
  | nil => simp
  | cons method rest ih =>
    rw [List.foldl_cons, ih, has_addAllowed]
    constructor
    · rintro ((hinitial | hmethod) | ⟨other, hother, hfound⟩)
      · exact .inl hinitial
      · exact .inr ⟨method, List.mem_cons_self, hmethod⟩
      · exact .inr ⟨other, List.mem_cons_of_mem _ hother, hfound⟩
    · rintro (hinitial | ⟨other, hother, hfound⟩)
      · exact .inl (.inl hinitial)
      · rcases List.mem_cons.mp hother with rfl | hrest
        · exact .inl (.inr hfound)
        · exact .inr ⟨other, hrest, hfound⟩

theorem foldl_addAllowed_of_none {own : HttpKnownMethod → Option RouteEntry} {methods : List HttpKnownMethod}
    (h : ∀ method ∈ methods, own method = none) (initial : MethodMask) :
    methods.foldl (fun mask method => plan.addAllowed (own method) mask method) initial = initial := by
  induction methods generalizing initial with
  | nil => rfl
  | cons method rest ih =>
    rw [List.foldl_cons, h method List.mem_cons_self]
    exact ih (fun other hother => h other (List.mem_cons_of_mem _ hother)) initial

/-! ## The answer to a request without a route -/

/-- What a request leaves out of the search: methods it has looked up itself, with the bits of those that answered. -/
structure Excludes (plan : CompiledRoutePlan) (path : Bytes) (static : HttpKnownMethod → Option RouteEntry)
    (excluded initial : MethodMask) : Prop where
  excluded : ∀ method, excluded.has method = true → plan.ownRoute path static method = none ∨
    initial.has method = true ∧ ∀ route, plan.ownRoute path static method = some route →
      plan.supportsHeadFallback route = false
  initial : initial = 0 ∨ initial = methodBit .get ∧ plan.ownRoute path static .get ≠ none

variable {excluded initial : MethodMask}

/-- **The mask is exact**: it has the methods that are served. -/
theorem PathLookups.allowedMethods_spec (h : PathLookups plan path static)
    (hhash : plan.staticMethodMask ≠ 0 → hash = pathHash path)
    (hexcludes : Excludes plan path static excluded initial) :
    ∃ mask, plan.allowedMethods path hash excluded initial = some mask ∧
      (∀ method, mask.has method = true ↔ plan.Served path static method) ∧
      (mask = 0 ↔ ∀ method, ¬ plan.Served path static method) := by
  refine ⟨_, h.allowedMethods_eq hhash excluded initial, ?_⟩
  have hcandidate : ∀ method,
      method ∈ candidateMethods ((plan.staticMethodMask ||| plan.dynamicMethodMask) &&& ~~~excluded) ↔
        (plan.staticMethodMask ||| plan.dynamicMethodMask).has method = true ∧ excluded.has method = false := by
    intro method
    rw [mem_candidateMethods, MethodMask.has_and, MethodMask.has_not, Bool.and_eq_true, Bool.not_eq_true']
  have hinitial : ∀ method, initial.has method = true → plan.ownRoute path static method ≠ none := by
    intro method hmethod
    rcases hexcludes.initial with heq | ⟨heq, hget⟩
    · rw [heq, MethodMask.has_zero] at hmethod
      cases hmethod
    · rw [heq, MethodMask.has_methodBit, decide_eq_true_eq] at hmethod
      rwa [← hmethod]
  have hhas : ∀ method, ((candidateMethods ((plan.staticMethodMask ||| plan.dynamicMethodMask) &&& ~~~excluded)).foldl
      (fun mask method => plan.addAllowed (plan.ownRoute path static method) mask method) initial).has method = true ↔
        plan.Served path static method := by
    intro method
    rw [has_foldl_addAllowed]
    constructor
    · rintro (hbit | ⟨other, _, route, hroute, rfl | ⟨hsupports, rfl⟩⟩)
      · exact .inl (hinitial method hbit)
      · exact .inl (by rw [hroute]; exact Option.some_ne_none route)
      · have hget : route.method = .get := by
          rw [CompiledRoutePlan.supportsHeadFallback, Bool.and_eq_true, beq_iff_eq] at hsupports
          exact hsupports.1
        rw [← (h.ownRoute_method hroute).1, hget] at hroute
        exact .inr ⟨rfl, route, hroute, hsupports⟩
    · rintro (hown | ⟨rfl, route, hroute, hsupports⟩)
      · obtain ⟨route, hroute⟩ := Option.ne_none_iff_exists'.mp hown
        cases hexcluded : excluded.has method with
        | false =>
          exact .inr ⟨method, (hcandidate method).mpr ⟨(h.ownRoute_method hroute).2.1, hexcluded⟩, route, hroute,
            .inl rfl⟩
        | true =>
          rcases hexcludes.excluded method hexcluded with hnone | ⟨hbit, -⟩
          · exact absurd hnone hown
          · exact .inl hbit
      · cases hexcluded : excluded.has .get with
        | false =>
          exact .inr ⟨.get, (hcandidate .get).mpr ⟨(h.ownRoute_method hroute).2.1, hexcluded⟩, route, hroute,
            .inr ⟨hsupports, rfl⟩⟩
        | true =>
          rcases hexcludes.excluded .get hexcluded with hnone | ⟨_, hunsupported⟩
          · rw [hroute] at hnone
            cases hnone
          · rw [hunsupported route hroute] at hsupports
            cases hsupports
  refine ⟨hhas, ⟨fun hzero method hserved => ?_, fun hnone => ?_⟩⟩
  · rw [← hhas, hzero, MethodMask.has_zero] at hserved
    cases hserved
  · have hown : ∀ method, plan.ownRoute path static method = none := by
      intro method
      by_contra hne
      exact hnone method (.inl hne)
    rw [foldl_addAllowed_of_none fun method _ => hown method]
    exact hexcludes.initial.resolve_right fun hget => hget.2 (hown .get)

/-- **An exact answer** to a request without a route: not found when nothing serves the path; otherwise the methods
that do, and OPTIONS. -/
def Exact (plan : CompiledRoutePlan) (path : Bytes) (static : HttpKnownMethod → Option RouteEntry) :
    RouteResolution → Prop
  | .notFound => (∀ method, ¬ plan.Served path static method) ∧ plan.extensionMethodsFor path = []
  | .methodNotAllowed mask extensionMethods =>
    (∀ method, mask.has method = true ↔ plan.Served path static method ∨ method = .options) ∧
      extensionMethods = plan.extensionMethodsFor path ∧
      ((∃ method, plan.Served path static method) ∨ extensionMethods ≠ [])
  | .resolved _ _ => False
  | .rejected => False

theorem PathLookups.refusal_spec (h : PathLookups plan path static)
    (hhash : plan.staticMethodMask ≠ 0 → hash = pathHash path)
    (hexcludes : Excludes plan path static excluded initial) :
    ∃ resolution, plan.refusal path hash excluded initial = some resolution ∧ Exact plan path static resolution := by
  obtain ⟨mask, hmask, hhas, hzero⟩ := h.allowedMethods_spec hhash hexcludes
  simp only [CompiledRoutePlan.refusal, hmask, Option.bind_eq_bind, Option.bind_some]
  refine ⟨_, rfl, ?_⟩
  by_cases hnothing : mask = 0 ∧ plan.extensionMethodsFor path = []
  · have hif : ¬ (mask ≠ 0 ∨ plan.extensionMethodsFor path ≠ []) := by
      rw [not_or, not_not, not_not]
      exact hnothing
    rw [if_neg hif, RouteResolution.refuse, if_pos hnothing]
    exact ⟨hzero.mp hnothing.1, hnothing.2⟩
  · have hif : mask ≠ 0 ∨ plan.extensionMethodsFor path ≠ [] := not_and_or.mp hnothing
    have hne : ¬ (mask ||| methodBit .options = 0 ∧ plan.extensionMethodsFor path = []) := by
      rintro ⟨hall, -⟩
      have hbit := BitVec.or_eq_zero_iff.mp hall
      exact absurd hbit.2 (by decide)
    rw [if_pos hif, RouteResolution.refuse, if_neg hne]
    refine ⟨fun method => ?_, rfl, ?_⟩
    · rw [MethodMask.has_or, MethodMask.has_methodBit, Bool.or_eq_true, decide_eq_true_eq, hhas, eq_comm]
    · refine hif.imp_left fun hmask => ?_
      by_contra hnone
      exact hmask (hzero.mpr fun method hserved => hnone ⟨method, hserved⟩)

/-! ## Resolving -/

/-- A method's own routes are excluded only once they are known not to answer. -/
theorem excludes_own (hown : plan.ownRoute path static method = none) :
    Excludes plan path static (if isRoutableMethod method then methodBit method else 0) 0 := by
  refine ⟨fun other hother => .inl ?_, .inl rfl⟩
  split at hother
  · rw [MethodMask.has_methodBit, decide_eq_true_eq] at hother
    rw [← hother]
    exact hown
  · rw [MethodMask.has_zero] at hother
    cases hother

theorem excludes_head (hown : plan.ownRoute path static .head = none)
    (hget : ∀ route, plan.ownRoute path static .get = some route →
      initial = methodBit .get ∧ plan.supportsHeadFallback route = false)
    (hinitial : initial = 0 ∨ initial = methodBit .get ∧ plan.ownRoute path static .get ≠ none) :
    Excludes plan path static (methodBit .head ||| methodBit .get) initial := by
  refine ⟨fun other hother => ?_, hinitial⟩
  rw [MethodMask.has_or, MethodMask.has_methodBit, MethodMask.has_methodBit, Bool.or_eq_true, decide_eq_true_eq,
    decide_eq_true_eq] at hother
  rcases hother with rfl | rfl
  · exact .inl hown
  · cases hroute : plan.ownRoute path static .get with
    | none => exact .inl rfl
    | some route =>
      obtain ⟨heq, hunsupported⟩ := hget route hroute
      refine .inr ⟨by rw [heq, MethodMask.has_methodBit]; rfl, fun found hfound => ?_⟩
      rw [← Option.some.inj hfound]
      exact hunsupported

theorem PathLookups.headFallback_eq (h : PathLookups plan path static)
    (hhash : plan.staticMethodMask ≠ 0 → hash = pathHash path) :
    ∃ fallback, plan.headFallback path hash = some fallback ∧
      fallback.map (·.1) = plan.ownRoute path static .get := by
  rw [CompiledRoutePlan.headFallback, h.findStatic .get hash hhash, CompiledRoutePlan.ownRoute]
  cases static .get with
  | some route => exact ⟨some (route, []), rfl, rfl⟩
  | none => exact ⟨_, rfl, rfl⟩

/-- A request that resolves is served, and the answer to any other one is exact. -/
def Answered (plan : CompiledRoutePlan) (path : Bytes) (static : HttpKnownMethod → Option RouteEntry)
    (method : HttpKnownMethod) (resolution : RouteResolution) : Prop :=
  (∃ route captured, resolution = .resolved route captured) ∧ plan.Served path static method ∨
    ¬ plan.Served path static method ∧ Exact plan path static resolution

section

variable (h : PathLookups plan path static)
include h

theorem PathLookups.resolveHead_spec
    (hhash : plan.staticMethodMask ≠ 0 → hash = pathHash path) (hown : plan.ownRoute path static .head = none) :
    ∃ resolution, plan.resolveHead path hash (methodBit .head) = some resolution ∧
      Answered plan path static .head resolution := by
  obtain ⟨fallback, hfallback, hget⟩ := h.headFallback_eq hhash
  rw [CompiledRoutePlan.resolveHead, hfallback, Option.bind_some]
  cases fallback with
  | none =>
    have hnone : plan.ownRoute path static .get = none := hget.symm
    have hexcludes : Excludes plan path static (methodBit .head ||| methodBit .get) 0 := by
      refine excludes_head hown (fun route hroute => ?_) (.inl rfl)
      rw [hnone] at hroute
      cases hroute
    obtain ⟨resolution, hresolution, hexact⟩ := h.refusal_spec hhash hexcludes
    refine ⟨resolution, hresolution, .inr ⟨?_, hexact⟩⟩
    rintro (hne | ⟨-, route, hroute, -⟩)
    · exact hne hown
    · rw [hnone] at hroute
      cases hroute
  | some found =>
    have hroute : plan.ownRoute path static .get = some found.1 := hget.symm
    dsimp only
    split
    · rename_i hsupports
      exact ⟨_, rfl, .inl ⟨⟨found.1, found.2, rfl⟩, .inr ⟨rfl, found.1, hroute, hsupports⟩⟩⟩
    · rename_i hunsupported
      rw [Bool.not_eq_true] at hunsupported
      have hexcludes : Excludes plan path static (methodBit .head ||| methodBit .get) (methodBit .get) := by
        refine excludes_head hown (fun route hother => ⟨rfl, ?_⟩) (.inr ⟨rfl, ?_⟩)
        · rw [hroute] at hother
          rw [← Option.some.inj hother]
          exact hunsupported
        · rw [hroute]
          exact Option.some_ne_none found.1
      obtain ⟨resolution, hresolution, hexact⟩ := h.refusal_spec hhash hexcludes
      refine ⟨resolution, hresolution, .inr ⟨?_, hexact⟩⟩
      rintro (hne | ⟨-, route, hother, hsupports⟩)
      · exact hne hown
      · rw [hroute] at hother
        rw [← Option.some.inj hother, hunsupported] at hsupports
        cases hsupports

/-- **A request resolves if it is served**, and its answer is exact if not. -/
theorem PathLookups.resolveKnownMethod_spec (hpath : path ≠ lit "*")
    (method : HttpKnownMethod) :
    ∃ resolution, plan.resolveKnownMethod method path = some resolution ∧
      Answered plan path static method resolution := by
  have hfirst : (if (isRoutableMethod method && plan.staticMethodMask.has method) = true then
      plan.findStaticRoute method path
        (if (isRoutableMethod method && plan.staticMethodMask.has method) = true then pathHash path else 0)
      else some none) = some (static method) := by
    split
    · exact h.findStatic method _ fun _ => rfl
    · rename_i hguard
      cases hstatic : static method with
      | none => rfl
      | some route =>
        obtain ⟨-, hmask, hroutable⟩ := h.staticMethod method route hstatic
        rw [hmask, hroutable] at hguard
        exact absurd rfl hguard
  unfold CompiledRoutePlan.resolveKnownMethod
  rw [if_neg (fun hoptions => hpath hoptions.2)]
  dsimp only
  rw [hfirst, Option.bind_some]
  cases hstatic : static method with
  | some route =>
    refine ⟨_, rfl, .inl ⟨⟨route, [], rfl⟩, .inl ?_⟩⟩
    rw [CompiledRoutePlan.ownRoute, hstatic]
    exact Option.some_ne_none route
  | none =>
    cases hdynamic : plan.findDynamicRoute method path with
    | some found =>
      refine ⟨_, rfl, .inl ⟨⟨found.1, found.2, rfl⟩, .inl ?_⟩⟩
      rw [CompiledRoutePlan.ownRoute, hstatic, hdynamic]
      exact Option.some_ne_none found.1
    | none =>
      have hown : plan.ownRoute path static method = none := by
        rw [CompiledRoutePlan.ownRoute, hstatic, hdynamic]
        rfl
      dsimp only
      generalize hvalue : (if (!(isRoutableMethod method && plan.staticMethodMask.has method) &&
        plan.staticMethodMask != 0) = true then pathHash path else
        if (isRoutableMethod method && plan.staticMethodMask.has method) = true then pathHash path else 0) = hash
      have hhash : plan.staticMethodMask ≠ 0 → hash = pathHash path := by
        intro hne
        rw [← hvalue, bne_iff_ne.mpr hne, Bool.and_true]
        cases isRoutableMethod method && plan.staticMethodMask.has method with
        | true | false => rfl
      split
      · rename_i hhead
        subst hhead
        exact h.resolveHead_spec hhash hown
      · rename_i hhead
        obtain ⟨resolution, hresolution, hexact⟩ := h.refusal_spec hhash (excludes_own hown)
        refine ⟨resolution, hresolution, .inr ⟨?_, hexact⟩⟩
        rintro (hne | ⟨heq, -⟩)
        · exact hne hown
        · exact hhead heq

/-- The answer to an extension token; one that no route has is not found anywhere. -/
theorem PathLookups.resolveExtensionMethod_spec (methodToken : Bytes) :
    ∃ resolution, plan.resolveExtensionMethod methodToken path = some resolution ∧
      ((∃ route captured, resolution = .resolved route captured) ∨
        (∀ route ∈ plan.routes, isExtensionRoute route = true → route.methodToken ≠ methodToken) ∧
          resolution = .notFound ∨
        Exact plan path static resolution) := by
  rw [CompiledRoutePlan.resolveExtensionMethod]
  split
  · rename_i route _
    exact ⟨_, rfl, .inl ⟨route, [], rfl⟩⟩
  · split
    · rename_i hrecognized
      refine ⟨_, rfl, .inr (.inl ⟨fun route hroute hextension htoken => ?_, rfl⟩)⟩
      have hmem := List.filter_eq_nil_iff.mp hrecognized route hroute
      rw [hextension, htoken, beq_self_eq_true] at hmem
      exact hmem rfl
    · have hexcludes : Excludes plan path static 0 0 := by
        refine ⟨fun method hmethod => ?_, .inl rfl⟩
        rw [MethodMask.has_zero] at hmethod
        cases hmethod
      obtain ⟨resolution, hresolution, hexact⟩ := h.refusal_spec
        (fun hne => if_pos (bne_iff_ne.mpr hne)) hexcludes
      exact ⟨resolution, hresolution, .inr (.inr hexact)⟩

end

end

/-! ## Compiled plans -/

theorem mapM_getElem? {α β ε : Type} {f : α → Except ε β} {xs : List α} {ys : List β} (h : xs.mapM f = .ok ys)
    {i : Nat} {x : α} (hx : xs[i]? = some x) : ∃ y, ys[i]? = some y ∧ f x = .ok y := by
  induction xs generalizing ys i with
  | nil => cases hx
  | cons first rest ih =>
    rw [List.mapM_cons] at h
    cases hfirst : f first with
    | error error =>
      rw [hfirst] at h
      cases h
    | ok y =>
      rw [hfirst] at h
      cases hrest : rest.mapM f with
      | error error =>
        rw [hrest] at h
        cases h
      | ok ys' =>
        rw [hrest] at h
        cases h
        cases i with
        | zero =>
          cases hx
          exact ⟨y, rfl, hfirst⟩
        | succ i => exact ih hrest hx

/-- What a plan is compiled from. -/
theorem compileRoutePlan_ok {maxSize : Nat} {routes : List RouteEntry} {endpoints : Nat → EndpointKind}
    {plan : CompiledRoutePlan} (h : compileRoutePlan maxSize routes endpoints = .ok plan) :
    validateNoDynamicRouteConflict routes = .ok () ∧ plan.routes = routes ∧
      plan.staticMethodMask = maskOf (routes.filter isIndexed) ∧
      buildStaticIndex maxSize routes = .ok plan.staticIndex ∧
      plan.dynamicMethodMask = maskOf (routes.filter isDynamicMethodRoute) ∧
      (∀ method, isRoutableMethod method = true → ∃ index, plan.dynamicRoots[methodIndex method]? = some index ∧
        buildDynamicRoutes (dynamicRoutesOf routes method none) = .ok index) ∧
      plan.urlPatterns = buildUrlPatterns routes ∧
      ∃ built, (dynamicProtocols routes).mapM (buildProtocol routes) = .ok built := by
  unfold compileRoutePlan at h
  split at h
  · cases h
  · rename_i hconflict
    split at h
    · cases h
    · rename_i staticIndex hstatic
      split at h
      · cases h
      · rename_i dynamicRoots hdynamic
        split at h
        · cases h
        · rename_i hbuilt
          cases h
          refine ⟨hconflict, rfl, rfl, hstatic, rfl, fun method hroutable => ?_, rfl, _, hbuilt⟩
          have hat : routableMethods[methodIndex method]? = some method := by
            cases method <;> first | rfl | cases hroutable
          exact mapM_getElem? hdynamic hat

theorem RouteEntry.routable_of_dynamic {route : RouteEntry} (h : isDynamicMethodRoute route = true) :
    isRoutableMethod route.method = true := by
  have haccepted := route.accepted
  rw [isDynamicMethodRoute, RouteEntry.dynamic, Bool.and_eq_true, Bool.and_eq_true, beq_iff_eq] at h
  simp only [validateRouteTarget, h.2] at haccepted
  split_ifs at haccepted with hmethod hstatic
  by_cases htoken : route.methodToken = []
  · by_contra hroutable
    exact hmethod ⟨htoken, Bool.not_eq_true _ ▸ hroutable⟩
  · exact absurd ⟨htoken, h.1.2⟩ hstatic

section

variable {registrations : List RouteRegistration} {router : Router} {maxSize : Nat} {endpoints : Nat → EndpointKind}
  {plan : CompiledRoutePlan} {path : Bytes}

section

variable (h : compileRoutePlan maxSize router.routes endpoints = .ok plan)
include h

theorem staticMethodMask_has
    (method : HttpKnownMethod) : plan.staticMethodMask.has method = hasStaticMethod router.routes method := by
  obtain ⟨-, -, hmask, -⟩ := compileRoutePlan_ok h
  rw [hmask, has_maskOf, List.any_filter]
  rfl

theorem findStaticRoute_compiled
    (method : HttpKnownMethod) (path : Bytes) {hash : UInt64}
    (hhash : plan.staticMethodMask ≠ 0 → hash = pathHash path) :
    plan.findStaticRoute method path hash = findStaticRoute plan.staticIndex router.routes method path := by
  obtain ⟨-, hroutes, -⟩ := compileRoutePlan_ok h
  rw [CompiledRoutePlan.findStaticRoute, findStaticRoute, staticMethodMask_has h, hroutes]
  split
  · rename_i hmethod
    have hne : plan.staticMethodMask ≠ 0 := by
      intro hzero
      rw [← staticMethodMask_has h, hzero, MethodMask.has_zero] at hmethod
      cases hmethod
    rw [hhash hne]
  · rfl

end

/-- The two lookups in the trie of a method. -/
theorem findDynamicRoute_compiled (hdeclared : router.Declared registrations)
    (h : compileRoutePlan maxSize router.routes endpoints = .ok plan) (hpath : path.head? = some Http.slash)
    (method : HttpKnownMethod) :
    plan.findDynamicRoute method path = none ∧ plan.findDynamicRouteNoParams method path = none ∨
      ∃ route ∈ dynamicRoutesOf router.routes method none, ∃ captured,
        plan.dynamicMethodMask.has method = true ∧ isRoutableMethod method = true ∧
          plan.findDynamicRoute method path = some (route, captured) ∧
          plan.findDynamicRouteNoParams method path = some route := by
  obtain ⟨hconflict, hroutes, -, -, hmask, hroots, -⟩ := compileRoutePlan_ok h
  rw [CompiledRoutePlan.findDynamicRoute, CompiledRoutePlan.findDynamicRouteNoParams]
  cases hhas : plan.dynamicMethodMask.has method with
  | false =>
    refine .inl ⟨?_, rfl⟩
    split
    · rfl
    · rfl
  | true =>
    have hroutable : isRoutableMethod method = true := by
      rw [hmask, has_maskOf] at hhas
      obtain ⟨route, hroute, hmethod⟩ := List.any_eq_true.mp hhas
      rw [← beq_iff_eq.mp hmethod]
      exact RouteEntry.routable_of_dynamic (List.mem_filter.mp hroute).2
    obtain ⟨index, hindex, hbuild⟩ := hroots method hroutable
    rw [hroutable, hindex]
    simp only [Bool.not_true, Bool.false_eq_true, if_false]
    rw [findDynamicNodeNoParams_eq hbuild]
    rcases findDynamicRoute_spec hdeclared hconflict (List.Perm.refl _) hbuild hpath with
      ⟨hnone, hfind⟩ | ⟨route, hroute, captured, hsome, hfind⟩
    · rw [hnone, hfind]
      exact .inl ⟨rfl, rfl⟩
    · have hat := hdeclared.getElem?_index (List.mem_filter.mp hroute).1
      rw [← hroutes] at hat
      rw [hsome, hfind]
      dsimp only
      rw [hat]
      exact .inr ⟨route, hroute, captured, trivial, trivial, rfl, rfl⟩

/-- **The lookups of an origin path** in a compiled plan. -/
theorem exists_pathLookups (hdeclared : router.Declared registrations)
    (h : compileRoutePlan maxSize router.routes endpoints = .ok plan) (hpath : path.head? = some Http.slash) :
    ∃ static, PathLookups plan path static := by
  obtain ⟨-, -, -, hindex, -⟩ := compileRoutePlan_ok h
  have hfinds := fun method => (findStaticRoute_finds hdeclared hindex).2 method path
  choose static hstatic hfound using hfinds
  refine ⟨static, fun method hash hhash => ?_, fun method => ?_, fun method route hroute => ?_,
    fun method found hdynamic => ?_⟩
  · rw [findStaticRoute_compiled h method path hhash]
    exact hstatic method
  · rcases findDynamicRoute_compiled hdeclared h hpath method with
      ⟨hnone, hwalk⟩ | ⟨route, -, captured, -, -, hsome, hwalk⟩
    · rw [hnone, hwalk]
      rfl
    · rw [hsome, hwalk]
      rfl
  · obtain ⟨hmem, hmethod, -⟩ := (hfound method).2 route hroute
    refine ⟨hmethod, ?_, ?_⟩
    · rw [staticMethodMask_has h]
      exact (hasStaticMethod_iff _ _).mpr ⟨route, hmem, hmethod⟩
    · have hindexed := (List.mem_filter.mp hmem).2
      rw [isIndexed, Bool.and_eq_true] at hindexed
      rw [← hmethod]
      exact hindexed.2
  · rcases findDynamicRoute_compiled hdeclared h hpath method with
      ⟨hnone, -⟩ | ⟨route, hroute, captured, hmask, hroutable, hsome, -⟩
    · rw [hnone] at hdynamic
      cases hdynamic
    · rw [hsome] at hdynamic
      cases hdynamic
      have hgroup := (List.mem_filter.mp hroute).2
      rw [Bool.and_eq_true, Bool.and_eq_true, beq_iff_eq] at hgroup
      exact ⟨hgroup.1.2, hmask, hroutable⟩

/-- A request with the method, for the path, has a route. -/
def CompiledRoutePlan.Resolves (plan : CompiledRoutePlan) (method : HttpKnownMethod) (path : Bytes) : Prop :=
  ∃ route captured, plan.resolve method [] path = some (.resolved route captured)

variable {static : HttpKnownMethod → Option RouteEntry}

variable {method : HttpKnownMethod}

theorem PathLookups.resolves_iff (h : PathLookups plan path static) (hpath : path.head? = some Http.slash)
    (hdots : hasDotSegment path = false) (hknown : method ≠ .unknown) :
    plan.Resolves method path ↔ plan.Served path static method := by
  have hstar : path ≠ lit "*" := by
    rintro rfl
    exact absurd hpath (by decide)
  have hne : path ≠ [] := by
    rintro rfl
    cases hpath
  have hguard : isRoutableOriginOrAsteriskPath method path = true := by
    rw [isRoutableOriginOrAsteriskPath, hpath, hdots, bne_iff_ne.mpr hne, beq_self_eq_true]
    rfl
  obtain ⟨resolution, hresolution, hanswered⟩ := h.resolveKnownMethod_spec hstar method
  rw [CompiledRoutePlan.Resolves, CompiledRoutePlan.resolve, hguard, if_neg (by decide), if_neg hknown, hresolution]
  constructor
  · rintro ⟨route, captured, heq⟩
    cases heq
    rcases hanswered with ⟨-, hserved⟩ | ⟨-, hexact⟩
    · exact hserved
    · exact hexact.elim
  · intro hserved
    rcases hanswered with ⟨⟨route, captured, rfl⟩, -⟩ | ⟨hnot, -⟩
    · exact ⟨route, captured, rfl⟩
    · exact absurd hserved hnot

theorem PathLookups.served_routable (h : PathLookups plan path static) (hserved : plan.Served path static method) :
    isRoutableMethod method = true := by
  rcases hserved with hown | ⟨rfl, -⟩
  · obtain ⟨route, hroute⟩ := Option.ne_none_iff_exists'.mp hown
    exact (h.ownRoute_method hroute).2.2
  · rfl

/-- The methods an answer without a route allows are those that resolve, and OPTIONS. -/
def AllowsWhatResolves (plan : CompiledRoutePlan) (path : Bytes) (mask : MethodMask) (extensionMethods : List Bytes) :
    Prop :=
  (∀ method, mask.has method = true ↔
      isRoutableMethod method = true ∧ (plan.Resolves method path ∨ method = .options)) ∧
    ((∃ method, plan.Resolves method path) ∨ extensionMethods ≠ [])

theorem PathLookups.allows (h : PathLookups plan path static) (hpath : path.head? = some Http.slash)
    (hdots : hasDotSegment path = false) {mask : MethodMask} {extensionMethods : List Bytes}
    (hexact : Exact plan path static (.methodNotAllowed mask extensionMethods)) :
    AllowsWhatResolves plan path mask extensionMethods := by
  have hserved : ∀ method, plan.Served path static method ↔
      isRoutableMethod method = true ∧ plan.Resolves method path := by
    intro method
    by_cases hknown : method = .unknown
    · subst hknown
      refine ⟨fun hserved => absurd (h.served_routable hserved) (by decide), fun hroutable => ?_⟩
      exact absurd hroutable.1 (by decide)
    · rw [h.resolves_iff hpath hdots hknown]
      exact ⟨fun hserved => ⟨h.served_routable hserved, hserved⟩, fun hserved => hserved.2⟩
  obtain ⟨hmask, -, hsome⟩ := hexact
  refine ⟨fun method => ?_, hsome.imp_left fun ⟨method, hmethod⟩ => ⟨method, ((hserved method).mp hmethod).2⟩⟩
  rw [hmask, hserved]
  constructor
  · rintro (⟨hroutable, hresolves⟩ | rfl)
    · exact ⟨hroutable, .inl hresolves⟩
    · exact ⟨rfl, .inr rfl⟩
  · rintro ⟨hroutable, hresolves | hoptions⟩
    · exact .inl ⟨hroutable, hresolves⟩
    · exact .inr hoptions

/-- **Allow is exact.** For the plan of any table of routes, and any request: the answer that the method is not
allowed names the methods with which a request for the path would resolve, and OPTIONS, and never an empty set. And in
any trie that is built, the walk without captures finds the route that the walk with captures finds, for every path. -/
theorem allowedMethods_exact {globals : List MiddlewareDescriptor}
    (hdeclare : Router.declare registrations globals = .ok router)
    (hcompile : compileRoutePlan maxSize router.routes endpoints = .ok plan) :
    (∀ (method : HttpKnownMethod) (methodToken path : Bytes), ∃ resolution,
      plan.resolve method methodToken path = some resolution ∧
        ∀ mask extensionMethods, resolution = .methodNotAllowed mask extensionMethods →
          AllowsWhatResolves plan path mask extensionMethods) ∧
      ∀ (order : List RouteEntry) (index : DynamicIndex), buildDynamicRoutes order = .ok index → ∀ path,
        findDynamicNodeNoParams index.root path = (findDynamicNode index.root path []).1 := by
  refine ⟨fun method methodToken path => ?_, fun order index hbuild path => findDynamicNodeNoParams_eq hbuild path⟩
  obtain ⟨hdeclared, -⟩ := Router.declare_declared hdeclare
  rw [CompiledRoutePlan.resolve]
  cases hguard : isRoutableOriginOrAsteriskPath method path with
  | false => exact ⟨.rejected, rfl, fun mask extensionMethods heq => (by cases heq)⟩
  | true =>
    rw [isRoutableOriginOrAsteriskPath, Bool.and_eq_true, Bool.and_eq_true, Bool.or_eq_true, Bool.and_eq_true,
      Bool.not_eq_true', beq_iff_eq, beq_iff_eq, beq_iff_eq] at hguard
    obtain ⟨⟨-, hpath | ⟨rfl, rfl⟩⟩, hdots⟩ := hguard
    · obtain ⟨static, hlookups⟩ := exists_pathLookups hdeclared hcompile hpath
      have hstar : path ≠ lit "*" := by
        rintro rfl
        exact absurd hpath (by decide)
      rw [if_neg (by decide)]
      split
      · obtain ⟨resolution, hresolution, hanswer⟩ := hlookups.resolveExtensionMethod_spec methodToken
        refine ⟨resolution, hresolution, fun mask extensionMethods heq => ?_⟩
        subst heq
        rcases hanswer with ⟨route, captured, heq⟩ | ⟨-, heq⟩ | hexact
        · cases heq
        · cases heq
        · exact hlookups.allows hpath hdots hexact
      · obtain ⟨resolution, hresolution, hanswered⟩ := hlookups.resolveKnownMethod_spec hstar method
        refine ⟨resolution, hresolution, fun mask extensionMethods heq => ?_⟩
        subst heq
        rcases hanswered with ⟨⟨route, captured, heq⟩, -⟩ | ⟨-, hexact⟩
        · cases heq
        · exact hlookups.allows hpath hdots hexact
    · refine ⟨.notFound, ?_, fun mask extensionMethods heq => (by cases heq)⟩
      rw [if_neg (by decide), if_neg (by decide), CompiledRoutePlan.resolveKnownMethod, if_pos ⟨rfl, rfl⟩]

end

/-- The path of two methods in the table above, asked with a third one. -/
theorem allowedMethods_exact_about :
    match compileRoutePlan 4096 aboutRouter.routes fun _ => .buffered with
    | .error _ => False
    | .ok plan =>
      match plan.resolve .delete [] (lit "/about") with
      | some (.methodNotAllowed mask extensionMethods) =>
        candidateMethods mask = [.get, .post, .head, .options] ∧
          AllowsWhatResolves plan (lit "/about") mask extensionMethods
      | _ => False := by
  have hmask : (match compileRoutePlan 4096 aboutRouter.routes fun _ => .buffered with
      | .error _ => false
      | .ok plan =>
        match plan.resolve .delete [] (lit "/about") with
        | some (.methodNotAllowed mask _) => candidateMethods mask == [.get, .post, .head, .options]
        | _ => false) = true := by decide +kernel
  cases hcompile : compileRoutePlan 4096 aboutRouter.routes fun _ => .buffered with
  | error failure =>
    rw [hcompile] at hmask
    cases hmask
  | ok plan =>
    obtain ⟨resolution, hresolution, hallows⟩ :=
      (allowedMethods_exact aboutRouter_declared hcompile).1 .delete [] (lit "/about")
    rw [hcompile] at hmask
    dsimp only at hmask ⊢
    rw [hresolution] at hmask ⊢
    cases resolution with
    | methodNotAllowed mask extensionMethods =>
      exact ⟨beq_iff_eq.mp hmask, hallows mask extensionMethods rfl⟩
    | notFound | resolved route captured | rejected => cases hmask

end Ruvia.Web
