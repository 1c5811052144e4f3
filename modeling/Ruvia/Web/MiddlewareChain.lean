import Ruvia.Web.PathScope

/-!
# `Web.MiddlewareChain` — registration, the frames of a route, and the chain that runs them

Registration collects the routes and their own middlewares (`Router.declare`); `buildMiddlewareFrames`
lays out one contiguous range of frames for each route; `runChain` walks a range at dispatch. The walk is
first read on the range it was built from (`runChainFrom_eq`), then the range is read with the coverage
theorem (`middleware_coverage`): a request runs the global middlewares whose scope holds its path, in
registration order, and then all of the route's own.
-/

namespace Ruvia.Web

open Library Ruvia.Http

/-! ## Registration -/

/-- `controller_middleware_descriptor`, as far as the router reads it. -/
structure MiddlewareDescriptor where
  scope : ScopePrefix
  runsOnUnmatchedRequests : Bool := false
  requestBodyLimit : Nat := 0
  streamRequestBody : Bool := false
  validatedModelTypeKey : Option Nat := none

structure RouteMiddlewareRange where
  offset : Nat
  count : Nat

/-- The arguments of `register_endpoint`. -/
structure RouteRegistration where
  method : HttpKnownMethod
  methodToken : Bytes := []
  path : Bytes
  tunnel : Option Bytes := none
  controllerMiddlewares : List MiddlewareDescriptor := []
  routeMiddlewares : List MiddlewareDescriptor := []

def RouteRegistration.entry (registration : RouteRegistration) (index maxRequestBodyBytes : Nat)
    (accepted : validateRouteTarget registration.method registration.methodToken registration.path
      registration.tunnel = .ok ()) : RouteEntry where
  index
  method := registration.method
  methodToken := registration.methodToken
  path := registration.path
  tunnel := registration.tunnel
  maxRequestBodyBytes
  accepted

structure Router where
  routes : List RouteEntry := []
  routeMiddlewareRanges : List RouteMiddlewareRange := []
  routeMiddlewareDescriptors : List MiddlewareDescriptor := []
  globalMiddlewareDescriptors : List MiddlewareDescriptor := []

/-- The loop body of `append_route_middlewares`: a declared limit or body mode is no frame. -/
def appendRouteMiddleware (offset : Nat) (state : Nat × List MiddlewareDescriptor)
    (descriptor : MiddlewareDescriptor) : Except String (Nat × List MiddlewareDescriptor) :=
  let (bodyLimit, descriptors) := state
  if descriptor.requestBodyLimit ≠ 0 then
    if bodyLimit = 0 ∨ descriptor.requestBodyLimit < bodyLimit then
      .ok (descriptor.requestBodyLimit, descriptors)
    else .ok (bodyLimit, descriptors)
  else if descriptor.streamRequestBody then .ok (bodyLimit, descriptors)
  else if descriptor.validatedModelTypeKey ≠ none ∧
      (descriptors.drop offset).any (·.validatedModelTypeKey == descriptor.validatedModelTypeKey) then
    .error "duplicate validated model type on route"
  else .ok (bodyLimit, descriptors ++ [descriptor])

namespace Router

def appendRouteMiddlewares (router : Router)
    (controllerMiddlewares routeMiddlewares : List MiddlewareDescriptor) :
    Except String (Nat × List MiddlewareDescriptor) :=
  (controllerMiddlewares ++ routeMiddlewares).foldlM
    (appendRouteMiddleware router.routeMiddlewareDescriptors.length) (0, router.routeMiddlewareDescriptors)

/-- The part of `register_endpoint` behind the duplicate check, which only refuses more routes. -/
def registerEndpoint (router : Router) (registration : RouteRegistration) : Except String Router :=
  match haccepted : validateRouteTarget registration.method registration.methodToken registration.path
      registration.tunnel with
  | .error error => .error error
  | .ok () =>
    match router.appendRouteMiddlewares registration.controllerMiddlewares registration.routeMiddlewares with
    | .error error => .error error
    | .ok (maxRequestBodyBytes, descriptors) =>
      let offset := router.routeMiddlewareDescriptors.length
      .ok
        { router with
          routes := router.routes ++
            [registration.entry router.routes.length maxRequestBodyBytes haccepted]
          routeMiddlewareRanges := router.routeMiddlewareRanges ++ [⟨offset, descriptors.length - offset⟩]
          routeMiddlewareDescriptors := descriptors }

/-- All routes, then the app-wide middlewares. -/
def declare (registrations : List RouteRegistration) (globals : List MiddlewareDescriptor) :
    Except String Router :=
  match registrations.foldlM registerEndpoint {} with
  | .error error => .error error
  | .ok router => .ok { router with globalMiddlewareDescriptors := globals }

end Router

/-! ## Frames -/

/-- One entry of `middleware_frame_instances_` and of `middleware_scopes_`. -/
structure FrameSlot where
  instanceIndex : Nat
  scope : Bytes
  deriving DecidableEq, Repr

/-- A route with its range of frames. -/
structure RouteFrames where
  route : RouteEntry
  middlewareOffset : Nat
  middlewareCount : Nat
  conditionalMiddleware : Bool

structure MiddlewarePlan where
  middlewareInstances : List MiddlewareDescriptor
  slots : List FrameSlot
  routes : List RouteFrames
  unmatchedMiddlewareOffset : Nat
  unmatchedMiddlewareCount : Nat

namespace Router

def scopeCoverage (route : RouteEntry) (descriptor : MiddlewareDescriptor) : MiddlewareScopeCoverage :=
  routeScopeCoverage route.path route.dynamic descriptor.scope.text

/-- The frame of one global middleware: none, conditional or unconditional. -/
def globalSlot (route : RouteEntry) (entry : MiddlewareDescriptor × Nat) : Option FrameSlot :=
  match scopeCoverage route entry.1 with
  | .none => none
  | .partialCoverage => some ⟨entry.2, entry.1.scope.text⟩
  | .full => some ⟨entry.2, []⟩

variable (router : Router)

def routeSlots (route : RouteEntry) : List FrameSlot :=
  let range := router.routeMiddlewareRanges[route.index]?.getD ⟨0, 0⟩
  router.globalMiddlewareDescriptors.zipIdx.filterMap (globalSlot route) ++
    (List.range range.count).map fun i =>
      ⟨router.globalMiddlewareDescriptors.length + range.offset + i, []⟩

/-- The loop body of `build_middleware_frames`. -/
def addRouteFrames (state : List FrameSlot × List RouteFrames) (route : RouteEntry) :
    List FrameSlot × List RouteFrames :=
  let (slots, routes) := state
  (slots ++ router.routeSlots route,
    routes ++
      [{ route
         middlewareOffset := slots.length
         middlewareCount := (router.routeSlots route).length
         conditionalMiddleware :=
           router.globalMiddlewareDescriptors.any fun descriptor =>
             scopeCoverage route descriptor == .partialCoverage }])

def unmatchedSlots : List FrameSlot :=
  router.globalMiddlewareDescriptors.zipIdx.filterMap fun (descriptor, i) =>
    if descriptor.runsOnUnmatchedRequests then some ⟨i, []⟩ else none

def buildMiddlewareFrames : MiddlewarePlan :=
  let built := router.routes.foldl router.addRouteFrames ([], [])
  { middlewareInstances := router.globalMiddlewareDescriptors ++ router.routeMiddlewareDescriptors
    slots := built.1 ++ router.unmatchedSlots
    routes := built.2
    unmatchedMiddlewareOffset := built.1.length
    unmatchedMiddlewareCount := router.unmatchedSlots.length }

end Router

/-! ## The chain -/

/-- `middleware_chain`: the frames' instances and, when some are conditional, their scopes. -/
structure MiddlewareChain where
  frames : List Nat
  scopes : List Bytes
  deriving DecidableEq, Repr

namespace MiddlewareChain

/-- The next frame from `index` on whose scope holds the path. -/
def skipFrames (chain : MiddlewareChain) (path : Bytes) (index : Nat) : Nat :=
  if index < chain.frames.length ∧ pathIsUnderPrefix path (chain.scopes[index]?.getD []) = false then
    chain.skipFrames path (index + 1)
  else index
termination_by chain.frames.length - index

def applicableFrame (chain : MiddlewareChain) (index : Nat) (path : Bytes) : Nat :=
  if chain.scopes.isEmpty then index else chain.skipFrames path index

theorem skipFrames_ge (chain : MiddlewareChain) (path : Bytes) (index : Nat) :
    index ≤ chain.skipFrames path index := by
  fun_induction skipFrames chain path index with
  | case1 index hskip ih => omega
  | case2 => exact le_rfl

theorem applicableFrame_ge (chain : MiddlewareChain) (index : Nat) (path : Bytes) :
    index ≤ chain.applicableFrame index path := by
  rw [applicableFrame]
  split
  · exact le_rfl
  · exact chain.skipFrames_ge path index

/-- What a chain runs: frames, by their middleware instance, and the terminal. -/
inductive ChainStep where
  | frame (instanceIndex : Nat)
  | terminal
  deriving DecidableEq, Repr

/-- `run_chain_hop` from a frame index on; `callsNext` says which middlewares call `next()`. -/
def runChainFrom (chain : MiddlewareChain) (path : Bytes) (callsNext : Nat → Bool) (index : Nat) :
    List ChainStep :=
  match _hframe : chain.frames[chain.applicableFrame index path]? with
  | none => [.terminal]
  | some instanceIndex =>
    .frame instanceIndex ::
      if callsNext instanceIndex then
        chain.runChainFrom path callsNext (chain.applicableFrame index path + 1)
      else []
termination_by chain.frames.length - index
decreasing_by
  have := chain.applicableFrame_ge index path
  have := (List.getElem?_eq_some_iff.mp _hframe).1
  omega

def runChain (chain : MiddlewareChain) (path : Bytes) (callsNext : Nat → Bool) : List ChainStep :=
  chain.runChainFrom path callsNext 0

/-- The steps of a chain that would run `instances`: up to the first one that keeps `next()` to itself. -/
def untilStop (callsNext : Nat → Bool) : List Nat → List ChainStep
  | [] => [.terminal]
  | instanceIndex :: rest =>
    .frame instanceIndex :: if callsNext instanceIndex then untilStop callsNext rest else []

end MiddlewareChain

namespace MiddlewarePlan

def routeChain (plan : MiddlewarePlan) (route : RouteFrames) : MiddlewareChain where
  frames := sub (plan.slots.map (·.instanceIndex)) route.middlewareOffset route.middlewareCount
  scopes :=
    if route.conditionalMiddleware then
      sub (plan.slots.map (·.scope)) route.middlewareOffset route.middlewareCount
    else []

/-- The chain around the answer to a request no route matched. -/
def unmatchedChain (plan : MiddlewarePlan) : MiddlewareChain where
  frames :=
    sub (plan.slots.map (·.instanceIndex)) plan.unmatchedMiddlewareOffset plan.unmatchedMiddlewareCount
  scopes := []

end MiddlewarePlan

/-! ## Walking a range of frames -/

section

variable (slots : List FrameSlot) (path : Bytes)

/-- The frames whose scope holds the path. -/
def slotsUnder : List FrameSlot := slots.filter fun slot => pathIsUnderPrefix path slot.scope

/-- The chain over a range of slots. -/
def slotChain (conditional : Bool) : MiddlewareChain where
  frames := slots.map (·.instanceIndex)
  scopes := if conditional then slots.map (·.scope) else []

variable {slots path}

theorem slotsUnder_cons {slot : FrameSlot} (h : pathIsUnderPrefix path slot.scope = true) :
    slotsUnder (slot :: slots) path = slot :: slotsUnder slots path :=
  List.filter_cons_of_pos h

theorem skipFrames_spec (index : Nat) :
    slotsUnder (slots.drop index) path =
        slotsUnder (slots.drop ((slotChain slots true).skipFrames path index)) path ∧
      ∀ slot, slots[(slotChain slots true).skipFrames path index]? = some slot →
        pathIsUnderPrefix path slot.scope = true := by
  have hscope : ∀ i : Nat, (slotChain slots true).scopes[i]?.getD [] = (slots[i]?.map FrameSlot.scope).getD [] := by
    intro i
    simp [slotChain]
  have hlen : (slotChain slots true).frames.length = slots.length := by simp [slotChain]
  fun_induction MiddlewareChain.skipFrames (slotChain slots true) path index with
  | case1 index hskip ih =>
    rw [hlen, hscope] at hskip
    obtain ⟨hlt, hout⟩ := hskip
    rw [List.getElem?_eq_getElem hlt, Option.map_some, Option.getD_some] at hout
    refine ⟨?_, ih.2⟩
    rw [← ih.1, slotsUnder, List.drop_eq_getElem_cons hlt, List.filter_cons_of_neg (by simp [hout])]
    rfl
  | case2 index hstop =>
    refine ⟨rfl, fun slot hslot => ?_⟩
    by_contra hout
    have hlt := (List.getElem?_eq_some_iff.mp hslot).1
    refine hstop ⟨hlen ▸ hlt, ?_⟩
    rw [hscope, hslot]
    simpa using hout

theorem applicableFrame_spec {conditional : Bool}
    (hscopes : conditional = false → ∀ slot ∈ slots, slot.scope = []) (index : Nat) :
    slotsUnder (slots.drop index) path =
        slotsUnder (slots.drop ((slotChain slots conditional).applicableFrame index path)) path ∧
      ∀ slot, slots[(slotChain slots conditional).applicableFrame index path]? = some slot →
        pathIsUnderPrefix path slot.scope = true := by
  have hunscoped : (∀ slot ∈ slots, slot.scope = []) → ∀ (i : Nat) slot, slots[i]? = some slot →
      pathIsUnderPrefix path slot.scope = true := by
    intro hall i slot hslot
    rw [hall slot (List.mem_of_getElem? hslot)]
    rfl
  rw [MiddlewareChain.applicableFrame]
  cases conditional with
  | false => exact ⟨rfl, hunscoped (hscopes rfl) index⟩
  | true =>
    split
    · -- a chain without scopes has no frames either
      rename_i hempty
      have hnil : slots = [] := by simpa [slotChain] using hempty
      subst hnil
      exact ⟨rfl, hunscoped (by simp) index⟩
    · exact skipFrames_spec index

/-- **A walk runs the frames whose scope holds the path**, until one does not call `next()`. -/
theorem runChainFrom_eq {conditional : Bool} (callsNext : Nat → Bool)
    (hscopes : conditional = false → ∀ slot ∈ slots, slot.scope = []) (index : Nat) :
    (slotChain slots conditional).runChainFrom path callsNext index =
      MiddlewareChain.untilStop callsNext ((slotsUnder (slots.drop index) path).map (·.instanceIndex)) := by
  have hframe : ∀ i : Nat, (slotChain slots conditional).frames[i]? = slots[i]?.map (·.instanceIndex) := by
    intro i
    simp [slotChain]
  fun_induction MiddlewareChain.runChainFrom (slotChain slots conditional) path callsNext index with
  | case1 index hnone =>
    rw [hframe, Option.map_eq_none_iff, List.getElem?_eq_none_iff] at hnone
    rw [(applicableFrame_spec hscopes index).1, List.drop_eq_nil_of_le hnone]
    rfl
  | case2 index instanceIndex hsome ih =>
    rw [hframe, Option.map_eq_some_iff] at hsome
    obtain ⟨slot, hslot, rfl⟩ := hsome
    obtain ⟨hskip, hunder⟩ := applicableFrame_spec hscopes index
    obtain ⟨hlt, hget⟩ := List.getElem?_eq_some_iff.mp hslot
    rw [hskip, ih, List.drop_eq_getElem_cons hlt, hget, slotsUnder_cons (hunder slot hslot), List.map_cons,
      MiddlewareChain.untilStop]

end

/-! ## What registration has collected -/

/-- The middlewares of a registration that become frames. -/
def RouteRegistration.ownMiddlewares (registration : RouteRegistration) : List MiddlewareDescriptor :=
  (registration.controllerMiddlewares ++ registration.routeMiddlewares).filter fun descriptor =>
    descriptor.requestBodyLimit == 0 && !descriptor.streamRequestBody

theorem appendRouteMiddlewares_foldlM {offset : Nat} (middlewares : List MiddlewareDescriptor) :
    ∀ {state state' : Nat × List MiddlewareDescriptor},
      middlewares.foldlM (appendRouteMiddleware offset) state = .ok state' →
      state'.2 = state.2 ++
        middlewares.filter fun descriptor => descriptor.requestBodyLimit == 0 && !descriptor.streamRequestBody := by
  induction middlewares with
  | nil =>
    intro state state' h
    cases h
    simp
  | cons descriptor rest ih =>
    intro state state' h
    rw [List.foldlM_cons] at h
    cases hstep : appendRouteMiddleware offset state descriptor with
    | error error => simp [hstep, bind, Except.bind] at h
    | ok next =>
      rw [hstep] at h
      rw [ih h]
      simp only [appendRouteMiddleware] at hstep
      split_ifs at hstep with hlimit _ hstream hkey <;> cases hstep <;> simp_all

/-- The route a registration has become. -/
structure Router.Registered (router : Router) (i : Nat) (registration : RouteRegistration) (route : RouteEntry) :
    Prop where
  entry : router.routes[i]? = some route
  index : route.index = i
  path : route.path = registration.path
  tunnel : route.tunnel = registration.tunnel
  range : ∃ range, router.routeMiddlewareRanges[i]? = some range ∧
    range.count = registration.ownMiddlewares.length ∧
    sub router.routeMiddlewareDescriptors range.offset range.count = registration.ownMiddlewares

/-- What a router has made of some registrations. -/
structure Router.Declared (router : Router) (registrations : List RouteRegistration) : Prop where
  routes : router.routes.length = registrations.length
  ranges : router.routeMiddlewareRanges.length = registrations.length
  registered : ∀ i registration, registrations[i]? = some registration →
    ∃ route, router.Registered i registration route

variable {router : Router}

theorem Router.registerEndpoint_declared {router' : Router} {done : List RouteRegistration}
    {registration : RouteRegistration} (hdone : router.Declared done)
    (h : router.registerEndpoint registration = .ok router') : router'.Declared (done ++ [registration]) := by
  unfold registerEndpoint at h
  split at h
  · cases h
  · split at h
    · cases h
    · rename_i haccepted _ maxRequestBodyBytes descriptors happend
      cases h
      have hdescriptors : descriptors = router.routeMiddlewareDescriptors ++ registration.ownMiddlewares :=
        appendRouteMiddlewares_foldlM _ happend
      subst hdescriptors
      refine ⟨by simp [hdone.routes], by simp [hdone.ranges], fun i other hi => ?_⟩
      rcases Nat.lt_or_ge i done.length with hlt | hge
      · rw [List.getElem?_append_left hlt] at hi
        obtain ⟨route, hentry, hindex, hpath, htunnel, range, hrange, hcount, hown⟩ := hdone.registered i other hi
        refine ⟨route, ?_, hindex, hpath, htunnel, range, ?_, hcount, ?_⟩
        · rw [List.getElem?_append_left (by rw [hdone.routes]; exact hlt)]
          exact hentry
        · rw [List.getElem?_append_left (by rw [hdone.ranges]; exact hlt)]
          exact hrange
        · rw [sub_append_of_length (by rw [hown, hcount]), hown]
      · obtain rfl : i = done.length := by
          have := (List.getElem?_eq_some_iff.mp hi).1
          rw [List.length_append, List.length_singleton] at this
          omega
        obtain rfl : registration = other := by simpa using hi
        refine ⟨registration.entry router.routes.length maxRequestBodyBytes haccepted, ?_, hdone.routes, rfl, rfl,
          ⟨router.routeMiddlewareDescriptors.length, registration.ownMiddlewares.length⟩, ?_, rfl, ?_⟩
        · rw [← hdone.routes, List.getElem?_concat_length]
        · rw [← hdone.ranges, List.getElem?_concat_length]
          simp
        · simp [sub]

theorem Router.foldlM_declared (registrations : List RouteRegistration) :
    ∀ {router router' : Router} {done : List RouteRegistration}, router.Declared done →
      registrations.foldlM registerEndpoint router = .ok router' → router'.Declared (done ++ registrations) := by
  induction registrations with
  | nil =>
    intro router router' done hdone h
    cases h
    simpa using hdone
  | cons registration rest ih =>
    intro router router' done hdone h
    rw [List.foldlM_cons] at h
    cases hstep : router.registerEndpoint registration with
    | error error => simp [hstep, bind, Except.bind] at h
    | ok next =>
      rw [hstep] at h
      have := ih (registerEndpoint_declared hdone hstep) h
      rwa [List.append_assoc, List.singleton_append] at this

/-- **A declared router holds every registration.** -/
theorem Router.declare_declared {registrations : List RouteRegistration} {globals : List MiddlewareDescriptor}
    (h : declare registrations globals = .ok router) :
    router.Declared registrations ∧ router.globalMiddlewareDescriptors = globals := by
  unfold declare at h
  split at h
  · cases h
  · rename_i declared hdeclared
    cases h
    have hempty : ({} : Router).Declared [] := ⟨rfl, rfl, fun i _ h => by simp at h⟩
    have := foldlM_declared registrations hempty hdeclared
    exact ⟨⟨this.routes, this.ranges, fun i registration hi => by
      obtain ⟨route, hroute⟩ := this.registered i registration hi
      exact ⟨route, hroute.entry, hroute.index, hroute.path, hroute.tunnel, hroute.range⟩⟩, rfl⟩

/-! ## What the plan holds -/

/-- The range of a route holds its slots, and is checked at dispatch when one of them is scoped. -/
structure RouteFrames.Holds (frames : RouteFrames) (router : Router) (slots : List FrameSlot) : Prop where
  range : sub slots frames.middlewareOffset frames.middlewareCount = router.routeSlots frames.route
  count : frames.middlewareCount = (router.routeSlots frames.route).length
  scopes : frames.conditionalMiddleware = false → ∀ slot ∈ router.routeSlots frames.route, slot.scope = []

variable {frames : RouteFrames} {slots : List FrameSlot}

theorem RouteFrames.Holds.append {more : List FrameSlot} (h : frames.Holds router slots) :
    frames.Holds router (slots ++ more) :=
  ⟨by rw [sub_append_of_length (by rw [h.range, h.count]), h.range], h.count, h.scopes⟩

theorem Router.routeSlots_unscoped {route : RouteEntry}
    (h : (router.globalMiddlewareDescriptors.any fun descriptor =>
      scopeCoverage route descriptor == .partialCoverage) = false) :
    ∀ slot ∈ router.routeSlots route, slot.scope = [] := by
  intro slot hslot
  rw [routeSlots, List.mem_append] at hslot
  rcases hslot with hglobal | hown
  · obtain ⟨⟨descriptor, i⟩, hmem, hsome⟩ := List.mem_filterMap.mp hglobal
    have hpartial : scopeCoverage route descriptor ≠ .partialCoverage := by
      have hdescriptor : descriptor ∈ router.globalMiddlewareDescriptors :=
        (List.mem_zipIdx' hmem).2 ▸ List.getElem_mem _
      simpa using List.any_eq_false.mp h descriptor hdescriptor
    unfold globalSlot at hsome
    split at hsome
    · cases hsome
    · rename_i hcoverage
      exact absurd hcoverage hpartial
    · cases hsome
      rfl
  · obtain ⟨i, _, rfl⟩ := List.mem_map.mp hown
    rfl

theorem Router.addRouteFrames_foldl (router : Router) (routes : List RouteEntry) :
    ∀ (slots : List FrameSlot) (built : List RouteFrames),
      (∀ frames ∈ built, frames.Holds router slots) →
      (routes.foldl router.addRouteFrames (slots, built)).2.map (·.route) = built.map (·.route) ++ routes ∧
        ∀ frames ∈ (routes.foldl router.addRouteFrames (slots, built)).2,
          frames.Holds router (routes.foldl router.addRouteFrames (slots, built)).1 := by
  induction routes with
  | nil => exact fun slots built hbuilt => ⟨by simp, hbuilt⟩
  | cons route rest ih =>
    intro slots built hbuilt
    rw [List.foldl_cons]
    have hnext : ∀ frames ∈ (router.addRouteFrames (slots, built) route).2,
        frames.Holds router (router.addRouteFrames (slots, built) route).1 := by
      intro frames hmem
      simp only [addRouteFrames, List.mem_append, List.mem_singleton] at hmem ⊢
      rcases hmem with hmem | rfl
      · exact (hbuilt frames hmem).append
      · exact ⟨by simp [sub], rfl, fun h => routeSlots_unscoped h⟩
    obtain ⟨hroutes, hholds⟩ := ih _ _ hnext
    exact ⟨by rw [hroutes]; simp [addRouteFrames], hholds⟩

/-! ## What a request runs -/

theorem slotsUnder_append (left right : List FrameSlot) (path : Bytes) :
    slotsUnder (left ++ right) path = slotsUnder left path ++ slotsUnder right path :=
  List.filter_append _ _

theorem slotsUnder_unscoped (path : Bytes) (h : ∀ slot ∈ slots, slot.scope = []) : slotsUnder slots path = slots := by
  refine List.filter_eq_self.mpr fun slot hslot => ?_
  rw [h slot hslot]
  rfl

/-- The frames of the global middlewares run where their scope holds the path. -/
theorem globalSlots_under {route : RouteEntry} {path : Bytes} (hserves : route.Serves path)
    (entries : List (MiddlewareDescriptor × Nat)) :
    (slotsUnder (entries.filterMap (Router.globalSlot route)) path).map (·.instanceIndex) =
      (entries.filter fun entry => pathIsUnderPrefix path entry.1.scope.text).map (·.2) := by
  induction entries with
  | nil => rfl
  | cons entry rest ih =>
    obtain ⟨hfull, hnone⟩ := routeScopeCoverage_spec route entry.1.scope hserves
    rw [List.filterMap_cons, List.filter_cons]
    cases hcoverage : Router.scopeCoverage route entry.1 with
    | none =>
      rw [Router.globalSlot, hcoverage, hnone hcoverage]
      exact ih
    | partialCoverage =>
      rw [Router.globalSlot, hcoverage, slotsUnder, List.filter_cons]
      simp only
      split
      · exact congrArg _ ih
      · exact ih
    | full =>
      rw [Router.globalSlot, hcoverage, hfull hcoverage]
      simp only [if_true]
      rw [slotsUnder_cons rfl, List.map_cons, List.map_cons]
      exact congrArg _ ih

/-- The chain of a route is the chain over its slots. -/
theorem RouteFrames.Holds.routeChain {plan : MiddlewarePlan} (h : frames.Holds router plan.slots) :
    plan.routeChain frames = slotChain (router.routeSlots frames.route) frames.conditionalMiddleware := by
  rw [MiddlewarePlan.routeChain, slotChain, sub_map, sub_map, h.range]

/-- **Path-scoped middleware runs exactly where its scope holds.** Build-time coverage is sound for every
request path a route serves; and a request runs the global middlewares whose prefix covers its path, in
registration order, followed by the route's own middlewares. -/
theorem middleware_coverage :
    (∀ (route : RouteEntry) (scope : ScopePrefix) (path : Bytes), route.Serves path →
      (routeScopeCoverage route.path route.dynamic scope.text = .full →
          pathIsUnderPrefix path scope.text = true) ∧
        (routeScopeCoverage route.path route.dynamic scope.text = .none →
          pathIsUnderPrefix path scope.text = false)) ∧
    ∀ (registrations : List RouteRegistration) (globals : List MiddlewareDescriptor) (router : Router),
      Router.declare registrations globals = .ok router →
      router.buildMiddlewareFrames.middlewareInstances.take globals.length = globals ∧
      ∀ (i : Nat) (registration : RouteRegistration), registrations[i]? = some registration →
        ∃ frames start,
          router.buildMiddlewareFrames.routes[i]? = some frames ∧
          frames.route.path = registration.path ∧ frames.route.tunnel = registration.tunnel ∧
          sub router.buildMiddlewareFrames.middlewareInstances start registration.ownMiddlewares.length =
            registration.ownMiddlewares ∧
          ∀ (path : Bytes) (callsNext : Nat → Bool), frames.route.Serves path →
            (router.buildMiddlewareFrames.routeChain frames).runChain path callsNext =
              MiddlewareChain.untilStop callsNext
                ((globals.zipIdx.filter fun entry => pathIsUnderPrefix path entry.1.scope.text).map (·.2) ++
                  List.range' start registration.ownMiddlewares.length) := by
  refine ⟨fun route scope path hserves => routeScopeCoverage_spec route scope hserves, ?_⟩
  intro registrations globals router hdeclare
  obtain ⟨hdeclared, rfl⟩ := Router.declare_declared hdeclare
  refine ⟨List.take_left, fun i registration hi => ?_⟩
  obtain ⟨route, hentry, hindex, hpath, htunnel, range, hrange, hcount, hown⟩ :=
    hdeclared.registered i registration hi
  obtain ⟨hroutes, hholds⟩ := router.addRouteFrames_foldl router.routes [] [] (by simp)
  rw [List.map_nil, List.nil_append] at hroutes
  obtain ⟨frames, hframes, rfl⟩ : ∃ frames,
      (router.routes.foldl router.addRouteFrames ([], [])).2[i]? = some frames ∧ frames.route = route := by
    rw [← hroutes, List.getElem?_map, Option.map_eq_some_iff] at hentry
    exact hentry
  refine ⟨frames, router.globalMiddlewareDescriptors.length + range.offset, hframes, hpath, htunnel, ?_, ?_⟩
  · rw [← hcount, ← hown, hcount]
    exact hcount ▸ sub_append_right _ _ _ _
  · intro path callsNext hserves
    have hfits : frames.Holds router router.buildMiddlewareFrames.slots :=
      (hholds frames (List.mem_of_getElem? hframes)).append
    have hslots : router.routeSlots frames.route =
        router.globalMiddlewareDescriptors.zipIdx.filterMap (Router.globalSlot frames.route) ++
          (List.range range.count).map fun i =>
            ⟨router.globalMiddlewareDescriptors.length + range.offset + i, []⟩ := by
      rw [Router.routeSlots, hindex, hrange]
      rfl
    rw [hfits.routeChain, MiddlewareChain.runChain, runChainFrom_eq _ hfits.scopes, List.drop_zero, hslots,
      slotsUnder_append, List.map_append, globalSlots_under hserves, slotsUnder_unscoped path (by simp), ← hcount,
      List.map_map, List.range'_eq_map_range]
    rfl

end Ruvia.Web
