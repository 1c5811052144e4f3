import Mathlib.Data.Nat.Log
import Ruvia.Web.RouteLookup
import Ruvia.Web.StatementCache

/-!
# `Web.StaticIndex` — the open-addressed index of the static routes

`build_static_index` and `find_static_route`. The key of a route is a hash of its method and of the canonical octets of
its path, so all spellings of a path have one key (`pathHash_eq`). The table is at most half full; so every probe comes
to an empty slot, and a lookup finds a route exactly if one is registered (`static_index`).
-/

namespace Ruvia.Web

open Library Ruvia.Http
open LinearProbing

/-! ## Keys -/

def fnv1aOffsetBasis : UInt64 := 14695981039346656037

/-- One step of FNV-1a; the unit is cast to an `unsigned char`. -/
def mixUnit (hash : UInt64) (unit : Int) : UInt64 := (hash ^^^ UInt64.ofNat (unit % 256).toNat) * fnv1aPrime

/-- The loop of `path_hash`: only an escape is decoded. -/
def hashUnits (hash : UInt64) : Bytes → UInt64
  | [] => hash
  | byte :: rest =>
    let next := if byte = percent then nextUriPathUnit byte rest else ((byte.toNat : Int), rest)
    hashUnits (mixUnit hash next.1) next.2
termination_by path => path.length
decreasing_by
  split
  · exact nextUriPathUnit_length byte rest
  · exact Nat.lt_succ_self _

/-- The `fmix64` finalizer. -/
def spreadHash (hash : UInt64) : UInt64 :=
  let hash := (hash ^^^ (hash >>> 33)) * 0xff51afd7ed558ccd
  let hash := (hash ^^^ (hash >>> 33)) * 0xc4ceb9fe1a85ec53
  hash ^^^ (hash >>> 33)

def pathHash (path : Bytes) : UInt64 := spreadHash (hashUnits fnv1aOffsetBasis path)

def routeHash (method : HttpKnownMethod) (hash : UInt64) : UInt64 :=
  hash ^^^ (UInt64.ofNat (methodIndex method) * fnv1aPrime)

/-! ## The table -/

/-- `static_slot_type`, of a slot that is taken. -/
structure StaticSlot where
  hash : UInt64
  routeIndex : Nat
  deriving DecidableEq, Repr

/-- `static_slots_`; its mask is one less than its size. -/
structure StaticIndex where
  size : Nat := 0
  slots : Fin size → Option StaticSlot := fun _ => none

section

variable {n : Nat} (slots : Fin n → Option StaticSlot)

/-- The slot a hash belongs to. -/
def startSlot (hash : UInt64) (h : 0 < n) : Fin n :=
  ⟨hash.toNat &&& (n - 1), Nat.lt_of_le_of_lt Nat.and_le_right (Nat.sub_lt h Nat.one_pos)⟩

def nextSlot (slot : Fin n) : Fin n :=
  ⟨(slot.val + 1) &&& (n - 1), Nat.lt_of_le_of_lt Nat.and_le_right (Nat.sub_lt slot.pos Nat.one_pos)⟩

/-- The builder's loop to a free slot; `none` when it is still running after so many probes. -/
def freeSlotFrom : Nat → Fin n → Option (Fin n)
  | 0, _ => none
  | probes + 1, slot => if slots slot = none then some slot else freeSlotFrom probes (nextSlot slot)

variable (routes : List RouteEntry) (method : HttpKnownMethod) (path : Bytes)

/-- The route of a slot is the one that is looked up. -/
def acceptsSlot (keyHash : UInt64) (slot : StaticSlot) : Bool :=
  (routes[slot.routeIndex]?).any fun route =>
    slot.hash == keyHash && route.method == method && (route.path == path || uriPathsEquivalent route.path path)

/-- The loop of `find_static_route`; `none` when it is still running after so many probes. -/
def findStaticRouteFrom (keyHash : UInt64) : Nat → Fin n → Option (Option RouteEntry)
  | 0, _ => none
  | probes + 1, slot =>
    match slots slot with
    | none => some none
    | some taken =>
      if acceptsSlot routes method path keyHash taken then some routes[taken.routeIndex]?
      else findStaticRouteFrom keyHash probes (nextSlot slot)

end

/-- `is_indexed`. -/
def isIndexed (route : RouteEntry) : Bool := !route.dynamic && isRoutableMethod route.method

inductive StaticIndexFailure where
  | tooManyRoutes
  | endlessProbe
  deriving DecidableEq, Repr

/-- The slot of a route. -/
def slotOf (route : RouteEntry) : StaticSlot := ⟨routeHash route.method (pathHash route.path), route.index⟩

def insertStaticRoute {n : Nat} (h : 0 < n) (slots : Fin n → Option StaticSlot) (route : RouteEntry) :
    Except StaticIndexFailure (Fin n → Option StaticSlot) :=
  match freeSlotFrom slots n (startSlot (slotOf route).hash h) with
  | none => .error .endlessProbe
  | some slot => .ok (Function.update slots slot (some (slotOf route)))

/-- `std::bit_ceil`. -/
def bitCeil (value : Nat) : Nat := 2 ^ Nat.clog 2 value

theorem bitCeil_pos (value : Nat) : 0 < bitCeil value := Nat.two_pow_pos _

/-- `build_static_index`; `maxSize` is what the vector of slots can hold. -/
def buildStaticIndex (maxSize : Nat) (routes : List RouteEntry) : Except StaticIndexFailure StaticIndex :=
  let indexed := routes.filter isIndexed
  if indexed.length = 0 then .ok {}
  else if maxSize / 2 < indexed.length then .error .tooManyRoutes
  else
    match indexed.foldlM (insertStaticRoute (bitCeil_pos (indexed.length * 2))) (fun _ => none) with
    | .error failure => .error failure
    | .ok slots => .ok ⟨_, slots⟩

/-- `static_method_mask_`, of one method. -/
def hasStaticMethod (routes : List RouteEntry) (method : HttpKnownMethod) : Bool :=
  routes.any fun route => isIndexed route && route.method == method

/-- A lookup as its callers make it: only for a method with static routes. -/
def findStaticRoute (index : StaticIndex) (routes : List RouteEntry) (method : HttpKnownMethod) (path : Bytes) :
    Option (Option RouteEntry) :=
  if hasStaticMethod routes method then
    if h : 0 < index.size then
      let keyHash := routeHash method (pathHash path)
      findStaticRouteFrom index.slots routes method path keyHash index.size (startSlot keyHash h)
    else none
  else some none

/-! ## Keys of equivalent paths -/

/-- The octet a unit is hashed as. -/
def unitOctet (unit : Int) : Int := if unit = uriPathSeparatorUnit then Http.slash.toNat else unit

theorem hashedUnit_eq (byte : UInt8) (rest : Bytes) :
    (if byte = percent then nextUriPathUnit byte rest else ((byte.toNat : Int), rest)) =
      (unitOctet (nextUriPathUnit byte rest).1, (nextUriPathUnit byte rest).2) := by
  by_cases hslash : byte = Http.slash
  · subst hslash
    rfl
  · rw [unitOctet, if_neg (nextUriPathUnit_ne_separator rest hslash)]
    split
    · rfl
    · rename_i hpercent
      rw [nextUriPathUnit, if_neg hslash, if_neg hpercent]

theorem hashUnits_eq (hash : UInt64) (path : Bytes) :
    hashUnits hash path = (uriPathUnits path).foldl (fun hash unit => mixUnit hash (unitOctet unit)) hash := by
  induction hlen : path.length using Nat.strong_induction_on generalizing path hash with
  | _ n ih =>
    cases path with
    | nil =>
      rw [hashUnits, uriPathUnits_nil]
      rfl
    | cons byte rest =>
      rw [hashUnits, uriPathUnits_cons, List.foldl_cons]
      simp only [hashedUnit_eq]
      exact ih _ (hlen ▸ nextUriPathUnit_length byte rest) _ _ rfl

/-- All spellings of a path have one key. -/
theorem pathHash_eq {left right : Bytes} (h : uriPathsEquivalent left right = true) :
    pathHash left = pathHash right := by
  rw [pathHash, pathHash, hashUnits_eq, hashUnits_eq, ((uriPathsEquivalent_iff left right).mp h).2]

/-! ## Probing -/

section

variable {n : Nat} {slots : Fin n → Option StaticSlot}

/-- In a ring of a power of two, the mask goes on to the next slot. -/
theorem nextSlot_eq (hn : ∃ k, n = 2 ^ k) (slot : Fin n) : nextSlot slot = succ slot := by
  obtain ⟨k, rfl⟩ := hn
  apply Fin.ext
  exact Nat.and_two_pow_sub_one_eq_mod _ _

/-- The builder's probe ends in the slot an insertion fills. -/
theorem freeSlotFrom_spec (hn : ∃ k, n = 2 ^ k) {free : Fin n} (hfree : slots free = none) (taken : StaticSlot)
    (probes : Nat) (slot : Fin n) (hle : gap slot free < probes) :
    ∃ found, freeSlotFrom slots probes slot = some found ∧
      insertFrom taken slots probes slot = Function.update slots found (some taken) := by
  induction probes generalizing slot with
  | zero => omega
  | succ probes ih =>
    unfold freeSlotFrom insertFrom
    cases hslot : slots slot with
    | none => exact ⟨slot, rfl, rfl⟩
    | some other =>
      have hne : slot ≠ free := by
        intro heq
        rw [heq, hfree] at hslot
        cases hslot
      have hgap := gap_succ_left hne
      rw [if_neg (Option.some_ne_none other), nextSlot_eq hn]
      exact ih _ (by omega)

/-- The probe of a lookup ends at the latest in an empty slot. -/
theorem findStaticRouteFrom_eq (hn : ∃ k, n = 2 ^ k) {free : Fin n} (hfree : slots free = none)
    (routes : List RouteEntry) (method : HttpKnownMethod) (path : Bytes) (keyHash : UInt64) (probes : Nat)
    (slot : Fin n) (hle : gap slot free < probes) :
    findStaticRouteFrom slots routes method path keyHash probes slot =
      some ((LinearProbing.findFrom (acceptsSlot routes method path keyHash) slots probes slot).bind fun taken =>
        routes[taken.routeIndex]?) := by
  induction probes generalizing slot with
  | zero => omega
  | succ probes ih =>
    unfold findStaticRouteFrom LinearProbing.findFrom
    cases hslot : slots slot with
    | none => rfl
    | some taken =>
      dsimp only
      split
      · rfl
      · have hne : slot ≠ free := by
          intro heq
          rw [heq, hfree] at hslot
          cases hslot
        have hgap := gap_succ_left hne
        rw [nextSlot_eq hn]
        exact ih _ (by omega)

end

/-! ## Building -/

section

variable {n : Nat} {h : 0 < n} {slots : Fin n → Option StaticSlot} {done : List RouteEntry}

/-- **What the slots hold** of the routes inserted so far. -/
structure SlotsHold (h : 0 < n) (slots : Fin n → Option StaticSlot) (done : List RouteEntry) : Prop where
  probing : LinearProbing.Probing (fun taken => startSlot taken.hash h) slots
  mem : ∀ taken, LinearProbing.Mem slots taken ↔ ∃ route ∈ done, slotOf route = taken

/-- Fewer routes than slots leave a slot empty. -/
theorem SlotsHold.exists_empty (hold : SlotsHold h slots done) (hroom : done.length < n) :
    ∃ free, slots free = none := by
  have hmem : ∀ taken, LinearProbing.Mem slots taken → taken ∈ done.map slotOf := by
    intro taken htaken
    exact List.mem_map.mpr ((hold.mem taken).mp htaken)
  refine LinearProbing.exists_empty hold.probing (fun taken => (done.map slotOf).idxOf taken) ?_ ?_ hroom
  · intro left right hleft _ heq
    exact (List.idxOf_inj (hmem left hleft)).mp heq
  · intro taken htaken
    have hlt := List.idxOf_lt_length_of_mem (hmem taken htaken)
    rwa [List.length_map] at hlt

theorem insertStaticRoute_spec (hn : ∃ k, n = 2 ^ k) (hold : SlotsHold h slots done) (hroom : done.length < n)
    {route : RouteEntry} (hnew : ∀ other ∈ done, other.index ≠ route.index) :
    ∃ slots', insertStaticRoute h slots route = .ok slots' ∧ SlotsHold h slots' (done ++ [route]) := by
  obtain ⟨free, hfree⟩ := hold.exists_empty hroom
  obtain ⟨found, hfound, hinsert⟩ := freeSlotFrom_spec hn hfree (slotOf route) n (startSlot (slotOf route).hash h)
    (gap_lt _ _)
  have hnot : ¬ LinearProbing.Mem slots (slotOf route) := by
    intro hmem
    obtain ⟨other, hother, heq⟩ := (hold.mem _).mp hmem
    exact hnew other hother (congrArg StaticSlot.routeIndex heq)
  obtain ⟨hprobing, hmem⟩ := insert_spec hold.probing hnot ⟨free, hfree⟩
  rw [LinearProbing.insert, hinsert] at hprobing hmem
  refine ⟨_, by rw [insertStaticRoute, hfound], hprobing, fun taken => ?_⟩
  rw [hmem, hold.mem]
  constructor
  · rintro (⟨other, hother, rfl⟩ | rfl)
    · exact ⟨other, List.mem_append_left _ hother, rfl⟩
    · exact ⟨route, List.mem_append_right _ (List.mem_singleton_self _), rfl⟩
  · rintro ⟨other, hother, rfl⟩
    rcases List.mem_append.mp hother with hother | hother
    · exact .inl ⟨other, hother, rfl⟩
    · rw [List.mem_singleton.mp hother]
      exact .inr rfl

theorem insertStaticRoutes_spec (hn : ∃ k, n = 2 ^ k) (routes : List RouteEntry) :
    ∀ {done : List RouteEntry} {slots : Fin n → Option StaticSlot}, SlotsHold h slots done →
      done.length + routes.length < n →
      (done ++ routes).Pairwise (fun left right => left.index ≠ right.index) →
      ∃ slots', routes.foldlM (insertStaticRoute h) slots = .ok slots' ∧ SlotsHold h slots' (done ++ routes) := by
  induction routes with
  | nil =>
    intro done slots hold _ _
    exact ⟨slots, rfl, by rwa [List.append_nil]⟩
  | cons route rest ih =>
    intro done slots hold hroom hapart
    rw [List.length_cons] at hroom
    have hnew : ∀ other ∈ done, other.index ≠ route.index := fun other hother =>
      (List.pairwise_append.mp hapart).2.2 other hother route List.mem_cons_self
    obtain ⟨next, hnext, hheld⟩ := insertStaticRoute_spec hn hold (by omega) hnew
    rw [List.append_cons] at hapart ⊢
    have hlength : (done ++ [route]).length = done.length + 1 := List.length_append
    obtain ⟨slots', hrest, hall⟩ := ih hheld (by omega) hapart
    refine ⟨slots', ?_, hall⟩
    rw [List.foldlM_cons, hnext]
    exact hrest

theorem slotsHold_empty : SlotsHold h (fun _ => none) [] := by
  refine ⟨probing_empty _, fun taken => ⟨?_, ?_⟩⟩
  · rintro ⟨slot, hslot⟩
    cases hslot
  · rintro ⟨route, hroute, _⟩
    cases hroute

end

/-! ## Lookups -/

/-- A route of a routable method names a well-formed path. -/
theorem RouteEntry.wellFormed_of_routable (route : RouteEntry) (h : isRoutableMethod route.method = true) :
    WellFormedPath route.path := by
  refine (route.origin fun htunnel => ?_).2
  have haccepted := route.accepted
  simp only [validateRouteTarget, htunnel, if_true] at haccepted
  split_ifs at haccepted with hmethod
  rw [not_or, not_not] at hmethod
  rw [hmethod.1] at h
  cases h

section

variable {n : Nat} {h : 0 < n} {slots : Fin n → Option StaticSlot} {routes : List RouteEntry}

theorem acceptsSlot_slotOf (hat : ∀ route ∈ routes, routes[route.index]? = some route) {route : RouteEntry}
    (hroute : route ∈ routes.filter isIndexed) (method : HttpKnownMethod) (path : Bytes) :
    acceptsSlot routes method path (routeHash method (pathHash path)) (slotOf route) = true ↔
      route.method = method ∧ uriPathsEquivalent route.path path = true := by
  obtain ⟨hmem, hindexed⟩ := List.mem_filter.mp hroute
  rw [isIndexed, Bool.and_eq_true] at hindexed
  have hwell := route.wellFormed_of_routable hindexed.2
  have hslot : routes[(slotOf route).routeIndex]? = some route := hat route hmem
  rw [acceptsSlot, hslot, Option.any_some, Bool.and_eq_true, Bool.and_eq_true, Bool.or_eq_true, beq_iff_eq,
    beq_iff_eq, beq_iff_eq]
  constructor
  · rintro ⟨⟨-, hmethod⟩, hpath | hpath⟩
    · rw [hpath] at hwell ⊢
      exact ⟨hmethod, uriPathsEquivalent_refl hwell⟩
    · exact ⟨hmethod, hpath⟩
  · rintro ⟨hmethod, hpath⟩
    have hhash : (slotOf route).hash = routeHash method (pathHash path) := by
      rw [slotOf, hmethod, pathHash_eq hpath]
    exact ⟨⟨hhash, hmethod⟩, .inr hpath⟩

/-- **A lookup in the slots of the static routes** ends with a route that answers, if there is one. -/
theorem findStaticRouteFrom_spec (hn : ∃ k, n = 2 ^ k) (hold : SlotsHold h slots (routes.filter isIndexed))
    (hroom : (routes.filter isIndexed).length < n) (hat : ∀ route ∈ routes, routes[route.index]? = some route)
    (method : HttpKnownMethod) (path : Bytes) :
    ∃ result,
      findStaticRouteFrom slots routes method path (routeHash method (pathHash path)) n
        (startSlot (routeHash method (pathHash path)) h) = some result ∧
      (∀ route, result = some route →
        route ∈ routes.filter isIndexed ∧ route.method = method ∧ uriPathsEquivalent route.path path = true) ∧
      (result = none → ∀ route ∈ routes.filter isIndexed, route.method = method →
        uriPathsEquivalent route.path path = false) := by
  obtain ⟨free, hfree⟩ := hold.exists_empty hroom
  have heq := findStaticRouteFrom_eq hn hfree routes method path (routeHash method (pathHash path)) n
    (startSlot (routeHash method (pathHash path)) h) (gap_lt _ _)
  refine ⟨_, heq, ?_⟩
  cases hfind : LinearProbing.findFrom (acceptsSlot routes method path (routeHash method (pathHash path))) slots n
      (startSlot (routeHash method (pathHash path)) h) with
  | none =>
    refine ⟨fun route hroute => (by cases hroute), fun _ route hroute hmethod => ?_⟩
    by_contra hpath
    rw [Bool.not_eq_false] at hpath
    have haccepts := (acceptsSlot_slotOf hat hroute method path).mpr ⟨hmethod, hpath⟩
    have hideal : startSlot (slotOf route).hash h = startSlot (routeHash method (pathHash path)) h := by
      rw [slotOf, hmethod, pathHash_eq hpath]
    rw [find_none hold.probing hfind ((hold.mem _).mpr ⟨route, hroute, rfl⟩) hideal] at haccepts
    cases haccepts
  | some taken =>
    obtain ⟨hmem, haccepts⟩ := findFrom_some n _ hfind
    obtain ⟨route, hroute, rfl⟩ := (hold.mem _).mp hmem
    have hfound : routes[(slotOf route).routeIndex]? = some route := hat route (List.mem_filter.mp hroute).1
    rw [Option.bind_some, hfound]
    refine ⟨fun other hother => ?_, nofun⟩
    obtain rfl := Option.some.inj hother
    exact ⟨hroute, (acceptsSlot_slotOf hat hroute method path).mp haccepts⟩

end

theorem hasStaticMethod_iff (routes : List RouteEntry) (method : HttpKnownMethod) :
    hasStaticMethod routes method = true ↔ ∃ route ∈ routes.filter isIndexed, route.method = method := by
  simp only [hasStaticMethod, List.any_eq_true, Bool.and_eq_true, beq_iff_eq, List.mem_filter]
  constructor
  · rintro ⟨route, hroute, hindexed, hmethod⟩
    exact ⟨route, ⟨hroute, hindexed⟩, hmethod⟩
  · rintro ⟨route, ⟨hroute, hindexed⟩, hmethod⟩
    exact ⟨route, hroute, hindexed, hmethod⟩

/-- What a lookup is to answer: a static route of the method whose path is the same, if one is registered. -/
def Finds (routes : List RouteEntry) (method : HttpKnownMethod) (path : Bytes) (result : Option RouteEntry) : Prop :=
  (result.isSome = true ↔ ∃ route ∈ routes.filter isIndexed, route.method = method ∧
      uriPathsEquivalent route.path path = true) ∧
    ∀ route, result = some route →
      route ∈ routes.filter isIndexed ∧ route.method = method ∧ uriPathsEquivalent route.path path = true

/-- A power of two at least twice the number of routes has room for them, and a free slot. -/
theorem length_lt_bitCeil {count : Nat} (hcount : count ≠ 0) : count < bitCeil (count * 2) := by
  have hle : count * 2 ≤ bitCeil (count * 2) := Nat.le_pow_clog (by decide) _
  omega

/-- **Building the index**: it fails only for more routes than the slots have room for, and holds them all. -/
theorem buildStaticIndex_spec (maxSize : Nat) {routes : List RouteEntry}
    (hapart : routes.Pairwise fun left right => left.index ≠ right.index) :
    match buildStaticIndex maxSize routes with
    | .error failure => failure = .tooManyRoutes ∧ maxSize / 2 < (routes.filter isIndexed).length
    | .ok index =>
      (routes.filter isIndexed).length = 0 ∧ index.size = 0 ∨
        (routes.filter isIndexed).length < index.size ∧ (∃ k, index.size = 2 ^ k) ∧
          ∃ h : 0 < index.size, SlotsHold h index.slots (routes.filter isIndexed) := by
  simp only [buildStaticIndex]
  split_ifs with hcount hmax
  · exact .inl ⟨hcount, rfl⟩
  · exact ⟨rfl, hmax⟩
  · have hroom := length_lt_bitCeil hcount
    obtain ⟨slots, hslots, hold⟩ := insertStaticRoutes_spec (h := bitCeil_pos _) ⟨_, rfl⟩ (routes.filter isIndexed)
      slotsHold_empty (by rwa [List.length_nil, Nat.zero_add]) (hapart.sublist List.filter_sublist)
    rw [hslots]
    exact .inr ⟨hroom, ⟨_, rfl⟩, bitCeil_pos _, hold⟩

/-- **Lookups in the index that is built**: every probe comes to an end, and every lookup finds what it should. -/
theorem findStaticRoute_finds {registrations : List RouteRegistration} {router : Router}
    (hdeclared : router.Declared registrations) {maxSize : Nat} {index : StaticIndex}
    (hindex : buildStaticIndex maxSize router.routes = .ok index) :
    (∀ (method : HttpKnownMethod) (path : Bytes) (keyHash : UInt64) (start : Fin index.size),
      (findStaticRouteFrom index.slots router.routes method path keyHash index.size start).isSome = true) ∧
      ∀ method path, ∃ result, findStaticRoute index router.routes method path = some result ∧
        Finds router.routes method path result := by
  have hat : ∀ route ∈ router.routes, router.routes[route.index]? = some route :=
    fun route hroute => hdeclared.getElem?_index hroute
  have hbuild := buildStaticIndex_spec maxSize hdeclared.pairwise_index
  rw [hindex] at hbuild
  rcases hbuild with ⟨hcount, hsize⟩ | ⟨hroom, hn, h, hold⟩
  · have hnone : router.routes.filter isIndexed = [] := List.length_eq_zero_iff.mp hcount
    refine ⟨fun method path keyHash start => absurd start.isLt (by omega), fun method path => ⟨none, ?_, ?_⟩⟩
    · have hmethod : ¬ hasStaticMethod router.routes method = true := by
        rw [hasStaticMethod_iff, hnone]
        rintro ⟨route, hroute, -⟩
        cases hroute
      rw [findStaticRoute, if_neg hmethod]
    · refine ⟨⟨nofun, ?_⟩, fun route hroute => (by cases hroute)⟩
      rw [hnone]
      rintro ⟨route, hroute, -⟩
      cases hroute
  · refine ⟨fun method path keyHash start => ?_, fun method path => ?_⟩
    · obtain ⟨free, hfree⟩ := hold.exists_empty hroom
      rw [findStaticRouteFrom_eq hn hfree router.routes method path keyHash index.size start
        (gap_lt _ _)]
      rfl
    · by_cases hmethod : hasStaticMethod router.routes method = true
      · obtain ⟨result, hresult, hfound, hmissing⟩ := findStaticRouteFrom_spec hn hold hroom hat method path
        refine ⟨result, ?_, ⟨?_, ?_⟩, hfound⟩
        · rw [findStaticRoute, if_pos hmethod, dif_pos h]
          exact hresult
        · intro hsome
          obtain ⟨route, hroute⟩ := Option.isSome_iff_exists.mp hsome
          exact ⟨route, hfound route hroute⟩
        · rintro ⟨route, hroute, heq, hpath⟩
          cases result with
          | some other => rfl
          | none =>
            rw [hmissing rfl route hroute heq] at hpath
            cases hpath
      · refine ⟨none, by rw [findStaticRoute, if_neg hmethod], ⟨nofun, ?_⟩,
          fun route hroute => (by cases hroute)⟩
        rintro ⟨route, hroute, heq, -⟩
        exact absurd ((hasStaticMethod_iff _ _).mpr ⟨route, hroute, heq⟩) hmethod

/-- **The static index of a table.** All spellings of a path have one hash. Building fails only for too many routes;
every probe in the table that is built comes to an end, wherever it starts; and a lookup answers with a route exactly
if a static route is registered for the method and an equivalent path, and with such a route. -/
theorem static_index {registrations : List RouteRegistration} {globals : List MiddlewareDescriptor} {router : Router}
    (hdeclare : Router.declare registrations globals = .ok router) (maxSize : Nat) :
    (∀ left right, uriPathsEquivalent left right = true → pathHash left = pathHash right) ∧
      match buildStaticIndex maxSize router.routes with
      | .error failure => failure = .tooManyRoutes ∧ maxSize / 2 < (router.routes.filter isIndexed).length
      | .ok index =>
        (∀ (method : HttpKnownMethod) (path : Bytes) (keyHash : UInt64) (start : Fin index.size),
          (findStaticRouteFrom index.slots router.routes method path keyHash index.size start).isSome = true) ∧
          ∀ method path, ∃ result, findStaticRoute index router.routes method path = some result ∧
            Finds router.routes method path result := by
  obtain ⟨hdeclared, -⟩ := Router.declare_declared hdeclare
  have hbuild := buildStaticIndex_spec maxSize hdeclared.pairwise_index
  refine ⟨fun left right => pathHash_eq, ?_⟩
  cases hindex : buildStaticIndex maxSize router.routes with
  | error failure =>
    rw [hindex] at hbuild
    exact hbuild
  | ok index => exact findStaticRoute_finds hdeclared hindex

/-! A table with a path of two methods. -/

def aboutRegistrations : List RouteRegistration :=
  [{ method := .get, path := lit "/about" }, { method := .post, path := lit "/about" },
    { method := .get, path := lit "/a%2Fb" }]

def aboutRouter : Router := (Router.declare aboutRegistrations []).toOption.getD {}

theorem aboutRouter_declared : Router.declare aboutRegistrations [] = .ok aboutRouter := by
  have hsome : (Router.declare aboutRegistrations []).toOption.isSome = true := by decide +kernel
  rw [aboutRouter]
  revert hsome
  cases Router.declare aboutRegistrations [] with
  | error _ => exact nofun
  | ok _ => exact fun _ => rfl

/-- A path of the table above, in another spelling. -/
theorem static_index_about :
    pathHash (lit "/%61bout") = pathHash (lit "/about") ∧
      ∃ index, buildStaticIndex 4096 aboutRouter.routes = .ok index ∧
        ∃ result, findStaticRoute index aboutRouter.routes .get (lit "/%61bout") = some result ∧
          result.isSome = true := by
  obtain ⟨hhash, hbuild⟩ := static_index aboutRouter_declared 4096
  refine ⟨hhash _ _ (by decide +kernel), ?_⟩
  cases hindex : buildStaticIndex 4096 aboutRouter.routes with
  | error failure =>
    rw [hindex] at hbuild
    exact absurd hbuild.2 (by decide +kernel)
  | ok index =>
    rw [hindex] at hbuild
    obtain ⟨result, hresult, hfinds⟩ := hbuild.2 .get (lit "/%61bout")
    exact ⟨index, rfl, result, hresult, hfinds.1.mpr (by decide +kernel)⟩

end Ruvia.Web
