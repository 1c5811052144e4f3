import Ruvia.Web.ForwardedHeaders

/-!
# `Web.ForwardedChain` — the client of a request is where the walk stops

The code folds the elements of a forwarding list left to right. What it finds is where a walk from the right stops
(`referenceWalk`): it starts at the peer and goes one element further left as long as it stands on a trusted address
and the next element names an address at all (`resolveConnInfo_address`). The scheme comes from the element where
the walk stops (`client_scheme`).
-/

namespace Ruvia.Web

open Library Core Http
open ForwardingChain

variable {makeAddressV6 : MakeAddressV6} {trusted : TrustedProxySet} {classify : Bytes → HopTrust}

/-! ## The walk -/

/-- The walk from the right: `elements` are the addresses left of where it stands, nearest first. -/
def referenceWalk (classify : Bytes → HopTrust) : (current : Bytes) → (elements : List Bytes) → Bytes
  | current, [] => current
  | current, next :: elements =>
    if classify current = .trusted ∧ classify next ≠ .unidentified then referenceWalk classify next elements
    else current

/-- Where the walk from a trusted address stops, out of what the fold knows. -/
def ForwardingChain.walkFrom (chain : ForwardingChain) (current : Bytes) : Bytes :=
  if !chain.hasClientHop then if chain.size = 0 then current else chain.leftmost.address
  else if chain.clientIdentified then chain.clientHop.address
  else if chain.awaitingNearestTrusted then current
  else chain.nearestTrusted

section

variable {chain : ForwardingChain} {hop : ForwardedClient}

theorem size_append : (chain.append classify hop).size = chain.size + 1 := by
  simp only [append]
  split_ifs <;> rfl

/-- The chain before the element that is first of all is asked for. -/
def ForwardingChain.begun (chain : ForwardingChain) (hop : ForwardedClient) : ForwardingChain :=
  if chain.size = 0 then { chain with leftmost := hop } else chain

theorem append_trusted (h : classify hop.address = .trusted) : chain.append classify hop =
    { chain.begun hop with
      size := chain.size + 1
      nearestTrusted := if chain.awaitingNearestTrusted then hop.address else chain.nearestTrusted
      awaitingNearestTrusted := false } := by
  simp only [append, begun, h, if_true]
  split_ifs <;> simp_all

theorem append_other (h : classify hop.address ≠ .trusted) : chain.append classify hop =
    { chain.begun hop with
      size := chain.size + 1
      clientHop := hop
      clientIndex := chain.size
      clientIdentified := classify hop.address = .untrusted
      hasClientHop := true
      nearestTrusted := []
      awaitingNearestTrusted := true } := by
  simp only [append, begun, if_neg h]
  split_ifs <;> simp_all

end

/-- The chain of a list of hops. -/
def chainOf (classify : Bytes → HopTrust) (hops : List ForwardedClient) : ForwardingChain :=
  hops.foldl (append classify) {}

variable {hops : List ForwardedClient} {hop : ForwardedClient}

theorem chainOf_append_singleton :
    chainOf classify (hops ++ [hop]) = (chainOf classify hops).append classify hop := by
  rw [chainOf, List.foldl_append]
  rfl

theorem size_chainOf : (chainOf classify hops).size = hops.length := by
  induction hops using List.reverseRecOn with
  | nil => rfl
  | append_singleton hops hop ih => rw [chainOf_append_singleton, size_append, ih, List.length_append]; rfl

/-- **The fold knows where the walk stops**, from whichever trusted address it starts. -/
theorem walkFrom_chainOf {current : Bytes} (hcurrent : classify current = .trusted) :
    (chainOf classify hops).walkFrom current =
      referenceWalk classify current (hops.map (·.address)).reverse := by
  induction hops using List.reverseRecOn generalizing current with
  | nil => rfl
  | append_singleton hops hop ih =>
    rw [chainOf_append_singleton, List.map_append, List.reverse_append, List.map_singleton, List.reverse_singleton,
      List.singleton_append, referenceWalk]
    by_cases htrusted : classify hop.address = .trusted
    · rw [if_pos ⟨hcurrent, by rw [htrusted]; decide⟩, ← ih htrusted, append_trusted htrusted]
      simp only [walkFrom, begun]
      split_ifs <;> simp_all
    · rw [append_other htrusted]
      cases hclass : classify hop.address with
      | trusted => exact absurd hclass htrusted
      | untrusted =>
        rw [if_pos ⟨hcurrent, by decide⟩]
        have hstop : ∀ elements, referenceWalk classify hop.address elements = hop.address := by
          intro elements
          cases elements with
          | nil => rfl
          | cons next elements => exact if_neg fun h => htrusted h.1
        rw [hstop]
        simp [walkFrom]
      | unidentified =>
        rw [if_neg (fun h => h.2 rfl)]
        simp [walkFrom]

/-! ## The client hop -/

/-- The element at the client's index: the last one that is not trusted, or the first of all if every one is. -/
structure IsClientIndex (classify : Bytes → HopTrust) (hops : List ForwardedClient) (index : Nat) : Prop where
  trusted_behind : ∀ later hop, index < later → hops[later]? = some hop → classify hop.address = .trusted
  stops : ∀ hop, hops[index]? = some hop → classify hop.address ≠ .trusted ∨ index = 0
  lt : hops ≠ [] → index < hops.length

/-- What the chain holds of its elements. -/
structure Holds (classify : Bytes → HopTrust) (hops : List ForwardedClient) (chain : ForwardingChain) : Prop where
  leftmost : ∀ first, hops.head? = some first → chain.leftmost = first
  all_trusted : chain.hasClientHop = false →
    chain.clientIndex = 0 ∧ ∀ hop ∈ hops, classify hop.address = .trusted
  client : chain.hasClientHop = true → hops[chain.clientIndex]? = some chain.clientHop ∧
    (chain.clientIdentified = true → classify chain.clientHop.address = .untrusted) ∧
    classify chain.clientHop.address ≠ .trusted
  behind : ∀ later hop, chain.clientIndex < later → hops[later]? = some hop → classify hop.address = .trusted
  nearest : chain.hasClientHop = true → chain.awaitingNearestTrusted = false →
    classify chain.nearestTrusted = .trusted
  awaiting : chain.awaitingNearestTrusted = true → chain.nearestTrusted = []
  nothing : hops = [] → chain = {}

theorem holds_chainOf : Holds classify hops (chainOf classify hops) := by
  induction hops using List.reverseRecOn with
  | nil =>
    refine ⟨(fun _ h => by cases h), fun _ => ⟨rfl, fun _ h => by cases h⟩, (fun h => by cases h),
      (fun _ _ _ h => by cases h), (fun h => by cases h), (fun h => by cases h), fun _ => rfl⟩
  | append_singleton hops hop ih =>
    have hsize : (chainOf classify hops).size = hops.length := size_chainOf
    have hleftmost : ∀ first, (hops ++ [hop]).head? = some first →
        ((chainOf classify hops).begun hop).leftmost = first := by
      intro first hfirst
      rw [begun, hsize]
      cases hops with
      | nil => cases hfirst; rfl
      | cons head others =>
        rw [if_neg (by simp)]
        exact ih.leftmost first hfirst
    have hbegun : ∀ {β : Type} (field : ForwardingChain → β), (∀ chain leftmost,
        field { chain with leftmost } = field chain) →
        field ((chainOf classify hops).begun hop) = field (chainOf classify hops) := by
      intro β field hfield
      rw [begun]
      split
      · exact hfield _ _
      · rfl
    rw [chainOf_append_singleton]
    by_cases htrusted : classify hop.address = .trusted
    · rw [append_trusted htrusted]
      have hhas := hbegun hasClientHop fun _ _ => rfl
      have hindex := hbegun clientIndex fun _ _ => rfl
      have hclient := hbegun clientHop fun _ _ => rfl
      have hidentified := hbegun clientIdentified fun _ _ => rfl
      refine ⟨hleftmost, ?_, ?_, ?_, ?_, (fun h => by cases h), fun h => absurd h (by simp)⟩
      · intro hnone
        obtain ⟨hzero, hall⟩ := ih.all_trusted (hhas ▸ hnone)
        refine ⟨hindex.trans hzero, fun other hmem => ?_⟩
        rcases List.mem_append.mp hmem with hmem | hmem
        · exact hall other hmem
        · rw [List.mem_singleton.mp hmem]
          exact htrusted
      · intro hsome
        obtain ⟨hat, hident, hnot⟩ := ih.client (hhas ▸ hsome)
        rw [hindex, hclient, hidentified]
        exact ⟨by rw [List.getElem?_append_left (List.getElem?_eq_some_iff.mp hat).1, hat], hident, hnot⟩
      · intro later other hlt hat
        rw [hindex] at hlt
        rcases Nat.lt_trichotomy later hops.length with hlater | hlater | hlater
        · rw [List.getElem?_append_left hlater] at hat
          exact ih.behind later other hlt hat
        · rw [hlater, List.getElem?_append_right (Nat.le_refl _), Nat.sub_self] at hat
          cases hat
          exact htrusted
        · rw [List.getElem?_eq_none (by simp; omega)] at hat
          cases hat
      · intro hsome _
        split
        · exact htrusted
        · rename_i hawaiting
          exact ih.nearest (hhas ▸ hsome) (by simpa using hawaiting)
    · rw [append_other htrusted]
      have hat : (hops ++ [hop])[hops.length]? = some hop := by
        rw [List.getElem?_append_right (Nat.le_refl _), Nat.sub_self]
        rfl
      refine ⟨hleftmost, (fun h => by cases h), ?_, ?_, (fun _ h => by cases h), fun _ => rfl,
        fun h => absurd h (by simp)⟩
      · intro _
        rw [hsize]
        exact ⟨hat, fun h => by simpa using h, htrusted⟩
      · intro later other hlt hother
        dsimp only at hlt
        rw [hsize] at hlt
        rw [List.getElem?_eq_none (by simp; omega)] at hother
        cases hother

theorem isClientIndex_chainOf : IsClientIndex classify hops (chainOf classify hops).clientIndex := by
  have hholds := @holds_chainOf classify hops
  refine ⟨hholds.behind, ?_, ?_⟩
  · intro hop hat
    cases hhas : (chainOf classify hops).hasClientHop with
    | false => exact .inr (hholds.all_trusted hhas).1
    | true =>
      obtain ⟨hclient, -, hnot⟩ := hholds.client hhas
      cases hclient.symm.trans hat
      exact .inl hnot
  · intro hne
    cases hhas : (chainOf classify hops).hasClientHop with
    | false =>
      rw [(hholds.all_trusted hhas).1]
      exact List.length_pos_iff.mpr hne
    | true => exact (List.getElem?_eq_some_iff.mp (hholds.client hhas).1).1

/-- The client's scheme is that of the element at its index. -/
theorem client_scheme : (chainOf classify hops).client.scheme =
    ((hops[(chainOf classify hops).clientIndex]?).map (·.scheme)).getD [] := by
  have hholds := @holds_chainOf classify hops
  rw [client]
  cases hhas : (chainOf classify hops).hasClientHop with
  | true => rw [(hholds.client hhas).1]; rfl
  | false =>
    rw [(hholds.all_trusted hhas).1]
    cases hops with
    | nil => rfl
    | cons first others => rw [hholds.leftmost first rfl]; rfl

/-- The client's address is where the walk stops, unless that is where it starts. -/
theorem client_address {current : Bytes} (hempty : classify [] = .unidentified) :
    (if (chainOf classify hops).client.address.isEmpty then current else (chainOf classify hops).client.address) =
      (chainOf classify hops).walkFrom current := by
  have hne : ∀ {address : Bytes}, classify address ≠ .unidentified → address.isEmpty = false := by
    intro address h
    cases address with
    | nil => exact absurd hempty h
    | cons _ _ => rfl
  have hholds := @holds_chainOf classify hops
  have hsize := @size_chainOf classify hops
  rw [client, walkFrom]
  cases hhas : (chainOf classify hops).hasClientHop with
  | false =>
    simp only [Bool.not_false, if_true]
    cases hops with
    | nil => rfl
    | cons first others =>
      have hfirst := (hholds.all_trusted hhas).2 first List.mem_cons_self
      rw [hholds.leftmost first rfl, hsize, hne (by rw [hfirst]; decide)]
      rfl
  | true =>
    simp only [Bool.not_true, Bool.false_eq_true, if_false]
    cases hidentified : (chainOf classify hops).clientIdentified with
    | true =>
      have hclient := (hholds.client hhas).2.1 hidentified
      simp only [if_true, hne (show classify (chainOf classify hops).clientHop.address ≠ .unidentified by
        rw [hclient]; decide), Bool.false_eq_true, if_false]
    | false =>
      simp only [Bool.false_eq_true, if_false]
      cases hawaiting : (chainOf classify hops).awaitingNearestTrusted with
      | true => rw [hholds.awaiting hawaiting]; rfl
      | false =>
        have hnearest := hholds.nearest hhas hawaiting
        simp only [hne (show classify (chainOf classify hops).nearestTrusted ≠ .unidentified by
          rw [hnearest]; decide), Bool.false_eq_true, if_false]

/-! ## Requests -/

/-- The elements of all fields of one name, in order. -/
def namedElements (name : Bytes) (headers : List HttpHeaderView) : List Bytes :=
  (headers.filter fun header => httpAsciiEqualsIgnoreCase header.name name).flatMap fun header =>
    commaSeparatedElements header.value

def nodeHop (element : Bytes) : ForwardedClient := { address := forwardedNodeAddress element }

/-- The hops of the forwarding list that counts. -/
def forwardedHops (headers : List HttpHeaderView) : List ForwardedClient :=
  if hasHeader headers xForwardedForName then (namedElements xForwardedForName headers).map nodeHop
  else (namedElements forwardedName headers).map parseForwardedElement

section

variable {headers front behind : List HttpHeaderView} {header : HttpHeaderView} {name : Bytes}

theorem namedElements_append : namedElements name (front ++ behind) =
    namedElements name front ++ namedElements name behind := by
  rw [namedElements, List.filter_append, List.flatMap_append]
  rfl

theorem namedElements_singleton : namedElements name [header] =
    if httpAsciiEqualsIgnoreCase header.name name then commaSeparatedElements header.value else [] := by
  rw [namedElements, List.filter_singleton]
  cases httpAsciiEqualsIgnoreCase header.name name <;> simp

/-- No name is spelled like two of the field names. -/
theorem not_named_of_named (other : Bytes) (h : httpAsciiEqualsIgnoreCase header.name name = true)
    (hother : name.map httpAsciiToLower ≠ other.map httpAsciiToLower) :
    httpAsciiEqualsIgnoreCase header.name other = false := by
  rw [httpAsciiEqualsIgnoreCase, beq_eq_false_iff_ne]
  exact fun hsame => hother ((eq_of_beq h).symm.trans hsame)

theorem foldl_hops {chain : ForwardingChain} {elements : List Bytes} {hopOf : Bytes → ForwardedClient} :
    elements.foldl (fun chain element => chain.append classify (hopOf element)) chain =
      (elements.map hopOf).foldl (append classify) chain := by
  rw [List.foldl_map]

theorem chainOf_append {others : List ForwardedClient} :
    chainOf classify (hops ++ others) = others.foldl (append classify) (chainOf classify hops) := by
  rw [chainOf, List.foldl_append]
  rfl

/-- What the walk over the fields has collected of `X-Forwarded-For` and `X-Forwarded-Proto`. -/
structure CollectsXFor (classify : Bytes → HopTrust) (checkXProto : Bool) (headers : List HttpHeaderView)
    (fields : ForwardedFields) : Prop where
  chain : fields.xForwardedFor = chainOf classify ((namedElements xForwardedForName headers).map nodeHop)
  count : fields.xProtoHeaderCount = if checkXProto then
    (headers.filter fun header => httpAsciiEqualsIgnoreCase header.name xForwardedProtoName).length else 0
  single : fields.xProtoHeaderCount ≠ 0 →
    ((headers.filter fun header => httpAsciiEqualsIgnoreCase header.name xForwardedProtoName).head?.map (·.value)) =
      some fields.singleXProtoValue

theorem collectsXFor (checkXProto : Bool) (headers : List HttpHeaderView) :
    CollectsXFor (trusted.classify makeAddressV6) checkXProto headers
      (headers.foldl (ForwardedFields.visit makeAddressV6 trusted true checkXProto) {}) := by
  induction headers using List.reverseRecOn with
  | nil => exact ⟨rfl, by cases checkXProto <;> rfl, fun h => absurd rfl h⟩
  | append_singleton headers header ih =>
    rw [List.foldl_append, List.foldl_cons, List.foldl_nil, ForwardedFields.visit, if_pos rfl]
    by_cases hfor : httpAsciiEqualsIgnoreCase header.name xForwardedForName = true
    · have hproto := not_named_of_named xForwardedProtoName hfor (by decide)
      rw [if_pos hfor]
      refine ⟨?_, ?_, ?_⟩
      · rw [namedElements_append, namedElements_singleton, if_pos hfor, List.map_append, chainOf_append, ih.chain,
          ← foldl_hops]
        rfl
      · simpa [List.filter_append, hproto] using ih.count
      · simpa [List.filter_append, hproto] using ih.single
    · rw [if_neg hfor]
      have hchain : chainOf (trusted.classify makeAddressV6)
          ((namedElements xForwardedForName (headers ++ [header])).map nodeHop) =
          chainOf (trusted.classify makeAddressV6) ((namedElements xForwardedForName headers).map nodeHop) := by
        rw [namedElements_append, namedElements_singleton, if_neg hfor, List.append_nil]
      by_cases hproto : (checkXProto && httpAsciiEqualsIgnoreCase header.name xForwardedProtoName) = true
      · rw [if_pos hproto]
        obtain ⟨hcheck, hnamed⟩ := Bool.and_eq_true_iff.mp hproto
        have hcount := ih.count
        rw [if_pos hcheck] at hcount
        refine ⟨by rw [hchain]; exact ih.chain, ?_, fun _ => ?_⟩
        · rw [if_pos hcheck, hcount, List.filter_append, List.length_append, List.filter_singleton, hnamed]
          rfl
        · rw [List.filter_append, List.filter_singleton, hnamed]
          split
          · rename_i hzero
            rw [hcount] at hzero
            rw [List.length_eq_zero_iff.mp hzero]
            rfl
          · rename_i hsome
            rw [List.head?_append_of_ne_nil]
            · exact ih.single hsome
            · intro hnil
              rw [hcount, hnil] at hsome
              exact hsome rfl
      · rw [if_neg hproto]
        refine ⟨by rw [hchain]; exact ih.chain, ?_, fun hsome => ?_⟩
        · rw [ih.count]
          split
          · rename_i hcheck
            have hnamed : httpAsciiEqualsIgnoreCase header.name xForwardedProtoName = false := by
              simpa [hcheck] using hproto
            simp [List.filter_append, hnamed]
          · rfl
        · have hcheck : checkXProto = true := by
            by_contra hcheck
            rw [ih.count, if_neg hcheck] at hsome
            exact hsome rfl
          have hnamed : httpAsciiEqualsIgnoreCase header.name xForwardedProtoName = false := by
            simpa [hcheck] using hproto
          simpa [List.filter_append, hnamed] using ih.single hsome

theorem collectsForwarded (checkXProto : Bool) (headers : List HttpHeaderView) :
    (headers.foldl (ForwardedFields.visit makeAddressV6 trusted false checkXProto) {}).forwarded =
      chainOf (trusted.classify makeAddressV6) ((namedElements forwardedName headers).map parseForwardedElement) := by
  induction headers using List.reverseRecOn with
  | nil => rfl
  | append_singleton headers header ih =>
    rw [List.foldl_append, List.foldl_cons, List.foldl_nil, ForwardedFields.visit, if_neg (by decide),
      namedElements_append, namedElements_singleton]
    split
    · rw [List.map_append, chainOf_append, ← ih, ← foldl_hops]
    · rw [List.append_nil]
      exact ih

/-- A list of elements read as schemes. -/
theorem foldl_consume (clientIndex : Nat) (elements : List Bytes) :
    elements.foldl (ConsumedProto.consume clientIndex) {} =
      { scheme := ((elements[clientIndex]?).map forwardedHttpSchemeToken).getD []
        protoCount := elements.length } := by
  induction elements using List.reverseRecOn with
  | nil => rfl
  | append_singleton elements element ih =>
    rw [List.foldl_append, ih, List.foldl_cons, List.foldl_nil, ConsumedProto.consume, List.length_append]
    dsimp only
    rcases Nat.lt_trichotomy clientIndex elements.length with hlt | rfl | hgt
    · rw [if_neg (by omega), List.getElem?_append_left hlt]
      rfl
    · rw [if_pos rfl, List.getElem?_append_right (Nat.le_refl _), Nat.sub_self]
      rfl
    · rw [if_neg (by omega), List.getElem?_eq_none (by omega), List.getElem?_eq_none (by simp; omega)]
      rfl

theorem foldl_namedElements {β : Type} (f : β → Bytes → β) (start : β) (headers : List HttpHeaderView) :
    headers.foldl (fun value header =>
        if httpAsciiEqualsIgnoreCase header.name name then (commaSeparatedElements header.value).foldl f value
        else value) start =
      (namedElements name headers).foldl f start := by
  induction headers generalizing start with
  | nil => rfl
  | cons header headers ih =>
    rw [List.foldl_cons, ih, ← List.singleton_append, namedElements_append, namedElements_singleton, List.foldl_append]
    split <;> rfl

theorem filter_eq_nil_of_not_hasHeader (h : hasHeader headers name = false) :
    (headers.filter fun header => httpAsciiEqualsIgnoreCase header.name name) = [] := by
  rw [List.filter_eq_nil_iff]
  intro header hmem hnamed
  rw [hasHeader, List.any_eq_false] at h
  exact h header hmem hnamed

theorem namedElements_of_not_hasHeader (h : hasHeader headers name = false) : namedElements name headers = [] := by
  rw [namedElements, filter_eq_nil_of_not_hasHeader h]
  rfl

/-- One field is read at once, several are gathered in another walk: the elements are the same. -/
theorem consumeProto_eq {fields : ForwardedFields}
    (hcollects : CollectsXFor classify true headers fields) (hsome : fields.xProtoHeaderCount ≠ 0) :
    consumeProto headers fields = (namedElements xForwardedProtoName headers).foldl
      (ConsumedProto.consume fields.xForwardedFor.clientIndex) {} := by
  rw [consumeProto]
  split
  · rename_i hone
    have hcount := hcollects.count
    rw [if_pos rfl, hone] at hcount
    obtain ⟨header, hfilter⟩ := List.length_eq_one_iff.mp hcount.symm
    have hsingle := hcollects.single hsome
    rw [hfilter] at hsingle
    rw [namedElements, hfilter, ← Option.some.inj hsingle, List.flatMap_singleton]
  · exact foldl_namedElements _ _ _

/-- What is resolved of the address. -/
theorem resolveForwardedClient_address : (resolveForwardedClient makeAddressV6 trusted headers).address =
    (chainOf (trusted.classify makeAddressV6) (forwardedHops headers)).client.address := by
  rw [resolveForwardedClient, forwardedHops]
  cases hfor : hasHeader headers xForwardedForName with
  | true =>
    rw [if_neg (by simp), if_neg (by simp), if_pos rfl, ← (collectsXFor _ headers).chain]
    split <;> rfl
  | false =>
    cases hforwarded : hasHeader headers forwardedName with
    | true => rw [if_neg (by simp), if_pos (by simp), if_neg (by simp), collectsForwarded]
    | false =>
      rw [if_pos (by simp), if_neg (by simp), namedElements_of_not_hasHeader hforwarded]
      rfl

/-- The scheme of a `Forwarded` list is its client hop's. -/
theorem resolveForwardedClient_scheme_forwarded (hfor : hasHeader headers xForwardedForName = false) :
    (resolveForwardedClient makeAddressV6 trusted headers).scheme =
      (chainOf (trusted.classify makeAddressV6) (forwardedHops headers)).client.scheme := by
  rw [resolveForwardedClient, forwardedHops]
  rw [hfor]
  cases hforwarded : hasHeader headers forwardedName with
  | true => rw [if_neg (by simp), if_pos (by simp), if_neg (by simp), collectsForwarded]
  | false =>
    rw [if_pos (by simp), if_neg (by simp), namedElements_of_not_hasHeader hforwarded]
    rfl

/-- **The scheme beside an `X-Forwarded-For` list** is the element at the client's index of a list as long, and only
where the deployment trusts the field. -/
theorem resolveForwardedClient_scheme_xFor (hfor : hasHeader headers xForwardedForName = true) :
    (resolveForwardedClient makeAddressV6 trusted headers).scheme =
      if trusted.trustXForwardedProto = true ∧
          (namedElements xForwardedProtoName headers).length = (forwardedHops headers).length then
        (((namedElements xForwardedProtoName headers)[
          (chainOf (trusted.classify makeAddressV6) (forwardedHops headers)).clientIndex]?).map
            forwardedHttpSchemeToken).getD []
      else [] := by
  rw [resolveForwardedClient, forwardedHops]
  dsimp only
  rw [hfor, if_neg (by simp), if_neg (by simp), if_pos rfl, Bool.true_and]
  have hcollects := @collectsXFor makeAddressV6 trusted
    (trusted.trustXForwardedProto && hasHeader headers xForwardedProtoName) headers
  cases htrust : trusted.trustXForwardedProto with
  | false =>
    rw [htrust, Bool.false_and] at hcollects
    rw [Bool.false_and, if_pos (by simpa using hcollects.count), if_neg fun h => Bool.false_ne_true h.1]
  | true =>
    cases hproto : hasHeader headers xForwardedProtoName with
    | false =>
      have hcount := hcollects.count
      rw [filter_eq_nil_of_not_hasHeader hproto, hproto, Bool.and_false] at hcount
      rw [Bool.and_false, if_pos (by simpa using hcount), namedElements_of_not_hasHeader hproto]
      simp
    | true =>
      rw [htrust, hproto, Bool.and_true] at hcollects
      rw [Bool.and_true]
      have hsome :
          (headers.foldl (ForwardedFields.visit makeAddressV6 trusted true true) {}).xProtoHeaderCount ≠ 0 := by
        rw [hcollects.count, if_pos rfl]
        intro hzero
        obtain ⟨header, hmem, hnamed⟩ := List.any_eq_true.mp hproto
        have hfilter := List.length_eq_zero_iff.mp hzero
        exact List.filter_eq_nil_iff.mp hfilter header hmem hnamed
      rw [if_neg hsome, consumeProto_eq hcollects hsome, foldl_consume, hcollects.chain, size_chainOf]
      by_cases hlength : (namedElements xForwardedProtoName headers).length =
          ((namedElements xForwardedForName headers).map nodeHop).length
      · rw [if_neg (by simp [hlength]), if_pos ⟨rfl, hlength⟩]
      · rw [if_pos (fun h => hlength h.symm), if_neg (fun h => hlength h.2)]

end

/-- No name is no address. -/
theorem classify_nil : trusted.classify makeAddressV6 [] = .unidentified := rfl

/-- A peer is trusted as the hops are. -/
theorem trusts_iff {peer : Bytes} :
    trusted.trusts makeAddressV6 peer = true ↔ trusted.classify makeAddressV6 peer = .trusted := by
  rw [TrustedProxySet.trusts, Bool.and_eq_true, beq_iff_eq]
  refine ⟨fun h => h.2, fun h => ⟨?_, h⟩⟩
  rw [TrustedProxySet.classify] at h
  split at h
  · cases h
  · split at h
    · rename_i hany
      obtain ⟨block, hmem, -⟩ := List.any_eq_true.mp hany
      cases hblocks : trusted.blocks with
      | nil => rw [hblocks] at hmem; cases hmem
      | cons _ _ => rfl
    · cases h

/-- **The client is where the reference walk stops.** -/
theorem resolveConnInfo_address (makeAddressV6 : MakeAddressV6) (trusted : TrustedProxySet)
    (peer transportScheme : Bytes) (headers : List HttpHeaderView) :
    (resolveConnInfo makeAddressV6 trusted peer transportScheme headers).address =
      referenceWalk (trusted.classify makeAddressV6) peer ((forwardedHops headers).map (·.address)).reverse := by
  rw [resolveConnInfo]
  by_cases htrusts : trusted.trusts makeAddressV6 peer = true
  · have hpeer := trusts_iff.mp htrusts
    rw [if_neg (by simpa using htrusts), ← walkFrom_chainOf hpeer, ← client_address classify_nil,
      ← resolveForwardedClient_address]
  · have hpeer : trusted.classify makeAddressV6 peer ≠ .trusted := fun h => htrusts (trusts_iff.mpr h)
    rw [if_pos (by simpa using htrusts)]
    cases ((forwardedHops headers).map (·.address)).reverse with
    | nil => rfl
    | cons next elements => exact (if_neg fun h => hpeer h.1).symm

end Ruvia.Web
