import Ruvia.Web.ForwardedPrefix

/-!
# `Web.ForwardedClient` — when the client cannot choose who it is

The nearest proxy appends the element of the hop it saw to what the client sent. On a line of its own, or behind a
text whose quoted-strings are closed, it is the element the walk stands on first, and if it names an untrusted
address, that is the client (`appended_is_client`). Behind a text with an open quoted-string it is not: two proxies
that append different addresses there find the same client (`closed_of_resists`).
-/

namespace Ruvia.Web

open Library Core Http

variable {makeAddressV6 : MakeAddressV6} {trusted : TrustedProxySet} {classify : Bytes → HopTrust}

/-! ## The line the proxy appends to -/

def chainField (xFor : Bool) : Bytes := if xFor then xForwardedForName else forwardedName

/-- The last field line of the forwarding list that counts: `X-Forwarded-For` if there is one. -/
structure ChainLine (xFor : Bool) (front : List HttpHeaderView) (name : Bytes) (behind : List HttpHeaderView) :
    Prop where
  named : httpAsciiEqualsIgnoreCase name (chainField xFor) = true
  last : ∀ header ∈ behind, httpAsciiEqualsIgnoreCase header.name (chainField xFor) = false
  counts : xFor = false → ∀ header ∈ front ++ behind, httpAsciiEqualsIgnoreCase header.name xForwardedForName = false

section

variable {xFor : Bool} {front behind : List HttpHeaderView} {name value : Bytes}

theorem namedElements_eq_nil {headers : List HttpHeaderView}
    (h : ∀ header ∈ headers, httpAsciiEqualsIgnoreCase header.name name = false) : namedElements name headers = [] := by
  refine namedElements_of_not_hasHeader (List.any_eq_false.mpr fun header hmem => ?_)
  rw [h header hmem]
  decide

/-- The hops of a request: those before the line, and the elements of the line. -/
theorem forwardedHops_line (h : ChainLine xFor front name behind) :
    forwardedHops (front ++ ⟨name, value⟩ :: behind) =
      (namedElements (chainField xFor) front).map (hopOf xFor) ++ (commaSeparatedElements value).map (hopOf xFor) := by
  have helements : namedElements (chainField xFor) (front ++ ⟨name, value⟩ :: behind) =
      namedElements (chainField xFor) front ++ commaSeparatedElements value := by
    rw [← List.singleton_append, namedElements_append, namedElements_append, namedElements_singleton,
      if_pos h.named, namedElements_eq_nil h.last, List.append_nil]
  have hhas : hasHeader (front ++ ⟨name, value⟩ :: behind) xForwardedForName = xFor := by
    cases xFor with
    | true =>
      exact List.any_eq_true.mpr ⟨⟨name, value⟩, List.mem_append_right _ List.mem_cons_self, h.named⟩
    | false =>
      refine List.any_eq_false.mpr fun header hmem => ?_
      rcases List.mem_append.mp hmem with hmem | hmem
      · rw [h.counts rfl header (List.mem_append_left _ hmem)]
        decide
      · rcases List.mem_cons.mp hmem with rfl | hmem
        · rw [@not_named_of_named ⟨name, value⟩ forwardedName xForwardedForName h.named (by decide)]
          decide
        · rw [h.counts rfl header (List.mem_append_right _ hmem)]
          decide
  rw [forwardedHops, hhas]
  cases xFor with
  | true => rw [if_pos rfl, ← List.map_append, ← helements]; rfl
  | false => rw [if_neg (by decide), ← List.map_append, ← helements]; rfl

end

/-! ## The walk's first element -/

section

variable {peer next : Bytes} {elements : List Bytes}

theorem referenceWalk_untrusted (hpeer : classify peer = .trusted) (hnext : classify next = .untrusted) :
    referenceWalk classify peer (next :: elements) = next := by
  rw [referenceWalk, if_pos ⟨hpeer, by rw [hnext]; decide⟩]
  cases elements with
  | nil => rfl
  | cons other elements => exact if_neg fun h => by rw [hnext] at h; cases h.1

/-- Where the walk can stop that does not stop at the first element or before it. -/
def walkBeyond (classify : Bytes → HopTrust) : List Bytes → Bytes
  | [] => []
  | next :: elements => referenceWalk classify next elements

theorem referenceWalk_cases (next : Bytes) :
    referenceWalk classify peer (next :: elements) = peer ∨ referenceWalk classify peer (next :: elements) = next ∨
      referenceWalk classify peer (next :: elements) = walkBeyond classify elements := by
  rw [referenceWalk]
  split
  · cases elements with
    | nil => exact .inr (.inl rfl)
    | cons other elements =>
      rw [referenceWalk]
      split
      · exact .inr (.inr rfl)
      · exact .inr (.inl rfl)
  · exact .inl rfl

end

/-! ## Appended elements -/

/-- The element a proxy writes for an IPv4 client. -/
def plainElement (xFor : Bool) (address : Bytes) : Bytes := if xFor then address else lit "for=" ++ address

section

variable {xFor : Bool} {address : Bytes}

theorem plainElement_inert (h : IsDotted address) {byte : UInt8} (hmem : byte ∈ plainElement xFor address) :
    Inert byte := by
  cases xFor with
  | true => exact h.inert hmem
  | false =>
    rcases List.mem_append.mp hmem with hmem | hmem
    · have hmem : byte ∈ ([0x66, 0x6f, 0x72, 0x3d] : Bytes) := hmem
      have hbyte : byte = 0x66 ∨ byte = 0x6f ∨ byte = 0x72 ∨ byte = 0x3d := by simpa using hmem
      rcases hbyte with rfl | rfl | rfl | rfl <;> constructor <;> decide
    · exact h.inert hmem

theorem plainElement_ne_nil (h : IsDotted address) : plainElement xFor address ≠ [] := by
  cases xFor with
  | true => exact h.1
  | false => exact List.append_ne_nil_of_left_ne_nil (by decide) _

theorem appended_plainElement (h : IsDotted address) : Appended (comma :: plainElement xFor address) := by
  refine ⟨fun byte hmem => ?_, fun byte hlast => ?_, List.mem_cons_self⟩
  · rcases List.mem_cons.mp hmem with rfl | hmem
    · decide
    · have hinert := plainElement_inert h hmem
      exact ⟨hinert.dquote, hinert.backslash, hinert.colon, hinert.closeBracket⟩
  · rw [← List.singleton_append, List.getLast?_append_of_ne_nil _ (plainElement_ne_nil h)] at hlast
    exact (plainElement_inert h (List.mem_of_getLast? hlast)).blank

/-- A plain element is one element. -/
theorem commaSeparatedElements_plainElement (h : IsDotted address) :
    commaSeparatedElements (plainElement xFor address) = [plainElement xFor address] := by
  have hsegments := @segments_of_plain (plainElement xFor address) comma fun byte hmem =>
    ⟨(plainElement_inert h hmem).dquote, (plainElement_inert h hmem).comma⟩
  rw [commaSeparatedElements, httpCommaSeparatedQuotedFieldItems_eq, hsegments, List.map_singleton,
    httpTrimOws_of_no_ows fun byte hmem => (plainElement_inert h hmem).blank, List.filter_singleton]
  have hne : (plainElement xFor address).isEmpty = false := by simpa using plainElement_ne_nil h
  rw [hne]
  rfl

theorem forwardedNodeAddress_dotted (h : IsDotted address) : forwardedNodeAddress address = address := by
  have hquote : address.head? ≠ some dquote := fun hhead => (h.inert (List.mem_of_mem_head? hhead)).dquote rfl
  have hbracket : address.head? ≠ some openBracket := fun hhead => by
    rcases h.2 _ (List.mem_of_mem_head? hhead) with hdigit | hdot
    · exact absurd hdigit (by decide)
    · exact absurd hdot (by decide)
  have hcolon : findByte colon address 0 = none := findByte_eq_none_iff.mpr fun j _ hat =>
    (h.inert (List.mem_of_getElem? hat)).colon rfl
  rw [forwardedNodeAddress, httpTrimOws_of_no_ows fun byte hmem => (h.inert hmem).blank,
    httpTrimQuotedFieldValue, if_neg (fun hboth => hquote hboth.2.1), bareNodeAddress, if_neg hbracket, hcolon]

/-- The hop of a plain element is its address. -/
theorem hopOf_plainElement (h : IsDotted address) : (hopOf xFor (plainElement xFor address)).address = address := by
  cases xFor with
  | true => exact forwardedNodeAddress_dotted h
  | false =>
    have hsegments := @segments_of_plain (plainElement false address) semicolon fun byte hmem =>
      ⟨(plainElement_inert h hmem).dquote, (plainElement_inert h hmem).semicolon⟩
    have hequals : findByte equalsSign (plainElement false address) 0 = some 3 :=
      findByte_append_of_some (by decide)
    have hparse : parseForwardedElement (plainElement false address) =
        (ForwardedElement.parameter {} (lit "for") address).hop := by
      rw [parseForwardedElement_eq, hsegments, List.map_singleton,
        httpTrimOws_of_no_ows fun byte hmem => (plainElement_inert h hmem).blank, List.foldl_cons, List.foldl_nil,
        ForwardedElement.emit, hequals]
      dsimp only
      rw [plainElement, if_neg (by decide), List.take_append_of_le_length (by decide),
        List.drop_append_of_le_length (by decide)]
      have hname : httpTrimOws ((lit "for=").take 3) = lit "for" := by decide
      have hvalue : httpTrimOws ((lit "for=").drop (3 + 1) ++ address) = address :=
        httpTrimOws_of_no_ows fun byte hmem => (h.inert hmem).blank
      rw [hname, hvalue]
    change (parseForwardedElement (plainElement false address)).address = address
    rw [hparse, ForwardedElement.parameter, if_pos (by decide), if_neg (by decide)]
    exact forwardedNodeAddress_dotted h

end

/-! ## Who the client is -/

section

variable {xFor : Bool} {front behind : List HttpHeaderView} {name value sent peer transportScheme : Bytes}

/-- The addresses left of the last element of the line, nearest first. -/
def leftOf (xFor : Bool) (front : List HttpHeaderView) (elements : List Bytes) : List Bytes :=
  ((namedElements (chainField xFor) front ++ elements).map fun element => (hopOf xFor element).address).reverse

/-- The walk begins with the last element of the line. -/
theorem resolveConnInfo_line {elements : List Bytes} {item : Bytes} (hline : ChainLine xFor front name behind)
    (helements : commaSeparatedElements value = elements ++ [item]) :
    (resolveConnInfo makeAddressV6 trusted peer transportScheme (front ++ ⟨name, value⟩ :: behind)).address =
      referenceWalk (trusted.classify makeAddressV6) peer
        ((hopOf xFor item).address :: leftOf xFor front elements) := by
  rw [resolveConnInfo_address, forwardedHops_line hline, helements, ← List.map_append, ← List.append_assoc,
    List.map_map, List.map_append, List.reverse_append]
  rfl

/-- **The appended element is the client**, when the line has it as its last element and it names an untrusted
address. -/
theorem appended_is_client {elements : List Bytes} {item : Bytes} (hline : ChainLine xFor front name behind)
    (hpeer : trusted.trusts makeAddressV6 peer = true) (helements : commaSeparatedElements value = elements ++ [item])
    (hitem : trusted.classify makeAddressV6 (hopOf xFor item).address = .untrusted) :
    (resolveConnInfo makeAddressV6 trusted peer transportScheme (front ++ ⟨name, value⟩ :: behind)).address =
      (hopOf xFor item).address := by
  rw [resolveConnInfo_line hline helements]
  exact referenceWalk_untrusted (trusts_iff.mp hpeer) hitem

/-- A text with its quoted-strings closed keeps its elements apart from what is appended. -/
theorem commaSeparatedElements_append (hclosed : QuotesClosed sent) (element : Bytes) :
    commaSeparatedElements (sent ++ comma :: element) =
      commaSeparatedElements sent ++ commaSeparatedElements element := by
  rw [commaSeparatedElements, httpCommaSeparatedQuotedFieldItems_eq, segments_append (by decide) hclosed,
    List.map_append, List.filter_append, ← httpCommaSeparatedQuotedFieldItems_eq,
    ← httpCommaSeparatedQuotedFieldItems_eq]
  rfl

/-- Whatever untrusted address the nearest proxy appends to what was sent, it is the client. -/
def Resists (makeAddressV6 : MakeAddressV6) (trusted : TrustedProxySet) (peer transportScheme : Bytes) (xFor : Bool)
    (front : List HttpHeaderView) (name sent : Bytes) (behind : List HttpHeaderView) : Prop :=
  ∀ element item, commaSeparatedElements element = [item] →
    trusted.classify makeAddressV6 (hopOf xFor item).address = .untrusted →
    (resolveConnInfo makeAddressV6 trusted peer transportScheme
      (front ++ ⟨name, sent ++ comma :: element⟩ :: behind)).address = (hopOf xFor item).address

theorem resists_of_closed (hline : ChainLine xFor front name behind)
    (hpeer : trusted.trusts makeAddressV6 peer = true) (hclosed : QuotesClosed sent) :
    Resists makeAddressV6 trusted peer transportScheme xFor front name sent behind :=
  fun element item helement hitem => appended_is_client hline hpeer
    (by rw [commaSeparatedElements_append hclosed, helement]) hitem

/-- An IPv4 literal of an address that is not trusted. -/
structure UntrustedIpv4 (makeAddressV6 : MakeAddressV6) (trusted : TrustedProxySet) (address : Bytes) : Prop where
  literal : (parseIpv4Literal address).isSome
  untrusted : trusted.classify makeAddressV6 address = .untrusted

theorem UntrustedIpv4.dotted {address : Bytes} (h : UntrustedIpv4 makeAddressV6 trusted address) :
    IsDotted address := by
  obtain ⟨bytes, hbytes⟩ := Option.isSome_iff_exists.mp h.literal
  exact isDotted_of_parseIpv4Octets hbytes

/-- **With an open quoted-string the client is not the one appended**, for one of any two addresses. -/
theorem closed_of_resists (hline : ChainLine xFor front name behind)
    (hpeer : trusted.trusts makeAddressV6 peer = true) {address other : Bytes} (hne : address ≠ other)
    (haddress : UntrustedIpv4 makeAddressV6 trusted address) (hother : UntrustedIpv4 makeAddressV6 trusted other)
    (hresists : Resists makeAddressV6 trusted peer transportScheme xFor front name sent behind) :
    QuotesClosed sent := by
  by_contra hopen
  obtain ⟨elements, last, helements, hlast⟩ := elements_of_open xFor hopen
  have hfound : ∀ {text : Bytes}, UntrustedIpv4 makeAddressV6 trusted text →
      text = referenceWalk (trusted.classify makeAddressV6) peer
        ((hopOf xFor (last ++ comma :: plainElement xFor text)).address :: leftOf xFor front elements) := by
    intro text htext
    have hhop := @hopOf_plainElement xFor text htext.dotted
    have hclient := hresists (plainElement xFor text) (plainElement xFor text)
      (commaSeparatedElements_plainElement htext.dotted) (by rw [hhop]; exact htext.untrusted)
    rw [resolveConnInfo_line hline (helements _ (appended_plainElement htext.dotted)), hhop] at hclient
    exact hclient.symm
  rcases hlast with ⟨fixed, hfixed⟩ | hcomma
  · -- The last hop is the same for both.
    have haddress' := hfound haddress
    have hother' := hfound hother
    rw [hfixed _ (appended_plainElement haddress.dotted)] at haddress'
    rw [hfixed _ (appended_plainElement hother.dotted)] at hother'
    exact hne (haddress'.trans hother'.symm)
  · -- The last hop is neither address, so the walk has gone beyond it to the same place.
    have hbeyond : ∀ {text : Bytes}, UntrustedIpv4 makeAddressV6 trusted text →
        text = walkBeyond (trusted.classify makeAddressV6) (leftOf xFor front elements) := by
      intro text htext
      have htext' := hfound htext
      rcases @referenceWalk_cases (trusted.classify makeAddressV6) peer (leftOf xFor front elements)
        (hopOf xFor (last ++ comma :: plainElement xFor text)).address with hwalk | hwalk | hwalk
      · have hpeer' := trusts_iff.mp hpeer
        rw [← hwalk, ← htext', htext.untrusted] at hpeer'
        cases hpeer'
      · have hmem := hcomma _ (@appended_plainElement xFor text htext.dotted)
        rw [← hwalk, ← htext'] at hmem
        exact absurd rfl (htext.dotted.inert hmem).comma
      · exact htext'.trans hwalk
    exact hne ((hbeyond haddress).trans (hbeyond hother).symm)

end

/-- A deployment behind proxies of one IPv4 network. -/
def behindProxies : TrustedProxySet where
  blocks := [{ network := ⟨List.replicate 10 0 ++ [0xff, 0xff, 10, 0, 0, 0], by decide⟩
               prefixBits := 104, prefixBits_le := by decide }]

end Ruvia.Web
