import Ruvia.Http.QuotedSegments
import Ruvia.Http.TrailerFields
import Ruvia.Web.TrustedProxies

/-!
# `Web.ForwardedHeaders` — the client's address and scheme out of forwarding headers

`forwarded_headers.h`, and `conn_info::apply_forwarded` behind it. The visitor loops of the source become folds over
lists of elements; which texts are addresses and which of them are trusted comes from `TrustedProxySet.classify`.
-/

namespace Ruvia.Web

open Library Core Http

structure ForwardedClient where
  address : Bytes := []
  scheme : Bytes := []
  deriving DecidableEq, Repr

/-! ## Elements -/

def openBracket : UInt8 := 0x5b
def closeBracket : UInt8 := 0x5d

/-- `http_trim_quoted_field_value`: without a surrounding pair of quotes. -/
def httpTrimQuotedFieldValue (value : Bytes) : Bytes :=
  if 2 ≤ value.length ∧ value.head? = some dquote ∧ value.getLast? = some dquote then
    (value.drop 1).dropLast
  else value

/-- The address of a node without its port: what the brackets hold, or what is before the only colon. -/
def bareNodeAddress (value : Bytes) : Bytes :=
  if value.head? = some openBracket then
    match findByte closeBracket value 0 with
    | none => []
    | some close => sub value 1 (close - 1)
  else
    match findByte colon value 0 with
    | none => value
    | some colonAt => if (findByte colon value (colonAt + 1)).isNone then value.take colonAt else value

def forwardedNodeAddress (node : Bytes) : Bytes := bareNodeAddress (httpTrimQuotedFieldValue (httpTrimOws node))

def forwardedHttpSchemeToken (token : Bytes) : Bytes :=
  if httpAsciiEqualsIgnoreCase (httpTrimOws token) (lit "http") then lit "http"
  else if httpAsciiEqualsIgnoreCase (httpTrimOws token) (lit "https") then lit "https"
  else []

/-- The elements `visit_comma_separated` reports: the members that are not empty. -/
def commaSeparatedElements (value : Bytes) : List Bytes :=
  (httpCommaSeparatedQuotedFieldItems value).filter fun item => !item.isEmpty

/-- What `parse_forwarded_element` has read of an element. -/
structure ForwardedElement where
  hop : ForwardedClient := {}
  sawFor : Bool := false
  sawProto : Bool := false
  deriving DecidableEq, Repr

/-- A parameter of the element; a second `for` or `proto` voids the first. -/
def ForwardedElement.parameter (element : ForwardedElement) (name value : Bytes) : ForwardedElement :=
  if httpAsciiEqualsIgnoreCase name (lit "for") then
    if element.sawFor then { element with hop := { element.hop with address := [] } }
    else { element with sawFor := true, hop := { element.hop with address := forwardedNodeAddress value } }
  else if httpAsciiEqualsIgnoreCase name (lit "proto") then
    if element.sawProto then { element with hop := { element.hop with scheme := [] } }
    else
      { element with
        sawProto := true
        hop := { element.hop with scheme := forwardedHttpSchemeToken (httpTrimQuotedFieldValue value) } }
  else element

/-- `http_emit_field_parameter`: a segment without `=` is no parameter. -/
def ForwardedElement.emit (element : ForwardedElement) (part : Bytes) : ForwardedElement :=
  match findByte equalsSign part 0 with
  | none => element
  | some equals => element.parameter (httpTrimOws (part.take equals)) (httpTrimOws (part.drop (equals + 1)))

def parseForwardedElement (element : Bytes) : ForwardedClient :=
  (((httpSplitUnquoted semicolon (element.length + 1) element).map httpTrimOws).foldl ForwardedElement.emit {}).hop

/-! ## Chains -/

/-- One forwarding list, folded left to right across the fields of one name. -/
structure ForwardingChain where
  leftmost : ForwardedClient := {}
  clientHop : ForwardedClient := {}
  nearestTrusted : Bytes := []
  clientIndex : Nat := 0
  size : Nat := 0
  hasClientHop : Bool := false
  clientIdentified : Bool := false
  awaitingNearestTrusted : Bool := false

def ForwardingChain.append (classify : Bytes → HopTrust) (chain : ForwardingChain) (hop : ForwardedClient) :
    ForwardingChain :=
  let chain := if chain.size = 0 then { chain with leftmost := hop } else chain
  let trust := classify hop.address
  let chain :=
    if trust = .trusted then
      if chain.awaitingNearestTrusted then
        { chain with nearestTrusted := hop.address, awaitingNearestTrusted := false }
      else chain
    else
      { chain with
        clientHop := hop
        clientIndex := chain.size
        clientIdentified := trust = .untrusted
        hasClientHop := true
        nearestTrusted := []
        awaitingNearestTrusted := true }
  { chain with size := chain.size + 1 }

/-- With every hop trusted the leftmost is as far as the trusted proxies reach. -/
def ForwardingChain.client (chain : ForwardingChain) : ForwardedClient :=
  if !chain.hasClientHop then chain.leftmost
  else
    { address := if chain.clientIdentified then chain.clientHop.address else chain.nearestTrusted
      scheme := chain.clientHop.scheme }

/-! ## Requests -/

def xForwardedForName : Bytes := lit "X-Forwarded-For"
def xForwardedProtoName : Bytes := lit "X-Forwarded-Proto"
def forwardedName : Bytes := lit "Forwarded"

def hasHeader (headers : List HttpHeaderView) (name : Bytes) : Bool :=
  headers.any fun header => httpAsciiEqualsIgnoreCase header.name name

/-- What the walk over the header fields collects. -/
structure ForwardedFields where
  forwarded : ForwardingChain := {}
  xForwardedFor : ForwardingChain := {}
  singleXProtoValue : Bytes := []
  xProtoHeaderCount : Nat := 0

/-- How the scheme list is read. -/
structure ConsumedProto where
  scheme : Bytes := []
  protoCount : Nat := 0

def ConsumedProto.consume (clientIndex : Nat) (consumed : ConsumedProto) (element : Bytes) : ConsumedProto :=
  { scheme := if consumed.protoCount = clientIndex then forwardedHttpSchemeToken element else consumed.scheme
    protoCount := consumed.protoCount + 1 }

section

variable (makeAddressV6 : MakeAddressV6) (trusted : TrustedProxySet)

def ForwardedFields.visit (hasXFor checkXProto : Bool) (fields : ForwardedFields) (header : HttpHeaderView) :
    ForwardedFields :=
  if hasXFor then
    if httpAsciiEqualsIgnoreCase header.name xForwardedForName then
      { fields with
        xForwardedFor := (commaSeparatedElements header.value).foldl (fun chain element =>
          chain.append (trusted.classify makeAddressV6) { address := forwardedNodeAddress element })
          fields.xForwardedFor }
    else if checkXProto && httpAsciiEqualsIgnoreCase header.name xForwardedProtoName then
      { fields with
        singleXProtoValue := if fields.xProtoHeaderCount = 0 then header.value else fields.singleXProtoValue
        xProtoHeaderCount := fields.xProtoHeaderCount + 1 }
    else fields
  else if httpAsciiEqualsIgnoreCase header.name forwardedName then
    { fields with
      forwarded := (commaSeparatedElements header.value).foldl (fun chain element =>
        chain.append (trusted.classify makeAddressV6) (parseForwardedElement element)) fields.forwarded }
  else fields

/-- The scheme list: one field's value, or that of all its fields in another walk. -/
def consumeProto (headers : List HttpHeaderView) (fields : ForwardedFields) : ConsumedProto :=
  let consume := ConsumedProto.consume fields.xForwardedFor.clientIndex
  if fields.xProtoHeaderCount = 1 then
    (commaSeparatedElements fields.singleXProtoValue).foldl consume {}
  else
    headers.foldl (fun consumed header =>
      if httpAsciiEqualsIgnoreCase header.name xForwardedProtoName then
        (commaSeparatedElements header.value).foldl consume consumed
      else consumed) {}

/-- What a trusted proxy says about the client; what it does not say stays empty. -/
def resolveForwardedClient (headers : List HttpHeaderView) : ForwardedClient :=
  let hasXFor := hasHeader headers xForwardedForName
  let hasForwarded := !hasXFor && hasHeader headers forwardedName
  if !hasXFor && !hasForwarded then {}
  else
    let checkXProto := hasXFor && trusted.trustXForwardedProto && hasHeader headers xForwardedProtoName
    let fields := headers.foldl (ForwardedFields.visit makeAddressV6 trusted hasXFor checkXProto) {}
    if !hasXFor then fields.forwarded.client
    else
      let address := fields.xForwardedFor.client.address
      if fields.xProtoHeaderCount = 0 then { address }
      else
        let consumed := consumeProto headers fields
        { address, scheme := if fields.xForwardedFor.size ≠ consumed.protoCount then [] else consumed.scheme }

/-- `context_services::resolve_conn_info`: who the client of a connection is, and the scheme it is said to use. The
headers count only from a trusted peer, and an empty part leaves what the transport knows. -/
def resolveConnInfo (peer transportScheme : Bytes) (headers : List HttpHeaderView) : ForwardedClient :=
  if !trusted.trusts makeAddressV6 peer then { address := peer, scheme := transportScheme }
  else
    let forwarded := resolveForwardedClient makeAddressV6 trusted headers
    { address := if forwarded.address.isEmpty then peer else forwarded.address
      scheme :=
        if forwarded.scheme = lit "http" ∨ forwarded.scheme = lit "https" then forwarded.scheme
        else transportScheme }

end

end Ruvia.Web
