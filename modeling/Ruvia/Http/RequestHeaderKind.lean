import Ruvia.Http.Syntax

/-!
# `Http.RequestHeaderKind` — the identity of a request field

`classify_request_header`: case-insensitive recognition by size and name. A name is recognised as a kind iff
it spells that kind's name (`classifyRequestHeader_eq_iff`).
-/

namespace Ruvia.Http

open Library

inductive RequestHeaderKind where
  | other
  | accept
  | acceptEncoding
  | accessControlRequestHeaders
  | accessControlRequestMethod
  | authorization
  | connection
  | contentEncoding
  | contentLength
  | contentType
  | cookie
  | expect
  | host
  | ifMatch
  | ifModifiedSince
  | ifNoneMatch
  | ifRange
  | ifUnmodifiedSince
  | origin
  | range
  | secWebsocketKey
  | secWebsocketProtocol
  | secWebsocketVersion
  | transferEncoding
  | upgrade
  | userAgent
  | forwarded
  | xForwardedFor
  | xForwardedProto
  | secWebsocketExtensions
  | te
  | trailer
  | proxyAuthorization
  deriving DecidableEq, Repr

/-- The names of one size, in the order the source compares them; the first byte it looks at before each
comparison is a byte of the name. -/
def requestHeaderNames : Nat → List (Bytes × RequestHeaderKind)
  | 2 => [(lit "TE", .te)]
  | 4 => [(lit "Host", .host)]
  | 5 => [(lit "Range", .range)]
  | 6 =>
    [(lit "Accept", .accept), (lit "Cookie", .cookie), (lit "Expect", .expect), (lit "Origin", .origin)]
  | 7 => [(lit "Upgrade", .upgrade), (lit "Trailer", .trailer)]
  | 8 => [(lit "If-Match", .ifMatch), (lit "If-Range", .ifRange)]
  | 9 => [(lit "Forwarded", .forwarded)]
  | 10 => [(lit "Connection", .connection), (lit "User-Agent", .userAgent)]
  | 12 => [(lit "Content-Type", .contentType)]
  | 13 => [(lit "Authorization", .authorization), (lit "If-None-Match", .ifNoneMatch)]
  | 14 => [(lit "Content-Length", .contentLength)]
  | 15 => [(lit "Accept-Encoding", .acceptEncoding), (lit "X-Forwarded-For", .xForwardedFor)]
  | 16 => [(lit "Content-Encoding", .contentEncoding)]
  | 17 =>
    [(lit "If-Modified-Since", .ifModifiedSince), (lit "Sec-WebSocket-Key", .secWebsocketKey),
      (lit "Transfer-Encoding", .transferEncoding), (lit "X-Forwarded-Proto", .xForwardedProto)]
  | 19 =>
    [(lit "If-Unmodified-Since", .ifUnmodifiedSince), (lit "Proxy-Authorization", .proxyAuthorization)]
  | 21 => [(lit "Sec-WebSocket-Version", .secWebsocketVersion)]
  | 22 => [(lit "Sec-WebSocket-Protocol", .secWebsocketProtocol)]
  | 24 => [(lit "Sec-WebSocket-Extensions", .secWebsocketExtensions)]
  | 29 => [(lit "Access-Control-Request-Method", .accessControlRequestMethod)]
  | 30 => [(lit "Access-Control-Request-Headers", .accessControlRequestHeaders)]
  | _ => []

def classifyRequestHeader (name : Bytes) : RequestHeaderKind :=
  match (requestHeaderNames name.length).find? fun entry => httpAsciiEqualsIgnoreCase name entry.1 with
  | some (_, kind) => kind
  | none => .other

/-- The kinds and their names, of all sizes. -/
def allRequestHeaderNames : List (Bytes × RequestHeaderKind) :=
  (List.range 31).flatMap requestHeaderNames

/-- Only the case-folded spelling matters. -/
theorem classifyRequestHeader_congr {left right : Bytes}
    (h : httpAsciiEqualsIgnoreCase left right = true) :
    classifyRequestHeader left = classifyRequestHeader right := by
  rw [httpAsciiEqualsIgnoreCase, beq_iff_eq] at h
  have hlen : left.length = right.length := by simpa using congrArg List.length h
  simp only [classifyRequestHeader, httpAsciiEqualsIgnoreCase, h, hlen]

/-- **A name has a listed kind iff it spells that kind's name.** -/
theorem classifyRequestHeader_eq_iff {spelling name : Bytes} {kind : RequestHeaderKind}
    (hlisted : (spelling, kind) ∈ allRequestHeaderNames) :
    classifyRequestHeader name = kind ↔ httpAsciiEqualsIgnoreCase name spelling = true := by
  have htable : ∀ entry ∈ allRequestHeaderNames, classifyRequestHeader entry.1 = entry.2 := by
    decide +kernel
  have hinj : ∀ e ∈ allRequestHeaderNames, ∀ e' ∈ allRequestHeaderNames, e.2 = e'.2 → e = e' := by
    decide +kernel
  have hother : ∀ e ∈ allRequestHeaderNames, e.2 ≠ .other := by decide +kernel
  constructor
  · intro h
    unfold classifyRequestHeader at h
    split at h
    · rename_i spelling' kind' hfind
      have hmem := List.mem_of_find?_eq_some hfind
      have hlt : name.length < 31 := by
        by_contra hge
        have : requestHeaderNames name.length = [] := by
          unfold requestHeaderNames
          split <;> first | omega | rfl
        rw [this] at hmem
        simp at hmem
      have hall : (spelling', kind') ∈ allRequestHeaderNames :=
        List.mem_flatMap.mpr ⟨name.length, List.mem_range.mpr hlt, hmem⟩
      obtain rfl : spelling' = spelling := congrArg Prod.fst (hinj _ hall _ hlisted h)
      simpa using List.find?_some hfind
    · exact absurd h.symm (hother _ hlisted)
  · intro h
    rw [classifyRequestHeader_congr h]
    exact htable _ hlisted

end Ruvia.Http
