import Ruvia.Http.ClientRedirect
import Ruvia.Http.TrailerFields
import Ruvia.Library.Decimal

/-!
# `Http.RedirectLoop` — the requests of a redirected send

`http_client_request::send_owned` follows the redirects it is answered with, up to a bound. A redirect never widens what
the caller gave out: nothing but what the first request had is sent, its credentials go to its own pool only, and behind
`https` comes no `http`.
-/

namespace Ruvia.Http

open Library

/-! ## Requests and pools -/

/-- `http_client_request`; its pool is the origin of the pool's configuration, `body` what `has_body_` announces. -/
structure HttpClientRequest where
  pool : HttpOrigin
  method : Bytes
  target : Bytes
  headers : List HttpHeaderView
  body : Option Bytes

structure HttpClientResponse where
  status : Nat
  headers : List HttpHeaderView
  deriving DecidableEq

/-- `authority_matches_host`; a default of 0 is no default. -/
def authorityMatchesHost (authority host : Bytes) (defaultPort : Nat) : Bool :=
  match parseHttpAuthority authority, parseHttpAuthority host with
  | some authority, some host =>
    httpUriHostEquals authority.host host.host &&
      if defaultPort = 0 then
        match authority.port, host.port with
        | .value port, .value port' => port == port'
        | .value _, _ => false
        | _, .value _ => false
        | _, _ => true
      else authority.effectivePort defaultPort == host.effectivePort defaultPort
  | _, _ => false

def makeHttpOriginAuthority (scheme : HttpScheme) (host : Bytes) (port : Nat) : Bytes :=
  if port = scheme.defaultPort then host else host ++ colon :: decimal port

/-- `http_client_registry::find_origin` over the origins of its pools. -/
def findOrigin (pools : List HttpOrigin) (scheme : HttpScheme) (authority : Bytes) : Option HttpOrigin :=
  pools.find? fun pool =>
    pool.scheme == scheme &&
      authorityMatchesHost (makeHttpOriginAuthority pool.scheme pool.host pool.port) authority scheme.defaultPort

/-! ## One redirect -/

/-- `plan_http_client_redirect_request`: the method, and whether the content is dropped. -/
def planHttpClientRedirectRequest (method : Bytes) (status : Nat) : Bytes × Bool :=
  if status = 303 then (if method = lit "HEAD" then method else lit "GET", true)
  else if (status = 301 ∨ status = 302) ∧ method = lit "POST" then (lit "GET", true)
  else (method, false)

def isCredentialField (name : Bytes) : Bool :=
  httpAsciiEqualsIgnoreCase name (lit "authorization") || httpAsciiEqualsIgnoreCase name (lit "proxy-authorization") ||
    httpAsciiEqualsIgnoreCase name (lit "cookie")

def isContentField (name : Bytes) : Bool :=
  httpAsciiEqualsIgnoreCase (name.take 8) (lit "content-") ||
    httpAsciiEqualsIgnoreCase name (lit "transfer-encoding") || httpAsciiEqualsIgnoreCase name (lit "trailer") ||
    httpAsciiEqualsIgnoreCase name (lit "expect")

/-- The next turn's request, with the field filter of `send_owned`. -/
def redirectedRequest (request : HttpClientRequest) (next : HttpClientResolvedRedirect) (pool : HttpOrigin)
    (status : Nat) : HttpClientRequest :=
  let (method, drop) := planHttpClientRedirectRequest request.method status
  { pool, method
    target := next.target
    headers := request.headers.filter fun field =>
      !(httpAsciiEqualsIgnoreCase field.name (lit "host") || (next.crossOrigin && isCredentialField field.name) ||
        (drop && isContentField field.name))
    body := if drop then none else request.body }

/-- What the loop does with a response. -/
inductive RedirectStep where
  | returned
  | thrown
  | followed (next : HttpClientRequest)

/-- The part of a turn behind the response; `registry` is none for a client without one. -/
def redirectStep (registry : Option (List HttpOrigin)) (request : HttpClientRequest) (response : HttpClientResponse) :
    RedirectStep :=
  if response.status ∉ [301, 302, 303, 307, 308] then .returned
  else
    match response.headers.filter fun field => httpAsciiEqualsIgnoreCase field.name (lit "location") with
    | [] => .returned
    | _ :: _ :: _ => .thrown
    | [location] =>
      match resolveHttpClientRedirectTarget request.pool request.target location.value with
      | .error _ => .returned
      | .ok next =>
        if next.crossOrigin then
          if request.pool.scheme = .https ∧ next.scheme ≠ .https then .returned
          else
            match registry with
            | none => .returned
            | some pools =>
              -- `origin()` checks the host once more.
              if isValidHttpHost next.host = false then .thrown
              else
                match findOrigin pools next.scheme (makeHttpOriginAuthority next.scheme next.host next.port) with
                | none => .returned
                | some pool => .followed (redirectedRequest request next pool response.status)
        else .followed (redirectedRequest request next request.pool response.status)

/-- `send_owned` with `redirectsLeft` turns to go: the requests dispatched and the response returned. The responses end
where a dispatch, a deadline or a closed client throws. -/
def sendOwned (registry : Option (List HttpOrigin)) :
    Nat → HttpClientRequest → List HttpClientResponse → List HttpClientRequest × Option HttpClientResponse
  | _, request, [] => ([request], none)
  | 0, request, response :: _ => ([request], some response)
  | redirectsLeft + 1, request, response :: responses =>
    match redirectStep registry request response with
    | .returned => ([request], some response)
    | .thrown => ([request], none)
    | .followed next =>
      let (sent, result) := sendOwned registry redirectsLeft next responses
      (request :: sent, result)

/-! ## What a redirect keeps -/

/-- What a request sent behind `first` keeps of it. -/
structure SentBehind (registry : Option (List HttpOrigin)) (first next : HttpClientRequest) : Prop where
  pool : next.pool = first.pool ∨ ∃ pools, registry = some pools ∧ next.pool ∈ pools
  scheme : first.pool.scheme = .https → next.pool.scheme = .https
  target : isValidHttpOriginFormTarget next.target = true
  headers : next.headers.Sublist first.headers
  host : ∀ field ∈ next.headers, httpAsciiEqualsIgnoreCase field.name (lit "host") = false
  credentials : ∀ field ∈ next.headers, isCredentialField field.name = true → next.pool = first.pool
  content : next.method = first.method ∧ next.body = first.body ∨
    (next.method = first.method ∨ next.method = lit "GET") ∧ next.body = none ∧
      ∀ field ∈ next.headers, isContentField field.name = false

variable {registry : Option (List HttpOrigin)} {first request next : HttpClientRequest}

theorem target_of_path {hasAuthority : Bool} {reference current target : Bytes}
    (h : resolveHttpClientRedirectPathAndQuery hasAuthority reference current = some target) :
    isValidHttpOriginFormTarget target = true := by
  simp only [resolveHttpClientRedirectPathAndQuery] at h
  grind

theorem target_of_resolved {origin : HttpOrigin} {current location : Bytes} {resolved : HttpClientResolvedRedirect}
    (h : resolveHttpClientRedirectTarget origin current location = .ok resolved) :
    isValidHttpOriginFormTarget resolved.target = true := by
  simp only [resolveHttpClientRedirectTarget] at h
  grind [target_of_path]

/-- A resolution within the origin keeps its scheme, and its pool is the request's. -/
theorem redirectStep_cases {response : HttpClientResponse}
    (h : redirectStep registry request response = .followed next) :
    ∃ resolved pool, next = redirectedRequest request resolved pool response.status ∧
      isValidHttpOriginFormTarget resolved.target = true ∧
      (resolved.crossOrigin = false ∧ pool = request.pool ∨
        (request.pool.scheme = .https → pool.scheme = .https) ∧ resolved.crossOrigin = true ∧
          ∃ pools, registry = some pools ∧ pool ∈ pools) := by
  unfold redirectStep at h
  split at h
  · cases h
  split at h <;> try cases h
  split at h
  · cases h
  rename_i hresolved
  have htarget := target_of_resolved hresolved
  split at h
  · rename_i hcross
    split at h
    · cases h
    rename_i hsecure
    split at h
    · cases h
    split at h
    · cases h
    split at h <;> cases h
    rename_i hfound
    have hscheme := List.find?_some hfound
    exact ⟨_, _, rfl, htarget, .inr ⟨by grind, hcross, _, rfl, List.mem_of_find?_eq_some hfound⟩⟩
  · cases h
    exact ⟨_, _, rfl, htarget, .inl ⟨by grind, rfl⟩⟩

/-- One redirect keeps what the requests so far kept. -/
theorem SentBehind.step {response : HttpClientResponse} (hfirst : request = first ∨ SentBehind registry first request)
    (h : redirectStep registry request response = .followed next) : SentBehind registry first next := by
  obtain ⟨resolved, pool, rfl, htarget, hpool⟩ := redirectStep_cases h
  have hsub : (redirectedRequest request resolved pool response.status).headers.Sublist request.headers :=
    List.filter_sublist
  have hsecrets : ∀ field ∈ request.headers, isCredentialField field.name = true → request.pool = first.pool := by
    grind [SentBehind]
  have hheaders : request.headers.Sublist first.headers := by
    rcases hfirst with rfl | hfirst
    exacts [.refl _, hfirst.headers]
  refine ⟨?_, ?_, htarget, hsub.trans hheaders, ?_, ?_, ?_⟩
  · grind [SentBehind, redirectedRequest]
  · grind [SentBehind, redirectedRequest]
  · grind [redirectedRequest]
  · grind [redirectedRequest]
  · simp only [redirectedRequest, planHttpClientRedirectRequest]
    grind [SentBehind]

/-- By induction on the responses; each request of the loop follows the first one. -/
theorem sendOwned_follows (responses : List HttpClientResponse) {left : Nat}
    (hrequest : request = first ∨ SentBehind registry first request) :
    ∃ redirected, (sendOwned registry left request responses).1 = request :: redirected ∧
      redirected.length ≤ left ∧ ∀ sent ∈ redirected, SentBehind registry first sent := by
  induction responses generalizing request left with
  | nil => exact ⟨[], by simp [sendOwned]⟩
  | cons response responses ih =>
    cases left with
    | zero => exact ⟨[], by simp [sendOwned]⟩
    | succ left =>
      cases hstep : redirectStep registry request response with
      | returned => exact ⟨[], by simp [sendOwned, hstep]⟩
      | thrown => exact ⟨[], by simp [sendOwned, hstep]⟩
      | followed next =>
        have hnext := SentBehind.step hrequest hstep
        obtain ⟨redirected, hsent, hlength, hfollows⟩ := @ih next left (.inr hnext)
        refine ⟨next :: redirected, by simp [sendOwned, hstep, hsent], Nat.succ_le_succ hlength, ?_⟩
        simp only [List.mem_cons, forall_eq_or_imp]
        exact ⟨hnext, hfollows⟩

end Ruvia.Http
