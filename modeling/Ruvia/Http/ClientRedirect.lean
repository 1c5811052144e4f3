import Ruvia.Http.HostEquivalence
import Ruvia.Http.RequestTarget
import Ruvia.Http.UriReferenceRepair
import Ruvia.Library.TextSearch
import Ruvia.Library.UriResolution

/-!
# `Http.ClientRedirect` — the target of a redirect

`resolve_http_client_redirect_target`. An accepted reference is resolved as RFC 3986 resolves it
(`redirect_resolution`), but for the empty path that it may have behind an authority, which becomes the root.
-/

namespace Ruvia.Http

open Library
open UriReferenceParts

/-! ## Origins -/

inductive HttpScheme where
  | http
  | https
  deriving DecidableEq, Repr

/-- `http_scheme_default_port`. -/
def HttpScheme.defaultPort : HttpScheme → Nat
  | .http => 80
  | .https => 443

/-- `http_origin_view`, whose factories reject other hosts. -/
structure HttpOrigin where
  scheme : HttpScheme
  host : Bytes
  port : Nat
  host_valid : isValidHttpHost host = true

inductive HttpClientRedirectResolutionError where
  | invalidCurrentTarget
  | invalidLocation
  | unsupportedScheme
  deriving DecidableEq, Repr

/-- `http_client_resolved_redirect`. -/
structure HttpClientResolvedRedirect where
  scheme : HttpScheme
  host : Bytes
  port : Nat
  target : Bytes
  crossOrigin : Bool
  deriving DecidableEq, Repr

/-- `is_valid_http_origin_form_target`. -/
def isValidHttpOriginFormTarget (target : Bytes) : Bool := (splitOriginFormTarget target).isSome

/-- `effective_port`. -/
def HttpAuthorityView.effectivePort (authority : HttpAuthorityView) (defaultPort : Nat) : Nat :=
  match authority.port with
  | .value port => port
  | _ => defaultPort

/-- `http_client_redirect_authority`. -/
structure HttpClientRedirectAuthority where
  host : Bytes
  port : Nat
  sameOrigin : Bool
  deriving DecidableEq, Repr

def parseHttpClientRedirectAuthority (origin : HttpOrigin) (targetScheme : HttpScheme) (authority : Bytes) :
    Option HttpClientRedirectAuthority :=
  if (findByte atSign authority 0).isSome then none
  else
    (parseHttpAuthority authority).map fun parsed =>
      let port := parsed.effectivePort targetScheme.defaultPort
      { host := parsed.host
        port
        sameOrigin :=
          targetScheme == origin.scheme && port == origin.port && httpUriHostEquals parsed.host origin.host }

/-! ## Paths -/

def removeHttpClientLastPathSegment (path : Bytes) : Bytes :=
  match findLastByte slash path with
  | none => []
  | some position => path.take position

/-- One pass of the loop of `normalize_http_client_absolute_path`: what remains, and what is normalized. -/
def normalizeStep (remaining normalized : Bytes) : Bytes × Bytes :=
  if (lit "/./").isPrefixOf remaining then (remaining.drop 2, normalized)
  else if remaining = lit "/." then (lit "/", normalized)
  else if (lit "/../").isPrefixOf remaining then (remaining.drop 3, removeHttpClientLastPathSegment normalized)
  else if remaining = lit "/.." then (lit "/", removeHttpClientLastPathSegment normalized)
  else
    let segmentBytes := (findByte slash remaining 1).getD remaining.length
    (remaining.drop segmentBytes, normalized ++ remaining.take segmentBytes)

theorem normalizeStep_length {remaining : Bytes} (h : remaining ≠ []) (normalized : Bytes) :
    (normalizeStep remaining normalized).1.length < remaining.length := by
  have hpos := List.length_pos_iff.mpr h
  unfold normalizeStep
  split_ifs with h1 h2 h3 h4
  · simp only [List.length_drop]
    omega
  · rw [h2]
    exact Nat.lt_succ_self 1
  · simp only [List.length_drop]
    omega
  · rw [h4]
    show 1 < 3
    omega
  · simp only [List.length_drop]
    cases hfind : findByte slash remaining 1 with
    | none =>
      rw [Option.getD_none]
      omega
    | some next =>
      have hle := (findByte_eq_some_iff.mp hfind).1
      rw [Option.getD_some]
      omega

def normalizeLoop (remaining normalized : Bytes) : Bytes :=
  if _h : remaining = [] then normalized
  else normalizeLoop (normalizeStep remaining normalized).1 (normalizeStep remaining normalized).2
termination_by remaining.length
decreasing_by exact normalizeStep_length _h normalized

def normalizeHttpClientAbsolutePath (path : Bytes) : Bytes :=
  if path ≠ [] ∧ findText (lit "/.") path = none then path
  else if normalizeLoop path [] = [] then lit "/"
  else normalizeLoop path []

/-- The merged path and the selected query of `resolve_http_client_redirect_path_and_query`. -/
def mergePathAndQuery (hasAuthority : Bool) (referencePath : Bytes) (referenceQuery : Option Bytes)
    (currentTarget : Bytes) : Option (Bytes × Option Bytes) :=
  if hasAuthority then
    if referencePath ≠ [] ∧ referencePath.head? ≠ some slash then none
    else some (if referencePath = [] then lit "/" else referencePath, referenceQuery)
  else
    let (basePath, baseQuery) := splitAtByte questionMark currentTarget
    if referencePath = [] then some (basePath, if referenceQuery.isSome then referenceQuery else baseQuery)
    else if referencePath.head? = some slash then some (referencePath, referenceQuery)
    else
      let prefixSize := ((findLastByte slash basePath).map (· + 1)).getD 0
      some (basePath.take prefixSize ++ referencePath, referenceQuery)

/-- A path and, behind a `?`, a query. -/
def pathAndQuery (path : Bytes) (query : Option Bytes) : Bytes := path ++ delimited (questionMark :: ·) query

def resolveHttpClientRedirectPathAndQuery (hasAuthority : Bool) (reference currentTarget : Bytes) : Option Bytes :=
  let (referencePath, referenceQuery) := splitAtByte questionMark reference
  if !isValidUriComponent referencePath true false || !isValidUriComponent (referenceQuery.getD []) true true then none
  else
    match mergePathAndQuery hasAuthority referencePath referenceQuery currentTarget with
    | none => none
    | some (mergedPath, selectedQuery) =>
      -- The base path of an empty reference path is copied.
      let path :=
        if hasAuthority = false ∧ referencePath = [] then mergedPath else normalizeHttpClientAbsolutePath mergedPath
      let resolved := pathAndQuery path selectedQuery
      if isValidHttpOriginFormTarget resolved then some resolved else none

/-! ## Locations -/

/-- A byte of `"/?"`. -/
def isPathOrQueryStart (byte : UInt8) : Bool := byte == slash || byte == questionMark

/-- The `:` in front of the path and the query. -/
def locationColon (reference : Bytes) : Option Nat :=
  (findByte colon reference 0).filter fun position =>
    ∀ delimiter ∈ findFrom isPathOrQueryStart reference 0, position < delimiter

/-- The scheme of the target, whether an authority follows, and what follows. -/
def locationFront (originScheme : HttpScheme) (reference : Bytes) :
    Except HttpClientRedirectResolutionError (HttpScheme × Bool × Bytes) :=
  match locationColon reference with
  | some position =>
    let scheme := reference.take position
    if isValidUriScheme scheme = false then .error .invalidLocation
    else
      let isHttps := httpAsciiEqualsIgnoreCase scheme (lit "https")
      if isHttps = false ∧ httpAsciiEqualsIgnoreCase scheme (lit "http") = false then .error .unsupportedScheme
      else
        let behind := reference.drop (position + 1)
        if startsWithSlashes behind then .ok (if isHttps then .https else .http, true, behind.drop 2)
        else .error .invalidLocation
  | none =>
    if startsWithSlashes reference then .ok (originScheme, true, reference.drop 2)
    else .ok (originScheme, false, reference)

def resolveHttpClientRedirectTarget (origin : HttpOrigin) (currentTarget location : Bytes) :
    Except HttpClientRedirectResolutionError HttpClientResolvedRedirect :=
  if isValidHttpOriginFormTarget currentTarget = false then .error .invalidCurrentTarget
  else
    let (location, fragment) := splitAtByte numberSign (httpTrimOws location)
    if fragment.any (!isValidUriComponent · true true) then .error .invalidLocation
    else
      match locationFront origin.scheme location with
      | .error error => .error error
      | .ok (targetScheme, true, reference) =>
        let authorityEnd := (findFrom isPathOrQueryStart reference 0).getD reference.length
        match parseHttpClientRedirectAuthority origin targetScheme (reference.take authorityEnd) with
        | none => .error .invalidLocation
        | some parsed =>
          match resolveHttpClientRedirectPathAndQuery true (reference.drop authorityEnd) currentTarget with
          | none => .error .invalidLocation
          | some target =>
            .ok { scheme := targetScheme, host := parsed.host, port := parsed.port, target,
                  crossOrigin := !parsed.sameOrigin }
      | .ok (targetScheme, false, reference) =>
        match resolveHttpClientRedirectPathAndQuery false reference currentTarget with
        | none => .error .invalidLocation
        | some target =>
          .ok { scheme := targetScheme, host := origin.host, port := origin.port, target,
                crossOrigin := targetScheme != origin.scheme }

/-! ## Dot segments -/

section

variable {path output front segment remaining normalized : Bytes}

theorem slash_cases (path : Bytes) :
    slash ∉ path ∨ ∃ front segment, path = front ++ slash :: segment ∧ slash ∉ segment := by
  by_cases h : slash ∈ path
  · obtain ⟨segment, front, heq, hfree⟩ := List.eq_append_cons_of_mem (List.mem_reverse.mpr h)
    refine .inr ⟨front.reverse, segment.reverse, ?_, fun hmem => hfree (List.mem_reverse.mp hmem)⟩
    rw [← List.reverse_inj, heq]
    simp
  · exact .inl h

theorem removeHttpClientLastPathSegment_eq (output : Bytes) :
    removeHttpClientLastPathSegment output = UriResolution.removeLastSegment output := by
  unfold removeHttpClientLastPathSegment UriResolution.removeLastSegment
  rcases slash_cases output with hfree | ⟨front, segment, rfl, hfree⟩
  · have hall : ∀ byte ∈ output, (byte != UriResolution.slash) = true := by
      intro byte hbyte
      rw [bne_iff_ne]
      rintro rfl
      exact hfree hbyte
    rw [findLastByte_none hfree, List.rdropWhile_eq_nil_iff.mpr hall]
    rfl
  · rw [findLastByte_append hfree, UriResolution.rdropWhile_append_slash hfree, List.dropLast_concat]
    exact List.take_left

/-- The first segment of a path that begins with a slash. -/
theorem rooted_cases (h : path.head? = some slash) :
    ∃ segment rest, path = slash :: (segment ++ rest) ∧ slash ∉ segment ∧ ∀ byte ∈ rest.head?, byte = slash := by
  obtain ⟨segments, hne, rfl, hfree⟩ := UriResolution.exists_segments_of_rooted h
  obtain ⟨segment, rest, rfl⟩ := List.exists_cons_of_ne_nil hne
  exact ⟨segment, _, UriResolution.ofSegments_cons segment rest, hfree segment (List.mem_cons_self ..),
    UriResolution.head_ofSegments rest⟩

theorem findByte_next_slash {rest : Bytes} (hfree : slash ∉ segment) (hrest : ∀ byte ∈ rest.head?, byte = slash) :
    (findByte slash (slash :: (segment ++ rest)) 1).getD (slash :: (segment ++ rest)).length = segment.length + 1 := by
  have hmiddle : ∀ byte ∈ segment, (byte == slash) = false := by
    intro byte hbyte
    rw [beq_eq_false_iff_ne]
    rintro rfl
    exact hfree hbyte
  rcases rest with _ | ⟨first, rest⟩
  · have hnone := @findFrom_append_none (· == slash) [slash] segment hmiddle
    rw [List.append_nil]
    change findByte slash (slash :: segment) 1 = none at hnone
    rw [hnone]
    rfl
  · obtain rfl := hrest first rfl
    have hstop := @findFrom_append_stop (· == slash) [slash] segment rest slash hmiddle BEq.rfl
    change findByte slash (slash :: (segment ++ slash :: rest)) 1 = some (1 + segment.length) at hstop
    rw [hstop, Option.getD_some, Nat.add_comm]

/-- **One pass is one pass of the RFC's loop**, in front of which the cases without a slash are left out. -/
theorem normalizeStep_eq (h : remaining.head? = some slash) (normalized : Bytes) :
    normalizeStep remaining normalized = UriResolution.dotSegmentStep remaining normalized := by
  obtain ⟨segment, rest, rfl, hfree, hrest⟩ := rooted_cases h
  have hnext := findByte_next_slash hfree hrest
  obtain ⟨htake, hdrop⟩ := UriResolution.cut_at_slash hfree hrest
  unfold normalizeStep UriResolution.dotSegmentStep
  rw [if_neg (show ¬(lit "../").isPrefixOf (slash :: (segment ++ rest)) = true from Bool.false_ne_true),
    if_neg (show ¬(lit "./").isPrefixOf (slash :: (segment ++ rest)) = true from Bool.false_ne_true),
    removeHttpClientLastPathSegment_eq]
  have hlast : ¬(slash :: (segment ++ rest) = lit "." ∨ slash :: (segment ++ rest) = lit "..") := by
    rintro (heq | heq) <;> cases heq
  rw [if_neg hlast, hnext, List.tail_cons, htake, hdrop]
  simp

/-- Behind a pass there is a slash again, or nothing. -/
theorem head_dotSegmentStep (h : remaining.head? = some slash) (normalized : Bytes) :
    (UriResolution.dotSegmentStep remaining normalized).1 = [] ∨
      (UriResolution.dotSegmentStep remaining normalized).1.head? = some slash := by
  obtain ⟨segment, rest, rfl, hfree, hrest⟩ := rooted_cases h
  have hbehind : rest = [] ∨ rest.head? = some slash := by
    rcases rest with _ | ⟨first, rest⟩
    · exact .inl rfl
    · exact .inr (congrArg some (hrest first rfl))
  rw [UriResolution.dotSegmentStep_segment hfree hrest]
  split_ifs
  · exact .inr rfl
  · exact hbehind
  · exact .inr rfl
  · exact hbehind
  · exact hbehind

theorem normalizeLoop_eq (h : remaining = [] ∨ remaining.head? = some slash) (normalized : Bytes) :
    normalizeLoop remaining normalized = UriResolution.removeDotSegmentsFrom remaining normalized := by
  induction hlength : remaining.length using Nat.strong_induction_on generalizing remaining normalized with
  | _ n ih =>
    subst hlength
    rcases h with rfl | h
    · rw [normalizeLoop, dif_pos rfl, UriResolution.removeDotSegmentsFrom_nil]
    · have hne : remaining ≠ [] := by
        rintro rfl
        cases h
      have hstep := head_dotSegmentStep h normalized
      rw [normalizeLoop, dif_neg hne, UriResolution.removeDotSegmentsFrom_cons hne, normalizeStep_eq h]
      exact ih _ (UriResolution.dotSegmentStep_length hne normalized) hstep _ rfl

theorem not_infix_of_findText {needle text : Bytes} (hne : needle ≠ []) (h : findText needle text = none) :
    ¬needle <:+: text := by
  rintro ⟨front, behind, rfl⟩
  apply (findText_eq_none_iff hne).mp h front.length
  unfold OccursAt
  rw [List.append_assoc, List.drop_left]
  exact List.prefix_append needle behind

/-- **Normalization removes the dot segments** of a path that begins with a slash. -/
theorem normalizeHttpClientAbsolutePath_eq (h : path.head? = some slash) :
    normalizeHttpClientAbsolutePath path = UriResolution.removeDotSegments path := by
  unfold normalizeHttpClientAbsolutePath
  by_cases hplain : path ≠ [] ∧ findText (lit "/.") path = none
  · rw [if_pos hplain, UriResolution.removeDotSegments_of_no_dot h (not_infix_of_findText (by decide) hplain.2)]
  · have hhead := (UriResolution.removeDotSegments_spec h).2
    have hloop : normalizeLoop path [] = UriResolution.removeDotSegments path := normalizeLoop_eq (.inr h) []
    rw [if_neg hplain, hloop, if_neg]
    intro hnil
    rw [hnil] at hhead
    cases hhead

end

/-! ## The reference that a location is -/

def httpSchemeOfName (name : Bytes) : Option HttpScheme :=
  if httpAsciiEqualsIgnoreCase name (lit "https") then some .https
  else if httpAsciiEqualsIgnoreCase name (lit "http") then some .http
  else none

abbrev HttpReference := UriResolution.Reference HttpScheme HttpAuthorityView

abbrev HttpUrl := UriResolution.Target HttpScheme HttpAuthorityView

/-- The components of a location, without its fragment. -/
structure Reads (location : Bytes) (reference : HttpReference) : Prop where
  scheme : (uriParts location).scheme.map httpSchemeOfName = reference.scheme.map some
  authority : (uriParts location).authority.map (parseHttpAuthority ·.text) = reference.authority.map some
  path : (uriParts location).path = reference.path
  query : (uriParts location).query = reference.query

/-- The URL of an origin and a current target. -/
def baseUrl (origin : HttpOrigin) (currentTarget : Bytes) : HttpUrl where
  scheme := origin.scheme
  authority := some ⟨origin.host, .value origin.port⟩
  path := (splitAtByte questionMark currentTarget).1
  query := (splitAtByte questionMark currentTarget).2

/-- The redirect to a URL, with the path that stands for the URL's. -/
structure Redirects (origin : HttpOrigin) (currentTarget : Bytes) (reference : HttpReference) (url : HttpUrl)
    (path : Bytes) (resolved : HttpClientResolvedRedirect) : Prop where
  scheme : resolved.scheme = url.scheme
  authority : ∃ authority ∈ url.authority,
    resolved.host = authority.host ∧ resolved.port = authority.effectivePort url.scheme.defaultPort
  target : resolved.target = pathAndQuery path url.query
  /-- No dot segment, unless the path is a copy of the base path. -/
  noDotSegment : UriResolution.NoDotSegment path ∨
    reference.authority = none ∧ reference.path = [] ∧ path = (baseUrl origin currentTarget).path
  crossOrigin : resolved.crossOrigin = true ↔ resolved.scheme ≠ origin.scheme ∨
    uriHostForm resolved.host ≠ uriHostForm origin.host ∨ resolved.port ≠ origin.port

/-- An empty path is the root. -/
def rootedPath (path : Bytes) : Bytes := if path = [] then lit "/" else path

section

open UriResolution (resolve removeDotSegments NoDotSegment)

variable {origin : HttpOrigin} {currentTarget location reference target path name text behind : Bytes}
  {query : Option Bytes} {scheme originScheme : HttpScheme} {hasAuthority : Bool} {authority : HttpAuthorityView}

theorem resolve_authority (base : HttpUrl) (scheme : Option HttpScheme) (authority : HttpAuthorityView) (path : Bytes)
    (query : Option Bytes) :
    resolve base ⟨scheme, some authority, path, query⟩ =
      ⟨scheme.getD base.scheme, some authority, removeDotSegments path, query⟩ := by
  cases scheme <;> rfl

theorem head_basePath (h : isValidHttpOriginFormTarget currentTarget = true) :
    (splitAtByte questionMark currentTarget).1.head? = some slash := by
  unfold isValidHttpOriginFormTarget splitOriginFormTarget at h
  by_cases hhead : currentTarget.head? = some slash
  · obtain ⟨rest, rfl⟩ : ∃ rest, currentTarget = slash :: rest := by
      rcases currentTarget with _ | ⟨first, rest⟩
      · cases hhead
      · exact ⟨rest, congrArg (· :: rest) (Option.some.inj hhead)⟩
    rfl
  · rw [if_neg hhead] at h
    cases h

/-- The base directory is what the RFC merges a reference path behind. -/
theorem take_lastSlash (path : Bytes) :
    path.take (((findLastByte slash path).map (· + 1)).getD 0) = path.rdropWhile (· != UriResolution.slash) := by
  rcases slash_cases path with hfree | ⟨front, segment, rfl, hfree⟩
  · have hall : ∀ byte ∈ path, (byte != UriResolution.slash) = true := by
      intro byte hbyte
      rw [bne_iff_ne]
      rintro rfl
      exact hfree hbyte
    rw [findLastByte_none hfree, List.rdropWhile_eq_nil_iff.mpr hall]
    rfl
  · rw [findLastByte_append hfree, UriResolution.rdropWhile_append_slash hfree, Option.map_some, Option.getD_some,
      show front ++ slash :: segment = (front ++ [slash]) ++ segment by simp]
    exact List.take_left' (by simp)

theorem head_merge (hbase : path.head? = some slash) (reference : Bytes) :
    (path.rdropWhile (· != UriResolution.slash) ++ reference).head? = some slash := by
  obtain ⟨rest, rfl⟩ : ∃ rest, path = slash :: rest := by
    rcases path with _ | ⟨first, rest⟩
    · cases hbase
    · exact ⟨rest, congrArg (· :: rest) (Option.some.inj hbase)⟩
  rcases slash_cases (slash :: rest) with hfree | ⟨front, segment, heq, hfree⟩
  · exact absurd (List.mem_cons_self ..) hfree
  · rw [heq, UriResolution.rdropWhile_append_slash hfree]
    rcases front with _ | ⟨first, front⟩
    · rfl
    · exact congrArg some (List.cons.inj heq).1.symm

theorem merged_of_resolved (hsplit : splitAtByte questionMark reference = (path, query))
    (h : resolveHttpClientRedirectPathAndQuery hasAuthority reference currentTarget = some target) :
    ∃ mergedPath selectedQuery,
      mergePathAndQuery hasAuthority path query currentTarget = some (mergedPath, selectedQuery) ∧
      target = pathAndQuery
        (if hasAuthority = false ∧ path = [] then mergedPath else normalizeHttpClientAbsolutePath mergedPath)
          selectedQuery := by
  unfold resolveHttpClientRedirectPathAndQuery at h
  rw [hsplit] at h
  dsimp only at h
  by_cases hvalid : (!isValidUriComponent path true false || !isValidUriComponent (query.getD []) true true) = true
  · rw [if_pos hvalid] at h
    cases h
  · rw [if_neg hvalid] at h
    cases hmerge : mergePathAndQuery hasAuthority path query currentTarget with
    | none =>
      rw [hmerge] at h
      cases h
    | some merged =>
      obtain ⟨mergedPath, selectedQuery⟩ := merged
      rw [hmerge] at h
      refine ⟨mergedPath, selectedQuery, rfl, ?_⟩
      exact (Option.some.inj (Option.ite_none_right_eq_some.mp h).2).symm

/-- **Behind an authority**, the reference path without its dot segments. -/
theorem resolved_authority (h : resolveHttpClientRedirectPathAndQuery true reference currentTarget = some target) :
    ∃ path query, splitAtByte questionMark reference = (path, query) ∧ (path = [] ∨ path.head? = some slash) ∧
      target = pathAndQuery (rootedPath (removeDotSegments path)) query := by
  obtain ⟨path, query, hsplit⟩ : ∃ path query, splitAtByte questionMark reference = (path, query) := ⟨_, _, rfl⟩
  obtain ⟨mergedPath, selectedQuery, hmerge, htarget⟩ := merged_of_resolved hsplit h
  refine ⟨path, query, hsplit, ?_⟩
  unfold mergePathAndQuery at hmerge
  rw [if_pos rfl] at hmerge
  rw [if_neg (fun hcopied => Bool.false_ne_true hcopied.1.symm)] at htarget
  by_cases hempty : path = []
  · subst hempty
    rw [if_neg (fun hbad => hbad.1 rfl), if_pos rfl] at hmerge
    obtain ⟨rfl, rfl⟩ := Prod.mk.inj (Option.some.inj hmerge)
    refine ⟨.inl rfl, ?_⟩
    rw [htarget, normalizeHttpClientAbsolutePath_eq rfl]
    have hroot : removeDotSegments (lit "/") = rootedPath (removeDotSegments []) := by decide +kernel
    rw [hroot]
  · by_cases hhead : path.head? = some slash
    · rw [if_neg (fun hbad => hbad.2 hhead), if_neg hempty] at hmerge
      obtain ⟨rfl, rfl⟩ := Prod.mk.inj (Option.some.inj hmerge)
      refine ⟨.inr hhead, ?_⟩
      have hne : removeDotSegments path ≠ [] := by
        intro hnil
        have hrooted := (UriResolution.removeDotSegments_spec hhead).2
        rw [hnil] at hrooted
        cases hrooted
      rw [htarget, normalizeHttpClientAbsolutePath_eq hhead, rootedPath, if_neg hne]
    · rw [if_pos ⟨hempty, hhead⟩] at hmerge
      cases hmerge

/-- **Without an authority**, the path and the query of the resolution. -/
theorem resolved_relative (hcurrent : isValidHttpOriginFormTarget currentTarget = true)
    (h : resolveHttpClientRedirectPathAndQuery false reference currentTarget = some target) :
    ∃ path query, splitAtByte questionMark reference = (path, query) ∧
      target = pathAndQuery (resolve (baseUrl origin currentTarget) ⟨none, none, path, query⟩).path
        (resolve (baseUrl origin currentTarget) ⟨none, none, path, query⟩).query ∧
      (resolve (baseUrl origin currentTarget) ⟨none, none, path, query⟩).path ≠ [] ∧
      (NoDotSegment (resolve (baseUrl origin currentTarget) ⟨none, none, path, query⟩).path ∨
        path = [] ∧ (resolve (baseUrl origin currentTarget) ⟨none, none, path, query⟩).path =
          (baseUrl origin currentTarget).path) := by
  obtain ⟨path, query, hsplit⟩ : ∃ path query, splitAtByte questionMark reference = (path, query) := ⟨_, _, rfl⟩
  obtain ⟨mergedPath, selectedQuery, hmerge, htarget⟩ := merged_of_resolved hsplit h
  have hbase := head_basePath hcurrent
  have hnonempty : ∀ {path : Bytes}, path.head? = some slash → path ≠ [] := by
    rintro path hhead rfl
    cases hhead
  refine ⟨path, query, hsplit, ?_⟩
  unfold mergePathAndQuery at hmerge
  rw [if_neg Bool.false_ne_true] at hmerge
  by_cases hempty : path = []
  · have hresolve : resolve (baseUrl origin currentTarget) ⟨none, none, path, query⟩ =
        ⟨origin.scheme, (baseUrl origin currentTarget).authority, (baseUrl origin currentTarget).path,
          query.or (baseUrl origin currentTarget).query⟩ := if_pos hempty
    rw [hresolve]
    simp only [if_pos hempty] at hmerge
    obtain ⟨rfl, rfl⟩ := Prod.mk.inj (Option.some.inj hmerge)
    refine ⟨?_, hnonempty hbase, .inr ⟨hempty, rfl⟩⟩
    rw [htarget, if_pos ⟨rfl, hempty⟩]
    cases query <;> rfl
  · rw [if_neg (fun hcopied => hempty hcopied.2)] at htarget
    simp only [if_neg hempty] at hmerge
    by_cases hhead : path.head? = some slash
    · have hresolve : resolve (baseUrl origin currentTarget) ⟨none, none, path, query⟩ =
          ⟨origin.scheme, (baseUrl origin currentTarget).authority, removeDotSegments path, query⟩ := by
        show (if _ then _ else if _ then _ else _) = _
        rw [if_neg hempty, if_pos hhead]
        rfl
      rw [hresolve]
      rw [if_pos hhead] at hmerge
      obtain ⟨rfl, rfl⟩ := Prod.mk.inj (Option.some.inj hmerge)
      obtain ⟨hplain, hrooted⟩ := UriResolution.removeDotSegments_spec hhead
      refine ⟨?_, hnonempty hrooted, .inl hplain⟩
      rw [htarget, normalizeHttpClientAbsolutePath_eq hhead]
    · have hmerged := head_merge hbase path
      have hresolve : resolve (baseUrl origin currentTarget) ⟨none, none, path, query⟩ =
          ⟨origin.scheme, (baseUrl origin currentTarget).authority,
            removeDotSegments
              ((splitAtByte questionMark currentTarget).1.rdropWhile (· != UriResolution.slash) ++ path), query⟩ := by
        show (if _ then _ else if _ then _ else _) = _
        rw [if_neg hempty, if_neg hhead]
        unfold UriResolution.merge
        rw [if_neg fun hbad => hnonempty hbase hbad.2]
        rfl
      rw [hresolve]
      rw [if_neg hhead, take_lastSlash] at hmerge
      obtain ⟨rfl, rfl⟩ := Prod.mk.inj (Option.some.inj hmerge)
      obtain ⟨hplain, hrooted⟩ := UriResolution.removeDotSegments_spec hmerged
      refine ⟨?_, hnonempty hrooted, .inl hplain⟩
      rw [htarget, normalizeHttpClientAbsolutePath_eq hmerged]

/-! ### The components of a location -/

theorem isPathOrQueryStart_iff {byte : UInt8} :
    isPathOrQueryStart byte = true ↔ byte = slash ∨ byte = questionMark := by
  simp only [isPathOrQueryStart, Bool.or_eq_true, beq_iff_eq]

/-- A valid name and a `:` are found. -/
theorem locationColon_scheme (h : isValidUriScheme name = true) (behind : Bytes) :
    locationColon (name ++ colon :: behind) = some name.length := by
  have hcolon : findByte colon (name ++ colon :: behind) 0 = some name.length := by
    have hstop := @findFrom_append_stop (· == colon) [] name behind colon (fun byte hbyte => by
      rw [beq_eq_false_iff_ne]
      rintro rfl
      exact stop_not_mem_scheme h (by decide) hbyte) BEq.rfl
    simpa [findByte] using hstop
  unfold locationColon
  rw [hcolon, Option.filter_some, if_pos]
  rw [decide_eq_true_eq]
  intro delimiter hfound
  obtain ⟨-, ⟨byte, hget, hdelimiter⟩, -⟩ := findFrom_eq_some_iff.mp hfound
  by_contra hle
  rcases Nat.lt_or_eq_of_le (Nat.le_of_not_lt hle) with hlt | rfl
  · rw [List.getElem?_append_left hlt] at hget
    have hmem := List.mem_of_getElem? hget
    rcases isPathOrQueryStart_iff.mp hdelimiter with rfl | rfl <;>
      exact absurd hmem (stop_not_mem_scheme h (by decide))
  · rw [List.getElem?_append_right (Nat.le_refl _), Nat.sub_self] at hget
    obtain rfl : colon = byte := Option.some.inj hget
    exact absurd hdelimiter (by decide)

/-- A scheme and an authority, an authority, or neither. -/
theorem locationFront_cases (h : locationFront originScheme location = .ok (scheme, hasAuthority, reference)) :
    (∃ name : Option Bytes, hasAuthority = true ∧
      location = delimited (· ++ [colon]) name ++ (slash :: slash :: reference) ∧
      (∀ text ∈ name, isValidUriScheme text = true) ∧
      ∃ named : Option HttpScheme, name.map httpSchemeOfName = named.map some ∧ scheme = named.getD originScheme) ∨
    hasAuthority = false ∧ reference = location ∧ scheme = originScheme ∧ locationColon location = none ∧
      startsWithSlashes location = false := by
  unfold locationFront at h
  cases hcolon : locationColon location with
  | none =>
    rw [hcolon] at h
    by_cases hslashes : startsWithSlashes location = true
    · rw [if_pos hslashes] at h
      obtain ⟨rfl, rfl, rfl⟩ := h
      obtain ⟨rest, rfl⟩ := startsWithSlashes_iff.mp hslashes
      exact .inl ⟨none, rfl, rfl, fun _ hnone => absurd hnone (by simp), none, rfl, rfl⟩
    · rw [if_neg hslashes] at h
      obtain ⟨rfl, rfl, rfl⟩ := h
      exact .inr ⟨rfl, rfl, rfl, rfl, Bool.eq_false_iff.mpr hslashes⟩
  | some position =>
    have hfound := (Option.filter_eq_some_iff.mp hcolon).1
    obtain ⟨hlt, hbyte⟩ := List.getElem?_eq_some_iff.mp (findByte_eq_some_iff.mp hfound).2.1
    have hsplit : location = location.take position ++ colon :: location.drop (position + 1) := by
      conv_lhs => rw [← List.take_append_drop position location, List.drop_eq_getElem_cons hlt, hbyte]
    rw [hcolon] at h
    dsimp only at h
    by_cases hinvalid : isValidUriScheme (location.take position) = false
    · rw [if_pos hinvalid] at h
      cases h
    rw [if_neg hinvalid] at h
    by_cases hunsupported : httpAsciiEqualsIgnoreCase (location.take position) (lit "https") = false ∧
        httpAsciiEqualsIgnoreCase (location.take position) (lit "http") = false
    · rw [if_pos hunsupported] at h
      cases h
    rw [if_neg hunsupported] at h
    by_cases hslashes : startsWithSlashes (location.drop (position + 1)) = true
    · rw [if_pos hslashes] at h
      simp only [Except.ok.injEq, Prod.mk.injEq] at h
      obtain ⟨hscheme, rfl, rfl⟩ := h
      obtain ⟨rest, hrest⟩ := startsWithSlashes_iff.mp hslashes
      refine .inl ⟨some (location.take position), rfl, ?_, ?_, some scheme, ?_, rfl⟩
      · rw [hrest] at hsplit ⊢
        simpa [delimited] using hsplit
      · intro text htext
        rw [← Option.some.inj htext]
        simpa using hinvalid
      · rw [Option.map_some, Option.map_some, ← hscheme]
        unfold httpSchemeOfName
        cases hhttps : httpAsciiEqualsIgnoreCase (location.take position) (lit "https") with
        | true => rfl
        | false =>
          have hhttp : httpAsciiEqualsIgnoreCase (location.take position) (lit "http") = true := by
            rw [hhttps] at hunsupported
            simpa using hunsupported
          rw [if_neg Bool.false_ne_true, if_pos hhttp]
          rfl
    · rw [if_neg hslashes] at h
      cases h

theorem locationColon_none (h : locationColon location = none) (heq : location = name ++ colon :: behind) :
    isValidUriScheme name = false := by
  rw [← Bool.not_eq_true]
  intro hvalid
  rw [heq, locationColon_scheme hvalid] at h
  cases h

theorem not_mem_of_append {byte : UInt8} {front : Bytes} (h : byte ∉ front ++ behind) : byte ∉ front ∧ byte ∉ behind :=
  not_or.mp fun hor => h (List.mem_append.mpr hor)

variable {fragment : Option Bytes}

/-- **A location with an authority** is read as the code reads it. -/
theorem uriParts_authority {name query : Option Bytes} {authority : Bytes}
    (hname : ∀ text ∈ name, isValidUriScheme text = true)
    (hauthority : ∀ byte ∈ authority, isUriDelimiter byte = false) (hrooted : path = [] ∨ path.head? = some slash)
    (hquestion : questionMark ∉ path) (hnumber : numberSign ∉ path ++ delimited (questionMark :: ·) query)
    (hlocation : location = delimited (· ++ [colon]) name ++
      (slash :: slash :: (authority ++ (path ++ delimited (questionMark :: ·) query))) ++
        delimited (numberSign :: ·) fragment) :
    uriParts location = ⟨name, some (uriAuthority authority), path, query, fragment⟩ := by
  have hsplit : (mk name (some (uriAuthority authority)) path query fragment).Split := by
    refine ⟨hname, ?_, ?_, ?_, ?_, ⟨hquestion, (not_mem_of_append hnumber).1⟩, ?_⟩
    · intro _ hnone
      cases hnone
    · intro value hvalue
      rw [← Option.some.inj hvalue]
      exact split_uriAuthority hauthority
    · intro hnone
      cases hnone
    · intro _ byte hbyte
      rcases hrooted with rfl | hhead
      · cases hbyte
      · rw [hhead] at hbyte
        exact (Option.some.inj hbyte).symm
    · intro text htext
      obtain rfl : query = some text := htext
      exact fun hmem => (not_mem_of_append hnumber).2 (List.mem_cons_of_mem _ hmem)
  have htext : location = (mk name (some (uriAuthority authority)) path query fragment).text := by
    rw [hlocation]
    simp [text, schemeText, authorityText,
      suffix, text_uriAuthority, delimited]
  rw [htext, hsplit.uriParts_text]

/-- **A location without an authority.** -/
theorem uriParts_relative {query : Option Bytes} (hcolon : locationColon reference = none)
    (hslashes : startsWithSlashes reference = false) (hquestion : questionMark ∉ path)
    (hreference : reference = path ++ delimited (questionMark :: ·) query) (hnumber : numberSign ∉ reference)
    (hlocation : location = reference ++ delimited (numberSign :: ·) fragment) :
    uriParts location = ⟨none, none, path, query, fragment⟩ := by
  subst hreference
  have hsplit : (mk none none path query fragment).Split := by
    refine ⟨?_, ?_, ?_, ?_, fun hsome => absurd hsome Bool.false_ne_true,
      ⟨hquestion, (not_mem_of_append hnumber).1⟩, ?_⟩
    · intro _ hnone
      cases hnone
    · intro _ _ first behind hpath
      change path = first ++ colon :: behind at hpath
      apply locationColon_none hcolon
      rw [hpath, List.append_assoc]
      rfl
    · intro _ hnone
      cases hnone
    · intro _
      rw [← Bool.not_eq_true] at hslashes ⊢
      intro htrue
      obtain ⟨rest, rfl⟩ := startsWithSlashes_iff.mp htrue
      exact hslashes (startsWithSlashes_iff.mpr ⟨_, rfl⟩)
    · intro text htext
      obtain rfl : query = some text := htext
      exact fun hmem => (not_mem_of_append hnumber).2 (List.mem_cons_of_mem _ hmem)
  have htext : location = (mk none none path query fragment).text := by
    rw [hlocation]
    simp [text, schemeText, authorityText,
      suffix, delimited]
  rw [htext, hsplit.uriParts_text]

/-! ### The redirect -/

theorem isValidHttpHost_of_authority (h : parseHttpAuthority text = some authority) :
    isValidHttpHost authority.host = true := by
  unfold parseHttpAuthority at h
  split_ifs at h
  cases hsplit : splitUriHostPort text with
  | none =>
    rw [hsplit] at h
    cases h
  | some parts =>
    obtain ⟨host, port⟩ := parts
    rw [hsplit] at h
    dsimp only at h
    by_cases hinvalid : isValidHttpHost host = false
    · rw [if_pos hinvalid] at h
      cases h
    · rw [if_neg hinvalid] at h
      have hvalid : isValidHttpHost host = true := by simpa using hinvalid
      rcases port with _ | _ | ⟨first, rest⟩
      · rw [← Option.some.inj h]
        exact hvalid
      · rw [← Option.some.inj h]
        exact hvalid
      · obtain ⟨port, -, rfl⟩ := Option.map_eq_some_iff.mp h
        exact hvalid

variable {parsed : HttpClientRedirectAuthority}

/-- The authority of a reference, and whether it is the origin's. -/
theorem parseHttpClientRedirectAuthority_spec
    (h : parseHttpClientRedirectAuthority origin scheme text = some parsed) :
    ∃ authority, parseHttpAuthority text = some authority ∧ parsed.host = authority.host ∧
      parsed.port = authority.effectivePort scheme.defaultPort ∧
      (parsed.sameOrigin = false ↔
        scheme ≠ origin.scheme ∨ uriHostForm parsed.host ≠ uriHostForm origin.host ∨ parsed.port ≠ origin.port) := by
  unfold parseHttpClientRedirectAuthority at h
  split_ifs at h
  obtain ⟨authority, hauthority, rfl⟩ := Option.map_eq_some_iff.mp h
  refine ⟨authority, hauthority, rfl, rfl, ?_⟩
  have hhosts := httpUriHostEquals_iff (isValidHttpHost_of_authority hauthority) origin.host_valid
  simp only [Bool.and_eq_false_iff, beq_eq_false_iff_ne, ne_eq, ← hhosts, Bool.not_eq_true]
  constructor
  · rintro ((hscheme | hport) | hhost)
    · exact .inl hscheme
    · exact .inr (.inr hport)
    · exact .inr (.inl hhost)
  · rintro (hscheme | hhost | hport)
    · exact .inl (.inl hscheme)
    · exact .inr hhost
    · exact .inl (.inr hport)

/-- The text in front of the first `/` or `?`. -/
theorem authority_end (reference : Bytes) :
    ∀ byte ∈ reference.take ((findFrom isPathOrQueryStart reference 0).getD reference.length),
      isPathOrQueryStart byte = false := by
  intro byte hbyte
  obtain ⟨index, hindex⟩ := List.getElem?_of_mem hbyte
  cases hfind : findFrom isPathOrQueryStart reference 0 with
  | none =>
    rw [hfind, Option.getD_none, List.take_length] at hindex
    exact findFrom_eq_none_iff.mp hfind index (Nat.zero_le _) byte hindex
  | some position =>
    rw [hfind, Option.getD_some] at hindex
    have hlt : index < position := by
      by_contra hge
      rw [List.getElem?_take_eq_none (Nat.le_of_not_lt hge)] at hindex
      cases hindex
    rw [List.getElem?_take_of_lt hlt] at hindex
    exact (findFrom_eq_some_iff.mp hfind).2.2 index (Nat.zero_le _) hlt byte hindex

theorem noDotSegment_root : NoDotSegment (lit "/") := by
  apply @UriResolution.noDotSegment_ofSegments [[]]
  intro segment hsegment
  rw [List.mem_singleton.mp hsegment]
  refine ⟨List.not_mem_nil, ?_⟩
  rintro (heq | heq) <;> cases heq

/-- What a location is resolved to. -/
def ResolvesTo (origin : HttpOrigin) (currentTarget location : Bytes) (resolved : HttpClientResolvedRedirect) : Prop :=
  ∃ reference : HttpReference, Reads location reference ∧
    ((resolve (baseUrl origin currentTarget) reference).path = [] ↔
      reference.authority.isSome = true ∧ reference.path = []) ∧
    Redirects origin currentTarget reference (resolve (baseUrl origin currentTarget) reference)
      (rootedPath (resolve (baseUrl origin currentTarget) reference).path) resolved

/-- **A redirect to a location with an authority.** -/
theorem redirects_authority {name : Option Bytes} {named : Option HttpScheme} {authorityText : Bytes}
    (hname : ∀ text ∈ name, isValidUriScheme text = true) (hnamed : name.map httpSchemeOfName = named.map some)
    (hauthority : ∀ byte ∈ authorityText, isPathOrQueryStart byte = false)
    (hlocation : location = delimited (· ++ [colon]) name ++ (slash :: slash :: (authorityText ++ behind)) ++
      delimited (numberSign :: ·) fragment)
    (hnumber : numberSign ∉ authorityText ++ behind)
    (hparsed : parseHttpClientRedirectAuthority origin (named.getD origin.scheme) authorityText = some parsed)
    (htarget : resolveHttpClientRedirectPathAndQuery true behind currentTarget = some target) :
    ResolvesTo origin currentTarget location
      ⟨named.getD origin.scheme, parsed.host, parsed.port, target, !parsed.sameOrigin⟩ := by
  obtain ⟨authority, hread, hhost, hport, hsame⟩ := parseHttpClientRedirectAuthority_spec hparsed
  obtain ⟨path, query, hsplit, hrooted, rfl⟩ := resolved_authority htarget
  obtain ⟨hpieces, hquestion⟩ := splitAtByte_eq questionMark behind
  rw [hsplit] at hpieces hquestion
  have hdelimiter : ∀ byte ∈ authorityText, isUriDelimiter byte = false := by
    intro byte hbyte
    rw [← Bool.not_eq_true, isUriDelimiter_eq_true]
    have hplain := hauthority byte hbyte
    rw [← Bool.not_eq_true, isPathOrQueryStart_iff] at hplain
    rintro (rfl | rfl | rfl)
    · exact hplain (.inl rfl)
    · exact hplain (.inr rfl)
    · exact (not_mem_of_append hnumber).1 hbyte
  have hparts : uriParts location = ⟨name, some (uriAuthority authorityText), path, query, fragment⟩ := by
    apply uriParts_authority hname hdelimiter hrooted hquestion
    · rw [← hpieces]
      exact (not_mem_of_append hnumber).2
    · rw [hlocation, hpieces]
  have hpath : removeDotSegments path = [] ↔ path = [] := by
    constructor
    · intro hnil
      rcases hrooted with hempty | hhead
      · exact hempty
      · have hrest := (UriResolution.removeDotSegments_spec hhead).2
        rw [hnil] at hrest
        cases hrest
    · rintro rfl
      exact UriResolution.removeDotSegmentsFrom_nil []
  unfold ResolvesTo
  refine ⟨⟨named, some authority, path, query⟩, ⟨?_, ?_, ?_, ?_⟩, ?_, ?_⟩
  · rw [hparts]
    exact hnamed
  · rw [hparts]
    show some (parseHttpAuthority (uriAuthority authorityText).text) = some (some authority)
    rw [text_uriAuthority, hread]
  · rw [hparts]
  · rw [hparts]
  · rw [resolve_authority]
    exact hpath.trans (iff_and_self.mpr fun _ => rfl)
  · rw [resolve_authority]
    refine ⟨rfl, ⟨authority, rfl, hhost, hport⟩, rfl, .inl ?_, ?_⟩
    · unfold rootedPath
      by_cases hnil : removeDotSegments path = []
      · rw [if_pos hnil]
        exact noDotSegment_root
      · rw [if_neg hnil]
        rcases hrooted with rfl | hhead
        · exact absurd (hpath.mpr rfl) hnil
        · exact (UriResolution.removeDotSegments_spec hhead).1
    · rw [Bool.not_eq_true']
      exact hsame

/-- **A redirect to a location without an authority.** -/
theorem redirects_relative (hcurrent : isValidHttpOriginFormTarget currentTarget = true)
    (hcolon : locationColon reference = none) (hslashes : startsWithSlashes reference = false)
    (hlocation : location = reference ++ delimited (numberSign :: ·) fragment) (hnumber : numberSign ∉ reference)
    (htarget : resolveHttpClientRedirectPathAndQuery false reference currentTarget = some target) :
    ResolvesTo origin currentTarget location ⟨origin.scheme, origin.host, origin.port, target, false⟩ := by
  obtain ⟨path, query, hsplit, rfl, hne, hdots⟩ := @resolved_relative origin _ _ _ hcurrent htarget
  obtain ⟨hpieces, hquestion⟩ := splitAtByte_eq questionMark reference
  rw [hsplit] at hpieces hquestion
  have hparts : uriParts location = ⟨none, none, path, query, fragment⟩ :=
    uriParts_relative hcolon hslashes hquestion hpieces hnumber hlocation
  have hsame : ∀ base : HttpUrl, (resolve base ⟨none, none, path, query⟩).scheme = base.scheme ∧
      (resolve base ⟨none, none, path, query⟩).authority = base.authority := by
    intro base
    show (if _ then _ else if _ then _ else _ : HttpUrl).scheme = _ ∧
      (if _ then _ else if _ then _ else _ : HttpUrl).authority = _
    split_ifs <;> exact ⟨rfl, rfl⟩
  obtain ⟨hscheme, hauthority⟩ := hsame (baseUrl origin currentTarget)
  unfold ResolvesTo
  refine ⟨⟨none, none, path, query⟩, ⟨?_, ?_, ?_, ?_⟩, ?_, ?_⟩
  · rw [hparts]
    rfl
  · rw [hparts]
    rfl
  · rw [hparts]
  · rw [hparts]
  · exact iff_of_false hne fun hbad => Bool.false_ne_true hbad.1
  · rw [rootedPath, if_neg hne]
    refine ⟨hscheme.symm, ?_, rfl, ?_, ?_⟩
    · rw [hauthority]
      exact ⟨⟨origin.host, .value origin.port⟩, rfl, rfl, rfl⟩
    · rcases hdots with hplain | ⟨hempty, hcopied⟩
      · exact .inl hplain
      · exact .inr ⟨rfl, hempty, hcopied⟩
    · apply iff_of_false Bool.false_ne_true
      rintro (hbad | hbad | hbad) <;> exact hbad rfl

/-- **An accepted location is resolved as RFC 3986 resolves it**, but for an empty path, which is the root. -/
theorem redirect_resolution (origin : HttpOrigin) (currentTarget location : Bytes)
    (resolved : HttpClientResolvedRedirect)
    (h : resolveHttpClientRedirectTarget origin currentTarget location = .ok resolved) :
    ∃ reference : HttpReference, Reads (httpTrimOws location) reference ∧
      ((resolve (baseUrl origin currentTarget) reference).path = [] ↔
        reference.authority.isSome = true ∧ reference.path = []) ∧
      Redirects origin currentTarget reference (resolve (baseUrl origin currentTarget) reference)
        (rootedPath (resolve (baseUrl origin currentTarget) reference).path) resolved := by
  unfold resolveHttpClientRedirectTarget at h
  by_cases hcurrent : isValidHttpOriginFormTarget currentTarget = false
  · rw [if_pos hcurrent] at h
    cases h
  rw [if_neg hcurrent] at h
  rw [Bool.not_eq_false] at hcurrent
  obtain ⟨hpieces, hnumber⟩ := splitAtByte_eq numberSign (httpTrimOws location)
  obtain ⟨front, fragment, hsplit⟩ :
      ∃ front fragment, splitAtByte numberSign (httpTrimOws location) = (front, fragment) := ⟨_, _, rfl⟩
  rw [hsplit] at h hpieces hnumber
  dsimp only at h hpieces hnumber
  split_ifs at h
  cases hfront : locationFront origin.scheme front with
  | error error =>
    rw [hfront] at h
    cases h
  | ok located =>
    obtain ⟨scheme, hasAuthority, reference⟩ := located
    rw [hfront] at h
    rcases locationFront_cases hfront with
      ⟨name, rfl, rfl, hname, named, hnamed, rfl⟩ | ⟨rfl, rfl, rfl, hcolon, hslashes⟩
    · dsimp only at h
      have hauthority := authority_end reference
      generalize (findFrom isPathOrQueryStart reference 0).getD reference.length = authorityEnd at h hauthority
      cases hparsed : parseHttpClientRedirectAuthority origin (named.getD origin.scheme)
          (reference.take authorityEnd) with
      | none =>
        rw [hparsed] at h
        cases h
      | some parsed =>
        rw [hparsed] at h
        cases htarget : resolveHttpClientRedirectPathAndQuery true (reference.drop authorityEnd) currentTarget with
        | none =>
          rw [htarget] at h
          cases h
        | some target =>
          rw [htarget] at h
          rw [← Except.ok.inj h]
          rw [← List.take_append_drop authorityEnd reference] at hpieces hnumber
          have hpart := (not_mem_of_append hnumber).2
          simp only [List.mem_cons, not_or] at hpart
          exact redirects_authority hname hnamed hauthority hpieces hpart.2.2 hparsed htarget
    · dsimp only at h
      cases htarget : resolveHttpClientRedirectPathAndQuery false reference currentTarget with
      | none =>
        rw [htarget] at h
        cases h
      | some target =>
        rw [htarget] at h
        rw [← Except.ok.inj h, bne_self_eq_false]
        exact redirects_relative hcurrent hcolon hslashes hpieces hnumber htarget

/-- `../e//./f` behind `/b/c?d`. -/
theorem redirect_resolution_relative :
    resolveHttpClientRedirectTarget ⟨.http, lit "a", 80, by decide +kernel⟩ (lit "/b/c?d") (lit " ../e//./f?g#h") =
        .ok ⟨.http, lit "a", 80, lit "/e//f?g", false⟩ ∧
      ∃ reference : HttpReference, Reads (httpTrimOws (lit " ../e//./f?g#h")) reference ∧
        ((resolve (baseUrl ⟨.http, lit "a", 80, by decide +kernel⟩ (lit "/b/c?d")) reference).path = [] ↔
          reference.authority.isSome = true ∧ reference.path = []) ∧
        Redirects ⟨.http, lit "a", 80, by decide +kernel⟩ (lit "/b/c?d") reference
          (resolve (baseUrl ⟨.http, lit "a", 80, by decide +kernel⟩ (lit "/b/c?d")) reference)
          (rootedPath (resolve (baseUrl ⟨.http, lit "a", 80, by decide +kernel⟩ (lit "/b/c?d")) reference).path)
          ⟨.http, lit "a", 80, lit "/e//f?g", false⟩ :=
  ⟨by decide +kernel, redirect_resolution _ _ _ _ (by decide +kernel)⟩

/-- Without its path, `//b` is redirected to `/`. -/
theorem redirect_empty_path :
    ¬∀ (origin : HttpOrigin) (currentTarget location : Bytes) (resolved : HttpClientResolvedRedirect),
      resolveHttpClientRedirectTarget origin currentTarget location = .ok resolved →
      ∃ reference : HttpReference, Reads (httpTrimOws location) reference ∧
        Redirects origin currentTarget reference (resolve (baseUrl origin currentTarget) reference)
          (resolve (baseUrl origin currentTarget) reference).path resolved := by
  intro hall
  obtain ⟨⟨scheme, authority, path, query⟩, hreads, hredirects⟩ :=
    hall ⟨.http, lit "a", 80, by decide +kernel⟩ (lit "/") (lit "//b") ⟨.http, lit "b", 80, lit "/", true⟩
      (by decide +kernel)
  have hauthority : some (some ⟨lit "b", .absent⟩) = authority.map some := hreads.authority
  have hpath : [] = path := hreads.path
  subst hpath
  cases authority with
  | none => cases hauthority
  | some authority =>
    have htarget := hredirects.target
    rw [resolve_authority, show removeDotSegments [] = [] from UriResolution.removeDotSegmentsFrom_nil []] at htarget
    cases query with
    | none | some query => cases htarget

end

end Ruvia.Http
