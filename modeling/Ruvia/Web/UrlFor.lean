import Ruvia.Http.UrlEncoding
import Ruvia.Web.AllowedMethods

/-!
# `Web.UrlFor` — reverse routing

`url_for` walks the segments of a registered pattern twice: the first walk checks the values and measures the path,
the second one writes it. Each walk is read against the segments it produces (`writeUrl_spec`): the path that is
written has the measured size, it is matched by the pattern, and what the pattern captures decodes to the values
(`urlFor_round_trip`).
-/

namespace Ruvia.Web

open Library Ruvia.Http

/-! ## Values -/

def isUrlForSegmentByte (value : UInt8) : Bool :=
  (0x41 ≤ value && value ≤ 0x5a) || (0x61 ≤ value && value ≤ 0x7a) || (0x30 ≤ value && value ≤ 0x39) ||
    (lit "-._~!$&'()*+,;=:@").contains value

/-- The bytes that stay as they are. -/
def keepsUrlForByte (keepSlashes : Bool) (byte : UInt8) : Bool :=
  isUrlForSegmentByte byte || (keepSlashes && byte == Http.slash)

def urlForEncodedSize (value : Bytes) (keepSlashes : Bool) : Nat :=
  value.foldl (fun size byte => if keepsUrlForByte keepSlashes byte then size else size + 2) value.length

/-- `append_url_for_value`: a stretch of plain bytes, then a triplet, until the value ends. -/
def appendUrlForValue (output value : Bytes) (keepSlashes : Bool) : Bytes :=
  match _hescaped : value.dropWhile (keepsUrlForByte keepSlashes) with
  | [] => output ++ value.takeWhile (keepsUrlForByte keepSlashes)
  | escaped :: rest =>
    appendUrlForValue (output ++ value.takeWhile (keepsUrlForByte keepSlashes) ++ percentTriplet escaped) rest
      keepSlashes
termination_by value.length
decreasing_by
  have hle := List.length_dropWhile_le (keepsUrlForByte keepSlashes) value
  rw [_hescaped, List.length_cons] at hle
  omega

def isUrlForDotSegment (segment : Bytes) : Bool := segment == lit "." || segment == lit ".."

def hasUrlForDotSegment (value : Bytes) : Bool :=
  match _hslash : findByte Http.slash value 0 with
  | none => isUrlForDotSegment value
  | some separator =>
    if isUrlForDotSegment (value.take separator) then true else hasUrlForDotSegment (value.drop (separator + 1))
termination_by value.length
decreasing_by
  have hlt := (List.getElem?_eq_some_iff.mp (findByte_eq_some_iff.mp _hslash).2.1).1
  rw [List.length_drop]
  omega

/-! ## The two walks -/

inductive UrlForFailure where
  | invalidArgument (message : String)
  /-- The second walk reads behind the last value. -/
  | outOfBounds
  deriving DecidableEq, Repr

/-- The walk that checks the values and measures the path; it returns the size, and the values it has not used. -/
def measureUrl (remaining : Bytes) (values : List Bytes) (estimatedSize : Nat) :
    Except UrlForFailure (Nat × List Bytes) :=
  match _hsplit : splitPathSegment remaining with
  | none => .ok (estimatedSize, values)
  | some (segment, rest) =>
    if segment = lit "*" ∧ rest = [] then
      match values with
      | [] => .error (.invalidArgument "url_for is missing a value for '*'")
      | value :: values =>
        if hasUrlForDotSegment value then
          .error (.invalidArgument "url_for '*' value must not contain a '.' or '..' segment")
        else if Http.backslash ∈ value ∨ (estimatedSize = 0 ∧ value.head? = some Http.slash) then
          .error (.invalidArgument "url_for '*' value has a separator the route cannot capture")
        else if value ≠ [] then measureUrl rest values (estimatedSize + (1 + urlForEncodedSize value true))
        else if estimatedSize = 0 then measureUrl rest values (estimatedSize + 1)
        else measureUrl rest values estimatedSize
    else if estimatedSize = 0 ∧ segment = [] then
      .error (.invalidArgument "url_for pattern must not start with an empty segment")
    else if segment.head? = some colon then
      match values with
      | [] => .error (.invalidArgument "url_for is missing a route parameter value")
      | value :: values =>
        if value = [] then .error (.invalidArgument "url_for route parameter value must not be empty")
        else if isUrlForDotSegment value then
          .error (.invalidArgument "url_for route parameter value must not be '.' or '..'")
        else measureUrl rest values (estimatedSize + 1 + urlForEncodedSize value false)
    else measureUrl rest values (estimatedSize + 1 + segment.length)
termination_by remaining.length
decreasing_by all_goals exact splitPathSegment_length _hsplit

/-- The walk that writes the path. -/
def writeUrl (remaining : Bytes) (values : List Bytes) (url : Bytes) : Except UrlForFailure Bytes :=
  match _hsplit : splitPathSegment remaining with
  | none => .ok url
  | some (segment, rest) =>
    if segment = lit "*" ∧ rest = [] then
      match values with
      | [] => .error .outOfBounds
      | value :: values =>
        if value ≠ [] then writeUrl rest values (appendUrlForValue (url ++ [Http.slash]) value true)
        else if url = [] then writeUrl rest values (url ++ [Http.slash])
        else writeUrl rest values url
    else if segment.head? = some colon then
      match values with
      | [] => .error .outOfBounds
      | value :: values => writeUrl rest values (appendUrlForValue (url ++ [Http.slash]) value false)
    else writeUrl rest values (url ++ [Http.slash] ++ segment)
termination_by remaining.length
decreasing_by all_goals exact splitPathSegment_length _hsplit

/-- `std::ranges::binary_search` over the patterns. -/
def hasUrlPattern (patterns : List Bytes) (pattern : Bytes) : Bool :=
  match patterns[partitionPoint (fun other => decide (other < pattern)) patterns]? with
  | none => false
  | some found => !decide (pattern < found)

def CompiledRoutePlan.urlFor (plan : CompiledRoutePlan) (pattern : Bytes) (values : List Bytes) :
    Except UrlForFailure Bytes :=
  if !hasUrlPattern plan.urlPatterns pattern then
    .error (.invalidArgument "url_for pattern is not a registered route")
  else
    match measureUrl pattern values 0 with
    | .error failure => .error failure
    | .ok (_, unused) =>
      if unused ≠ [] then
        .error (.invalidArgument "url_for received more values than the pattern has parameters")
      else writeUrl pattern values []

/-! ## Encoding values -/

theorem keepsUrlForByte_percent (keepSlashes : Bool) : keepsUrlForByte keepSlashes percent = false := by
  cases keepSlashes with
  | true | false => decide

theorem keepsUrlForByte_slash : keepsUrlForByte false Http.slash = false := by decide

theorem encodeUrlBytes_takeWhile (keeps : UInt8 → Bool) (value : Bytes) :
    encodeUrlBytes keeps (value.takeWhile keeps) = value.takeWhile keeps := by
  induction value with
  | nil => rfl
  | cons byte rest ih =>
    rw [List.takeWhile_cons]
    split
    · rename_i hkeeps
      rw [encodeUrlBytes_cons, if_pos hkeeps, ih]
      rfl
    · rfl

/-- The loop writes the encoded value. -/
theorem appendUrlForValue_eq (output value : Bytes) (keepSlashes : Bool) :
    appendUrlForValue output value keepSlashes = output ++ encodeUrlBytes (keepsUrlForByte keepSlashes) value := by
  induction hlen : value.length using Nat.strong_induction_on generalizing output value with
  | _ n ih =>
    rw [appendUrlForValue]
    split
    · rename_i hrest
      have hall : value.takeWhile (keepsUrlForByte keepSlashes) = value := by
        have hsplit := List.takeWhile_append_dropWhile (p := keepsUrlForByte keepSlashes) (l := value)
        rwa [hrest, List.append_nil] at hsplit
      rw [← encodeUrlBytes_takeWhile, hall]
    · rename_i escaped rest hrest
      have hsplit := List.takeWhile_append_dropWhile (p := keepsUrlForByte keepSlashes) (l := value)
      have hescaped : ¬ keepsUrlForByte keepSlashes escaped = true := by
        have hhead := List.head?_dropWhile_not (keepsUrlForByte keepSlashes) value
        rw [hrest] at hhead
        rw [hhead]
        decide
      have hlt : rest.length < n := by
        have hle := List.length_dropWhile_le (keepsUrlForByte keepSlashes) value
        rw [hrest, List.length_cons] at hle
        omega
      rw [ih _ hlt _ _ rfl]
      conv_rhs => rw [← hsplit, hrest, encodeUrlBytes_append, encodeUrlBytes_takeWhile, encodeUrlBytes_cons,
        if_neg hescaped]
      simp only [List.append_assoc]

theorem urlForEncodedSize_eq (value : Bytes) (keepSlashes : Bool) :
    urlForEncodedSize value keepSlashes = (encodeUrlBytes (keepsUrlForByte keepSlashes) value).length := by
  have hfold : ∀ (rest : Bytes) (size : Nat),
      rest.foldl (fun size byte => if keepsUrlForByte keepSlashes byte then size else size + 2) size =
        size + 2 * rest.countP fun byte => !keepsUrlForByte keepSlashes byte := by
    intro rest
    induction rest with
    | nil => exact fun size => rfl
    | cons byte rest ih =>
      intro size
      rw [List.foldl_cons, ih, List.countP_cons]
      cases keepsUrlForByte keepSlashes byte with
      | true => simp
      | false =>
        simp only [Bool.false_eq_true, if_false, Bool.not_false, if_true]
        omega
  rw [urlForEncodedSize, hfold, length_encodeUrlBytes]

/-- The wildcard value's segments are encoded one by one. -/
theorem splitOn_encode (value : Bytes) :
    (encodeUrlBytes (keepsUrlForByte true) value).splitOn Http.slash =
      (value.splitOn Http.slash).map (encodeUrlBytes (keepsUrlForByte false)) := by
  have hsame : ∀ piece : Bytes, Http.slash ∉ piece →
      encodeUrlBytes (keepsUrlForByte true) piece = encodeUrlBytes (keepsUrlForByte false) piece := by
    intro piece
    induction piece with
    | nil => exact fun _ => rfl
    | cons byte rest ih =>
      intro hslash
      rw [List.mem_cons, not_or] at hslash
      have hkeeps : keepsUrlForByte true byte = keepsUrlForByte false byte := by
        rw [keepsUrlForByte, keepsUrlForByte, beq_eq_false_iff_ne.mpr (Ne.symm hslash.1), Bool.and_false]
        rfl
      rw [encodeUrlBytes_cons, encodeUrlBytes_cons, ih hslash.2, hkeeps]
  induction hlen : value.length using Nat.strong_induction_on generalizing value with
  | _ n ih =>
    cases hfind : findByte Http.slash value 0 with
    | none =>
      have hslash := slash_not_mem_of_findByte_none hfind
      rw [List.splitOn_eq_singleton hslash, hsame value hslash,
        List.splitOn_eq_singleton (slash_not_mem_encode keepsUrlForByte_slash value)]
      rfl
    | some separator =>
      have hslash := slash_not_mem_take hfind
      have hlt := (List.getElem?_eq_some_iff.mp (findByte_eq_some_iff.mp hfind).2.1).1
      have hrest := ih (value.drop (separator + 1)).length (by rw [List.length_drop]; omega) _ rfl
      rw [splitOn_of_findByte_some hfind, List.map_cons, ← hrest]
      conv_lhs => rw [← List.take_append_drop separator value, drop_eq_slash_cons hfind, encodeUrlBytes_append,
        hsame _ hslash, encodeUrlBytes_cons, if_pos (by decide), List.singleton_append]
      exact List.splitOn_append_cons_self_of_not_mem (slash_not_mem_encode keepsUrlForByte_slash _) _

/-! ## Dot segments -/

theorem hasUrlForDotSegment_eq (value : Bytes) :
    hasUrlForDotSegment value = (value.splitOn Http.slash).any isUrlForDotSegment := by
  fun_induction hasUrlForDotSegment value with
  | case1 value hnone =>
    rw [List.splitOn_eq_singleton (slash_not_mem_of_findByte_none hnone), List.any_cons, List.any_nil, Bool.or_false]
  | case2 value separator hsome hdot => rw [splitOn_of_findByte_some hsome, List.any_cons, hdot, Bool.true_or]
  | case3 value separator hsome hdot ih =>
    rw [splitOn_of_findByte_some hsome, List.any_cons, ih, eq_false_of_ne_true hdot, Bool.false_or]

/-- An encoded value is a dot segment only if the value is one. -/
theorem isDotSegment_encode {value : Bytes}
    (h : isDotSegment (encodeUrlBytes (keepsUrlForByte false) value) = true) : isUrlForDotSegment value = true := by
  have hunits := uriPathUnits_encode (keepsUrlForByte_percent false) value
  have hplain : (fun byte : UInt8 =>
      if (keepsUrlForByte false byte && byte == Http.slash) = true then uriPathSeparatorUnit
      else (byte.toNat : Int)) = fun byte => (byte.toNat : Int) := by
    funext byte
    refine if_neg fun hkeeps => ?_
    rw [Bool.and_eq_true, beq_iff_eq] at hkeeps
    rw [hkeeps.2, keepsUrlForByte_slash] at hkeeps
    cases hkeeps.1
  rw [hplain] at hunits
  have hinj : Function.Injective fun byte : UInt8 => (byte.toNat : Int) := by
    intro left right heq
    exact UInt8.toNat_inj.mp (Int.ofNat_inj.mp heq)
  have heq : ∀ dots : Bytes, uriPathUnits dots = dots.map (fun byte => (byte.toNat : Int)) →
      uriPathsEquivalent (encodeUrlBytes (keepsUrlForByte false) value) dots = true → value = dots := by
    intro dots hdots hequiv
    have hsame := ((uriPathsEquivalent_iff _ _).mp hequiv).2
    rw [hunits, hdots] at hsame
    exact hinj.list_map hsame
  rw [isDotSegment, Bool.and_eq_true, Bool.or_eq_true] at h
  rw [isUrlForDotSegment, Bool.or_eq_true, beq_iff_eq, beq_iff_eq]
  exact h.2.imp (heq (lit ".") (by decide +kernel)) (heq (lit "..") (by decide +kernel))

/-! ## Paths -/

/-- A piece without a slash, in front of the rest of a path. -/
theorem pathSegments_piece {piece rest : Bytes} (hpiece : Http.slash ∉ piece)
    (hrest : rest = [] ∨ rest.head? = some Http.slash) :
    pathSegments (Http.slash :: (piece ++ rest)) = piece :: pathSegments rest := by
  rw [pathSegments_cons_slash]
  rcases hrest with rfl | hhead
  · rw [List.append_nil, List.splitOn_eq_singleton hpiece, pathSegments_nil]
  · obtain ⟨tail, rfl⟩ := List.head?_eq_some_iff.mp hhead
    exact List.splitOn_append_cons_self_of_not_mem hpiece _

/-- A dot segment of an origin path is one of its segments. -/
theorem hasDotSegment_eq {path : Bytes} (hpath : path.head? = some Http.slash) :
    hasDotSegment path = (pathSegments path).any isDotSegment := by
  obtain ⟨rest, rfl⟩ := List.head?_eq_some_iff.mp hpath
  have hfront : (Http.slash :: rest).splitOn Http.slash = [] :: rest.splitOn Http.slash :=
    List.splitOn_append_cons_self_of_not_mem List.not_mem_nil rest
  rfl

/-- **What the walks make of the rest of a pattern**: a path of its own, which the rest matches; its captures decode
to the values; and it has no dot segments. -/
structure Written (remaining : Bytes) (values : List Bytes) (suffix : Bytes) : Prop where
  origin : suffix = [] ∨ suffix.head? = some Http.slash
  matched : ∃ captures, PatternMatches remaining suffix captures ∧
    captures.mapM (decodeUrlComponent .percent) = some values
  noDots : ∀ segment ∈ pathSegments suffix, isDotSegment segment = false

/-- What the pattern of a registered route is. -/
structure SoundPattern (remaining : Bytes) : Prop where
  wellFormed : ∀ segment ∈ pathSegments remaining, WellFormedPath segment
  noDots : ∀ segment ∈ pathSegments remaining, isDotSegment segment = false
  final : WildcardFinal (patternSegments remaining)

section

variable {remaining segment rest : Bytes} {values : List Bytes}

theorem SoundPattern.tail (h : SoundPattern remaining) (hsplit : splitPathSegment remaining = some (segment, rest))
    (hwild : ¬ isWildcardSegment segment = true) : SoundPattern rest := by
  obtain ⟨hsegments, -, -⟩ := splitPathSegment_some hsplit
  have hmem : ∀ other ∈ pathSegments rest, other ∈ pathSegments remaining := by
    intro other hother
    rw [hsegments]
    exact List.mem_cons_of_mem _ hother
  refine ⟨fun other hother => h.wellFormed other (hmem other hother),
    fun other hother => h.noDots other (hmem other hother), ?_⟩
  have hfinal := h.final
  rw [patternSegments_cons hsplit, PatternSegment.ofText, if_neg hwild] at hfinal
  split at hfinal
  · exact hfinal
  · exact hfinal

/-- The wildcard is at the end. -/
theorem SoundPattern.tail_nil (h : SoundPattern remaining) (hsplit : splitPathSegment remaining = some (segment, rest))
    (hwild : isWildcardSegment segment = true) : rest = [] := by
  have hfinal := h.final
  rw [patternSegments_wildcard hsplit hwild] at hfinal
  have hnil : pathSegments rest = [] := List.map_eq_nil_iff.mp hfinal
  by_contra hne
  exact pathSegments_ne_nil hne hnil

/-- A parameter's value in front of the rest. -/
theorem Written.param (hsplit : splitPathSegment remaining = some (segment, rest))
    (hwild : ¬ isWildcardSegment segment = true) (hparam : isParamSegment segment = true) {value : Bytes}
    (hne : value ≠ []) (hdots : isUrlForDotSegment value = false) {suffix : Bytes} (h : Written rest values suffix) :
    Written remaining (value :: values)
      (Http.slash :: (encodeUrlBytes (keepsUrlForByte false) value ++ suffix)) := by
  have hsegments := pathSegments_piece (slash_not_mem_encode keepsUrlForByte_slash value) h.origin
  obtain ⟨captures, hmatch, hdecode⟩ := h.matched
  refine ⟨.inr rfl, ⟨encodeUrlBytes (keepsUrlForByte false) value :: captures, ?_, ?_⟩, fun other hother => ?_⟩
  · rw [PatternMatches, hsegments, patternSegments_param hsplit hwild hparam]
    refine .param ?_ hmatch
    intro hnil
    have hlength := length_encodeUrlBytes (keepsUrlForByte false) value
    rw [hnil, List.length_nil] at hlength
    exact hne (List.length_eq_zero_iff.mp (by omega))
  · rw [List.mapM_cons, decodeUrlComponent_encode (keepsUrlForByte_percent false), hdecode]
    rfl
  · rw [hsegments] at hother
    rcases List.mem_cons.mp hother with rfl | hmem
    · by_contra hdot
      rw [Bool.not_eq_false] at hdot
      rw [isDotSegment_encode hdot] at hdots
      cases hdots
    · exact h.noDots other hmem

/-- A literal in front of the rest. -/
theorem Written.literal (hsound : SoundPattern remaining) (hsplit : splitPathSegment remaining = some (segment, rest))
    (hwild : ¬ isWildcardSegment segment = true) (hparam : ¬ isParamSegment segment = true) {suffix : Bytes}
    (h : Written rest values suffix) : Written remaining values (Http.slash :: (segment ++ suffix)) := by
  obtain ⟨hpattern, -, -⟩ := splitPathSegment_some hsplit
  have hmem : segment ∈ pathSegments remaining := by
    rw [hpattern]
    exact List.mem_cons_self
  have hsegments := pathSegments_piece (splitPathSegment_no_slash hsplit) h.origin
  obtain ⟨captures, hmatch, hdecode⟩ := h.matched
  refine ⟨.inr rfl, ⟨captures, ?_, hdecode⟩, fun other hother => ?_⟩
  · rw [PatternMatches, hsegments, patternSegments_literal hsplit hwild hparam]
    exact .literal (uriPathsEquivalent_refl (hsound.wellFormed segment hmem)) hmatch
  · rw [hsegments] at hother
    rcases List.mem_cons.mp hother with rfl | hrest
    · exact hsound.noDots _ hmem
    · exact h.noDots other hrest

/-- The wildcard's value. -/
theorem Written.wildcard (hsplit : splitPathSegment remaining = some (segment, []))
    (hwild : isWildcardSegment segment = true) {value : Bytes} (hdots : hasUrlForDotSegment value = false) :
    Written remaining [value] (Http.slash :: encodeUrlBytes (keepsUrlForByte true) value) := by
  have hsegments : pathSegments (Http.slash :: encodeUrlBytes (keepsUrlForByte true) value) =
      (value.splitOn Http.slash).map (encodeUrlBytes (keepsUrlForByte false)) := by
    rw [pathSegments_cons_slash, splitOn_encode]
  refine ⟨.inr rfl, ⟨[encodeUrlBytes (keepsUrlForByte true) value], ?_, ?_⟩, fun other hother => ?_⟩
  · have hjoin : [Http.slash].intercalate (pathSegments (Http.slash :: encodeUrlBytes (keepsUrlForByte true) value)) =
        encodeUrlBytes (keepsUrlForByte true) value := intercalate_pathSegments (List.cons_ne_nil _ _)
    have hmatch := @SegmentsMatch.wildcard (pathSegments (Http.slash :: encodeUrlBytes (keepsUrlForByte true) value))
    rw [hjoin] at hmatch
    rw [PatternMatches, patternSegments_wildcard hsplit hwild]
    exact hmatch
  · rw [List.mapM_cons, decodeUrlComponent_encode (keepsUrlForByte_percent true)]
    rfl
  · rw [hsegments] at hother
    obtain ⟨piece, hpiece, rfl⟩ := List.mem_map.mp hother
    by_contra hdot
    rw [Bool.not_eq_false] at hdot
    rw [hasUrlForDotSegment_eq, List.any_eq_false] at hdots
    exact hdots piece hpiece (isDotSegment_encode hdot)

/-- An empty value for the wildcard: no text at all, or the slash of a path that has none yet. -/
theorem Written.empty (hsplit : splitPathSegment remaining = some (segment, []))
    (hwild : isWildcardSegment segment = true) {suffix : Bytes} (hsuffix : suffix = [] ∨ suffix = [Http.slash]) :
    Written remaining [[]] suffix := by
  have hjoin : [Http.slash].intercalate (pathSegments suffix) = [] := by
    rcases hsuffix with rfl | rfl
    · rfl
    · rfl
  have hmatch := @SegmentsMatch.wildcard (pathSegments suffix)
  rw [hjoin] at hmatch
  refine ⟨?_, ⟨[[]], ?_, ?_⟩, fun other hother => ?_⟩
  · exact hsuffix.imp_right fun heq => by rw [heq]; rfl
  · rw [PatternMatches, patternSegments_wildcard hsplit hwild]
    exact hmatch
  · rw [List.mapM_cons, decodeUrlComponent]
    rfl
  · rcases hsuffix with rfl | rfl
    · cases hother
    · rw [List.mem_singleton.mp hother]
      rfl

/-- **What the first walk accepts.** -/
theorem measureUrl_ok {estimatedSize total : Nat} {unused : List Bytes}
    (h : measureUrl remaining values estimatedSize = .ok (total, unused)) :
    (splitPathSegment remaining = none ∧ total = estimatedSize ∧ unused = values) ∨
      (∃ segment value, splitPathSegment remaining = some (segment, []) ∧ isWildcardSegment segment = true ∧
        values = value :: unused ∧ hasUrlForDotSegment value = false ∧
        total = if value ≠ [] then estimatedSize + (1 + urlForEncodedSize value true)
          else if estimatedSize = 0 then estimatedSize + 1 else estimatedSize) ∨
      (∃ segment rest value values', splitPathSegment remaining = some (segment, rest) ∧
        ¬ (segment = lit "*" ∧ rest = []) ∧ isParamSegment segment = true ∧ values = value :: values' ∧ value ≠ [] ∧
        isUrlForDotSegment value = false ∧
        measureUrl rest values' (estimatedSize + 1 + urlForEncodedSize value false) = .ok (total, unused)) ∨
      ∃ segment rest, splitPathSegment remaining = some (segment, rest) ∧ ¬ (segment = lit "*" ∧ rest = []) ∧
        ¬ isParamSegment segment = true ∧
        measureUrl rest values (estimatedSize + 1 + segment.length) = .ok (total, unused) := by
  have hend : ∀ (values : List Bytes) (size : Nat), measureUrl [] values size = .ok (size, values) := by
    intro values size
    rw [measureUrl]
    rfl
  rw [measureUrl] at h
  split at h
  · rename_i hsplit
    cases h
    exact .inl ⟨hsplit, rfl, rfl⟩
  · rename_i segment rest hsplit
    split at h
    · rename_i hwild
      obtain ⟨rfl, rfl⟩ := hwild
      split at h
      · cases h
      · rename_i value values'
        split at h
        · cases h
        · rename_i hdots
          split at h
          · cases h
          · simp only [hend] at h
            refine .inr (.inl ⟨_, value, hsplit, rfl, ?_⟩)
            split at h
            · rename_i hne
              cases h
              exact ⟨rfl, eq_false_of_ne_true hdots, (if_pos hne).symm⟩
            · rename_i hnil
              split at h
              · rename_i hzero
                cases h
                exact ⟨rfl, eq_false_of_ne_true hdots, by rw [if_neg hnil, if_pos hzero]⟩
              · rename_i hzero
                cases h
                exact ⟨rfl, eq_false_of_ne_true hdots, by rw [if_neg hnil, if_neg hzero]⟩
    · rename_i hwild
      split at h
      · cases h
      · split at h
        · rename_i hparam
          split at h
          · cases h
          · rename_i value values'
            split at h
            · cases h
            · rename_i hne
              split at h
              · cases h
              · rename_i hdots
                exact .inr (.inr (.inl ⟨segment, rest, value, values', hsplit, hwild, beq_iff_eq.mpr hparam, rfl, hne,
                  eq_false_of_ne_true hdots, h⟩))
        · rename_i hparam
          exact .inr (.inr (.inr ⟨segment, rest, hsplit, hwild, fun heq => hparam (beq_iff_eq.mp heq), h⟩))

/-- The first walk never reads behind the values. -/
theorem measureUrl_ne_outOfBounds {estimatedSize : Nat} :
    ¬ measureUrl remaining values estimatedSize = .error .outOfBounds := by
  induction hlen : remaining.length using Nat.strong_induction_on generalizing remaining values estimatedSize with
  | _ n ih =>
    rw [measureUrl]
    split
    · exact nofun
    · rename_i hsplit
      have hrest := fun values estimatedSize =>
        @ih _ (hlen ▸ splitPathSegment_length hsplit) _ values estimatedSize rfl
      repeat' split
      all_goals first | exact hrest _ _ | exact nofun

/-! The second walk, step by step. -/

theorem writeUrl_wildcard (hsplit : splitPathSegment remaining = some (segment, []))
    (hwild : isWildcardSegment segment = true) (value url : Bytes) :
    writeUrl remaining [value] url =
      .ok (if value ≠ [] then appendUrlForValue (url ++ [Http.slash]) value true
        else if url = [] then url ++ [Http.slash] else url) := by
  have hend : ∀ url : Bytes, writeUrl [] [] url = .ok url := by
    intro url
    rw [writeUrl]
    rfl
  rw [writeUrl]
  split
  · rename_i hnone
    rw [hsplit] at hnone
    cases hnone
  · rename_i heq
    rw [hsplit] at heq
    cases heq
    rw [if_pos ⟨beq_iff_eq.mp hwild, rfl⟩]
    dsimp only
    rw [hend, hend, hend]
    split
    · rfl
    · split
      · rfl
      · rfl

section

variable (hsplit : splitPathSegment remaining = some (segment, rest))
include hsplit

theorem writeUrl_param
    (hwild : ¬ (segment = lit "*" ∧ rest = [])) (hparam : isParamSegment segment = true) (value url : Bytes)
    (values : List Bytes) :
    writeUrl remaining (value :: values) url =
      writeUrl rest values (appendUrlForValue (url ++ [Http.slash]) value false) := by
  rw [writeUrl]
  split
  · rename_i hnone
    rw [hsplit] at hnone
    cases hnone
  · rename_i heq
    rw [hsplit] at heq
    cases heq
    rw [if_neg hwild, if_pos (beq_iff_eq.mp hparam)]

theorem writeUrl_literal
    (hwild : ¬ (segment = lit "*" ∧ rest = [])) (hparam : ¬ isParamSegment segment = true) (url : Bytes)
    (values : List Bytes) : writeUrl remaining values url = writeUrl rest values (url ++ [Http.slash] ++ segment) := by
  rw [writeUrl]
  split
  · rename_i hnone
    rw [hsplit] at hnone
    cases hnone
  · rename_i heq
    rw [hsplit] at heq
    cases heq
    rw [if_neg hwild, if_neg (fun hhead => hparam (beq_iff_eq.mpr hhead))]

end

/-- **The second walk writes what the first one has measured**, and what it writes is matched by the pattern. -/
theorem writeUrl_spec {estimatedSize total : Nat} {url : Bytes} (hsound : SoundPattern remaining)
    (h : measureUrl remaining values estimatedSize = .ok (total, [])) (hstart : estimatedSize = 0 ↔ url = []) :
    ∃ suffix, writeUrl remaining values url = .ok (url ++ suffix) ∧ total = estimatedSize + suffix.length ∧
      Written remaining values suffix ∧ (estimatedSize = 0 → remaining ≠ [] → suffix ≠ []) := by
  induction hlen : remaining.length using Nat.strong_induction_on generalizing remaining values estimatedSize url with
  | _ n ih =>
    have hnext : ∀ piece : Bytes, estimatedSize + 1 + piece.length = 0 ↔ url ++ [Http.slash] ++ piece = [] := by
      intro piece
      refine ⟨fun hzero => by omega, fun hnil => ?_⟩
      rw [List.append_eq_nil_iff, List.append_eq_nil_iff] at hnil
      cases hnil.1.2
    rcases measureUrl_ok h with ⟨hsplit, rfl, rfl⟩ | ⟨segment, value, hsplit, hwild, rfl, hdots, rfl⟩ |
      ⟨segment, rest, value, values', hsplit, hnotFinal, hparam, rfl, hne, hdots, hrest⟩ |
      ⟨segment, rest, hsplit, hnotFinal, hparam, hrest⟩
    · obtain rfl := splitPathSegment_eq_none_iff.mp hsplit
      refine ⟨[], ?_, rfl, ⟨.inl rfl, ⟨[], .done, rfl⟩, nofun⟩, fun _ hne => absurd rfl hne⟩
      rw [writeUrl, List.append_nil]
      rfl
    · rw [writeUrl_wildcard hsplit hwild]
      by_cases hvalue : value = []
      · subst hvalue
        rw [if_neg (not_not.mpr rfl), if_neg (not_not.mpr rfl)]
        by_cases hzero : estimatedSize = 0
        · rw [if_pos hzero, if_pos (hstart.mp hzero)]
          exact ⟨[Http.slash], rfl, rfl, .empty hsplit hwild (.inr rfl), fun _ _ => List.cons_ne_nil _ _⟩
        · rw [if_neg hzero, if_neg (fun hnil => hzero (hstart.mpr hnil))]
          exact ⟨[], by rw [List.append_nil], rfl, .empty hsplit hwild (.inl rfl), fun heq => absurd heq hzero⟩
      · rw [if_pos hvalue, if_pos hvalue, appendUrlForValue_eq, urlForEncodedSize_eq, List.append_assoc]
        refine ⟨_, rfl, ?_, .wildcard hsplit hwild hdots, fun _ _ => List.cons_ne_nil _ _⟩
        rw [List.singleton_append, List.length_cons]
        omega
    · have hwild : ¬ isWildcardSegment segment = true := fun hwild =>
        absurd hparam (by rw [isParamSegment_of_isWildcardSegment hwild]; decide)
      rw [urlForEncodedSize_eq] at hrest
      obtain ⟨suffix, hwrite, htotal, hwritten, -⟩ := ih _ (hlen ▸ splitPathSegment_length hsplit)
        (hsound.tail hsplit hwild) hrest (hnext _) rfl
      refine ⟨Http.slash :: (encodeUrlBytes (keepsUrlForByte false) value ++ suffix), ?_, ?_,
        .param hsplit hwild hparam hne hdots hwritten, fun _ _ => List.cons_ne_nil _ _⟩
      · rw [writeUrl_param hsplit hnotFinal hparam, appendUrlForValue_eq, hwrite]
        simp only [List.append_assoc, List.cons_append, List.nil_append]
      · rw [htotal, List.length_cons, List.length_append]
        omega
    · have hwild : ¬ isWildcardSegment segment = true := fun hwild =>
        hnotFinal ⟨beq_iff_eq.mp hwild, hsound.tail_nil hsplit hwild⟩
      obtain ⟨suffix, hwrite, htotal, hwritten, -⟩ := ih _ (hlen ▸ splitPathSegment_length hsplit)
        (hsound.tail hsplit hwild) hrest (hnext _) rfl
      refine ⟨Http.slash :: (segment ++ suffix), ?_, ?_, .literal hsound hsplit hwild hparam hwritten,
        fun _ _ => List.cons_ne_nil _ _⟩
      · rw [writeUrl_literal hsplit hnotFinal hparam, hwrite]
        simp only [List.append_assoc, List.cons_append, List.nil_append]
      · rw [htotal, List.length_cons, List.length_append]
        omega

end

/-! ## Registered patterns -/

variable {maxSize : Nat} {routes : List RouteEntry} {endpoints : Nat → EndpointKind} {plan : CompiledRoutePlan}

/-- A sorted list is searched soundly. -/
theorem mem_of_hasUrlPattern {patterns : List Bytes} {pattern : Bytes} (hsorted : patterns.Pairwise (· ≤ ·))
    (h : hasUrlPattern patterns pattern = true) : pattern ∈ patterns := by
  have hpartitioned : Partitioned (fun other => decide (other < pattern)) patterns :=
    partitioned_of_pairwise hsorted fun _ _ hle hlt =>
      decide_eq_true (List.lt_of_le_of_lt hle (of_decide_eq_true hlt))
  unfold hasUrlPattern at h
  split at h
  · cases h
  · rename_i found hfound
    have hbehind := (partitionPoint_spec hpartitioned).2 _ found le_rfl hfound
    rw [decide_eq_false_iff_not] at hbehind
    rw [Bool.not_eq_true', decide_eq_false_iff_not] at h
    rw [List.le_antisymm (List.not_lt.mp hbehind) (List.not_lt.mp h)]
    exact List.mem_of_getElem? hfound

theorem mem_buildUrlPatterns {pattern : Bytes} (h : pattern ∈ buildUrlPatterns routes) :
    ∃ route ∈ routes, route.tunnel ≠ some [] ∧ route.path = pattern := by
  have hmem := (List.mem_insertionSort _).mp ((List.destutter_sublist _ _).subset h)
  obtain ⟨route, hroute, rfl⟩ := List.mem_map.mp hmem
  obtain ⟨hroute, htunnel⟩ := List.mem_filter.mp hroute
  exact ⟨route, hroute, bne_iff_ne.mp htunnel, rfl⟩

/-- A pattern without parameters has no wildcard to be out of place. -/
theorem wildcardFinal_of_static {path : Bytes} (h : isDynamicPath path = false) :
    WildcardFinal (patternSegments path) := by
  induction hlen : path.length using Nat.strong_induction_on generalizing path with
  | _ n ih =>
    rw [isDynamicPath] at h
    split at h
    · rename_i hsplit
      rw [patternSegments_eq_nil hsplit]
      trivial
    · rename_i segment rest hsplit
      split at h
      · cases h
      · rename_i hliteral
        rw [Bool.or_eq_true, not_or] at hliteral
        rw [patternSegments_literal hsplit hliteral.1 hliteral.2]
        exact ih _ (hlen ▸ splitPathSegment_length hsplit) h rfl

section

variable (h : compileRoutePlan maxSize routes endpoints = .ok plan)
include h

/-- Every dynamic route of a compiled plan is in a trie that was built. -/
theorem compileRoutePlan_tries {route : RouteEntry}
    (hroute : route ∈ routes) (hdynamic : route.dynamic = true) :
    ∃ index, buildDynamicRoutes (dynamicRoutesOf routes route.method route.tunnel) = .ok index := by
  cases htunnel : route.tunnel with
  | none =>
    obtain ⟨-, -, -, -, -, hroots, -⟩ := compileRoutePlan_ok h
    have hgroup : isDynamicMethodRoute route = true := by
      rw [isDynamicMethodRoute, hdynamic, htunnel]
      rfl
    obtain ⟨index, -, hbuild⟩ := hroots route.method (RouteEntry.routable_of_dynamic hgroup)
    exact ⟨index, hbuild⟩
  | some protocol =>
    have hmethod : route.method = .connect := by
      have haccepted := route.accepted
      simp only [validateRouteTarget, htunnel] at haccepted
      split_ifs at haccepted with hmethod
      all_goals
        rw [not_or, not_not] at hmethod
        exact hmethod.1
    have hmem : protocol ∈ dynamicProtocols routes :=
      List.mem_eraseDups.mpr (List.mem_filterMap.mpr ⟨route, List.mem_filter.mpr ⟨hroute, hdynamic⟩, htunnel⟩)
    obtain ⟨-, -, -, -, -, -, -, built, hbuilt⟩ := compileRoutePlan_ok h
    obtain ⟨i, hi⟩ := List.getElem?_of_mem hmem
    obtain ⟨entry, -, hentry⟩ := mapM_getElem? hbuilt hi
    rw [hmethod]
    unfold buildProtocol at hentry
    split at hentry
    · cases hentry
    · rename_i index hindex
      exact ⟨index, hindex⟩

/-- **The pattern of a registered route is sound.** -/
theorem soundPattern_of_compile {route : RouteEntry}
    (hroute : route ∈ routes) (htunnel : route.tunnel ≠ some []) : SoundPattern route.path := by
  obtain ⟨hhead, hwell⟩ := route.origin htunnel
  refine ⟨route.segments_wellFormed htunnel, fun segment hsegment => ?_, ?_⟩
  · have hdots := (route.checked htunnel).2.2
    rw [hasDotSegment_eq hhead, List.any_eq_false] at hdots
    exact eq_false_of_ne_true (hdots segment hsegment)
  · cases hdynamic : route.dynamic with
    | false =>
      rw [RouteEntry.dynamic, decide_eq_true htunnel, Bool.true_and] at hdynamic
      exact wildcardFinal_of_static hdynamic
    | true =>
      obtain ⟨index, hbuild⟩ := compileRoutePlan_tries h hroute hdynamic
      have hmem : route ∈ dynamicRoutesOf routes route.method route.tunnel := by
        refine List.mem_filter.mpr ⟨hroute, ?_⟩
        rw [hdynamic, beq_self_eq_true, beq_self_eq_true]
        rfl
      exact ((buildDynamicRoutes_holds (fun other hother => dynamicRoutesOf_origin hother)
        (validateNoDynamicRouteConflict_spec route.method route.tunnel (compileRoutePlan_ok h).1) hbuild).2.2
          route hmem).2

end

/-- **Reverse routing comes back.** For every pattern and list of values: the second walk never runs out of values; and
a path that is produced is that of a registered route, has the size that was measured, starts with a slash and has no
dot segment in any spelling; the pattern matches it, what it captures decodes to the values in order, and the walk
down a trie of the route ends at it with these captures. -/
theorem urlFor_round_trip {maxSize : Nat} {routes : List RouteEntry} {endpoints : Nat → EndpointKind}
    {plan : CompiledRoutePlan} (hcompile : compileRoutePlan maxSize routes endpoints = .ok plan) (pattern : Bytes)
    (values : List Bytes) :
    plan.urlFor pattern values ≠ .error .outOfBounds ∧
      ∀ url, plan.urlFor pattern values = .ok url →
        measureUrl pattern values 0 = .ok (url.length, []) ∧ url.head? = some Http.slash ∧ hasDotSegment url = false ∧
          ∃ route ∈ routes, route.path = pattern ∧ ∃ captures, PatternMatches pattern url captures ∧
            captures.mapM (decodeUrlComponent .percent) = some values ∧
            ∀ index, buildDynamicRoutes [route] = .ok index →
              findDynamicNode index.root url [] = (some route.index, captures) := by
  rw [CompiledRoutePlan.urlFor]
  split
  · exact ⟨nofun, fun url heq => (by cases heq)⟩
  · rename_i hpattern
    rw [Bool.not_eq_true', Bool.not_eq_false] at hpattern
    have hmem : pattern ∈ buildUrlPatterns routes := by
      rw [(compileRoutePlan_ok hcompile).2.2.2.2.2.2.1] at hpattern
      exact mem_of_hasUrlPattern
        ((List.pairwise_insertionSort (· ≤ ·) _).sublist (List.destutter_sublist _ _)) hpattern
    obtain ⟨route, hroute, htunnel, rfl⟩ := mem_buildUrlPatterns hmem
    have hsound := soundPattern_of_compile hcompile hroute htunnel
    have hne : route.path ≠ [] := by
      intro hnil
      have hhead := (route.origin htunnel).1
      rw [hnil] at hhead
      cases hhead
    split
    · rename_i failure hmeasure
      refine ⟨fun heq => ?_, fun url heq => (by cases heq)⟩
      cases heq
      exact measureUrl_ne_outOfBounds hmeasure
    · rename_i total unused hmeasure
      split
      · exact ⟨nofun, fun url heq => (by cases heq)⟩
      · rename_i hunused
        obtain rfl : unused = [] := not_not.mp hunused
        have hempty : (0 : Nat) = 0 ↔ ([] : Bytes) = [] := ⟨fun _ => rfl, fun _ => rfl⟩
        obtain ⟨url, hwrite, htotal, hwritten, hstart⟩ := writeUrl_spec hsound hmeasure hempty
        rw [List.nil_append] at hwrite
        rw [hwrite]
        refine ⟨nofun, fun other heq => ?_⟩
        cases heq
        have hhead := hwritten.origin.resolve_left (hstart rfl hne)
        obtain ⟨captures, hmatch, hdecode⟩ := hwritten.matched
        refine ⟨?_, hhead, ?_, route, hroute, rfl, captures, hmatch, hdecode, fun index hbuild =>
          findDynamicNode_of_match hbuild htunnel hhead hmatch⟩
        · rw [hmeasure, htotal, Nat.zero_add]
        · rw [hasDotSegment_eq hhead, List.any_eq_false]
          intro segment hsegment
          rw [hwritten.noDots segment hsegment]
          exact Bool.false_ne_true

/-- A value with a slash, for the wildcard of a table above. -/
theorem urlFor_round_trip_files :
    match compileRoutePlan 4096 fileRouter.routes fun _ => .buffered with
    | .error _ => False
    | .ok plan =>
      plan.urlFor (lit "/files/*") [lit "a b/c"] = .ok (lit "/files/a%20b/c") ∧
        ∃ captures, PatternMatches (lit "/files/*") (lit "/files/a%20b/c") captures ∧
          captures.mapM (decodeUrlComponent .percent) = some [lit "a b/c"] := by
  have hurl : (match compileRoutePlan 4096 fileRouter.routes fun _ => .buffered with
      | .error _ => false
      | .ok plan => decide (plan.urlFor (lit "/files/*") [lit "a b/c"] = .ok (lit "/files/a%20b/c"))) = true := by
    decide +kernel
  cases hcompile : compileRoutePlan 4096 fileRouter.routes fun _ => .buffered with
  | error failure =>
    rw [hcompile] at hurl
    cases hurl
  | ok plan =>
    rw [hcompile] at hurl
    have hurl := of_decide_eq_true hurl
    obtain ⟨-, -, -, route, -, -, captures, hmatch, hdecode, -⟩ :=
      (urlFor_round_trip hcompile (lit "/files/*") [lit "a b/c"]).2 _ hurl
    exact ⟨hurl, captures, hmatch, hdecode⟩

end Ruvia.Web
