import Ruvia.Http.UriReference

/-!
# `Http.UriReferenceParts` — the components of a URI reference

What a reference is: a scheme, an authority with its user information and host, a path, a query and a fragment, stated
without the positions of the code. `uriParts` takes a reference apart, and `UriReferenceParts.text` puts it together; a
`Split` is what `uriParts` returns, and the only one with its text (`uriParts_text`).

A component is repaired by keeping its triplets and its legal bytes and encoding the others (`repairBytes`). The
repaired component is legal, and a legal component is its own repair.
-/

namespace Ruvia.Http

open Library

/-! ## Components -/

/-- The host and the port: an IP literal and what is behind it, or a text without one. -/
inductive UriHost where
  | literal (address behind : Bytes)
  | plain (name : Bytes)
  deriving DecidableEq, Repr

structure UriAuthority where
  userinfo : Option Bytes
  host : UriHost
  deriving DecidableEq, Repr

structure UriReferenceParts where
  scheme : Option Bytes
  authority : Option UriAuthority
  path : Bytes
  query : Option Bytes
  fragment : Option Bytes
  deriving DecidableEq, Repr

def UriHost.text : UriHost → Bytes
  | .literal address behind => openBracket :: (address ++ closeBracket :: behind)
  | .plain name => name

/-- A component behind or in front of its delimiter. -/
def delimited (write : Bytes → Bytes) : Option Bytes → Bytes
  | none => []
  | some component => write component

def UriAuthority.text (authority : UriAuthority) : Bytes :=
  delimited (· ++ [atSign]) authority.userinfo ++ authority.host.text

namespace UriReferenceParts

def schemeText (parts : UriReferenceParts) : Bytes := delimited (· ++ [colon]) parts.scheme

def authorityText (parts : UriReferenceParts) : Bytes :=
  delimited (slash :: slash :: ·) (parts.authority.map UriAuthority.text)

/-- What is behind the path. -/
def suffix (parts : UriReferenceParts) : Bytes :=
  delimited (questionMark :: ·) parts.query ++ delimited (numberSign :: ·) parts.fragment

def text (parts : UriReferenceParts) : Bytes :=
  parts.schemeText ++ (parts.authorityText ++ (parts.path ++ parts.suffix))

end UriReferenceParts

/-! ## Taking a reference apart -/

/-- A text up to a byte, and what is behind that byte. -/
def splitAtByte (byte : UInt8) (text : Bytes) : Bytes × Option Bytes :=
  (text.takeWhile (· != byte), if byte ∈ text then some (text.dropWhile (· != byte)).tail else none)

def uriHost (text : Bytes) : UriHost :=
  match text, splitAtByte closeBracket text.tail with
  | first :: _, (address, some behind) => if first = openBracket then .literal address behind else .plain text
  | _, _ => .plain text

/-- The user information ends at the last `@`. -/
def uriAuthority (text : Bytes) : UriAuthority where
  userinfo := (splitAtByte atSign text.reverse).2.map List.reverse
  host := uriHost (splitAtByte atSign text.reverse).1.reverse

/-- A scheme is a valid name in front of the first `:`. -/
def uriScheme (text : Bytes) : Option Bytes × Bytes :=
  match splitAtByte colon text with
  | (name, some behind) => if isValidUriScheme name then (some name, behind) else (none, text)
  | (_, none) => (none, text)

/-- An authority is between `//` and the next delimiter. -/
def uriAuthorityFront (text : Bytes) : Option UriAuthority × Bytes :=
  if startsWithSlashes text then
    (some (uriAuthority ((text.drop 2).takeWhile (!isUriDelimiter ·))), (text.drop 2).dropWhile (!isUriDelimiter ·))
  else (none, text)

def uriParts (reference : Bytes) : UriReferenceParts :=
  let (hierarchy, fragment) := splitAtByte numberSign reference
  let (hierarchy, query) := splitAtByte questionMark hierarchy
  let (scheme, hierarchy) := uriScheme hierarchy
  let (authority, path) := uriAuthorityFront hierarchy
  { scheme, authority, path, query, fragment }

section

example : uriParts (lit "http://u@[::1]:80/a?b#c") =
    { scheme := some (lit "http"),
      authority := some { userinfo := some (lit "u"), host := .literal (lit "::1") (lit ":80") },
      path := lit "/a", query := some (lit "b"), fragment := some (lit "c") } := by decide

end

/-! ## Well-formed splits -/

structure UriHost.Split (host : UriHost) : Prop where
  address : ∀ address behind, host = .literal address behind → closeBracket ∉ address
  plain : ∀ name, host = .plain (openBracket :: name) → closeBracket ∉ name

structure UriAuthority.Split (authority : UriAuthority) : Prop where
  delimiter : ∀ byte ∈ authority.text, isUriDelimiter byte = false
  atSign : atSign ∉ authority.host.text
  host : authority.host.Split

/-- The components are where their delimiters say they are. -/
structure UriReferenceParts.Split (parts : UriReferenceParts) : Prop where
  scheme : ∀ scheme ∈ parts.scheme, isValidUriScheme scheme = true
  /-- Without a scheme and an authority, the path does not begin with a scheme. -/
  noScheme : parts.scheme = none → parts.authority = none →
    ∀ first behind, parts.path = first ++ colon :: behind → isValidUriScheme first = false
  authority : ∀ authority ∈ parts.authority, authority.Split
  noAuthority : parts.authority = none → startsWithSlashes parts.path = false
  rooted : parts.authority.isSome = true → ∀ byte ∈ parts.path.head?, byte = slash
  path : questionMark ∉ parts.path ∧ numberSign ∉ parts.path
  query : ∀ query ∈ parts.query, numberSign ∉ query

/-! ## Repairing a component -/

/-- Triplets and kept bytes stay; every other byte becomes its triplet. -/
def repairBytes (keeps : UInt8 → Bool) : Bytes → Bytes
  | [] => []
  | byte :: rest =>
    if (httpTryDecodePercentByte (byte :: rest)).isSome then byte :: (rest.take 2 ++ repairBytes keeps (rest.drop 2))
    else (if keeps byte then [byte] else percentTriplet byte) ++ repairBytes keeps rest
termination_by text => text.length
decreasing_by
  all_goals simp only [List.length_drop, List.length_cons]
  all_goals omega

section

variable {keeps : UInt8 → Bool} {text : Bytes}

/-- A triplet in front, or a byte that begins none. -/
theorem triplet_or_none (byte : UInt8) (rest : Bytes) :
    (∃ high low behind, rest = high :: low :: behind ∧ byte = percent ∧ (httpDecodeHexNibble high).isSome ∧
      (httpDecodeHexNibble low).isSome) ∨ httpTryDecodePercentByte (byte :: rest) = none := by
  cases hdecode : httpTryDecodePercentByte (byte :: rest) with
  | none => exact Or.inr rfl
  | some decoded =>
    obtain ⟨high, low, behind, rfl, hhigh, hlow, -⟩ := triplet_cases hdecode
    refine Or.inl ⟨high, low, behind, rfl, ?_, hhigh, hlow⟩
    by_contra hne
    rw [httpTryDecodePercentByte_of_ne hne] at hdecode
    cases hdecode

theorem isSome_decode_triplet {high low : UInt8} (hhigh : (httpDecodeHexNibble high).isSome)
    (hlow : (httpDecodeHexNibble low).isSome) (behind : Bytes) :
    (httpTryDecodePercentByte (percent :: high :: low :: behind)).isSome = true := by
  obtain ⟨h, hh⟩ := Option.isSome_iff_exists.mp hhigh
  obtain ⟨l, hl⟩ := Option.isSome_iff_exists.mp hlow
  rw [httpTryDecodePercentByte, if_neg (by simp), hh, hl]
  rfl

@[simp] theorem repairBytes_nil : repairBytes keeps [] = [] := by
  rw [repairBytes]

theorem repairBytes_triplet {high low : UInt8} (hhigh : (httpDecodeHexNibble high).isSome)
    (hlow : (httpDecodeHexNibble low).isSome) (behind : Bytes) :
    repairBytes keeps (percent :: high :: low :: behind) = percent :: high :: low :: repairBytes keeps behind := by
  rw [repairBytes, if_pos (isSome_decode_triplet hhigh hlow behind)]
  rfl

variable {byte : UInt8}

theorem repairBytes_byte {rest : Bytes} (h : httpTryDecodePercentByte (byte :: rest) = none) :
    repairBytes keeps (byte :: rest) =
      (if keeps byte then [byte] else percentTriplet byte) ++ repairBytes keeps rest := by
  rw [repairBytes, if_neg (by rw [h]; exact Bool.false_ne_true)]

theorem repairBytes_kept (hpercent : keeps percent = false) (h : keeps byte = true) (rest : Bytes) :
    repairBytes keeps (byte :: rest) = byte :: repairBytes keeps rest := by
  rw [repairBytes_byte (httpTryDecodePercentByte_of_ne (ne_percent_of_keeps hpercent h) rest), if_pos h]
  rfl

/-- Induction along the units of a text. -/
theorem unit_induction {motive : Bytes → Prop} (nil : motive [])
    (triplet : ∀ high low behind, (httpDecodeHexNibble high).isSome = true → (httpDecodeHexNibble low).isSome = true →
      motive behind → motive (percent :: high :: low :: behind))
    (byte : ∀ byte rest, httpTryDecodePercentByte (byte :: rest) = none → motive rest → motive (byte :: rest))
    (text : Bytes) : motive text := by
  induction h : text.length using Nat.strong_induction_on generalizing text with
  | _ n ih =>
    subst h
    cases text with
    | nil => exact nil
    | cons first rest =>
      rcases triplet_or_none first rest with ⟨high, low, behind, rfl, rfl, hhigh, hlow⟩ | hnone
      · refine triplet high low behind hhigh hlow (ih behind.length ?_ behind rfl)
        simp only [List.length_cons]
        omega
      · exact byte first rest hnone (ih rest.length (Nat.lt_succ_self _) rest rfl)

theorem isValidPercentEncoded_triplet {high low : UInt8} (hhigh : (httpDecodeHexNibble high).isSome)
    (hlow : (httpDecodeHexNibble low).isSome) (behind : Bytes) :
    isValidPercentEncoded keeps (percent :: high :: low :: behind) = isValidPercentEncoded keeps behind := by
  rw [isValidPercentEncoded, if_pos rfl, isSome_decode_triplet hhigh hlow, Bool.true_and]

theorem isSome_upperHexDigit (value : Nat) : (httpDecodeHexNibble (httpUpperHexDigit value)).isSome = true := by
  rw [httpDecodeHexNibble_upperHexDigit]
  rfl

theorem isValidPercentEncoded_of_ne (h : byte ≠ percent) (rest : Bytes) :
    isValidPercentEncoded keeps (byte :: rest) = (keeps byte && isValidPercentEncoded keeps rest) := by
  rcases rest with _ | ⟨high, _ | ⟨low, behind⟩⟩
  all_goals exact if_neg h

section

variable (hpercent : keeps percent = false)
include hpercent

/-- A byte that begins no triplet is legal when it is kept. -/
theorem isValidPercentEncoded_byte {rest : Bytes}
    (h : httpTryDecodePercentByte (byte :: rest) = none) :
    isValidPercentEncoded keeps (byte :: rest) = (keeps byte && isValidPercentEncoded keeps rest) := by
  by_cases hbyte : byte = percent
  · subst hbyte
    rw [hpercent, Bool.false_and]
    rcases rest with _ | ⟨high, _ | ⟨low, behind⟩⟩
    · rfl
    · rfl
    · have hfront : httpTryDecodePercentByte [percent, high, low] = none := h
      rw [isValidPercentEncoded, if_pos rfl, hfront]
      rfl
  · exact isValidPercentEncoded_of_ne hbyte rest

/-- **A repaired component is legal.** -/
theorem isValidPercentEncoded_repairBytes (text : Bytes) :
    isValidPercentEncoded keeps (repairBytes keeps text) = true := by
  induction text using unit_induction with
  | nil =>
    rw [repairBytes_nil]
    rfl
  | triplet high low behind hhigh hlow ih =>
    rw [repairBytes_triplet hhigh hlow, isValidPercentEncoded_triplet hhigh hlow, ih]
  | byte byte rest hnone ih =>
    rw [repairBytes_byte hnone]
    cases hkeeps : keeps byte with
    | true =>
      rw [if_pos rfl, List.singleton_append, isValidPercentEncoded_of_ne (ne_percent_of_keeps hpercent hkeeps), hkeeps,
        ih]
      rfl
    | false =>
      rw [if_neg Bool.false_ne_true]
      show isValidPercentEncoded keeps (percent :: httpUpperHexDigit (byte.toNat / 16) ::
        httpUpperHexDigit byte.toNat :: repairBytes keeps rest) = true
      rw [isValidPercentEncoded_triplet (isSome_upperHexDigit _) (isSome_upperHexDigit _), ih]

/-- **A legal component is its own repair.** -/
theorem repairBytes_of_valid (h : isValidPercentEncoded keeps text = true) : repairBytes keeps text = text := by
  induction text using unit_induction with
  | nil => exact repairBytes_nil
  | triplet high low behind hhigh hlow ih =>
    rw [isValidPercentEncoded_triplet hhigh hlow] at h
    rw [repairBytes_triplet hhigh hlow, ih h]
  | byte byte rest hnone ih =>
    rw [isValidPercentEncoded_byte hpercent hnone] at h
    obtain ⟨hkeeps, hrest⟩ := Bool.and_eq_true_iff.mp h
    rw [repairBytes_byte hnone, if_pos hkeeps, ih hrest]
    rfl

/-- A byte that is not kept and does not occur in triplets is not in a legal component. -/
theorem not_mem_of_valid {stop : UInt8} (hstop : keeps stop = false)
    (hne : stop ≠ percent) (hdigit : httpDecodeHexNibble stop = none) (h : isValidPercentEncoded keeps text = true) :
    stop ∉ text := by
  have hnedigit : ∀ digit, (httpDecodeHexNibble digit).isSome = true → stop ≠ digit := by
    rintro digit hsome rfl
    rw [hdigit] at hsome
    cases hsome
  induction text using unit_induction with
  | nil => exact List.not_mem_nil
  | triplet high low behind hhigh hlow ih =>
    rw [isValidPercentEncoded_triplet hhigh hlow] at h
    simp only [List.mem_cons, not_or]
    exact ⟨hne, hnedigit high hhigh, hnedigit low hlow, ih h⟩
  | byte byte rest hnone ih =>
    rw [isValidPercentEncoded_byte hpercent hnone] at h
    obtain ⟨hkeeps, hrest⟩ := Bool.and_eq_true_iff.mp h
    rw [List.mem_cons, not_or]
    refine ⟨?_, ih hrest⟩
    rintro rfl
    rw [hstop] at hkeeps
    cases hkeeps

end

/-- What a repaired component begins with, unless it is a triplet. -/
theorem repairBytes_eq_cons {behind : Bytes} (hbyte : byte ≠ percent) (h : repairBytes keeps text = byte :: behind) :
    ∃ rest, text = byte :: rest ∧ behind = repairBytes keeps rest := by
  cases text with
  | nil =>
    rw [repairBytes_nil] at h
    cases h
  | cons first rest =>
    rcases triplet_or_none first rest with ⟨high, low, rest, rfl, rfl, hhigh, hlow⟩ | hnone
    · rw [repairBytes_triplet hhigh hlow] at h
      exact absurd (List.cons_eq_cons.mp h).1.symm hbyte
    · rw [repairBytes_byte hnone] at h
      cases hkeeps : keeps first with
      | true =>
        rw [hkeeps, if_pos rfl] at h
        obtain ⟨rfl, hbehind⟩ := List.cons_eq_cons.mp h
        exact ⟨rest, rfl, hbehind.symm⟩
      | false =>
        rw [hkeeps, if_neg Bool.false_ne_true] at h
        exact absurd (List.cons_eq_cons.mp h).1.symm hbyte

end

/-! ## Repairing a reference -/

def isUriPathByte (byte : UInt8) : Bool := isUriPchar byte || byte == slash

/-- A byte of the first segment of a relative path, which has no `:`. -/
def isUriFirstSegmentByte (byte : UInt8) : Bool := isUriPchar byte && byte != colon

def isUriQueryByte (byte : UInt8) : Bool := isUriPchar byte || byte == slash || byte == questionMark

def firstSegment (path : Bytes) : Bytes := path.takeWhile (· != slash)

def behindFirstSegment (path : Bytes) : Bytes := path.dropWhile (· != slash)

def UriHost.repair : UriHost → UriHost
  | .literal address behind =>
    .literal (repairBytes isUriUserinfoLiteral address) (repairBytes isUriUserinfoLiteral behind)
  | .plain name => .plain (repairBytes isUriUserinfoLiteral name)

def UriAuthority.repair (authority : UriAuthority) : UriAuthority where
  userinfo := authority.userinfo.map (repairBytes isUriUserinfoLiteral)
  host := authority.host.repair

def repairPath (relative : Bool) (path : Bytes) : Bytes :=
  if relative then
    repairBytes isUriFirstSegmentByte (firstSegment path) ++ repairBytes isUriPathByte (behindFirstSegment path)
  else repairBytes isUriPathByte path

/-- The bytes of a host are legal; what an address and a port are is not asked. -/
def UriHost.legal : UriHost → Bool
  | .literal address behind =>
    isValidPercentEncoded isUriUserinfoLiteral address && isValidPercentEncoded isUriUserinfoLiteral behind
  | .plain name => isValidPercentEncoded isUriUserinfoLiteral name

def UriAuthority.legal (authority : UriAuthority) : Bool :=
  authority.userinfo.all (isValidPercentEncoded isUriUserinfoLiteral) && authority.host.legal

def isLegalPath (relative : Bool) (path : Bytes) : Bool :=
  if relative then
    isValidPercentEncoded isUriFirstSegmentByte (firstSegment path) &&
      isValidPercentEncoded isUriPathByte (behindFirstSegment path)
  else isValidPercentEncoded isUriPathByte path

namespace UriReferenceParts

def relative (parts : UriReferenceParts) : Bool := parts.scheme.isNone && parts.authority.isNone

def repair (parts : UriReferenceParts) : UriReferenceParts where
  scheme := parts.scheme
  authority := parts.authority.map UriAuthority.repair
  path := repairPath parts.relative parts.path
  query := parts.query.map (repairBytes isUriQueryByte)
  fragment := parts.fragment.map (repairBytes isUriQueryByte)

/-- Every component has triplets and bytes that are legal in it. -/
def legal (parts : UriReferenceParts) : Bool :=
  parts.scheme.all isValidUriScheme && parts.authority.all UriAuthority.legal &&
    isLegalPath parts.relative parts.path && parts.query.all (isValidPercentEncoded isUriQueryByte) &&
    parts.fragment.all (isValidPercentEncoded isUriQueryByte)

end UriReferenceParts

section

variable {first behind path : Bytes} {relative : Bool} {parts : UriReferenceParts}

theorem firstSegment_append (hfirst : slash ∉ first) (hbehind : ∀ byte ∈ behind.head?, byte = slash) :
    firstSegment (first ++ behind) = first ∧ behindFirstSegment (first ++ behind) = behind := by
  have hrun : ∀ byte ∈ first, (byte != slash) = true := by
    intro byte hbyte
    rw [bne_iff_ne]
    rintro rfl
    exact hfirst hbyte
  have hstop : ∀ byte, behind.head? = some byte → (byte != slash) = false := by
    intro byte hbyte
    rw [hbehind byte hbyte]
    rfl
  exact ⟨takeWhile_run_stop hrun hstop, Library.dropWhile_append_stop hrun hstop⟩

theorem slash_not_mem_firstSegment (path : Bytes) : slash ∉ firstSegment path := by
  intro hmem
  have := List.mem_takeWhile_imp hmem
  simp at this

theorem head_behindFirstSegment (path : Bytes) : ∀ byte ∈ (behindFirstSegment path).head?, byte = slash := by
  intro byte hbyte
  have hstop := List.head?_dropWhile_not (· != slash) path
  rw [behindFirstSegment] at hbyte
  rw [hbyte] at hstop
  simpa using hstop

theorem firstSegment_append_behind (path : Bytes) : firstSegment path ++ behindFirstSegment path = path :=
  List.takeWhile_append_dropWhile

variable {keeps : UInt8 → Bool}

/-- The head of a repaired text is a slash only when it was one. -/
theorem head_repairBytes (hpercent : keeps percent = false) (hslash : keeps slash = true) {text : Bytes}
    (h : ∀ byte ∈ text.head?, byte = slash) : ∀ byte ∈ (repairBytes keeps text).head?, byte = slash := by
  cases text with
  | nil =>
    rw [repairBytes_nil]
    exact h
  | cons byte rest =>
    obtain rfl : byte = slash := h byte rfl
    rw [repairBytes_kept hpercent hslash]
    exact h

/-- A repaired relative path has the repaired first segment in front. -/
theorem firstSegment_repairPath (path : Bytes) :
    firstSegment (repairPath true path) = repairBytes isUriFirstSegmentByte (firstSegment path) ∧
      behindFirstSegment (repairPath true path) = repairBytes isUriPathByte (behindFirstSegment path) := by
  apply firstSegment_append
  · exact not_mem_of_valid (by decide) (by decide) (by decide) (by decide)
      (isValidPercentEncoded_repairBytes (by decide) _)
  · exact head_repairBytes (by decide) (by decide) (head_behindFirstSegment path)

theorem isLegalPath_repairPath (relative : Bool) (path : Bytes) :
    isLegalPath relative (repairPath relative path) = true := by
  cases relative with
  | true =>
    obtain ⟨hfirst, hbehind⟩ := firstSegment_repairPath path
    rw [isLegalPath, if_pos rfl, hfirst, hbehind, isValidPercentEncoded_repairBytes (by decide),
      isValidPercentEncoded_repairBytes (by decide), Bool.and_self]
  | false => exact isValidPercentEncoded_repairBytes (by decide) path

theorem repairPath_of_legal (h : isLegalPath relative path = true) : repairPath relative path = path := by
  cases relative with
  | true =>
    obtain ⟨hfirst, hbehind⟩ := Bool.and_eq_true_iff.mp h
    rw [repairPath, if_pos rfl, repairBytes_of_valid (by decide) hfirst, repairBytes_of_valid (by decide) hbehind,
      firstSegment_append_behind]
  | false => exact repairBytes_of_valid (by decide) h

/-! ### Legality -/

theorem UriHost.legal_repair (host : UriHost) : host.repair.legal = true := by
  cases host with
  | literal address behind =>
    rw [UriHost.repair, UriHost.legal, isValidPercentEncoded_repairBytes (by decide),
      isValidPercentEncoded_repairBytes (by decide), Bool.and_self]
  | plain name => exact isValidPercentEncoded_repairBytes (by decide) name

theorem UriHost.repair_of_legal {host : UriHost} (h : host.legal = true) : host.repair = host := by
  cases host with
  | literal address behind =>
    obtain ⟨haddress, hbehind⟩ := Bool.and_eq_true_iff.mp h
    rw [UriHost.repair, repairBytes_of_valid (by decide) haddress, repairBytes_of_valid (by decide) hbehind]
  | plain name => rw [UriHost.repair, repairBytes_of_valid (by decide) h]

/-- A repaired component is legal, when there is one. -/
theorem all_map_repairBytes (hpercent : keeps percent = false) (component : Option Bytes) :
    (component.map (repairBytes keeps)).all (isValidPercentEncoded keeps) = true := by
  cases component with
  | none => rfl
  | some text => exact isValidPercentEncoded_repairBytes hpercent text

theorem map_repairBytes_of_all (hpercent : keeps percent = false) {component : Option Bytes}
    (h : component.all (isValidPercentEncoded keeps) = true) : component.map (repairBytes keeps) = component := by
  cases component with
  | none => rfl
  | some text => exact congrArg some (repairBytes_of_valid hpercent h)

theorem UriAuthority.legal_repair (authority : UriAuthority) : authority.repair.legal = true := by
  rw [UriAuthority.legal, UriAuthority.repair, all_map_repairBytes (by decide), UriHost.legal_repair, Bool.and_self]

theorem UriAuthority.repair_of_legal {authority : UriAuthority} (h : authority.legal = true) :
    authority.repair = authority := by
  obtain ⟨huserinfo, hhost⟩ := Bool.and_eq_true_iff.mp h
  rw [UriAuthority.repair, map_repairBytes_of_all (by decide) huserinfo, UriHost.repair_of_legal hhost]

namespace UriReferenceParts

@[simp] theorem relative_repair (parts : UriReferenceParts) : parts.repair.relative = parts.relative := by
  rw [relative, relative, repair, Option.isNone_map]

/-- **The repaired components are legal**, given the scheme is. -/
theorem legal_repair (hscheme : parts.scheme.all isValidUriScheme = true) : parts.repair.legal = true := by
  have hauthority : parts.repair.authority.all UriAuthority.legal = true := by
    rw [repair, Option.all_map]
    cases parts.authority with
    | none => rfl
    | some authority => exact authority.legal_repair
  have hpath : isLegalPath parts.repair.relative parts.repair.path = true := by
    rw [relative_repair]
    exact isLegalPath_repairPath _ _
  have hquery : parts.repair.query.all (isValidPercentEncoded isUriQueryByte) = true :=
    all_map_repairBytes (by decide) _
  have hfragment : parts.repair.fragment.all (isValidPercentEncoded isUriQueryByte) = true :=
    all_map_repairBytes (by decide) _
  have hsame : parts.repair.scheme = parts.scheme := rfl
  rw [legal, hauthority, hpath, hquery, hfragment, hsame, hscheme]
  rfl

/-- **Legal components are their own repair.** -/
theorem repair_of_legal (h : parts.legal = true) : parts.repair = parts := by
  simp only [legal, Bool.and_eq_true] at h
  obtain ⟨⟨⟨⟨-, hauthority⟩, hpath⟩, hquery⟩, hfragment⟩ := h
  have hmap : parts.authority.map UriAuthority.repair = parts.authority := by
    cases hsome : parts.authority with
    | none => rfl
    | some authority =>
      rw [hsome] at hauthority
      exact congrArg some (UriAuthority.repair_of_legal hauthority)
  rw [repair, hmap, repairPath_of_legal hpath, map_repairBytes_of_all (by decide) hquery,
    map_repairBytes_of_all (by decide) hfragment]

end UriReferenceParts

/-! ### The split stays -/

variable {stop : UInt8}

/-- A byte that may not stand in a component is not in the repaired one. -/
theorem not_mem_repairBytes (hpercent : keeps percent = false) (hstop : keeps stop = false) (hne : stop ≠ percent)
    (hdigit : httpDecodeHexNibble stop = none) (text : Bytes) :
    stop ∉ repairBytes keeps text :=
  not_mem_of_valid hpercent hstop hne hdigit (isValidPercentEncoded_repairBytes hpercent text)

theorem UriHost.not_mem_repair (hstop : isUriUserinfoLiteral stop = false) (hne : stop ≠ percent)
    (hdigit : httpDecodeHexNibble stop = none) (hopen : stop ≠ openBracket) (hclose : stop ≠ closeBracket)
    (host : UriHost) : stop ∉ host.repair.text := by
  have hrepaired := not_mem_repairBytes (by decide) hstop hne hdigit
  cases host with
  | literal address behind =>
    simp only [UriHost.repair, UriHost.text, List.mem_cons, List.mem_append, not_or]
    exact ⟨hopen, hrepaired _, hclose, hrepaired _⟩
  | plain name => exact hrepaired name

theorem UriHost.split_repair (host : UriHost) : host.repair.Split := by
  cases host with
  | literal address behind =>
    refine ⟨?_, fun name heq => UriHost.noConfusion heq⟩
    intro address' behind' heq
    obtain ⟨rfl, rfl⟩ := UriHost.literal.inj heq
    exact not_mem_repairBytes (by decide) (by decide) (by decide) (by decide) address
  | plain name =>
    refine ⟨fun address behind heq => UriHost.noConfusion heq, ?_⟩
    intro name' heq
    have hopen : openBracket ∉ repairBytes isUriUserinfoLiteral name :=
      not_mem_repairBytes (by decide) (by decide) (by decide) (by decide) name
    rw [UriHost.plain.inj heq] at hopen
    exact absurd (List.mem_cons_self ..) hopen

theorem not_mem_delimited {write : Bytes → Bytes} {component : Option Bytes}
    (h : ∀ text ∈ component, stop ∉ write text) : stop ∉ delimited write component := by
  cases component with
  | none => exact List.not_mem_nil
  | some text => exact h text rfl

/-- The delimiters, one by one. -/
theorem isUriDelimiter_eq_true {byte : UInt8} :
    isUriDelimiter byte = true ↔ byte = slash ∨ byte = questionMark ∨ byte = numberSign := by
  simp only [isUriDelimiter, Bool.or_eq_true, beq_iff_eq, or_assoc]

theorem UriAuthority.split_repair (authority : UriAuthority) : authority.repair.Split := by
  have hnot : ∀ stop, isUriUserinfoLiteral stop = false → stop ≠ percent → httpDecodeHexNibble stop = none →
      stop ≠ openBracket → stop ≠ closeBracket → stop ≠ atSign → stop ∉ authority.repair.text := by
    intro stop hstop hne hdigit hopen hclose hat
    rw [UriAuthority.text, List.mem_append, not_or]
    refine ⟨not_mem_delimited ?_, UriHost.not_mem_repair hstop hne hdigit hopen hclose _⟩
    intro text htext
    obtain ⟨userinfo, -, rfl⟩ := Option.map_eq_some_iff.mp htext
    rw [List.mem_append, List.mem_singleton, not_or]
    exact ⟨not_mem_repairBytes (by decide) hstop hne hdigit userinfo, hat⟩
  refine ⟨?_, ?_, authority.host.split_repair⟩
  · intro byte hmem
    rw [← Bool.not_eq_true, isUriDelimiter_eq_true]
    rintro (rfl | rfl | rfl)
    all_goals exact hnot _ (by decide) (by decide) (by decide) (by decide) (by decide) (by decide) hmem
  · exact UriHost.not_mem_repair (by decide) (by decide) (by decide) (by decide) (by decide) _

/-- A byte outside the paths is not in a repaired path. -/
theorem not_mem_repairPath (hstop : isUriPathByte stop = false) (hne : stop ≠ percent)
    (hdigit : httpDecodeHexNibble stop = none) (relative : Bool) (path : Bytes) :
    stop ∉ repairPath relative path := by
  have hfirst : isUriFirstSegmentByte stop = false := by
    simp only [isUriPathByte, Bool.or_eq_false_iff] at hstop
    rw [isUriFirstSegmentByte, hstop.1, Bool.false_and]
  cases relative with
  | true =>
    rw [repairPath, if_pos rfl, List.mem_append, not_or]
    exact ⟨not_mem_repairBytes (by decide) hfirst hne hdigit _, not_mem_repairBytes (by decide) hstop hne hdigit _⟩
  | false => exact not_mem_repairBytes (by decide) hstop hne hdigit path

/-- A repaired path that begins with a slash did so. -/
theorem repairPath_eq_slash_cons {behind : Bytes} (h : repairPath relative path = slash :: behind) :
    ∃ rest, path = slash :: rest ∧ behind = repairBytes isUriPathByte rest := by
  cases relative with
  | true =>
    rw [repairPath, if_pos rfl] at h
    cases hfirst : repairBytes isUriFirstSegmentByte (firstSegment path) with
    | nil =>
      have hempty : firstSegment path = [] := by
        cases hsegment : firstSegment path with
        | nil => rfl
        | cons byte rest =>
          rw [hsegment] at hfirst
          rcases triplet_or_none byte rest with ⟨high, low, rest, rfl, rfl, hhigh, hlow⟩ | hnone
          · rw [repairBytes_triplet hhigh hlow] at hfirst
            cases hfirst
          · rw [repairBytes_byte hnone] at hfirst
            split at hfirst <;> cases hfirst
      rw [hfirst, List.nil_append] at h
      have hpath := firstSegment_append_behind path
      rw [hempty, List.nil_append] at hpath
      rw [hpath] at h
      exact repairBytes_eq_cons (by decide) h
    | cons byte rest =>
      rw [hfirst, List.cons_append] at h
      have hnot : slash ∉ repairBytes isUriFirstSegmentByte (firstSegment path) :=
        not_mem_repairBytes (by decide) (by decide) (by decide) (by decide) _
      rw [hfirst, (List.cons_eq_cons.mp h).1] at hnot
      exact absurd (List.mem_cons_self ..) hnot
  | false => exact repairBytes_eq_cons (by decide) h

theorem startsWithSlashes_iff {text : Bytes} :
    startsWithSlashes text = true ↔ ∃ rest, text = slash :: slash :: rest := by
  rw [startsWithSlashes, beq_iff_eq]
  constructor
  · intro h
    rcases text with _ | ⟨first, _ | ⟨second, rest⟩⟩
    · cases h
    · cases h
    · obtain ⟨rfl, rfl⟩ : first = slash ∧ second = slash := by simpa using h
      exact ⟨rest, rfl⟩
  · rintro ⟨rest, rfl⟩
    rfl

/-- A valid scheme has scheme bytes only. -/
theorem isSchemeByte_of_valid {scheme : Bytes} (h : isValidUriScheme scheme = true) :
    ∀ byte ∈ scheme, isSchemeByte byte = true := by
  cases scheme with
  | nil => exact fun byte hbyte => absurd hbyte List.not_mem_nil
  | cons first rest =>
    obtain ⟨hfirst, hrest⟩ := Bool.and_eq_true_iff.mp h
    intro byte hbyte
    rcases List.mem_cons.mp hbyte with rfl | hmem
    · simp [isSchemeByte, hfirst]
    · exact List.all_eq_true.mp hrest byte hmem

theorem stop_not_mem_scheme {scheme : Bytes} (h : isValidUriScheme scheme = true) (hstop : isSchemeByte stop = false) :
    stop ∉ scheme := by
  intro hmem
  rw [isSchemeByte_of_valid h stop hmem] at hstop
  cases hstop

namespace UriReferenceParts

/-- **Repairing keeps the split.** -/
theorem Split.repair (h : parts.Split) : parts.repair.Split := by
  have hquestion : questionMark ∉ parts.repair.path :=
    not_mem_repairPath (by decide) (by decide) (by decide) _ _
  have hnumber : numberSign ∉ parts.repair.path :=
    not_mem_repairPath (by decide) (by decide) (by decide) _ _
  refine ⟨h.scheme, ?_, ?_, ?_, ?_, ⟨hquestion, hnumber⟩, ?_⟩
  · intro hscheme hauthority first behind hpath
    have hscheme : parts.scheme = none := hscheme
    have hauthority : parts.authority = none := Option.map_eq_none_iff.mp hauthority
    have hrelative : parts.relative = true := by rw [relative, hscheme, hauthority]; rfl
    have hpath : repairPath parts.relative parts.path = first ++ colon :: behind := hpath
    obtain ⟨hfirst, -⟩ := firstSegment_repairPath parts.path
    rw [hrelative] at hpath
    rw [hpath] at hfirst
    -- The first segment has no colon, so the slash behind it is part of the alleged scheme.
    have hcolon : colon ∉ firstSegment (first ++ colon :: behind) := by
      rw [hfirst]
      exact not_mem_repairBytes (by decide) (by decide) (by decide) (by decide) _
    rw [← Bool.not_eq_true]
    intro hvalid
    apply hcolon
    rw [firstSegment, List.takeWhile_append_of_pos, List.takeWhile_cons_of_pos (by decide)]
    · exact List.mem_append_right _ (List.mem_cons_self ..)
    · intro byte hbyte
      rw [bne_iff_ne]
      rintro rfl
      exact stop_not_mem_scheme hvalid (by decide) hbyte
  · intro authority hmem
    obtain ⟨authority', -, rfl⟩ := Option.map_eq_some_iff.mp hmem
    exact authority'.split_repair
  · intro hnone
    have hnone : parts.authority = none := Option.map_eq_none_iff.mp hnone
    have hslashes := h.noAuthority hnone
    rw [← Bool.not_eq_true, startsWithSlashes_iff] at hslashes ⊢
    rintro ⟨rest, hrest⟩
    obtain ⟨rest', hpath, hbehind⟩ := repairPath_eq_slash_cons hrest
    obtain ⟨rest'', rfl, -⟩ := repairBytes_eq_cons (by decide) hbehind.symm
    exact hslashes ⟨rest'', hpath⟩
  · intro hsome
    have hsome : parts.authority.isSome = true := by rwa [UriReferenceParts.repair, Option.isSome_map] at hsome
    have hrelative : parts.relative = false := by
      rw [relative, ← Option.not_isSome, ← Option.not_isSome, hsome, Bool.not_true, Bool.and_false]
    show ∀ byte ∈ (repairPath parts.relative parts.path).head?, byte = slash
    rw [hrelative]
    exact head_repairBytes (by decide) (by decide) (h.rooted hsome)
  · intro query hmem
    obtain ⟨query', -, rfl⟩ := Option.map_eq_some_iff.mp hmem
    exact not_mem_repairBytes (by decide) (by decide) (by decide) (by decide) query'

theorem legal_repair_of_split (h : parts.Split) : parts.repair.legal = true := by
  apply legal_repair
  cases hscheme : parts.scheme with
  | none => rfl
  | some scheme => exact h.scheme scheme hscheme

end UriReferenceParts

end

/-! ## Taking apart and putting together -/

section

variable {stop : UInt8} {text : Bytes}

theorem splitAtByte_append {first : Bytes} (h : stop ∉ first) (behind : Option Bytes) :
    splitAtByte stop (first ++ delimited (stop :: ·) behind) = (first, behind) := by
  have hrun : ∀ byte ∈ first, (byte != stop) = true := by
    intro byte hbyte
    rw [bne_iff_ne]
    rintro rfl
    exact h hbyte
  have hstop : ∀ byte, (delimited (stop :: ·) behind).head? = some byte → (byte != stop) = false := by
    intro byte hbyte
    cases behind with
    | none => cases hbyte
    | some behind =>
      obtain rfl : stop = byte := Option.some.inj hbyte
      exact bne_self_eq_false stop
  rw [splitAtByte, takeWhile_run_stop hrun hstop, Library.dropWhile_append_stop hrun hstop]
  cases behind with
  | none => rw [if_neg (by rwa [delimited, List.append_nil])]
  | some behind =>
    have hmem : stop ∈ first ++ delimited (stop :: ·) (some behind) :=
      List.mem_append_right _ (List.mem_cons_self ..)
    rw [if_pos hmem]
    rfl

theorem splitAtByte_eq (stop : UInt8) (text : Bytes) :
    text = (splitAtByte stop text).1 ++ delimited (stop :: ·) (splitAtByte stop text).2 ∧
      stop ∉ (splitAtByte stop text).1 := by
  constructor
  · rw [splitAtByte]
    conv_lhs => rw [← @List.takeWhile_append_dropWhile _ (· != stop) text]
    congr 1
    by_cases hmem : stop ∈ text
    · rw [if_pos hmem]
      have hne : text.dropWhile (· != stop) ≠ [] := by
        intro hnil
        have hall := List.dropWhile_eq_nil_iff.mp hnil stop hmem
        simp at hall
      have hhead := List.head_dropWhile_not (· != stop) hne
      obtain ⟨byte, behind, hcons⟩ := List.exists_cons_of_ne_nil hne
      simp only [hcons, List.head_cons] at hhead
      obtain rfl : byte = stop := by simpa using hhead
      rw [hcons]
      rfl
    · rw [if_neg hmem]
      apply List.dropWhile_eq_nil_iff.mpr
      intro byte hbyte
      rw [bne_iff_ne]
      rintro rfl
      exact hmem hbyte
  · intro hmem
    have := List.mem_takeWhile_imp hmem
    simp at this

/-! ### Hosts and authorities -/

theorem uriHost_text {host : UriHost} (h : host.Split) : uriHost host.text = host := by
  cases host with
  | literal address behind =>
    have hsplit := splitAtByte_append (h.address address behind rfl) (some behind)
    simp only [delimited] at hsplit
    simp [uriHost, UriHost.text, hsplit]
  | plain name =>
    cases name with
    | nil => rfl
    | cons first rest =>
      by_cases hfirst : first = openBracket
      · subst hfirst
        have hsplit := splitAtByte_append (h.plain rest rfl) none
        simp only [delimited, List.append_nil] at hsplit
        simp [uriHost, UriHost.text, hsplit]
      · simp only [uriHost, UriHost.text]
        split <;> simp_all

theorem text_uriHost (text : Bytes) : (uriHost text).text = text ∧ (uriHost text).Split := by
  have hplain : (first : Bytes) → (∀ name, first = openBracket :: name → closeBracket ∉ name) →
      (UriHost.plain first).text = first ∧ (UriHost.plain first).Split := by
    intro first hfirst
    refine ⟨rfl, fun address behind heq => UriHost.noConfusion heq, ?_⟩
    intro name heq
    exact hfirst name (UriHost.plain.inj heq)
  cases text with
  | nil => exact hplain [] fun name heq => absurd heq (List.cons_ne_nil _ _).symm
  | cons first rest =>
    obtain ⟨heq, hnot⟩ := splitAtByte_eq closeBracket rest
    cases hsplit : splitAtByte closeBracket rest with
    | mk address behind =>
      rw [hsplit] at heq hnot
      by_cases hfirst : first = openBracket
      · subst hfirst
        cases behind with
        | none =>
          have hhost : uriHost (openBracket :: rest) = .plain (openBracket :: rest) := by
            simp [uriHost, hsplit]
          rw [hhost]
          apply hplain
          intro name hname
          obtain rfl := (List.cons_eq_cons.mp hname).2
          rw [heq]
          simpa [delimited] using hnot
        | some behind =>
          have hhost : uriHost (openBracket :: rest) = .literal address behind := by
            simp [uriHost, hsplit]
          rw [hhost]
          refine ⟨congrArg (openBracket :: ·) heq.symm, ?_, fun name heq => UriHost.noConfusion heq⟩
          intro address' behind' hliteral
          obtain ⟨rfl, rfl⟩ := UriHost.literal.inj hliteral
          exact hnot
      · have hhost : uriHost (first :: rest) = .plain (first :: rest) := by
          simp only [uriHost]
          split <;> simp_all
        rw [hhost]
        apply hplain
        intro name hname
        exact absurd (List.cons_eq_cons.mp hname).1 hfirst

/-- The text of an authority, read from its end. -/
theorem reverse_authority (authority : UriAuthority) :
    authority.text.reverse =
      authority.host.text.reverse ++ delimited (atSign :: ·) (authority.userinfo.map List.reverse) := by
  rw [UriAuthority.text, List.reverse_append]
  cases authority.userinfo with
  | none => rfl
  | some userinfo => simp [delimited]

theorem uriAuthority_text {authority : UriAuthority} (h : authority.Split) :
    uriAuthority authority.text = authority := by
  have hsplit := splitAtByte_append (fun hmem => h.atSign (List.mem_reverse.mp hmem))
    (authority.userinfo.map List.reverse)
  rw [← reverse_authority] at hsplit
  rw [uriAuthority, hsplit, List.reverse_reverse, uriHost_text h.host, Option.map_map]
  have hid : (List.reverse : Bytes → Bytes) ∘ List.reverse = id := funext List.reverse_reverse
  rw [hid, Option.map_id_apply]

theorem text_uriAuthority (text : Bytes) : (uriAuthority text).text = text := by
  obtain ⟨heq, -⟩ := splitAtByte_eq atSign text.reverse
  rw [← List.reverse_inj, reverse_authority, uriAuthority, (text_uriHost _).1, List.reverse_reverse, Option.map_map]
  have hid : (List.reverse : Bytes → Bytes) ∘ List.reverse = id := funext List.reverse_reverse
  rw [hid, Option.map_id_apply]
  exact heq.symm

theorem split_uriAuthority (h : ∀ byte ∈ text, isUriDelimiter byte = false) : (uriAuthority text).Split := by
  refine ⟨by rwa [text_uriAuthority], ?_, (text_uriHost _).2⟩
  rw [uriAuthority, (text_uriHost _).1, List.mem_reverse]
  exact (splitAtByte_eq atSign text.reverse).2

/-! ### References -/

/-- A scheme in front, or no front that is a scheme. -/
theorem uriScheme_eq {scheme : Option Bytes} {behind : Bytes} (hsome : ∀ name ∈ scheme, isValidUriScheme name = true)
    (hnone : scheme = none → ∀ name rest, behind = name ++ colon :: rest → isValidUriScheme name = false) :
    uriScheme (delimited (· ++ [colon]) scheme ++ behind) = (scheme, behind) := by
  cases scheme with
  | some name =>
    have hvalid := hsome name rfl
    have hcolon : colon ∉ name := stop_not_mem_scheme hvalid (by decide)
    have hsplit := splitAtByte_append hcolon (some behind)
    have htext : delimited (· ++ [colon]) (some name) ++ behind = name ++ delimited (colon :: ·) (some behind) := by
      simp [delimited]
    rw [htext, uriScheme, hsplit]
    exact if_pos hvalid
  | none =>
    show uriScheme behind = (none, behind)
    obtain ⟨heq, -⟩ := splitAtByte_eq colon behind
    rw [uriScheme]
    cases hsplit : splitAtByte colon behind with
    | mk name rest =>
      rw [hsplit] at heq
      cases rest with
      | none => rfl
      | some rest => exact if_neg (by rw [hnone rfl name rest heq]; exact Bool.false_ne_true)

/-- What the scheme is read from. -/
theorem uriScheme_cases (text : Bytes) :
    text = delimited (· ++ [colon]) (uriScheme text).1 ++ (uriScheme text).2 ∧
      (∀ name ∈ (uriScheme text).1, isValidUriScheme name = true) ∧
        ((uriScheme text).1 = none → ∀ name rest, (uriScheme text).2 = name ++ colon :: rest →
          isValidUriScheme name = false) := by
  obtain ⟨heq, -⟩ := splitAtByte_eq colon text
  cases hsplit : splitAtByte colon text with
  | mk name rest =>
    rw [hsplit] at heq
    -- A front that is a scheme has no colon, so it is the front that was looked at.
    have hfront : ∀ name' rest', text = name' ++ colon :: rest' → isValidUriScheme name' = true →
        name' = name ∧ rest = some rest' := by
      intro name' rest' htext hvalid
      have hcolon : colon ∉ name' := stop_not_mem_scheme hvalid (by decide)
      have hsplit' := splitAtByte_append hcolon (some rest')
      have hsame : splitAtByte colon text = (name', some rest') := by
        rw [htext]
        exact hsplit'
      rw [hsplit] at hsame
      exact ⟨(Prod.mk.inj hsame).1.symm, (Prod.mk.inj hsame).2⟩
    by_cases hwithout : uriScheme text = (none, text) ∧
        ∀ name' rest', text = name' ++ colon :: rest' → isValidUriScheme name' = false
    · rw [hwithout.1]
      exact ⟨rfl, fun name hname => absurd hname (Option.not_mem_none name), fun _ => hwithout.2⟩
    cases rest with
    | none =>
      refine absurd ⟨?_, ?_⟩ hwithout
      · rw [uriScheme, hsplit]
      · intro name' rest' htext
        rw [← Bool.not_eq_true]
        intro hvalid
        cases (hfront name' rest' htext hvalid).2
    | some behind =>
      cases hvalid : isValidUriScheme name with
      | true =>
        have hscheme : uriScheme text = (some name, behind) := by
          rw [uriScheme, hsplit]
          exact if_pos hvalid
        rw [hscheme]
        refine ⟨?_, ?_, fun h => absurd h (Option.some_ne_none name)⟩
        · conv_lhs => rw [heq]
          simp [delimited]
        · intro name' hname'
          obtain rfl := Option.some.inj hname'
          exact hvalid
      | false =>
        refine absurd ⟨?_, ?_⟩ hwithout
        · rw [uriScheme, hsplit]
          exact if_neg (by rw [hvalid]; exact Bool.false_ne_true)
        · intro name' rest' htext
          rw [← Bool.not_eq_true]
          intro hvalid'
          rw [(hfront name' rest' htext hvalid').1, hvalid] at hvalid'
          cases hvalid'

/-- The bytes of a text up to a delimiter. -/
theorem split_at_delimiter {front behind : Bytes} (hfront : ∀ byte ∈ front, isUriDelimiter byte = false)
    (hbehind : ∀ byte ∈ behind.head?, byte = slash) :
    (front ++ behind).takeWhile (!isUriDelimiter ·) = front ∧
      (front ++ behind).dropWhile (!isUriDelimiter ·) = behind := by
  have hrun : ∀ byte ∈ front, (!isUriDelimiter byte) = true := by
    intro byte hbyte
    rw [hfront byte hbyte]
    rfl
  have hstop : ∀ byte, behind.head? = some byte → (!isUriDelimiter byte) = false := by
    intro byte hbyte
    rw [hbehind byte hbyte]
    rfl
  exact ⟨takeWhile_run_stop hrun hstop, Library.dropWhile_append_stop hrun hstop⟩

theorem uriAuthorityFront_eq {authority : Option UriAuthority} {path : Bytes}
    (hsome : ∀ value ∈ authority, value.Split) (hnone : authority = none → startsWithSlashes path = false)
    (hrooted : authority.isSome = true → ∀ byte ∈ path.head?, byte = slash) :
    uriAuthorityFront (delimited (slash :: slash :: ·) (authority.map UriAuthority.text) ++ path) =
      (authority, path) := by
  cases authority with
  | none => exact if_neg (by rw [Option.map_none, delimited, List.nil_append, hnone rfl]; exact Bool.false_ne_true)
  | some value =>
    have hsplit := hsome value rfl
    obtain ⟨htake, hdrop⟩ := split_at_delimiter hsplit.delimiter (hrooted rfl)
    show uriAuthorityFront (slash :: slash :: (value.text ++ path)) = _
    show (some (uriAuthority ((value.text ++ path).takeWhile (!isUriDelimiter ·))),
      (value.text ++ path).dropWhile (!isUriDelimiter ·)) = _
    rw [htake, hdrop, uriAuthority_text hsplit]

theorem uriAuthorityFront_cases (text : Bytes) (hquestion : questionMark ∉ text) (hnumber : numberSign ∉ text) :
    text = delimited (slash :: slash :: ·) ((uriAuthorityFront text).1.map UriAuthority.text) ++
        (uriAuthorityFront text).2 ∧
      (∀ value ∈ (uriAuthorityFront text).1, value.Split) ∧
        ((uriAuthorityFront text).1 = none → startsWithSlashes (uriAuthorityFront text).2 = false) ∧
          ((uriAuthorityFront text).1.isSome = true → ∀ byte ∈ (uriAuthorityFront text).2.head?, byte = slash) := by
  rw [uriAuthorityFront]
  by_cases hslashes : startsWithSlashes text = true
  · obtain ⟨rest, rfl⟩ := startsWithSlashes_iff.mp hslashes
    rw [if_pos hslashes]
    simp only [List.drop_succ_cons, List.drop_zero, Option.map_some, delimited, text_uriAuthority]
    refine ⟨?_, ?_, by simp, ?_⟩
    · rw [List.cons_append, List.cons_append, List.takeWhile_append_dropWhile]
    · intro value hvalue
      obtain rfl := Option.some.inj hvalue
      apply split_uriAuthority
      intro byte hbyte
      simpa using List.mem_takeWhile_imp hbyte
    · intro _ byte hbyte
      have hstop := List.head?_dropWhile_not (!isUriDelimiter ·) rest
      rw [hbyte] at hstop
      have hdelimiter : isUriDelimiter byte = true := by simpa using hstop
      have hmem : byte ∈ rest := (List.dropWhile_suffix _).subset (List.mem_of_mem_head? hbyte)
      rcases isUriDelimiter_eq_true.mp hdelimiter with rfl | rfl | rfl
      · rfl
      · exact absurd (List.mem_cons_of_mem _ (List.mem_cons_of_mem _ hmem)) hquestion
      · exact absurd (List.mem_cons_of_mem _ (List.mem_cons_of_mem _ hmem)) hnumber
  · rw [if_neg hslashes]
    exact ⟨rfl, (fun value h => by cases h), (fun _ => by simpa using hslashes), by simp⟩

namespace UriReferenceParts

variable {parts : UriReferenceParts}

/-- The query and the fragment begin behind the path. -/
theorem Split.not_mem_front (h : parts.Split) (hscheme : isSchemeByte stop = false) (hcolon : stop ≠ colon)
    (hslash : stop ≠ slash) (hdelimiter : isUriDelimiter stop = true) (hpath : stop ∉ parts.path) :
    stop ∉ parts.schemeText ++ (parts.authorityText ++ parts.path) := by
  rw [List.mem_append, List.mem_append, not_or, not_or]
  refine ⟨not_mem_delimited ?_, not_mem_delimited ?_, hpath⟩
  · intro scheme hsome
    rw [List.mem_append, List.mem_singleton, not_or]
    exact ⟨stop_not_mem_scheme (h.scheme scheme hsome) hscheme, hcolon⟩
  · intro text hsome
    obtain ⟨authority, hauthority, rfl⟩ := Option.map_eq_some_iff.mp hsome
    rw [List.mem_cons, List.mem_cons, not_or, not_or]
    refine ⟨hslash, hslash, ?_⟩
    intro hmem
    rw [(h.authority authority hauthority).delimiter stop hmem] at hdelimiter
    cases hdelimiter

/-- Without a scheme, what is in front of a colon is none. -/
theorem Split.noScheme_front (h : parts.Split) (hscheme : parts.scheme = none) (name rest : Bytes)
    (heq : parts.authorityText ++ parts.path = name ++ colon :: rest) : isValidUriScheme name = false := by
  cases hauthority : parts.authority with
  | none =>
    rw [authorityText, hauthority] at heq
    exact h.noScheme hscheme hauthority name rest heq
  | some authority =>
    rw [authorityText, hauthority] at heq
    cases name with
    | nil => rfl
    | cons first name =>
      obtain rfl : slash = first := (List.cons_eq_cons.mp heq).1
      rw [← Bool.not_eq_true]
      intro hvalid
      exact stop_not_mem_scheme hvalid (by decide) (List.mem_cons_self ..)

/-- **A split is what its text is taken apart into.** -/
theorem Split.uriParts_text (h : parts.Split) : uriParts parts.text = parts := by
  have hquestion : questionMark ∉ parts.schemeText ++ (parts.authorityText ++ parts.path) :=
    h.not_mem_front (by decide) (by decide) (by decide) (by decide) h.path.1
  have hnumber : numberSign ∉ parts.schemeText ++ (parts.authorityText ++ parts.path) ++
      delimited (questionMark :: ·) parts.query := by
    rw [List.mem_append, not_or]
    refine ⟨h.not_mem_front (by decide) (by decide) (by decide) (by decide) h.path.2, not_mem_delimited ?_⟩
    intro query hsome
    rw [List.mem_cons, not_or]
    exact ⟨by decide, h.query query hsome⟩
  have htext : parts.text = parts.schemeText ++ (parts.authorityText ++ parts.path) ++
      delimited (questionMark :: ·) parts.query ++ delimited (numberSign :: ·) parts.fragment := by
    simp only [text, suffix, List.append_assoc]
  have hscheme := uriScheme_eq h.scheme h.noScheme_front
  have hauthority := uriAuthorityFront_eq h.authority h.noAuthority h.rooted
  rw [← schemeText] at hscheme
  rw [← authorityText] at hauthority
  simp only [uriParts, htext, splitAtByte_append hnumber, splitAtByte_append hquestion, hscheme, hauthority]

end UriReferenceParts

/-- **Every text is put together from its parts.** -/
theorem text_uriParts (text : Bytes) : (uriParts text).text = text ∧ (uriParts text).Split := by
  obtain ⟨hfragment, hnumber⟩ := splitAtByte_eq numberSign text
  cases hfirst : splitAtByte numberSign text with
  | mk withQuery fragment =>
    rw [hfirst] at hfragment hnumber
    obtain ⟨hquery, hquestion⟩ := splitAtByte_eq questionMark withQuery
    cases hsecond : splitAtByte questionMark withQuery with
    | mk hierarchy query =>
      rw [hsecond] at hquery hquestion
      obtain ⟨hscheme, hvalid, hinvalid⟩ := uriScheme_cases hierarchy
      cases hthird : uriScheme hierarchy with
      | mk scheme behind =>
        simp only [hthird] at hscheme hvalid hinvalid
        simp only at hfragment hnumber hquery hquestion
        have hnumber' : numberSign ∉ behind := by
          intro hmem
          apply hnumber
          rw [hquery, hscheme]
          exact List.mem_append_left _ (List.mem_append_right _ hmem)
        have hquestion' : questionMark ∉ behind := by
          intro hmem
          apply hquestion
          rw [hscheme]
          exact List.mem_append_right _ hmem
        obtain ⟨hauthority, hsplit, hslashes, hrooted⟩ := uriAuthorityFront_cases behind hquestion' hnumber'
        cases hfourth : uriAuthorityFront behind with
        | mk authority path =>
          simp only [hfourth] at hauthority hsplit hslashes hrooted
          have hparts : uriParts text = ⟨scheme, authority, path, query, fragment⟩ := by
            simp only [uriParts, hfirst, hsecond, hthird, hfourth]
          rw [hparts]
          constructor
          · rw [hfragment, hquery, hscheme, hauthority]
            simp only [UriReferenceParts.text, UriReferenceParts.schemeText, UriReferenceParts.authorityText,
              UriReferenceParts.suffix, List.append_assoc]
          · refine ⟨hvalid, ?_, hsplit, hslashes, hrooted, ⟨?_, ?_⟩, ?_⟩
            · intro hnoScheme hnoAuthority name rest hpath
              subst hnoAuthority
              exact hinvalid hnoScheme name rest (hauthority.trans hpath)
            · intro hmem
              exact hquestion' (hauthority ▸ List.mem_append_right _ hmem)
            · intro hmem
              exact hnumber' (hauthority ▸ List.mem_append_right _ hmem)
            · intro value hvalue hmem
              obtain rfl : query = some value := hvalue
              apply hnumber
              rw [hquery]
              exact List.mem_append_right _ (List.mem_cons_of_mem _ hmem)

end

end Ruvia.Http
