import Ruvia.Http.UriReferenceParts

/-!
# `Http.UriReferenceRepair` — the encoder repairs every component

The positions that `findUriReferenceLayout` finds are where the components of a reference begin and end
(`Split.layout_text`), so the loop repairs one component after the other (`encodeKept_segment`), and the encoded
reference is the text of the repaired components. They are the components of that text again: encoding is idempotent.
-/

namespace Ruvia.Http

open Library
open UriReferenceParts

/-! ## Searching in a text that is put together -/

section

variable {p : UInt8 → Bool} {before middle behind text : Bytes} {stop : UInt8} {index : Nat}

/-- The first stop is behind the middle. -/
theorem findFrom_append_stop (hmiddle : ∀ byte ∈ middle, p byte = false) (hstop : p stop = true) :
    findFrom p (before ++ (middle ++ stop :: behind)) before.length = some (before.length + middle.length) := by
  rw [findFrom, List.drop_left, List.findIdx?_append, List.findIdx?_eq_none_iff.mpr hmiddle, Option.none_or,
    List.findIdx?_cons, if_pos hstop]
  simp [Nat.add_comm]

theorem findFrom_append_none (hmiddle : ∀ byte ∈ middle, p byte = false) :
    findFrom p (before ++ middle) before.length = none := by
  rw [findFrom, List.drop_left, List.findIdx?_eq_none_iff.mpr hmiddle]
  rfl

/-- Up to the first delimiter, or the whole rest. -/
theorem getD_findFrom_delimiter (hmiddle : ∀ byte ∈ middle, isUriDelimiter byte = false)
    (hbehind : ∀ byte ∈ behind.head?, isUriDelimiter byte = true) :
    (findFrom isUriDelimiter (before ++ (middle ++ behind)) before.length).getD (before ++ (middle ++ behind)).length =
      before.length + middle.length := by
  cases behind with
  | nil =>
    rw [List.append_nil, findFrom_append_none hmiddle, Option.getD_none, List.length_append]
  | cons stop rest => rw [findFrom_append_stop hmiddle (hbehind stop rfl), Option.getD_some]

theorem findLastByte_append (hbehind : stop ∉ behind) :
    findLastByte stop (before ++ stop :: behind) = some before.length := by
  have hrun : ∀ byte ∈ behind.reverse, (byte == stop) = false := by
    intro byte hbyte
    rw [beq_eq_false_iff_ne]
    rintro rfl
    exact hbehind (List.mem_reverse.mp hbyte)
  rw [findLastByte, List.reverse_append, List.reverse_cons, List.append_assoc, List.findIdx?_append,
    List.findIdx?_eq_none_iff.mpr hrun, Option.none_or, List.singleton_append, List.findIdx?_cons, if_pos BEq.rfl]
  simp only [Option.map_some, List.length_append, List.length_cons, List.length_reverse, Option.some.injEq]
  omega

theorem findLastByte_none (h : stop ∉ text) : findLastByte stop text = none := by
  have hrun : ∀ byte ∈ text.reverse, (byte == stop) = false := by
    intro byte hbyte
    rw [beq_eq_false_iff_ne]
    rintro rfl
    exact h (List.mem_reverse.mp hbyte)
  rw [findLastByte, List.findIdx?_eq_none_iff.mpr hrun]
  rfl

end

/-! ## The layout of a split -/

/-- The positions of an authority that begins at `start`. -/
def UriAuthority.layout (authority : UriAuthority) (start : Nat) : UriReferenceLayout :=
  let hostBegin := start + (delimited (· ++ [atSign]) authority.userinfo).length
  let layout : UriReferenceLayout :=
    { authorityBegin := authority.userinfo.map fun _ => start
      userinfoEnd := authority.userinfo.map fun userinfo => start + userinfo.length }
  match authority.host with
  | .literal address _ =>
    { layout with ipLiteralOpen := some hostBegin, ipLiteralClose := some (hostBegin + 1 + address.length) }
  | .plain _ => layout

def UriReferenceParts.layout (parts : UriReferenceParts) : UriReferenceLayout :=
  match parts.authority with
  | none => { colonFreeEnd := if parts.relative then (firstSegment parts.path).length else 0 }
  | some authority => authority.layout (parts.schemeText.length + 2)

section

variable {authority : UriAuthority} {before behind : Bytes} {parts : UriReferenceParts}

theorem findLastByte_authority (h : authority.Split) :
    findLastByte atSign authority.text = authority.userinfo.map List.length := by
  rw [UriAuthority.text]
  cases authority.userinfo with
  | none => exact findLastByte_none h.atSign
  | some userinfo =>
    rw [delimited, List.append_assoc, List.singleton_append]
    exact findLastByte_append h.atSign

/-- **The positions of an authority** are where its parts begin and end. -/
theorem authorityLayout_eq (h : authority.Split) (hbehind : ∀ byte ∈ behind.head?, isUriDelimiter byte = true) :
    authorityLayout (before ++ (authority.text ++ behind)) before.length = authority.layout before.length := by
  have hend := @getD_findFrom_delimiter before authority.text behind h.delimiter hbehind
  have hsub : sub (before ++ (authority.text ++ behind)) before.length
      (before.length + authority.text.length - before.length) = authority.text := by
    rw [sub, List.drop_left, Nat.add_sub_cancel_left, List.take_left]
  have hfront : before ++ (authority.text ++ behind) =
      (before ++ delimited (· ++ [atSign]) authority.userinfo) ++ (authority.host.text ++ behind) := by
    rw [UriAuthority.text, List.append_assoc, List.append_assoc]
  have hbegin : before.length + ((authority.userinfo.map List.length).map (· + 1)).getD 0 =
      (before ++ delimited (· ++ [atSign]) authority.userinfo).length := by
    rw [List.length_append]
    cases authority.userinfo with
    | none => rfl
    | some userinfo => simp [delimited]
  have hlength : before.length + authority.text.length =
      (before ++ delimited (· ++ [atSign]) authority.userinfo).length + authority.host.text.length := by
    rw [UriAuthority.text, List.length_append, List.length_append, Nat.add_assoc]
  simp only [authorityLayout, hend]
  simp only [hsub, findLastByte_authority h]
  simp only [hbegin]
  have hstart : before.length + (delimited (· ++ [atSign]) authority.userinfo).length =
      (before ++ delimited (· ++ [atSign]) authority.userinfo).length := List.length_append.symm
  rw [hlength, hfront]
  simp only [UriAuthority.layout, hstart]
  generalize before ++ delimited (· ++ [atSign]) authority.userinfo = front
  cases hhost : authority.host with
  | literal address rest =>
    have hclose : findByte closeBracket (front ++ ((UriHost.literal address rest).text ++ behind)) (front.length + 1) =
        some (front.length + 1 + address.length) := by
      have hstop := @findFrom_append_stop (· == closeBracket) (front ++ [openBracket]) address (rest ++ behind)
        closeBracket (fun byte hbyte => by
          rw [beq_eq_false_iff_ne]
          rintro rfl
          exact h.host.address address rest hhost hbyte) BEq.rfl
      simpa [findByte, UriHost.text] using hstop
    have hopen : (front ++ ((UriHost.literal address rest).text ++ behind))[front.length]? = some openBracket := by
      simp [UriHost.text]
    have hlong : (UriHost.literal address rest).text.length = address.length + rest.length + 2 := by
      simp [UriHost.text]
      omega
    rw [if_neg (by rw [hopen, hlong]; simp), hclose]
    simp only [Option.map_map]
    rw [if_pos (by omega)]
    rfl
  | plain name =>
    have htext : (UriHost.plain name).text = name := rfl
    rw [htext]
    cases name with
    | nil =>
      have hempty : front.length ≥ front.length + ([] : Bytes).length := Nat.le_refl _
      rw [if_pos (Or.inl hempty)]
      simp only [Option.map_map]
      rfl
    | cons first rest =>
      by_cases hfirst : first = openBracket
      · subst hfirst
        have hclosed : closeBracket ∉ rest := h.host.plain rest hhost
        have hopen : (front ++ (openBracket :: rest ++ behind))[front.length]? = some openBracket := by simp
        rw [if_neg (by rw [hopen]; simp)]
        cases hclose : findByte closeBracket (front ++ (openBracket :: rest ++ behind)) (front.length + 1) with
        | none =>
          simp only [Option.map_map]
          rfl
        | some close =>
          obtain ⟨hle, hget, -⟩ := findByte_eq_some_iff.mp hclose
          have hbehindEnd : front.length + (openBracket :: rest).length ≤ close := by
            by_contra hlt
            obtain ⟨offset, rfl⟩ := Nat.exists_eq_add_of_le hle
            apply hclosed
            rw [Nat.not_le, List.length_cons] at hlt
            have hget' : rest[offset]? = some closeBracket := by
              rw [← hget, List.getElem?_append_right (by omega), List.cons_append]
              have hindex : front.length + 1 + offset - front.length = offset + 1 := by omega
              rw [hindex, List.getElem?_cons_succ, List.getElem?_append_left (by omega)]
            exact List.mem_of_getElem? hget'
          simp only [Option.map_map]
          rw [if_neg (by omega)]
          rfl
      · rw [if_pos (Or.inr (by simpa using hfirst))]
        simp only [Option.map_map]
        rfl

/-! ### The scheme -/

theorem head_suffix (parts : UriReferenceParts) :
    ∀ byte ∈ parts.suffix.head?, byte = questionMark ∨ byte = numberSign := by
  intro byte hbyte
  rw [suffix] at hbyte
  cases hquery : parts.query with
  | some query =>
    rw [hquery] at hbyte
    exact Or.inl (Option.some.inj hbyte).symm
  | none =>
    cases hfragment : parts.fragment with
    | some fragment =>
      rw [hquery, hfragment] at hbyte
      exact Or.inr (Option.some.inj hbyte).symm
    | none =>
      rw [hquery, hfragment] at hbyte
      cases hbyte

/-- A scheme and its colon do not reach into the query or the fragment. -/
theorem colon_in_front {front suffix name rest : Bytes}
    (hsuffix : ∀ byte ∈ suffix.head?, byte = questionMark ∨ byte = numberSign)
    (hvalid : isValidUriScheme name = true) (heq : front ++ suffix = name ++ colon :: rest) :
    ∃ rest', front = name ++ colon :: rest' := by
  rcases List.append_eq_append_iff.mp heq with ⟨between, hname, hrest⟩ | ⟨between, hfront, hrest⟩
  · cases between with
    | nil =>
      have hhead : suffix.head? = some colon := by
        rw [hrest]
        rfl
      rcases hsuffix colon hhead with heq | heq <;> exact absurd heq (by decide)
    | cons byte between =>
      have hhead : suffix.head? = some byte := by
        rw [hrest]
        rfl
      have hmem : byte ∈ name := by
        rw [hname]
        exact List.mem_append_right _ (List.mem_cons_self ..)
      rcases hsuffix byte hhead with rfl | rfl <;> exact absurd hmem (stop_not_mem_scheme hvalid (by decide))
  · cases between with
    | nil =>
      have hhead : suffix.head? = some colon := by
        rw [List.nil_append] at hrest
        rw [← hrest]
        rfl
      rcases hsuffix colon hhead with heq | heq <;> exact absurd heq (by decide)
    | cons byte between =>
      obtain ⟨rfl, -⟩ := List.cons_eq_cons.mp hrest
      exact ⟨between, hfront⟩

/-- **The scheme that the code looks for** is the one of the split. -/
theorem schemeColon_text (h : parts.Split) : schemeColon parts.text = parts.scheme.map List.length := by
  cases hscheme : parts.scheme with
  | some name =>
    have hvalid := h.scheme name hscheme
    have htext : parts.text = name ++ colon :: (parts.authorityText ++ (parts.path ++ parts.suffix)) := by
      rw [text, schemeText, hscheme]
      simp [delimited]
    have hcolon : findByte colon parts.text 0 = some name.length := by
      have hstop := @findFrom_append_stop (· == colon) [] name (parts.authorityText ++ (parts.path ++ parts.suffix))
        colon (fun byte hbyte => by
          rw [beq_eq_false_iff_ne]
          rintro rfl
          exact stop_not_mem_scheme hvalid (by decide) hbyte) BEq.rfl
      rw [htext]
      simpa [findByte] using hstop
    have hbefore : ∀ delimiter ∈ findFrom isUriDelimiter parts.text 0, name.length < delimiter := by
      intro delimiter hfound
      obtain ⟨-, ⟨byte, hget, hdelimiter⟩, -⟩ := findFrom_eq_some_iff.mp hfound
      by_contra hle
      rw [htext] at hget
      rcases Nat.lt_or_eq_of_le (Nat.le_of_not_lt hle) with hlt | rfl
      · rw [List.getElem?_append_left hlt] at hget
        have hmem := List.mem_of_getElem? hget
        rcases isUriDelimiter_eq_true.mp hdelimiter with rfl | rfl | rfl <;>
          exact absurd hmem (stop_not_mem_scheme hvalid (by decide))
      · rw [List.getElem?_append_right (Nat.le_refl _), Nat.sub_self] at hget
        obtain rfl : colon = byte := Option.some.inj hget
        exact absurd hdelimiter (by decide)
    have htake : parts.text.take name.length = name := by
      rw [htext, List.take_left]
    rw [schemeColon, hcolon, Option.filter_some, Option.map_some]
    exact if_pos (by simpa [htake, hvalid] using hbefore)
  | none =>
    rw [Option.map_none, schemeColon, Option.filter_eq_none_iff]
    intro position hfound
    obtain ⟨-, hget, -⟩ := findByte_eq_some_iff.mp hfound
    obtain ⟨hlt, hbyte⟩ := List.getElem?_eq_some_iff.mp hget
    have hsplit : (parts.authorityText ++ parts.path) ++ parts.suffix =
        parts.text.take position ++ colon :: parts.text.drop (position + 1) := by
      have htext : parts.text = (parts.authorityText ++ parts.path) ++ parts.suffix := by
        rw [text, schemeText, hscheme, delimited, List.nil_append,
          List.append_assoc]
      conv_lhs => rw [← htext, ← List.take_append_drop position parts.text, List.drop_eq_getElem_cons hlt, hbyte]
    simp only [decide_eq_true_eq, not_and]
    intro _ hvalid
    obtain ⟨rest, hfront⟩ := colon_in_front (head_suffix parts) hvalid hsplit
    rw [h.noScheme_front hscheme _ rest hfront] at hvalid
    cases hvalid

/-! ### All positions -/

theorem isUriDelimiter_of_slash {text : Bytes} (h : ∀ byte ∈ text.head?, byte = slash) :
    ∀ byte ∈ text.head?, isUriDelimiter byte = true := by
  intro byte hbyte
  rw [h byte hbyte]
  rfl

/-- What is behind an authority or a first segment begins with a delimiter. -/
theorem head_front_suffix {front : Bytes} (hfront : ∀ byte ∈ front.head?, byte = slash) :
    ∀ byte ∈ (front ++ parts.suffix).head?, isUriDelimiter byte = true := by
  cases front with
  | nil =>
    intro byte hbyte
    rcases head_suffix parts byte hbyte with rfl | rfl <;> rfl
  | cons first rest => exact isUriDelimiter_of_slash hfront

theorem startsWithSlashes_path (h : parts.Split) :
    startsWithSlashes (parts.authorityText ++ (parts.path ++ parts.suffix)) = parts.authority.isSome := by
  cases hauthority : parts.authority with
  | some authority =>
    rw [UriReferenceParts.authorityText, hauthority]
    exact startsWithSlashes_iff.mpr ⟨authority.text ++ (parts.path ++ parts.suffix), rfl⟩
  | none =>
    rw [UriReferenceParts.authorityText, hauthority]
    show startsWithSlashes (parts.path ++ parts.suffix) = false
    have hslashes := h.noAuthority hauthority
    rw [← Bool.not_eq_true, startsWithSlashes_iff] at hslashes ⊢
    rintro ⟨rest, heq⟩
    have hsuffix : ∀ text, parts.suffix ≠ slash :: text := by
      intro text htext
      rcases head_suffix parts slash (by rw [htext]; rfl) with heq | heq <;> exact absurd heq (by decide)
    rcases hpath : parts.path with _ | ⟨first, _ | ⟨second, path⟩⟩
    · rw [hpath] at heq
      exact hsuffix _ heq
    · rw [hpath] at heq
      exact hsuffix _ (List.cons_eq_cons.mp heq).2
    · rw [hpath] at heq
      obtain ⟨hfirst, heq⟩ := List.cons_eq_cons.mp heq
      obtain ⟨hsecond, -⟩ := List.cons_eq_cons.mp heq
      exact hslashes ⟨path, by rw [hpath, hfirst, hsecond]⟩

theorem authorityLayout_text (h : parts.Split) (hauthority : parts.authority = some authority) :
    authorityLayout parts.text (parts.schemeText.length + 2) = authority.layout (parts.schemeText.length + 2) := by
  have hrooted : ∀ byte ∈ parts.path.head?, byte = slash := h.rooted (by rw [hauthority]; rfl)
  have htext : parts.text =
      (parts.schemeText ++ [slash, slash]) ++ (authority.text ++ (parts.path ++ parts.suffix)) := by
    rw [text, UriReferenceParts.authorityText, hauthority]
    simp [delimited]
  have hlayout := @authorityLayout_eq authority (parts.schemeText ++ [slash, slash]) (parts.path ++ parts.suffix)
    (h.authority authority hauthority) (head_front_suffix hrooted)
  rw [htext]
  simpa using hlayout

/-- **The layout of the code** is where the parts begin and end. -/
theorem layout_text (h : parts.Split) : findUriReferenceLayout parts.text = parts.layout := by
  rw [findUriReferenceLayout, schemeColon_text h]
  cases hscheme : parts.scheme with
  | some name =>
    have hdrop : parts.text.drop (name.length + 1) = parts.authorityText ++ (parts.path ++ parts.suffix) := by
      have htext : parts.text = (name ++ [colon]) ++ (parts.authorityText ++ (parts.path ++ parts.suffix)) := by
        rw [text, schemeText, hscheme, delimited]
      rw [htext, List.drop_left' (by simp)]
    have hlength : parts.schemeText.length = name.length + 1 := by
      rw [schemeText, hscheme]
      simp [delimited]
    simp only [Option.map_some, hdrop, startsWithSlashes_path h]
    rw [layout]
    cases hauthority : parts.authority with
    | some authority =>
      have hlayout := authorityLayout_text h hauthority
      rw [hlength] at hlayout
      simpa [hlength] using hlayout
    | none => simp [relative, hscheme]
  | none =>
    have hlength : parts.schemeText.length = 0 := by
      rw [schemeText, hscheme]
      rfl
    have htext : parts.text = parts.authorityText ++ (parts.path ++ parts.suffix) := by
      rw [text, List.eq_nil_of_length_eq_zero hlength, List.nil_append]
    have hslashes : startsWithSlashes parts.text = parts.authority.isSome := by
      rw [htext, startsWithSlashes_path h]
    simp only [Option.map_none, hslashes]
    rw [layout]
    cases hauthority : parts.authority with
    | some authority =>
      have hfirst : findFrom isUriDelimiter parts.text 0 = some 0 := by
        rw [htext, UriReferenceParts.authorityText, hauthority]
        rfl
      have hlayout := authorityLayout_text h hauthority
      rw [hlength, Nat.zero_add] at hlayout
      have hzero : (authority.layout 2).colonFreeEnd = 0 := by
        rw [UriAuthority.layout]
        cases authority.host <;> rfl
      simp only [Option.isSome_some, if_true, hfirst, Option.getD_some, hlayout, hlength, Nat.zero_add]
      rw [← hzero]
    | none =>
      have hmiddle : ∀ byte ∈ firstSegment parts.path, isUriDelimiter byte = false := by
        intro byte hbyte
        have hmem : byte ∈ parts.path := (List.takeWhile_prefix _).subset hbyte
        rw [← Bool.not_eq_true, isUriDelimiter_eq_true]
        rintro (rfl | rfl | rfl)
        · exact slash_not_mem_firstSegment parts.path hbyte
        · exact h.path.1 hmem
        · exact h.path.2 hmem
      have hend := @getD_findFrom_delimiter [] (firstSegment parts.path) (behindFirstSegment parts.path ++ parts.suffix)
        hmiddle (head_front_suffix (head_behindFirstSegment parts.path))
      have hpath : parts.text = firstSegment parts.path ++ (behindFirstSegment parts.path ++ parts.suffix) := by
        rw [← List.append_assoc, firstSegment_append_behind, htext, UriReferenceParts.authorityText, hauthority]
        rfl
      rw [List.nil_append, ← hpath, List.length_nil, Nat.zero_add] at hend
      simp [hend, relative, hscheme, hauthority]

end

/-! ## The loop over a component -/

section

variable {layout : UriReferenceLayout} {keeps : UInt8 → Bool} {segment rest : Bytes} {byte stop : UInt8} {index : Nat}
  {seen seen' : Bool}

/-- No triplet begins in front of a byte that is no digit and reaches behind it. -/
theorem decode_append_none (hnone : httpTryDecodePercentByte (byte :: segment) = none)
    (hrest : ∀ stop ∈ rest.head?, httpDecodeHexNibble stop = none) :
    httpTryDecodePercentByte (byte :: (segment ++ rest)) = none := by
  rcases triplet_or_none byte (segment ++ rest) with ⟨high, low, behind, heq, rfl, hhigh, hlow⟩ | hnone'
  · have hstop : ∀ stop, (httpDecodeHexNibble stop).isSome = true → rest.head? ≠ some stop := by
      intro stop hsome hhead
      rw [hrest stop hhead] at hsome
      cases hsome
    rcases segment with _ | ⟨first, _ | ⟨second, segment⟩⟩
    · exact absurd (congrArg List.head? heq) (hstop high hhigh)
    · exact absurd (congrArg List.head? (List.cons_eq_cons.mp heq).2) (hstop low hlow)
    · obtain ⟨hfirst, heq⟩ := List.cons_eq_cons.mp heq
      obtain ⟨hsecond, -⟩ := List.cons_eq_cons.mp heq
      have hsome := isSome_decode_triplet hhigh hlow segment
      rw [← hfirst, ← hsecond, hnone] at hsome
      cases hsome
  · exact hnone'

/-- **The loop repairs a component** in which the verdict on a byte is the component's own. -/
theorem encodeKept_segment (hpercent : keeps percent = false)
    (hrest : ∀ stop ∈ rest.head?, httpDecodeHexNibble stop = none) (segment : Bytes) :
    ∀ index, (∀ offset byte, segment[offset]? = some byte → byte ≠ percent →
        uriReferenceKeepsLiteral byte (index + offset) layout seen = (keeps byte, seen)) →
      encodeKept layout index (segment ++ rest) seen =
        repairBytes keeps segment ++ encodeKept layout (index + segment.length) rest seen := by
  induction segment using unit_induction with
  | nil =>
    intro index _
    rw [repairBytes_nil]
    rfl
  | triplet high low behind hhigh hlow ih =>
    intro index hverdict
    have hescape : referenceStep layout index percent (high :: low :: (behind ++ rest)) seen =
        ⟨[percent, high, low], 3, true, seen⟩ := by
      rw [referenceStep, if_pos (isSome_decode_triplet hhigh hlow _)]
      rfl
    have hnext := ih (index + 3) fun offset byte hget hne => by
      have := hverdict (offset + 3) byte hget hne
      rwa [Nat.add_comm offset 3, ← Nat.add_assoc] at this
    rw [repairBytes_triplet hhigh hlow]
    show encodeKept layout index (percent :: high :: low :: (behind ++ rest)) seen = _
    rw [encodeKept_cons, hescape]
    show [percent, high, low] ++ encodeKept layout (index + 3) (behind ++ rest) seen = _
    rw [hnext, List.length_cons, List.length_cons, List.length_cons, Nat.add_assoc, Nat.add_comm 3]
    rfl
  | byte byte segment hnone ih =>
    intro index hverdict
    have hnone' := decode_append_none hnone hrest
    have hnext := ih (index + 1) fun offset byte' hget hne => by
      have := hverdict (offset + 1) byte' hget hne
      rwa [Nat.add_comm offset 1, ← Nat.add_assoc] at this
    have hstep : referenceStep layout index byte (segment ++ rest) seen =
        ⟨if keeps byte then [byte] else percentTriplet byte, 1, keeps byte, seen⟩ := by
      rw [referenceStep, if_neg (by rw [hnone']; exact Bool.false_ne_true)]
      by_cases hbyte : byte = percent
      · rw [if_pos hbyte, hbyte, hpercent]
        rfl
      · have hfirst : uriReferenceKeepsLiteral byte index layout seen = (keeps byte, seen) :=
          hverdict 0 byte rfl hbyte
        rw [if_neg hbyte, hfirst]
        cases keeps byte <;> rfl
    rw [repairBytes_byte hnone, List.cons_append, encodeKept_cons, hstep]
    show _ ++ encodeKept layout (index + 1) (segment ++ rest) seen = _
    rw [hnext, List.length_cons, List.append_assoc, Nat.add_assoc, Nat.add_comm 1]

/-- A delimiter is kept. -/
theorem encodeKept_stop (hne : stop ≠ percent)
    (h : uriReferenceKeepsLiteral stop index layout seen = (true, seen')) :
    encodeKept layout index (stop :: rest) seen = stop :: encodeKept layout (index + 1) rest seen' := by
  have hstep : referenceStep layout index stop rest seen = ⟨[stop], 1, true, seen'⟩ := by
    rw [referenceStep, if_neg (by rw [httpTryDecodePercentByte_of_ne hne]; exact Bool.false_ne_true), if_neg hne, h]
    rfl
  rw [encodeKept_cons, hstep]
  rfl

/-- The verdict of the layout is the verdict of a component, byte class by byte class. -/
theorem uriReferenceKeepsLiteral_eq
    (hbracket : byte = openBracket ∨ byte = closeBracket →
      ¬(layout.ipLiteralOpen = some index ∨ layout.ipLiteralClose = some index) ∧ keeps byte = false)
    (hcolon : byte = colon → decide (index ≥ layout.colonFreeEnd) = keeps byte)
    (hnumber : byte = numberSign → seen = true ∧ keeps byte = false)
    (hat : byte = atSign → decide ((∀ first ∈ layout.authorityBegin, index < first) ∨
      ∃ last ∈ layout.userinfoEnd, index ≥ last) = keeps byte)
    (hslash : byte = slash ∨ byte = questionMark → keeps byte = true)
    (hother : byte ≠ colon → byte ≠ atSign → byte ≠ slash → byte ≠ questionMark → isUriPchar byte = keeps byte) :
    uriReferenceKeepsLiteral byte index layout seen = (keeps byte, seen) := by
  rw [uriReferenceKeepsLiteral]
  by_cases hb : byte = openBracket ∨ byte = closeBracket
  · obtain ⟨hnot, hkeeps⟩ := hbracket hb
    rw [if_pos hb, hkeeps, decide_eq_false hnot]
  rw [if_neg hb]
  by_cases hc : byte = colon
  · rw [if_pos hc, hcolon hc]
  rw [if_neg hc]
  by_cases hn : byte = numberSign
  · obtain ⟨rfl, hkeeps⟩ := hnumber hn
    rw [if_pos hn, hkeeps]
    rfl
  rw [if_neg hn]
  by_cases ha : byte = atSign
  · rw [if_pos ha, hat ha]
  rw [if_neg ha]
  by_cases hs : byte = slash ∨ byte = questionMark
  · rw [if_pos hs, hslash hs]
  · rw [if_neg hs, hother hc ha (fun h => hs (Or.inl h)) (fun h => hs (Or.inr h))]

end

/-! ## The components, one after the other -/

/-- From a position on, brackets are encoded and `@` is kept. -/
structure UriReferenceLayout.FreeFrom (layout : UriReferenceLayout) (start : Nat) : Prop where
  bracket : ∀ index ≥ start, ¬(layout.ipLiteralOpen = some index ∨ layout.ipLiteralClose = some index)
  atSign : ∀ index ≥ start, (∀ first ∈ layout.authorityBegin, index < first) ∨
    ∃ last ∈ layout.userinfoEnd, index ≥ last

section

variable {layout : UriReferenceLayout} {authority : UriAuthority} {parts : UriReferenceParts} {rest path : Bytes}
  {start index : Nat} {seen : Bool}

theorem UriAuthority.colonFreeEnd_layout (authority : UriAuthority) (start : Nat) :
    (authority.layout start).colonFreeEnd = 0 := by
  rw [UriAuthority.layout]
  cases authority.host <;> rfl

theorem UriAuthority.userinfo_layout (authority : UriAuthority) (start : Nat) :
    (authority.layout start).authorityBegin = authority.userinfo.map (fun _ => start) ∧
      (authority.layout start).userinfoEnd = authority.userinfo.map (start + ·.length) := by
  rw [UriAuthority.layout]
  cases authority.host <;> exact ⟨rfl, rfl⟩

/-- Where the host begins. -/
def UriAuthority.hostBegin (authority : UriAuthority) (start : Nat) : Nat :=
  start + (delimited (· ++ [atSign]) authority.userinfo).length

theorem UriAuthority.literal_layout {address behind : Bytes} (h : authority.host = .literal address behind) :
    (authority.layout start).ipLiteralOpen = some (authority.hostBegin start) ∧
      (authority.layout start).ipLiteralClose = some (authority.hostBegin start + 1 + address.length) := by
  rw [UriAuthority.layout, h]
  exact ⟨rfl, rfl⟩

theorem UriAuthority.plain_layout {name : Bytes} (h : authority.host = .plain name) :
    (authority.layout start).ipLiteralOpen = none ∧ (authority.layout start).ipLiteralClose = none := by
  rw [UriAuthority.layout, h]
  exact ⟨rfl, rfl⟩

/-- Brackets stand in the host only. -/
theorem UriAuthority.bracket_layout (h : (authority.layout start).ipLiteralOpen = some index ∨
    (authority.layout start).ipLiteralClose = some index) :
    authority.hostBegin start ≤ index ∧ index < authority.hostBegin start + authority.host.text.length := by
  cases hhost : authority.host with
  | literal address behind =>
    obtain ⟨hopen, hclose⟩ := @UriAuthority.literal_layout authority start _ _ hhost
    have hlength : (UriHost.literal address behind).text.length = address.length + behind.length + 2 := by
      simp [UriHost.text]
      omega
    rw [hopen, hclose, Option.some.injEq, Option.some.injEq] at h
    rw [hlength]
    omega
  | plain name =>
    obtain ⟨hopen, hclose⟩ := @UriAuthority.plain_layout authority start _ hhost
    rw [hopen, hclose] at h
    rcases h with h | h <;> cases h

/-- From the host on, `@` is kept. -/
theorem UriAuthority.atSign_layout (h : index + 1 ≥ authority.hostBegin start) :
    (∀ first ∈ (authority.layout start).authorityBegin, index < first) ∨
      ∃ last ∈ (authority.layout start).userinfoEnd, index ≥ last := by
  obtain ⟨hbegin, hend⟩ := authority.userinfo_layout start
  rw [hbegin, hend]
  rw [UriAuthority.hostBegin] at h
  cases huserinfo : authority.userinfo with
  | none => exact Or.inl fun first hfirst => absurd hfirst (Option.not_mem_none first)
  | some userinfo =>
    rw [huserinfo, delimited, List.length_append, List.length_singleton] at h
    exact Or.inr ⟨start + userinfo.length, rfl, by omega⟩

theorem UriAuthority.length_text (authority : UriAuthority) (start : Nat) :
    start + authority.text.length = authority.hostBegin start + authority.host.text.length := by
  rw [UriAuthority.text, List.length_append, UriAuthority.hostBegin, Nat.add_assoc]

theorem UriAuthority.freeFrom_layout (authority : UriAuthority) (start : Nat) :
    (authority.layout start).FreeFrom (start + authority.text.length) := by
  rw [authority.length_text]
  refine ⟨?_, ?_⟩
  · intro index hindex hbracket
    have := UriAuthority.bracket_layout hbracket
    omega
  · intro index hindex
    apply UriAuthority.atSign_layout
    omega

/-- The verdict on the bytes of an authority that are no delimiters. -/
theorem UriAuthority.keepsLiteral {byte : UInt8} (hdelimiter : isUriDelimiter byte = false)
    (hbracket : byte = openBracket ∨ byte = closeBracket → ¬((authority.layout start).ipLiteralOpen = some index ∨
      (authority.layout start).ipLiteralClose = some index))
    (hat : byte = atSign → ¬((∀ first ∈ (authority.layout start).authorityBegin, index < first) ∨
      ∃ last ∈ (authority.layout start).userinfoEnd, index ≥ last)) :
    uriReferenceKeepsLiteral byte index (authority.layout start) seen = (isUriUserinfoLiteral byte, seen) := by
  have hnot : ∀ stop, isUriDelimiter stop = true → byte ≠ stop := by
    rintro stop hstop rfl
    rw [hdelimiter] at hstop
    cases hstop
  apply uriReferenceKeepsLiteral_eq
  · intro hbyte
    refine ⟨hbracket hbyte, ?_⟩
    rcases hbyte with rfl | rfl <;> decide
  · rintro rfl
    rw [UriAuthority.colonFreeEnd_layout, decide_eq_true (Nat.zero_le _)]
    decide
  · intro hbyte
    exact absurd hbyte (hnot numberSign rfl)
  · rintro rfl
    rw [decide_eq_false (hat rfl)]
    decide
  · rintro (hbyte | hbyte)
    · exact absurd hbyte (hnot slash rfl)
    · exact absurd hbyte (hnot questionMark rfl)
  · intro _ hne _ _
    rw [isUriPchar, beq_eq_false_iff_ne.mpr hne, Bool.or_false]

/-- A text of an authority without `@`, between the brackets or without any. -/
theorem UriAuthority.encodeKept_text {text : Bytes} (hdelimiter : ∀ byte ∈ text, isUriDelimiter byte = false)
    (hrest : ∀ stop ∈ rest.head?, httpDecodeHexNibble stop = none)
    (hbracket : ∀ offset < text.length, text[offset]? = some openBracket ∨ text[offset]? = some closeBracket →
      ¬((authority.layout start).ipLiteralOpen = some (index + offset) ∨
        (authority.layout start).ipLiteralClose = some (index + offset)))
    (hat : ∀ offset < text.length, text[offset]? = some atSign →
      ¬((∀ first ∈ (authority.layout start).authorityBegin, index + offset < first) ∨
        ∃ last ∈ (authority.layout start).userinfoEnd, index + offset ≥ last)) :
    encodeKept (authority.layout start) index (text ++ rest) seen = repairBytes isUriUserinfoLiteral text ++
      encodeKept (authority.layout start) (index + text.length) rest seen := by
  apply encodeKept_segment (by decide) hrest
  intro offset byte hget _
  have hlt : offset < text.length := (List.getElem?_eq_some_iff.mp hget).1
  apply UriAuthority.keepsLiteral (hdelimiter byte (List.mem_of_getElem? hget))
  · rintro (rfl | rfl)
    · exact hbracket offset hlt (Or.inl hget)
    · exact hbracket offset hlt (Or.inr hget)
  · rintro rfl
    exact hat offset hlt hget

theorem UriAuthority.encodeKept_userinfo (h : authority.Split) :
    encodeKept (authority.layout start) start (delimited (· ++ [atSign]) authority.userinfo ++ rest) seen =
      delimited (· ++ [atSign]) authority.repair.userinfo ++
        encodeKept (authority.layout start) (authority.hostBegin start) rest seen := by
  rw [UriAuthority.repair, UriAuthority.hostBegin]
  cases huserinfo : authority.userinfo with
  | none => rfl
  | some userinfo =>
    obtain ⟨hbegin, hend⟩ := authority.userinfo_layout start
    rw [huserinfo] at hbegin hend
    have hlength : authority.hostBegin start = start + userinfo.length + 1 := by
      rw [UriAuthority.hostBegin, huserinfo, delimited, List.length_append, List.length_singleton, Nat.add_assoc]
    have hdelimiter : ∀ byte ∈ userinfo, isUriDelimiter byte = false := by
      intro byte hbyte
      apply h.delimiter
      rw [UriAuthority.text, huserinfo, delimited]
      exact List.mem_append_left _ (List.mem_append_left _ hbyte)
    have hstop : uriReferenceKeepsLiteral atSign (start + userinfo.length) (authority.layout start) seen =
        (true, seen) := by
      have hkept := @UriAuthority.atSign_layout authority start (start + userinfo.length) (by omega)
      rw [uriReferenceKeepsLiteral, if_neg (by decide), if_neg (by decide), if_neg (by decide), if_pos rfl,
        decide_eq_true hkept]
    show encodeKept (authority.layout start) start ((userinfo ++ [atSign]) ++ rest) seen =
      (repairBytes isUriUserinfoLiteral userinfo ++ [atSign]) ++
        encodeKept (authority.layout start) (start + (userinfo ++ [atSign]).length) rest seen
    rw [List.append_assoc, List.singleton_append, List.append_assoc, List.singleton_append,
      UriAuthority.encodeKept_text hdelimiter, encodeKept_stop (by decide) hstop, List.length_append,
      List.length_singleton, Nat.add_assoc]
    · intro stop hstop
      obtain rfl : atSign = stop := Option.some.inj hstop
      rfl
    · intro offset hoffset _ hbracket
      have := UriAuthority.bracket_layout hbracket
      omega
    · intro offset hoffset _
      rw [hbegin, hend]
      rintro (hbefore | ⟨last, hlast, hle⟩)
      · have := hbefore start rfl
        omega
      · obtain rfl : start + userinfo.length = last := Option.some.inj hlast
        omega

theorem UriAuthority.encodeKept_host (h : authority.Split)
    (hrest : ∀ stop ∈ rest.head?, httpDecodeHexNibble stop = none) :
    encodeKept (authority.layout start) (authority.hostBegin start) (authority.host.text ++ rest) seen =
      authority.host.repair.text ++ encodeKept (authority.layout start)
        (authority.hostBegin start + authority.host.text.length) rest seen := by
  have hdelimiter : ∀ byte ∈ authority.host.text, isUriDelimiter byte = false := by
    intro byte hbyte
    apply h.delimiter
    rw [UriAuthority.text]
    exact List.mem_append_right _ hbyte
  have hat := h.atSign
  cases hhost : authority.host with
  | plain name =>
    rw [hhost] at hdelimiter hat
    obtain ⟨hopen, hclose⟩ := @UriAuthority.plain_layout authority start _ hhost
    apply UriAuthority.encodeKept_text hdelimiter hrest
    · intro offset _ _
      rw [hopen, hclose]
      rintro (h | h) <;> cases h
    · intro offset _ hget
      exact absurd (List.mem_of_getElem? hget) hat
  | literal address behind =>
    rw [hhost] at hdelimiter hat
    obtain ⟨hopen, hclose⟩ := @UriAuthority.literal_layout authority start _ _ hhost
    have hkept : ∀ stop index, stop = openBracket ∨ stop = closeBracket →
        (authority.layout start).ipLiteralOpen = some index ∨ (authority.layout start).ipLiteralClose = some index →
        uriReferenceKeepsLiteral stop index (authority.layout start) seen = (true, seen) := by
      intro stop index hstop hindex
      rw [uriReferenceKeepsLiteral, if_pos hstop, decide_eq_true hindex]
    have hmemAddress : ∀ byte ∈ address, byte ∈ (UriHost.literal address behind).text := fun byte hbyte =>
      List.mem_cons_of_mem _ (List.mem_append_left _ hbyte)
    have hmemBehind : ∀ byte ∈ behind, byte ∈ (UriHost.literal address behind).text := fun byte hbyte =>
      List.mem_cons_of_mem _ (List.mem_append_right _ (List.mem_cons_of_mem _ hbyte))
    have haddress := @UriAuthority.encodeKept_text authority (closeBracket :: (behind ++ rest)) start
      (authority.hostBegin start + 1) seen address (fun byte hbyte => hdelimiter byte (hmemAddress byte hbyte))
      (fun stop hstop => by
        obtain rfl : closeBracket = stop := Option.some.inj hstop
        rfl)
      (fun offset hoffset _ => by
        rw [hopen, hclose, Option.some.injEq, Option.some.injEq]
        omega)
      (fun offset _ hget => absurd (hmemAddress atSign (List.mem_of_getElem? hget)) hat)
    have hbehind := @UriAuthority.encodeKept_text authority rest start
      (authority.hostBegin start + 1 + address.length + 1) seen behind
      (fun byte hbyte => hdelimiter byte (hmemBehind byte hbyte)) hrest
      (fun offset hoffset _ => by
        rw [hopen, hclose, Option.some.injEq, Option.some.injEq]
        omega)
      (fun offset _ hget => absurd (hmemBehind atSign (List.mem_of_getElem? hget)) hat)
    have hlength : authority.hostBegin start + (UriHost.literal address behind).text.length =
        authority.hostBegin start + 1 + address.length + 1 + behind.length := by
      simp only [UriHost.text, List.length_cons, List.length_append]
      omega
    have htext : (UriHost.literal address behind).text ++ rest =
        openBracket :: (address ++ closeBracket :: (behind ++ rest)) := by
      simp [UriHost.text]
    rw [htext, encodeKept_stop (by decide) (hkept _ _ (Or.inl rfl) (Or.inl hopen)), haddress,
      encodeKept_stop (by decide) (hkept _ _ (Or.inr rfl) (Or.inr hclose)), hbehind, hlength]
    simp [UriHost.repair, UriHost.text]

/-- **The authority is repaired.** -/
theorem UriAuthority.encodeKept_authority (h : authority.Split)
    (hrest : ∀ stop ∈ rest.head?, httpDecodeHexNibble stop = none) :
    encodeKept (authority.layout start) start (authority.text ++ rest) seen =
      authority.repair.text ++ encodeKept (authority.layout start) (start + authority.text.length) rest seen := by
  rw [authority.length_text, UriAuthority.text, List.append_assoc, UriAuthority.encodeKept_userinfo h,
    UriAuthority.encodeKept_host h hrest, ← List.append_assoc]
  rfl

/-! ### The scheme, the path and what is behind it -/

theorem isUriPchar_of_schemeByte {byte : UInt8} (h : isSchemeByte byte = true) : isUriPchar byte = true := by
  have hplus : isUriPchar plusSign = true := by decide
  have hminus : isUriPchar 0x2d = true := by decide
  have hdot : isUriPchar dot = true := by decide
  simp only [isSchemeByte, Bool.or_eq_true, beq_iff_eq] at h
  rcases h with (((halpha | hdigit) | rfl) | rfl) | rfl
  · simp [isUriPchar, isUriUserinfoLiteral, isRegNameChar, isUnreservedByte, halpha]
  · simp [isUriPchar, isUriUserinfoLiteral, isRegNameChar, isUnreservedByte, hdigit]
  · exact hplus
  · exact hminus
  · exact hdot

variable {keeps : UInt8 → Bool} {text : Bytes}

theorem repairBytes_of_all (hpercent : keeps percent = false) (h : ∀ byte ∈ text, keeps byte = true) :
    repairBytes keeps text = text := by
  induction text with
  | nil => exact repairBytes_nil
  | cons byte rest ih =>
    rw [repairBytes_kept hpercent (h byte (List.mem_cons_self ..)), ih fun b hb => h b (List.mem_cons_of_mem _ hb)]

/-- **A scheme is kept.** -/
theorem encodeKept_scheme {name : Bytes} (hvalid : isValidUriScheme name = true) (hfree : layout.colonFreeEnd = 0) :
    encodeKept layout 0 (name ++ colon :: rest) seen =
      name ++ colon :: encodeKept layout (name.length + 1) rest seen := by
  have hbytes := isSchemeByte_of_valid hvalid
  have hcolon : uriReferenceKeepsLiteral colon (0 + name.length) layout seen = (true, seen) := by
    rw [uriReferenceKeepsLiteral, if_neg (by decide), if_pos rfl, hfree, decide_eq_true (Nat.zero_le _)]
  have hverdict : ∀ offset byte, name[offset]? = some byte → byte ≠ percent →
      uriReferenceKeepsLiteral byte (0 + offset) layout seen = (isSchemeByte byte, seen) := by
    intro offset byte hget _
    have hscheme := hbytes byte (List.mem_of_getElem? hget)
    have hnot : ∀ stop, isSchemeByte stop = false → byte ≠ stop := by
      rintro stop hstop rfl
      rw [hscheme] at hstop
      cases hstop
    apply uriReferenceKeepsLiteral_eq
    · rintro (hbyte | hbyte) <;> exact absurd hbyte (hnot _ (by decide))
    · intro hbyte
      exact absurd hbyte (hnot _ (by decide))
    · intro hbyte
      exact absurd hbyte (hnot _ (by decide))
    · intro hbyte
      exact absurd hbyte (hnot _ (by decide))
    · intro _
      exact hscheme
    · intro _ _ _ _
      rw [hscheme, isUriPchar_of_schemeByte hscheme]
  rw [encodeKept_segment (by decide) (fun stop hstop => by
    obtain rfl : colon = stop := Option.some.inj hstop
    rfl) name 0 hverdict, repairBytes_of_all (by decide) hbytes, encodeKept_stop (by decide) hcolon, Nat.zero_add]

/-- A component behind the authority: `/`, `?` and `#` are the component's own. -/
theorem UriReferenceLayout.FreeFrom.encodeKept_component (h : layout.FreeFrom start) (hstart : start ≤ index)
    (hpercent : keeps percent = false) (hrest : ∀ stop ∈ rest.head?, httpDecodeHexNibble stop = none)
    (hkeeps : ∀ byte ∈ text, byte ≠ colon → keeps byte = (isUriPchar byte || byte == slash || byte == questionMark))
    (hcolon : ∀ offset < text.length, text[offset]? = some colon →
      decide (index + offset ≥ layout.colonFreeEnd) = keeps colon)
    (hnumber : numberSign ∈ text → seen = true) :
    encodeKept layout index (text ++ rest) seen =
      repairBytes keeps text ++ encodeKept layout (index + text.length) rest seen := by
  apply encodeKept_segment hpercent hrest
  intro offset byte hget _
  have hmem := List.mem_of_getElem? hget
  have hle : start ≤ index + offset := by omega
  apply uriReferenceKeepsLiteral_eq
  · intro hbyte
    refine ⟨h.bracket _ hle, ?_⟩
    rw [hkeeps byte hmem (by rcases hbyte with rfl | rfl <;> decide)]
    rcases hbyte with rfl | rfl <;> decide
  · rintro rfl
    exact hcolon offset (List.getElem?_eq_some_iff.mp hget).1 hget
  · rintro rfl
    refine ⟨hnumber hmem, ?_⟩
    rw [hkeeps _ hmem (by decide)]
    decide
  · rintro rfl
    rw [decide_eq_true (h.atSign _ hle), hkeeps _ hmem (by decide)]
    decide
  · rintro (rfl | rfl)
    all_goals
      rw [hkeeps _ hmem (by decide)]
      decide
  · intro hne _ hslash hquestion
    rw [hkeeps byte hmem hne, beq_eq_false_iff_ne.mpr hslash, beq_eq_false_iff_ne.mpr hquestion, Bool.or_false,
      Bool.or_false]

/-- A text of a path behind the colon-free segment. -/
theorem UriReferenceLayout.FreeFrom.encodeKept_pathBytes (h : layout.FreeFrom start) (hstart : start ≤ index)
    (hfree : layout.colonFreeEnd ≤ index) (hquestion : questionMark ∉ path) (hnumber : numberSign ∉ path)
    (hrest : ∀ stop ∈ rest.head?, httpDecodeHexNibble stop = none) :
    encodeKept layout index (path ++ rest) seen =
      repairBytes isUriPathByte path ++ encodeKept layout (index + path.length) rest seen := by
  apply h.encodeKept_component hstart (by decide) hrest
  · intro byte hbyte _
    have hne : byte ≠ questionMark := by
      rintro rfl
      exact hquestion hbyte
    rw [isUriPathByte, beq_eq_false_iff_ne.mpr hne, Bool.or_false]
  · intro offset _ _
    rw [decide_eq_true (by omega)]
    decide
  · intro hmem
    exact absurd hmem hnumber

/-- **The path is repaired.** -/
theorem UriReferenceLayout.FreeFrom.encodeKept_path (h : layout.FreeFrom start) (hstart : start ≤ index)
    {relative : Bool} (hfree : layout.colonFreeEnd = if relative then (firstSegment path).length else 0)
    (hindex : relative = true → index = 0) (hquestion : questionMark ∉ path) (hnumber : numberSign ∉ path)
    (hrest : ∀ byte ∈ rest.head?, byte = questionMark ∨ byte = numberSign) :
    encodeKept layout index (path ++ rest) seen =
      repairPath relative path ++ encodeKept layout (index + path.length) rest seen := by
  have hstop : ∀ stop ∈ rest.head?, httpDecodeHexNibble stop = none := by
    intro stop hstop
    rcases hrest stop hstop with rfl | rfl <;> rfl
  cases relative with
  | false => exact h.encodeKept_pathBytes hstart (by rw [hfree]; exact Nat.zero_le _) hquestion hnumber hstop
  | true =>
    obtain rfl := hindex rfl
    have hpath := firstSegment_append_behind path
    have hsub : ∀ byte ∈ firstSegment path, byte ≠ slash ∧ byte ≠ questionMark ∧ byte ≠ numberSign := by
      intro byte hbyte
      have hmem : byte ∈ path := (List.takeWhile_prefix _).subset hbyte
      refine ⟨?_, ?_, ?_⟩
      · rintro rfl
        exact slash_not_mem_firstSegment path hbyte
      · rintro rfl
        exact hquestion hmem
      · rintro rfl
        exact hnumber hmem
    have hbehindSub : ∀ byte ∈ behindFirstSegment path, byte ∈ path := (List.dropWhile_suffix _).subset
    have hhead : ∀ stop ∈ (behindFirstSegment path ++ rest).head?, httpDecodeHexNibble stop = none := by
      cases hbehind : behindFirstSegment path with
      | nil => exact hstop
      | cons first behind =>
        intro stop hhead
        have hslash := head_behindFirstSegment path first (by rw [hbehind]; rfl)
        obtain rfl : first = stop := Option.some.inj hhead
        rw [hslash]
        rfl
    have hfirst : encodeKept layout 0 (firstSegment path ++ (behindFirstSegment path ++ rest)) seen =
        repairBytes isUriFirstSegmentByte (firstSegment path) ++
          encodeKept layout (0 + (firstSegment path).length) (behindFirstSegment path ++ rest) seen := by
      apply h.encodeKept_component hstart (by decide) hhead
      · intro byte hbyte hne
        obtain ⟨hslash, hquestion', -⟩ := hsub byte hbyte
        rw [isUriFirstSegmentByte, beq_eq_false_iff_ne.mpr hslash, beq_eq_false_iff_ne.mpr hquestion',
          bne_iff_ne.mpr hne, Bool.and_true, Bool.or_false, Bool.or_false]
      · intro offset hoffset _
        have hbefore : ¬(0 + offset ≥ (firstSegment path).length) := by omega
        rw [hfree, if_pos rfl, decide_eq_false hbefore]
        decide
      · intro hmem
        exact absurd rfl (hsub numberSign hmem).2.2
    have hbehind := @UriReferenceLayout.FreeFrom.encodeKept_pathBytes layout rest (behindFirstSegment path) start
      (0 + (firstSegment path).length) seen h (by omega) (by rw [hfree, if_pos rfl, Nat.zero_add])
      (fun hmem => hquestion (hbehindSub _ hmem)) (fun hmem => hnumber (hbehindSub _ hmem)) hstop
    have hlength : (firstSegment path).length + (behindFirstSegment path).length = path.length := by
      rw [← List.length_append, hpath]
    conv_lhs => rw [← hpath, List.append_assoc]
    rw [hfirst, hbehind, repairPath, if_pos rfl, List.append_assoc, Nat.add_assoc, hlength]

/-- **The query and the fragment are repaired**; only the first `#` stays. -/
theorem UriReferenceLayout.FreeFrom.encodeKept_suffix (h : layout.FreeFrom start) (hstart : start ≤ index)
    (hfree : layout.colonFreeEnd ≤ index) (hquery : ∀ query ∈ parts.query, numberSign ∉ query) :
    encodeKept layout index parts.suffix false = parts.repair.suffix := by
  have hquestion : ∀ index seen, uriReferenceKeepsLiteral questionMark index layout seen = (true, seen) := by
    intro index seen
    rw [uriReferenceKeepsLiteral, if_neg (by decide), if_neg (by decide), if_neg (by decide), if_neg (by decide),
      if_pos (Or.inr rfl)]
  have hnumber : ∀ index, uriReferenceKeepsLiteral numberSign index layout false = (true, true) := by
    intro index
    rfl
  have hbytes : ∀ text rest index seen, start ≤ index → layout.colonFreeEnd ≤ index →
      (∀ stop ∈ rest.head?, httpDecodeHexNibble stop = none) → (numberSign ∈ text → seen = true) →
      encodeKept layout index (text ++ rest) seen =
        repairBytes isUriQueryByte text ++ encodeKept layout (index + text.length) rest seen := by
    intro text rest index seen hstart hfree hrest hseen
    apply h.encodeKept_component hstart (by decide) hrest
    · intro byte _ _
      rfl
    · intro offset _ _
      rw [decide_eq_true (by omega)]
      decide
    · exact hseen
  have hfragment : ∀ index, start ≤ index → layout.colonFreeEnd ≤ index →
      encodeKept layout index (delimited (numberSign :: ·) parts.fragment) false =
        delimited (numberSign :: ·) parts.repair.fragment := by
    intro index hstart hfree
    rw [UriReferenceParts.repair]
    cases parts.fragment with
    | none => exact encodeKept_nil
    | some fragment =>
      have htext := hbytes fragment [] (index + 1) true (by omega) (by omega)
        (fun stop hstop => absurd hstop (Option.not_mem_none stop)) (fun _ => rfl)
      rw [List.append_nil, encodeKept_nil, List.append_nil] at htext
      show encodeKept layout index (numberSign :: fragment) false = numberSign :: repairBytes isUriQueryByte fragment
      rw [encodeKept_stop (by decide) (hnumber index), htext]
  rw [suffix, suffix]
  cases hsome : parts.query with
  | none =>
    have hnone : parts.repair.query = none := by
      rw [UriReferenceParts.repair, hsome]
      rfl
    rw [hnone]
    exact hfragment index hstart hfree
  | some query =>
    have hrepaired : parts.repair.query = some (repairBytes isUriQueryByte query) := by
      rw [UriReferenceParts.repair, hsome]
      rfl
    have htext := hbytes query (delimited (numberSign :: ·) parts.fragment) (index + 1) false (by omega) (by omega)
      (fun stop hstop => by
        cases hfrag : parts.fragment with
        | none =>
          rw [hfrag] at hstop
          cases hstop
        | some fragment =>
          rw [hfrag] at hstop
          obtain rfl : numberSign = stop := Option.some.inj hstop
          rfl)
      (fun hmem => absurd hmem (hquery query hsome))
    rw [hrepaired]
    show encodeKept layout index (questionMark :: (query ++ delimited (numberSign :: ·) parts.fragment)) false =
      questionMark :: (repairBytes isUriQueryByte query ++ delimited (numberSign :: ·) parts.repair.fragment)
    rw [encodeKept_stop (by decide) (hquestion index false), htext, hfragment _ (by omega) (by omega)]

/-! ### The whole reference -/

theorem UriReferenceParts.colonFreeEnd_layout (parts : UriReferenceParts) :
    parts.layout.colonFreeEnd = if parts.relative then (firstSegment parts.path).length else 0 := by
  rw [layout]
  cases hauthority : parts.authority with
  | none => rfl
  | some authority =>
    have hrelative : parts.relative = false := by
      rw [relative, hauthority]
      exact Bool.and_false _
    rw [hrelative]
    exact authority.colonFreeEnd_layout _

theorem UriReferenceParts.freeFrom_layout (parts : UriReferenceParts) :
    parts.layout.FreeFrom (parts.schemeText.length + parts.authorityText.length) := by
  rw [layout]
  cases hauthority : parts.authority with
  | none =>
    refine ⟨?_, fun index _ => Or.inl fun first hfirst => absurd hfirst (Option.not_mem_none first)⟩
    rintro index _ (h | h) <;> cases h
  | some authority =>
    have hlength : parts.schemeText.length + parts.authorityText.length =
        parts.schemeText.length + 2 + authority.text.length := by
      rw [UriReferenceParts.authorityText, hauthority, Option.map_some, delimited, List.length_cons, List.length_cons]
      omega
    rw [hlength]
    exact authority.freeFrom_layout _

theorem UriReferenceParts.Split.encodeKept_schemeText (h : parts.Split) :
    encodeKept parts.layout 0 (parts.schemeText ++ rest) false =
      parts.schemeText ++ encodeKept parts.layout parts.schemeText.length rest false := by
  have hfree := parts.colonFreeEnd_layout
  rw [schemeText]
  cases hscheme : parts.scheme with
  | none => rfl
  | some name =>
    have hrelative : parts.relative = false := by
      rw [relative, hscheme]
      rfl
    rw [hrelative] at hfree
    show encodeKept parts.layout 0 ((name ++ [colon]) ++ rest) false =
      (name ++ [colon]) ++ encodeKept parts.layout (name ++ [colon]).length rest false
    rw [List.append_assoc, List.singleton_append, encodeKept_scheme (h.scheme name hscheme) hfree, List.append_assoc,
      List.length_append]
    rfl

theorem UriReferenceParts.Split.encodeKept_authorityText (h : parts.Split)
    (hrest : parts.authority.isSome = true → ∀ stop ∈ rest.head?, httpDecodeHexNibble stop = none) :
    encodeKept parts.layout parts.schemeText.length (parts.authorityText ++ rest) false =
      parts.repair.authorityText ++
        encodeKept parts.layout (parts.schemeText.length + parts.authorityText.length) rest false := by
  rw [UriReferenceParts.authorityText, UriReferenceParts.authorityText, UriReferenceParts.repair,
    layout]
  cases hauthority : parts.authority with
  | none => rfl
  | some authority =>
    have hslash : ∀ index, uriReferenceKeepsLiteral slash index (authority.layout (parts.schemeText.length + 2)) false =
        (true, false) := by
      intro index
      rw [uriReferenceKeepsLiteral, if_neg (by decide), if_neg (by decide), if_neg (by decide), if_neg (by decide),
        if_pos (Or.inl rfl)]
    have hauthorityText := @UriAuthority.encodeKept_authority authority rest (parts.schemeText.length + 2) false
      (h.authority authority hauthority) (hrest (by rw [hauthority]; rfl))
    show encodeKept (authority.layout (parts.schemeText.length + 2)) parts.schemeText.length
        (slash :: slash :: (authority.text ++ rest)) false =
      slash :: slash :: (authority.repair.text ++ encodeKept (authority.layout (parts.schemeText.length + 2))
        (parts.schemeText.length + (slash :: slash :: authority.text).length) rest false)
    rw [encodeKept_stop (by decide) (hslash _), encodeKept_stop (by decide) (hslash _), hauthorityText,
      List.length_cons, List.length_cons]
    have hlength : parts.schemeText.length + 2 + authority.text.length =
        parts.schemeText.length + (authority.text.length + 1 + 1) := by omega
    rw [hlength]

/-- **The encoded reference** is the text of the repaired parts. -/
theorem UriReferenceParts.Split.encodedReference_text (h : parts.Split) :
    encodedReference parts.text = parts.repair.text := by
  have hrelative : parts.relative = true → parts.schemeText.length + parts.authorityText.length = 0 := by
    intro hrelative
    obtain ⟨hscheme, hauthority⟩ := Bool.and_eq_true_iff.mp hrelative
    rw [schemeText, UriReferenceParts.authorityText, Option.isNone_iff_eq_none.mp hscheme,
      Option.isNone_iff_eq_none.mp hauthority]
    rfl
  have hhead : parts.authority.isSome = true → ∀ stop ∈ (parts.path ++ parts.suffix).head?,
      httpDecodeHexNibble stop = none := by
    intro hsome stop hstop
    rcases isUriDelimiter_eq_true.mp (head_front_suffix (h.rooted hsome) stop hstop) with rfl | rfl | rfl <;> rfl
  have hfirst : (firstSegment parts.path).length ≤ parts.path.length :=
    (List.takeWhile_prefix _).length_le
  have hcolon := parts.colonFreeEnd_layout
  have hfree : parts.layout.colonFreeEnd ≤
      parts.schemeText.length + parts.authorityText.length + parts.path.length := by
    rw [hcolon]
    split <;> omega
  have hpath := @UriReferenceLayout.FreeFrom.encodeKept_path parts.layout parts.suffix parts.path _ _ false
    parts.freeFrom_layout (Nat.le_refl _) parts.relative hcolon hrelative h.path.1 h.path.2 (head_suffix parts)
  have hsuffix := parts.freeFrom_layout.encodeKept_suffix (Nat.le_add_right _ _) hfree h.query
  rw [encodedReference, layout_text h]
  conv_lhs => rw [text]
  rw [h.encodeKept_schemeText, h.encodeKept_authorityText hhead, hpath, hsuffix]
  rfl

end

/-! ## The results -/

/-- A registered name and a port, which is digits. -/
def isRegNameWithPort (name : Bytes) : Bool :=
  isValidPercentEncoded isRegNameChar (splitAtByte colon name).1 && ((splitAtByte colon name).2.getD []).all isDigit

/-- **Encoding a URI reference repairs its components**: what is returned is the text of the repaired parts, unless it
does not fit. It has these parts, all bytes are legal in them, it decodes as the reference does, and it is returned as
it is. -/
theorem percent_encode_uri_reference (limit : StringLimit) (reference : Bytes) :
    (uriParts reference).text = reference ∧
      percentEncodeUriReference limit reference =
        (if (uriParts reference).repair.text = reference ∨ (uriParts reference).repair.text.length ≤ limit.size then
          .ok (uriParts reference).repair.text
        else .error uriReferenceTooLong) ∧
      uriParts (uriParts reference).repair.text = (uriParts reference).repair ∧
      (uriParts reference).repair.legal = true ∧
      percentDecode (uriParts reference).repair.text = percentDecode reference ∧
      percentEncodeUriReference limit (uriParts reference).repair.text = .ok (uriParts reference).repair.text := by
  obtain ⟨htext, hsplit⟩ := text_uriParts reference
  have hencoded : encodedReference reference = (uriParts reference).repair.text := by
    have hparts := hsplit.encodedReference_text
    rwa [htext] at hparts
  have hlegal := legal_repair_of_split hsplit
  have hagain : encodedReference (uriParts reference).repair.text = (uriParts reference).repair.text := by
    rw [hsplit.repair.encodedReference_text, repair_of_legal hlegal]
  refine ⟨htext, ?_, hsplit.repair.uriParts_text, hlegal, ?_, ?_⟩
  · rw [percentEncodeUriReference_eq, hencoded]
  · rw [← hencoded]
    exact percentDecode_encodeKept _ _ _ _
  · rw [percentEncodeUriReference_eq, hagain, if_pos (Or.inl rfl)]

/-- A port with a letter is returned as it is. -/
theorem percent_encode_uri_reference_port :
    percentEncodeUriReference ⟨1024, by decide⟩ (lit "//h:x") = .ok (lit "//h:x") ∧
      (uriParts (lit "//h:x")).authority = some ⟨none, .plain (lit "h:x")⟩ ∧
        isRegNameWithPort (lit "h:x") = false := by
  have hlegal : (uriParts (lit "//h:x")).legal = true := by decide
  obtain ⟨htext, hsplit⟩ := text_uriParts (lit "//h:x")
  have hencoded := hsplit.encodedReference_text
  rw [repair_of_legal hlegal, htext] at hencoded
  refine ⟨?_, by decide, by decide⟩
  rw [percentEncodeUriReference_eq, hencoded, if_pos (Or.inl rfl)]

end Ruvia.Http
