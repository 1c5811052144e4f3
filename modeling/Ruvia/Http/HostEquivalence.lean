import Ruvia.Http.UriReferenceParts

/-!
# `Http.HostEquivalence` — when two URI hosts are the same

`http_uri_host_equals`. Two valid hosts are equal when their forms are (`httpUriHostEquals_iff`): an IPv6 literal is its
address, and any other host is its text in lower case, with the triplets of unreserved bytes decoded and the others in
upper case.
-/

namespace Ruvia.Http

open Library

/-! ## The code -/

/-- `normalized_host_unit`. -/
structure NormalizedHostUnit where
  byte : UInt8
  encodedReserved : Bool
  deriving DecidableEq, Repr

/-- `next_normalized_host_unit`, and what is behind the unit. -/
def nextNormalizedHostUnit (byte : UInt8) (rest : Bytes) : NormalizedHostUnit × Bytes :=
  match httpTryDecodePercentByte (byte :: rest) with
  | some decoded =>
    if isUnreservedByte (UInt8.ofNat decoded) then (⟨httpAsciiToLower (UInt8.ofNat decoded), false⟩, rest.drop 2)
    else (⟨UInt8.ofNat decoded, true⟩, rest.drop 2)
  | none => (⟨httpAsciiToLower byte, false⟩, rest)

theorem nextNormalizedHostUnit_length (byte : UInt8) (rest : Bytes) :
    (nextNormalizedHostUnit byte rest).2.length < (byte :: rest).length := by
  unfold nextNormalizedHostUnit
  rw [List.length_cons]
  split
  · split <;> simp only [List.length_drop] <;> omega
  · exact Nat.lt_succ_self _

/-- The loop of `http_uri_host_equals`. -/
def hostUnitsEqual : Bytes → Bytes → Bool
  | byte :: left, byte' :: right =>
    if (nextNormalizedHostUnit byte left).1 = (nextNormalizedHostUnit byte' right).1 then
      hostUnitsEqual (nextNormalizedHostUnit byte left).2 (nextNormalizedHostUnit byte' right).2
    else false
  | [], [] => true
  | _, _ => false
termination_by left => left.length
decreasing_by exact nextNormalizedHostUnit_length byte left

/-- What is between the brackets of a host with more than those. -/
def bracketed (host : Bytes) : Option Bytes :=
  if 2 < host.length ∧ host.head? = some openBracket then some (sub host 1 (host.length - 2)) else none

/-- `http_uri_host_equals`. -/
def httpUriHostEquals (left right : Bytes) : Bool :=
  if left = right then true
  else
    match bracketed left, bracketed right with
    | some left', some right' =>
      if (parseIpv6Address left').isSome || (parseIpv6Address right').isSome then
        (parseIpv6Address left').isSome && (parseIpv6Address right').isSome &&
          parseIpv6Address left' == parseIpv6Address right'
      else hostUnitsEqual left right
    | _, _ => hostUnitsEqual left right

/-! ## The form of a host -/

/-- Case and percent-encoding normalization. -/
def normalizedHost : Bytes → Bytes
  | [] => []
  | byte :: rest =>
    match httpTryDecodePercentByte (byte :: rest) with
    | some decoded =>
      (if isUnreservedByte (UInt8.ofNat decoded) then [httpAsciiToLower (UInt8.ofNat decoded)]
        else percentTriplet (UInt8.ofNat decoded)) ++ normalizedHost (rest.drop 2)
    | none => httpAsciiToLower byte :: normalizedHost rest
termination_by text => text.length
decreasing_by
  all_goals simp only [List.length_drop, List.length_cons]
  all_goals omega

inductive UriHostForm where
  | address (groups : List Nat)
  | name (text : Bytes)
  deriving DecidableEq, Repr

/-- URI host equivalence is equality of forms. -/
def uriHostForm (host : Bytes) : UriHostForm :=
  match (bracketed host).bind parseIpv6Address with
  | some groups => .address groups
  | none => .name (normalizedHost host)

example : uriHostForm (lit "Ex%41mple.%63om%c3") = .name (lit "example.com%C3") := by decide +kernel
example : uriHostForm (lit "[::1]") = uriHostForm (lit "[0:0::0:1]") := by decide +kernel

/-! ## Units -/

section

variable {byte byte' : UInt8} {rest rest' left right host : Bytes} {unit unit' : NormalizedHostUnit}

/-- What a unit writes. -/
def NormalizedHostUnit.text (unit : NormalizedHostUnit) : Bytes :=
  if unit.encodedReserved then percentTriplet unit.byte else [unit.byte]

/-- A unit does not begin like a triplet unless it is one. -/
def NormalizedHostUnit.Proper (unit : NormalizedHostUnit) : Prop :=
  unit.encodedReserved = false → unit.byte ≠ percent

theorem normalizedHost_nil : normalizedHost [] = [] := by
  rw [normalizedHost]

theorem normalizedHost_cons (byte : UInt8) (rest : Bytes) :
    normalizedHost (byte :: rest) =
      (nextNormalizedHostUnit byte rest).1.text ++ normalizedHost (nextNormalizedHostUnit byte rest).2 := by
  rw [normalizedHost, nextNormalizedHostUnit]
  cases httpTryDecodePercentByte (byte :: rest) with
  | none => rfl
  | some decoded =>
    by_cases hunreserved : isUnreservedByte (UInt8.ofNat decoded) = true
    · simp only [if_pos hunreserved]
      rfl
    · simp only [if_neg hunreserved]
      rfl

theorem percentTriplet_inj (h : percentTriplet byte = percentTriplet byte') : byte = byte' := by
  have hdecode := httpTryDecodePercentByte_triplet byte []
  rw [h, httpTryDecodePercentByte_triplet] at hdecode
  exact (UInt8.toNat_inj.mp (Option.some.inj hdecode)).symm

/-- Proper units can be read back from their text. -/
theorem NormalizedHostUnit.Proper.text_append_inj (h : unit.Proper) (h' : unit'.Proper)
    (heq : unit.text ++ rest = unit'.text ++ rest') : unit = unit' ∧ rest = rest' := by
  obtain ⟨byte, _ | _⟩ := unit
  · obtain ⟨byte', _ | _⟩ := unit'
    · obtain ⟨rfl, rfl⟩ := List.cons.inj heq
      exact ⟨rfl, rfl⟩
    · exact absurd (List.cons.inj heq).1 (h rfl)
  · obtain ⟨byte', _ | _⟩ := unit'
    · exact absurd (List.cons.inj heq).1.symm (h' rfl)
    · obtain ⟨htriplet, rfl⟩ := List.append_inj heq rfl
      obtain rfl := percentTriplet_inj htriplet
      exact ⟨rfl, rfl⟩

theorem httpAsciiToLower_eq_of_special {special : UInt8} (hupper : isUpper special = false)
    (hlower : isLower special = false) (h : httpAsciiToLower byte = special) : byte = special := by
  unfold httpAsciiToLower at h
  by_cases hbyte : isUpper byte = true
  · rw [if_pos hbyte] at h
    subst h
    simp only [isUpper, isLower, Bool.and_eq_true, decide_eq_true_eq, UInt8.le_iff_toNat_le] at hbyte hlower
    have hadd : (byte + 0x20).toNat = byte.toNat + 0x20 := by
      rw [UInt8.toNat_add]
      have h1 : byte.toNat ≤ 0x5a := hbyte.2
      show (byte.toNat + 0x20) % 256 = _
      omega
    rw [hadd] at hlower
    have h1 : 0x41 ≤ byte.toNat := hbyte.1
    have h2 : byte.toNat ≤ 0x5a := hbyte.2
    simp only [Bool.and_eq_false_iff, decide_eq_false_iff_not] at hlower
    change ¬0x61 ≤ byte.toNat + 0x20 ∨ ¬byte.toNat + 0x20 ≤ 0x7a at hlower
    omega
  · rwa [if_neg hbyte] at h

/-- The bytes of a host are its own or belong to triplets. -/
abbrev NoStrayPercent (host : Bytes) : Prop := isValidPercentEncoded (· != percent) host = true

theorem NoStrayPercent.next (h : NoStrayPercent (byte :: rest)) :
    (nextNormalizedHostUnit byte rest).1.Proper ∧ NoStrayPercent (nextNormalizedHostUnit byte rest).2 := by
  have hlower : ∀ {byte : UInt8}, byte ≠ percent → httpAsciiToLower byte ≠ percent := by
    intro byte hne heq
    exact hne (httpAsciiToLower_eq_of_special (by decide) (by decide) heq)
  unfold nextNormalizedHostUnit
  rcases triplet_or_none byte rest with ⟨high, low, behind, rfl, rfl, hhigh, hlow⟩ | hnone
  · obtain ⟨decoded, hdecoded⟩ := Option.isSome_iff_exists.mp (isSome_decode_triplet hhigh hlow behind)
    rw [hdecoded]
    unfold NoStrayPercent at h
    rw [isValidPercentEncoded_triplet hhigh hlow] at h
    by_cases hunreserved : isUnreservedByte (UInt8.ofNat decoded) = true
    · simp only [if_pos hunreserved]
      refine ⟨fun _ => hlower ?_, h⟩
      intro heq
      rw [heq] at hunreserved
      exact absurd hunreserved (by decide)
    · simp only [if_neg hunreserved]
      exact ⟨fun hfalse => absurd hfalse.symm Bool.false_ne_true, h⟩
  · rw [hnone]
    unfold NoStrayPercent at h
    rw [isValidPercentEncoded_byte (by decide) hnone, Bool.and_eq_true, bne_iff_ne] at h
    exact ⟨fun _ => hlower h.1, h.2⟩

/-- **The loop compares the normalized texts.** -/
theorem hostUnitsEqual_iff (hleft : NoStrayPercent left) (hright : NoStrayPercent right) :
    hostUnitsEqual left right = true ↔ normalizedHost left = normalizedHost right := by
  have hne : ∀ byte rest, normalizedHost (byte :: rest) ≠ [] := by
    intro byte rest heq
    rw [normalizedHost_cons, List.append_eq_nil_iff] at heq
    have htext := heq.1
    unfold NormalizedHostUnit.text at htext
    split at htext <;> cases htext
  induction hlength : left.length using Nat.strong_induction_on generalizing left right with
  | _ n ih =>
    subst hlength
    rcases left with _ | ⟨byte, left⟩
    · rcases right with _ | ⟨byte', right⟩
      · rw [hostUnitsEqual]
        exact iff_of_true rfl rfl
      · rw [hostUnitsEqual, normalizedHost_nil]
        · exact iff_of_false Bool.false_ne_true fun heq => hne byte' right heq.symm
        · intro _ _ _ _ heq
          cases heq
        · intro _ heq
          cases heq
    · rcases right with _ | ⟨byte', right⟩
      · rw [hostUnitsEqual, normalizedHost_nil]
        · exact iff_of_false Bool.false_ne_true (hne byte left)
        · intro _ _ _ _ _ heq
          cases heq
        · intro heq
          cases heq
      · obtain ⟨hproper, hrest⟩ := hleft.next
        obtain ⟨hproper', hrest'⟩ := hright.next
        have hnext := ih _ (nextNormalizedHostUnit_length byte left) hrest hrest' rfl
        rw [hostUnitsEqual, normalizedHost_cons, normalizedHost_cons]
        constructor
        · intro h
          by_cases hunit : (nextNormalizedHostUnit byte left).1 = (nextNormalizedHostUnit byte' right).1
          · rw [if_pos hunit] at h
            rw [hunit, hnext.mp h]
          · rw [if_neg hunit] at h
            cases h
        · intro h
          obtain ⟨hunit, hbehind⟩ := hproper.text_append_inj hproper' h
          rw [if_pos hunit]
          exact hnext.mpr hbehind

end

/-! ## Valid hosts -/

section

variable {keeps : UInt8 → Bool} {text host left right literal rest : Bytes} {byte : UInt8}

theorem noStrayPercent_of_valid (hpercent : keeps percent = false) (h : isValidPercentEncoded keeps text = true) :
    NoStrayPercent text := by
  unfold NoStrayPercent
  induction text using unit_induction with
  | nil => rfl
  | triplet high low behind hhigh hlow ih =>
    rw [isValidPercentEncoded_triplet hhigh hlow] at h ⊢
    exact ih h
  | byte byte rest hnone ih =>
    rw [isValidPercentEncoded_byte hpercent hnone, Bool.and_eq_true] at h
    rw [isValidPercentEncoded_byte (by decide) hnone, Bool.and_eq_true, bne_iff_ne]
    exact ⟨ne_percent_of_keeps hpercent h.1, ih h.2⟩

theorem noStrayPercent_of_not_mem (h : percent ∉ text) : NoStrayPercent text := by
  unfold NoStrayPercent
  induction text with
  | nil => rfl
  | cons byte rest ih =>
    rw [List.mem_cons, not_or] at h
    obtain ⟨hne, hrest⟩ := h
    rw [isValidPercentEncoded_of_ne (Ne.symm hne), ih hrest, bne_iff_ne.mpr (Ne.symm hne), Bool.and_self]

theorem percent_not_mem_ipvFuture (h : isValidIpvFuture literal = true) : percent ∉ literal := by
  rcases literal with _ | ⟨first, rest⟩
  · cases h
  · simp only [isValidIpvFuture, Bool.and_eq_true, Bool.or_eq_true, beq_iff_eq] at h
    obtain ⟨⟨⟨-, hfirst⟩, -⟩, hbehind⟩ := h
    intro hmem
    rcases List.mem_cons.mp hmem with rfl | hmem
    · rcases hfirst with heq | heq <;> exact absurd heq (by decide)
    · rw [← @List.takeWhile_append_dropWhile _ (fun b => (httpDecodeHexNibble b).isSome) rest, List.mem_append] at hmem
      rcases hmem with hmem | hmem
      · exact absurd (List.mem_takeWhile_imp hmem) (by decide)
      · cases hdrop : rest.dropWhile (fun b => (httpDecodeHexNibble b).isSome) with
        | nil =>
          rw [hdrop] at hmem
          cases hmem
        | cons point tail =>
          rw [hdrop] at hbehind hmem
          simp only [Bool.and_eq_true, beq_iff_eq] at hbehind
          obtain ⟨⟨rfl, -⟩, htail⟩ := hbehind
          rcases List.mem_cons.mp hmem with heq | hmem
          · exact absurd heq (by decide)
          · exact absurd (List.all_eq_true.mp htail percent hmem) (by decide)

/-- A valid host is a registered name, or a literal between brackets. -/
theorem isValidHttpHost_cases (h : isValidHttpHost host = true) :
    (bracketed host = none ∧ host.head? ≠ some openBracket ∧ NoStrayPercent host) ∨
      ∃ literal, bracketed host = some literal ∧ host.head? = some openBracket ∧
        (parseIpv6Address literal = none → NoStrayPercent host) := by
  rcases host with _ | ⟨first, rest⟩
  · cases h
  · unfold isValidHttpHost at h
    by_cases hfirst : first = openBracket
    · subst hfirst
      simp only [if_pos, Bool.and_eq_true, decide_eq_true_eq, beq_iff_eq, List.length_cons] at h
      obtain ⟨⟨hlength, hlast⟩, hliteral⟩ := h
      obtain ⟨literal, rfl⟩ : ∃ literal, rest = literal ++ [closeBracket] := by
        rcases List.eq_nil_or_concat rest with rfl | ⟨front, last, rfl⟩
        · exact absurd hlength (by simp)
        · rw [List.concat_eq_append, ← List.cons_append, List.getLast?_append] at hlast
          obtain rfl : last = closeBracket := Option.some.inj hlast
          exact ⟨front, List.concat_eq_append⟩
      have hinside : bracketed (openBracket :: (literal ++ [closeBracket])) = some literal := by
        unfold bracketed
        rw [if_pos ⟨by rw [List.length_cons]; omega, rfl⟩]
        simp [sub]
      rw [List.drop_one, List.tail_cons, List.dropLast_concat] at hliteral
      refine .inr ⟨literal, hinside, rfl, ?_⟩
      intro hnone
      rw [hnone, Option.isSome_none, Bool.false_or] at hliteral
      apply noStrayPercent_of_not_mem
      simp only [List.mem_cons, List.mem_append, List.not_mem_nil, or_false, not_or]
      exact ⟨by decide, percent_not_mem_ipvFuture hliteral, by decide⟩
    · simp only [if_neg hfirst, Bool.and_eq_true] at h
      unfold isValidRegName at h
      refine .inl ⟨?_, fun heq => hfirst (Option.some.inj heq), ?_⟩
      · exact if_neg fun hopen => hfirst (Option.some.inj hopen.2)
      · exact noStrayPercent_of_valid (by decide) (Bool.and_eq_true_iff.mp h.2).2

theorem nextNormalizedHostUnit_bracket :
    (nextNormalizedHostUnit byte rest).1 = ⟨openBracket, false⟩ ↔ byte = openBracket := by
  constructor
  · intro h
    unfold nextNormalizedHostUnit at h
    cases hdecode : httpTryDecodePercentByte (byte :: rest) with
    | none =>
      rw [hdecode] at h
      exact httpAsciiToLower_eq_of_special (by decide) (by decide) (NormalizedHostUnit.mk.inj h).1
    | some decoded =>
      rw [hdecode] at h
      by_cases hunreserved : isUnreservedByte (UInt8.ofNat decoded) = true
      · simp only [if_pos hunreserved] at h
        have heq := httpAsciiToLower_eq_of_special (by decide) (by decide) (NormalizedHostUnit.mk.inj h).1
        rw [heq] at hunreserved
        exact absurd hunreserved (by decide)
      · simp only [if_neg hunreserved] at h
        exact absurd (NormalizedHostUnit.mk.inj h).2.symm Bool.false_ne_true
  · rintro rfl
    unfold nextNormalizedHostUnit
    rw [httpTryDecodePercentByte_of_ne (by decide)]
    rfl

/-- Texts with equal units both begin with a bracket, or both do not. -/
theorem head_of_hostUnitsEqual (h : hostUnitsEqual left right = true) :
    left.head? = some openBracket ↔ right.head? = some openBracket := by
  rcases left with _ | ⟨byte, left⟩ <;> rcases right with _ | ⟨byte', right⟩
  · exact Iff.rfl
  · simp [hostUnitsEqual] at h
  · simp [hostUnitsEqual] at h
  · rw [hostUnitsEqual] at h
    by_cases hunit : (nextNormalizedHostUnit byte left).1 = (nextNormalizedHostUnit byte' right).1
    · rw [List.head?_cons, List.head?_cons, Option.some.injEq, Option.some.injEq,
        ← @nextNormalizedHostUnit_bracket left byte, ← @nextNormalizedHostUnit_bracket right byte', hunit]
    · rw [if_neg hunit] at h
      cases h

theorem uriHostForm_of_address {groups : List Nat} (h : bracketed host = some literal)
    (haddress : parseIpv6Address literal = some groups) : uriHostForm host = .address groups := by
  unfold uriHostForm
  rw [h, Option.bind_some, haddress]

theorem uriHostForm_of_name (h : (bracketed host).bind parseIpv6Address = none) :
    uriHostForm host = .name (normalizedHost host) := by
  unfold uriHostForm
  rw [h]

/-- **Valid hosts are equal when their forms are.** -/
theorem httpUriHostEquals_iff (hleft : isValidHttpHost left = true) (hright : isValidHttpHost right = true) :
    httpUriHostEquals left right = true ↔ uriHostForm left = uriHostForm right := by
  have hnames : NoStrayPercent left → NoStrayPercent right → (bracketed left).bind parseIpv6Address = none →
      (bracketed right).bind parseIpv6Address = none →
        (hostUnitsEqual left right = true ↔ uriHostForm left = uriHostForm right) := by
    intro hleft hright hname hname'
    rw [hostUnitsEqual_iff hleft hright, uriHostForm_of_name hname, uriHostForm_of_name hname',
      UriHostForm.name.injEq]
  unfold httpUriHostEquals
  by_cases hsame : left = right
  · subst hsame
    rw [if_pos rfl]
    exact iff_of_true rfl rfl
  · rw [if_neg hsame]
    rcases isValidHttpHost_cases hleft with ⟨hinside, hopen, hstray⟩ | ⟨literal, hinside, hopen, hstray⟩ <;>
      rcases isValidHttpHost_cases hright with ⟨hinside', hopen', hstray'⟩ | ⟨literal', hinside', hopen', hstray'⟩
    · simp only [hinside]
      exact hnames hstray hstray' (by rw [hinside]; rfl) (by rw [hinside']; rfl)
    · simp only [hinside]
      cases haddress : parseIpv6Address literal' with
      | none => exact hnames hstray (hstray' haddress) (by rw [hinside]; rfl) (by rw [hinside']; exact haddress)
      | some groups =>
        rw [uriHostForm_of_name (by rw [hinside]; rfl), uriHostForm_of_address hinside' haddress]
        refine iff_of_false (fun h => hopen ((head_of_hostUnitsEqual h).mpr hopen')) ?_
        exact fun heq => UriHostForm.noConfusion heq
    · simp only [hinside, hinside']
      cases haddress : parseIpv6Address literal with
      | none => exact hnames (hstray haddress) hstray' (by rw [hinside]; exact haddress) (by rw [hinside']; rfl)
      | some groups =>
        rw [uriHostForm_of_address hinside haddress, uriHostForm_of_name (by rw [hinside']; rfl)]
        refine iff_of_false (fun h => hopen' ((head_of_hostUnitsEqual h).mp hopen)) ?_
        exact fun heq => UriHostForm.noConfusion heq
    · simp only [hinside, hinside']
      cases haddress : parseIpv6Address literal with
      | none =>
        cases haddress' : parseIpv6Address literal' with
        | none =>
          exact hnames (hstray haddress) (hstray' haddress') (by rw [hinside]; exact haddress)
            (by rw [hinside']; exact haddress')
        | some groups' =>
          rw [uriHostForm_of_name (by rw [hinside]; exact haddress), uriHostForm_of_address hinside' haddress']
          simp
      | some groups =>
        cases haddress' : parseIpv6Address literal' with
        | none =>
          rw [uriHostForm_of_address hinside haddress, uriHostForm_of_name (by rw [hinside']; exact haddress')]
          simp
        | some groups' =>
          rw [uriHostForm_of_address hinside haddress, uriHostForm_of_address hinside' haddress']
          simp

end

end Ruvia.Http
