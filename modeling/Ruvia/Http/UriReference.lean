import Ruvia.Http.UrlEncoding

/-!
# `Http.UriReference` — repairing a URI reference

`percent_encode_uri_reference`. Which bytes it keeps depends on where they stand: `findUriReferenceLayout` looks once
for the positions that matter, and the loop asks at every byte (`uriReferenceKeepsLiteral`). The output is built only
from the first byte on that is not kept, and its size is checked against the largest size of a string.

`encodeKept` is the output without the storage: the loop returns it, or nothing when it is too long
(`percentEncodeUriReference_eq`), and it decodes to what the reference decodes to (`percentDecode_encodeKept`).
-/

namespace Ruvia.Http

open Library

/-! ## The layout -/

/-- `std::string_view::rfind` for one byte. -/
def findLastByte (byte : UInt8) (text : Bytes) : Option Nat :=
  (text.reverse.findIdx? (· == byte)).map (text.length - 1 - ·)

abbrev numberSign : UInt8 := 0x23

/-- A byte of `"/?#"`. -/
def isUriDelimiter (byte : UInt8) : Bool := byte == slash || byte == questionMark || byte == numberSign

def isSchemeByte (byte : UInt8) : Bool :=
  isAlpha byte || isDigit byte || byte == plusSign || byte == 0x2d || byte == dot

def isValidUriScheme : Bytes → Bool
  | [] => false
  | first :: rest => isAlpha first && rest.all isSchemeByte

/-- Positions whose literal legality depends on the structure of the reference; no value for `npos`. -/
structure UriReferenceLayout where
  ipLiteralOpen : Option Nat := none
  ipLiteralClose : Option Nat := none
  authorityBegin : Option Nat := none
  userinfoEnd : Option Nat := none
  colonFreeEnd : Nat := 0
  deriving DecidableEq, Repr

/-- The `:` behind a scheme. -/
def schemeColon (reference : Bytes) : Option Nat :=
  (findByte colon reference 0).filter fun position =>
    (∀ delimiter ∈ findFrom isUriDelimiter reference 0, position < delimiter) ∧
      isValidUriScheme (reference.take position) = true

def startsWithSlashes (text : Bytes) : Bool := text.take 2 == [slash, slash]

/-- The part of `find_uri_reference_layout` behind the authority's begin. -/
def authorityLayout (reference : Bytes) (authorityBegin : Nat) : UriReferenceLayout :=
  let authorityEnd := (findFrom isUriDelimiter reference authorityBegin).getD reference.length
  let authority := sub reference authorityBegin (authorityEnd - authorityBegin)
  let userinfoEnd := findLastByte atSign authority
  let layout : UriReferenceLayout :=
    { authorityBegin := userinfoEnd.map fun _ => authorityBegin
      userinfoEnd := userinfoEnd.map (authorityBegin + ·) }
  let hostBegin := authorityBegin + (userinfoEnd.map (· + 1)).getD 0
  if hostBegin ≥ authorityEnd ∨ reference[hostBegin]? ≠ some openBracket then layout
  else
    match findByte closeBracket reference (hostBegin + 1) with
    | none => layout
    | some close =>
      if close < authorityEnd then { layout with ipLiteralOpen := some hostBegin, ipLiteralClose := some close }
      else layout

def findUriReferenceLayout (reference : Bytes) : UriReferenceLayout :=
  match schemeColon reference with
  | some position =>
    if startsWithSlashes (reference.drop (position + 1)) then authorityLayout reference (position + 3) else {}
  | none =>
    let colonFreeEnd := (findFrom isUriDelimiter reference 0).getD reference.length
    if startsWithSlashes reference then { authorityLayout reference 2 with colonFreeEnd := colonFreeEnd }
    else { colonFreeEnd := colonFreeEnd }

/-- The verdict on a byte, and `fragment_seen` behind it. -/
def uriReferenceKeepsLiteral (byte : UInt8) (index : Nat) (layout : UriReferenceLayout) (fragmentSeen : Bool) :
    Bool × Bool :=
  if byte = openBracket ∨ byte = closeBracket then
    (layout.ipLiteralOpen = some index ∨ layout.ipLiteralClose = some index, fragmentSeen)
  else if byte = colon then (index ≥ layout.colonFreeEnd, fragmentSeen)
  else if byte = numberSign then (!fragmentSeen, true)
  else if byte = atSign then
    ((∀ first ∈ layout.authorityBegin, index < first) ∨ (∃ last ∈ layout.userinfoEnd, index ≥ last), fragmentSeen)
  else if byte = slash ∨ byte = questionMark then (true, fragmentSeen)
  else (isUriPchar byte, fragmentSeen)

/-! ## The loop -/

/-- The largest size of a string. -/
structure StringLimit where
  size : Nat
  room : 3 ≤ size

inductive UriReferenceFault where
  | lengthError (message : String)
  deriving DecidableEq, Repr

def uriReferenceTooLong : UriReferenceFault := .lengthError "URI reference exceeds string capacity"

/-- `append` of kept bytes, once there is an output. -/
def appendKept (limit : StringLimit) (kept : Bytes) : Option Bytes → Except UriReferenceFault (Option Bytes)
  | none => .ok none
  | some encoded =>
    if kept.length > limit.size - encoded.length then .error uriReferenceTooLong else .ok (some (encoded ++ kept))

/-- The triplet of a byte; the first one starts the output with what was kept before it. -/
def appendTriplet (limit : StringLimit) (reference : Bytes) (index : Nat) (byte : UInt8) (encoded : Option Bytes) :
    Except UriReferenceFault (Option Bytes) :=
  if encoded = none ∧ reference.length > limit.size - 2 then .error uriReferenceTooLong
  else
    let encoded := encoded.getD (reference.take index)
    if encoded.length > limit.size - 3 then .error uriReferenceTooLong
    else .ok (some (encoded ++ percentTriplet byte))

/-- The loop; `rest` is the reference from the index on. -/
def encodeReferenceLoop (limit : StringLimit) (reference : Bytes) (layout : UriReferenceLayout) :
    Nat → Bytes → Bool → Option Bytes → Except UriReferenceFault (Option Bytes)
  | _, [], _, encoded => .ok encoded
  | index, byte :: rest, fragmentSeen, encoded =>
    if (httpTryDecodePercentByte (byte :: rest)).isSome then
      (appendKept limit (byte :: rest.take 2) encoded).bind
        (encodeReferenceLoop limit reference layout (index + 3) (rest.drop 2) fragmentSeen)
    else if byte = percent then
      (appendTriplet limit reference index byte encoded).bind
        (encodeReferenceLoop limit reference layout (index + 1) rest fragmentSeen)
    else
      let verdict := uriReferenceKeepsLiteral byte index layout fragmentSeen
      if verdict.1 then
        (appendKept limit [byte] encoded).bind
          (encodeReferenceLoop limit reference layout (index + 1) rest verdict.2)
      else
        (appendTriplet limit reference index byte encoded).bind
          (encodeReferenceLoop limit reference layout (index + 1) rest verdict.2)
termination_by _ rest => rest.length
decreasing_by
  all_goals simp only [List.length_drop, List.length_cons]
  all_goals omega

def percentEncodeUriReference (limit : StringLimit) (reference : Bytes) : Except UriReferenceFault Bytes :=
  (encodeReferenceLoop limit reference (findUriReferenceLayout reference) 0 reference false none).map
    (·.getD reference)

/-! ## The output without the storage -/

/-- What one turn of the loop does: the bytes it writes, how many it has read, and whether they are the same. -/
structure ReferenceStep where
  output : Bytes
  width : Nat
  kept : Bool
  fragmentSeen : Bool

def referenceStep (layout : UriReferenceLayout) (index : Nat) (byte : UInt8) (rest : Bytes) (fragmentSeen : Bool) :
    ReferenceStep :=
  if (httpTryDecodePercentByte (byte :: rest)).isSome then ⟨byte :: rest.take 2, 3, true, fragmentSeen⟩
  else if byte = percent then ⟨percentTriplet byte, 1, false, fragmentSeen⟩
  else
    let verdict := uriReferenceKeepsLiteral byte index layout fragmentSeen
    if verdict.1 then ⟨[byte], 1, true, verdict.2⟩ else ⟨percentTriplet byte, 1, false, verdict.2⟩

def encodeKept (layout : UriReferenceLayout) : Nat → Bytes → Bool → Bytes
  | _, [], _ => []
  | index, byte :: rest, fragmentSeen =>
    let step := referenceStep layout index byte rest fragmentSeen
    step.output ++ encodeKept layout (index + step.width) (rest.drop (step.width - 1)) step.fragmentSeen
termination_by _ rest => rest.length
decreasing_by
  all_goals simp only [List.length_drop, List.length_cons]
  all_goals omega

section

variable {layout : UriReferenceLayout} {limit : StringLimit} {reference : Bytes} {index : Nat} {byte : UInt8}
  {rest : Bytes} {fragmentSeen : Bool}

/-- The turns of the loop: a triplet, a stray `%`, and a byte that is kept or not. -/
inductive StepCase (layout : UriReferenceLayout) (index : Nat) (byte : UInt8) (rest : Bytes) (fragmentSeen : Bool) :
    ReferenceStep → Prop where
  | escape : (httpTryDecodePercentByte (byte :: rest)).isSome = true →
      StepCase layout index byte rest fragmentSeen ⟨byte :: rest.take 2, 3, true, fragmentSeen⟩
  | stray : httpTryDecodePercentByte (byte :: rest) = none → byte = percent →
      StepCase layout index byte rest fragmentSeen ⟨percentTriplet byte, 1, false, fragmentSeen⟩
  | literal : byte ≠ percent → (uriReferenceKeepsLiteral byte index layout fragmentSeen).1 = true →
      StepCase layout index byte rest fragmentSeen
        ⟨[byte], 1, true, (uriReferenceKeepsLiteral byte index layout fragmentSeen).2⟩
  | encoded : byte ≠ percent → (uriReferenceKeepsLiteral byte index layout fragmentSeen).1 = false →
      StepCase layout index byte rest fragmentSeen
        ⟨percentTriplet byte, 1, false, (uriReferenceKeepsLiteral byte index layout fragmentSeen).2⟩

theorem referenceStep_cases :
    StepCase layout index byte rest fragmentSeen (referenceStep layout index byte rest fragmentSeen) := by
  rw [referenceStep]
  by_cases hescape : (httpTryDecodePercentByte (byte :: rest)).isSome = true
  · rw [if_pos hescape]
    exact .escape hescape
  · have hnone : httpTryDecodePercentByte (byte :: rest) = none := by simpa using hescape
    rw [if_neg hescape]
    by_cases hpercent : byte = percent
    · rw [if_pos hpercent]
      exact .stray hnone hpercent
    · rw [if_neg hpercent]
      cases hkeeps : (uriReferenceKeepsLiteral byte index layout fragmentSeen).1 with
      | true =>
        simp only [hkeeps, if_true]
        exact .literal hpercent hkeeps
      | false =>
        simp only [hkeeps, Bool.false_eq_true, if_false]
        exact .encoded hpercent hkeeps

/-- One turn of the loop of the code. -/
theorem encodeReferenceLoop_cons (encoded : Option Bytes) :
    encodeReferenceLoop limit reference layout index (byte :: rest) fragmentSeen encoded =
      (if (referenceStep layout index byte rest fragmentSeen).kept = true then
          appendKept limit (referenceStep layout index byte rest fragmentSeen).output encoded
        else appendTriplet limit reference index byte encoded).bind
        (encodeReferenceLoop limit reference layout (index + (referenceStep layout index byte rest fragmentSeen).width)
          (rest.drop ((referenceStep layout index byte rest fragmentSeen).width - 1))
          (referenceStep layout index byte rest fragmentSeen).fragmentSeen) := by
  rw [encodeReferenceLoop, referenceStep]
  by_cases hescape : (httpTryDecodePercentByte (byte :: rest)).isSome = true
  · simp only [hescape, if_true]
  · by_cases hpercent : byte = percent
    · subst hpercent
      simp [hescape]
    · cases hkeeps : (uriReferenceKeepsLiteral byte index layout fragmentSeen).1 <;> simp [hescape, hpercent, hkeeps]

/-- The bytes that a turn keeps are those it has read. -/
theorem StepCase.kept {step : ReferenceStep} (h : StepCase layout index byte rest fragmentSeen step)
    (hkept : step.kept = true) :
    byte :: rest = step.output ++ rest.drop (step.width - 1) ∧ step.output.length = step.width := by
  cases h with
  | escape hescape =>
    obtain ⟨decoded, hdecoded⟩ := Option.isSome_iff_exists.mp hescape
    obtain ⟨high, low, behind, rfl, -⟩ := triplet_cases hdecoded
    exact ⟨rfl, rfl⟩
  | stray | encoded => cases hkept
  | literal => exact ⟨rfl, rfl⟩

theorem StepCase.written {step : ReferenceStep} (h : StepCase layout index byte rest fragmentSeen step)
    (hkept : step.kept = false) : step.output = percentTriplet byte ∧ step.width = 1 := by
  cases h with
  | escape | literal => cases hkept
  | stray | encoded => exact ⟨rfl, rfl⟩

theorem encodeKept_nil : encodeKept layout index [] fragmentSeen = [] := by
  rw [encodeKept]

theorem encodeKept_cons : encodeKept layout index (byte :: rest) fragmentSeen =
    (referenceStep layout index byte rest fragmentSeen).output ++
      encodeKept layout (index + (referenceStep layout index byte rest fragmentSeen).width)
        (rest.drop ((referenceStep layout index byte rest fragmentSeen).width - 1))
        (referenceStep layout index byte rest fragmentSeen).fragmentSeen := by
  rw [encodeKept]

/-- The output is not shorter than the reference. -/
theorem le_length_encodeKept (index : Nat) (rest : Bytes) (fragmentSeen : Bool) :
    rest.length ≤ (encodeKept layout index rest fragmentSeen).length := by
  fun_induction encodeKept layout index rest fragmentSeen with
  | case1 => exact le_rfl
  | case2 index byte rest fragmentSeen step ih =>
    have hstep : StepCase layout index byte rest fragmentSeen step := referenceStep_cases
    rw [List.length_append, List.length_cons]
    cases hkept : step.kept with
    | true =>
      obtain ⟨heq, -⟩ := hstep.kept hkept
      have := congrArg List.length heq
      rw [List.length_append, List.length_cons] at this
      omega
    | false =>
      obtain ⟨houtput, hwidth⟩ := hstep.written hkept
      have hlength : step.output.length = 3 := by rw [houtput]; rfl
      rw [hwidth, Nat.sub_self, List.drop_zero] at ih ⊢
      omega

theorem appendKept_some {kept encoded : Bytes} (h : encoded.length ≤ limit.size) :
    appendKept limit kept (some encoded) =
      if encoded.length + kept.length ≤ limit.size then .ok (some (encoded ++ kept))
      else .error uriReferenceTooLong := by
  rw [appendKept]
  split_ifs with hlong hfits hfits
  · omega
  · rfl
  · rfl
  · omega

theorem appendTriplet_some {encoded : Bytes} (h : encoded.length ≤ limit.size) :
    appendTriplet limit reference index byte (some encoded) =
      if encoded.length + (percentTriplet byte).length ≤ limit.size then .ok (some (encoded ++ percentTriplet byte))
      else .error uriReferenceTooLong := by
  have hroom := limit.room
  have hlength : (percentTriplet byte).length = 3 := rfl
  rw [appendTriplet, if_neg (by simp), hlength]
  simp only [Option.getD_some]
  split_ifs with hlong hfits hfits
  · omega
  · rfl
  · rfl
  · omega

/-- The output is appended, or it is too long. -/
def appended (limit : StringLimit) (encoded output : Bytes) : Except UriReferenceFault (Option Bytes) :=
  if encoded.length + output.length ≤ limit.size then .ok (some (encoded ++ output)) else .error uriReferenceTooLong

theorem appended_bind {encoded chunk output : Bytes} {next : Option Bytes → Except UriReferenceFault (Option Bytes)}
    (h : encoded.length + chunk.length ≤ limit.size →
      next (some (encoded ++ chunk)) = appended limit (encoded ++ chunk) output) :
    (appended limit encoded chunk).bind next = appended limit encoded (chunk ++ output) := by
  by_cases hfits : encoded.length + chunk.length ≤ limit.size
  · rw [appended, if_pos hfits]
    show next (some (encoded ++ chunk)) = _
    rw [h hfits, appended, appended, List.length_append, List.length_append, List.append_assoc, Nat.add_assoc]
  · rw [appended, if_neg hfits, appended, if_neg (by rw [List.length_append]; omega)]
    rfl

/-- The loop once there is an output. -/
theorem encodeReferenceLoop_some (index : Nat) (rest : Bytes) (fragmentSeen : Bool) :
    ∀ encoded : Bytes, encoded.length ≤ limit.size →
      encodeReferenceLoop limit reference layout index rest fragmentSeen (some encoded) =
        appended limit encoded (encodeKept layout index rest fragmentSeen) := by
  induction index, rest, fragmentSeen using encodeKept.induct layout with
  | case1 =>
    intro encoded h
    rw [encodeReferenceLoop, encodeKept_nil, appended, if_pos (by simpa using h), List.append_nil]
  | case2 index byte rest fragmentSeen step ih =>
    intro encoded h
    have hstep : StepCase layout index byte rest fragmentSeen step := referenceStep_cases
    have happend : (if step.kept = true then appendKept limit step.output (some encoded)
        else appendTriplet limit reference index byte (some encoded)) = appended limit encoded step.output := by
      cases hkept : step.kept with
      | true => rw [if_pos rfl, appendKept_some h, appended]
      | false => rw [if_neg Bool.false_ne_true, appendTriplet_some h, appended, (hstep.written hkept).1]
    rw [encodeReferenceLoop_cons, encodeKept_cons]
    rw [happend]
    apply appended_bind
    intro hfits
    exact ih _ (by rwa [List.length_append])

/-- **The loop returns the output**, nothing when there is nothing to encode, or fails when it is too long. -/
theorem encodeReferenceLoop_none (index : Nat) (rest : Bytes) (fragmentSeen : Bool) :
    ∀ before : Bytes, reference = before ++ rest → before.length = index →
      encodeReferenceLoop limit reference layout index rest fragmentSeen none =
        if encodeKept layout index rest fragmentSeen = rest then .ok none
        else appended limit before (encodeKept layout index rest fragmentSeen) := by
  induction index, rest, fragmentSeen using encodeKept.induct layout with
  | case1 =>
    intro before _ _
    rw [encodeReferenceLoop, encodeKept_nil, if_pos rfl]
  | case2 index byte rest fragmentSeen step ih =>
    intro before hreference hindex
    have hstep : StepCase layout index byte rest fragmentSeen step := referenceStep_cases
    rw [encodeReferenceLoop_cons, encodeKept_cons]
    show (if step.kept = true then appendKept limit step.output none
        else appendTriplet limit reference index byte none).bind
      (encodeReferenceLoop limit reference layout (index + step.width) (rest.drop (step.width - 1)) step.fragmentSeen) =
      if step.output ++ encodeKept layout (index + step.width) (rest.drop (step.width - 1)) step.fragmentSeen =
        byte :: rest then .ok none
      else appended limit before
        (step.output ++ encodeKept layout (index + step.width) (rest.drop (step.width - 1)) step.fragmentSeen)
    have hlonger := @le_length_encodeKept layout (index + step.width) (rest.drop (step.width - 1)) step.fragmentSeen
    cases hkept : step.kept with
    | true =>
      obtain ⟨heq, hlength⟩ := hstep.kept hkept
      have hbefore : reference = before ++ step.output ++ rest.drop (step.width - 1) := by
        rw [hreference, heq, List.append_assoc]
      have hnext := ih _ hbefore (by rw [List.length_append, hindex, hlength])
      simp only [heq, List.append_cancel_left_eq]
      show encodeReferenceLoop limit reference layout (index + step.width) (rest.drop (step.width - 1))
        step.fragmentSeen none = _
      rw [hnext, appended, appended, List.append_assoc, List.length_append, List.length_append, Nat.add_assoc]
    | false =>
      obtain ⟨houtput, hwidth⟩ := hstep.written hkept
      have hthree : step.output.length = 3 := by rw [houtput]; rfl
      have htotal : reference.length = before.length + (rest.length + 1) := by
        rw [hreference, List.length_append, List.length_cons]
      rw [hwidth, Nat.sub_self, List.drop_zero] at hlonger ⊢
      have hne : step.output ++ encodeKept layout (index + 1) rest step.fragmentSeen ≠ byte :: rest := by
        intro heq
        have := congrArg List.length heq
        rw [List.length_append, List.length_cons] at this
        omega
      have htake : reference.take index = before := by
        rw [hreference, ← hindex, List.take_left]
      have hroom := limit.room
      rw [if_neg Bool.false_ne_true, if_neg hne, appendTriplet, htake]
      by_cases hlong : reference.length > limit.size - 2
      · rw [if_pos ⟨rfl, hlong⟩, appended, if_neg (by rw [List.length_append]; omega)]
        rfl
      · rw [if_neg (fun h => hlong h.2), Option.getD_none, if_neg (by omega)]
        show encodeReferenceLoop limit reference layout (index + 1) rest step.fragmentSeen
          (some (before ++ percentTriplet byte)) = _
        rw [← houtput, encodeReferenceLoop_some _ _ _ _ (by rw [List.length_append]; omega), appended, appended,
          List.length_append, List.length_append, List.append_assoc, Nat.add_assoc]

end

/-- The encoded reference. -/
def encodedReference (reference : Bytes) : Bytes :=
  encodeKept (findUriReferenceLayout reference) 0 reference false

/-- **The storage only limits** the output. -/
theorem percentEncodeUriReference_eq (limit : StringLimit) (reference : Bytes) :
    percentEncodeUriReference limit reference =
      if encodedReference reference = reference ∨ (encodedReference reference).length ≤ limit.size then
        .ok (encodedReference reference)
      else .error uriReferenceTooLong := by
  have hloop := @encodeReferenceLoop_none (findUriReferenceLayout reference) limit reference 0 reference false [] rfl
    rfl
  rw [percentEncodeUriReference, hloop, encodedReference, appended, List.length_nil, Nat.zero_add, List.nil_append]
  by_cases hsame : encodeKept (findUriReferenceLayout reference) 0 reference false = reference
  · rw [if_pos hsame, if_pos (Or.inl hsame), hsame]
    rfl
  · rw [if_neg hsame]
    by_cases hfits : (encodeKept (findUriReferenceLayout reference) 0 reference false).length ≤ limit.size
    · rw [if_pos hfits, if_pos (Or.inr hfits)]
      rfl
    · rw [if_neg hfits, if_neg (not_or.mpr ⟨hsame, hfits⟩)]
      rfl

/-! ## Decoding -/

/-- Percent-decoding; a `%` that begins no triplet stands for itself. -/
def percentDecode : Bytes → Bytes
  | [] => []
  | byte :: rest =>
    match httpTryDecodePercentByte (byte :: rest) with
    | some decoded => UInt8.ofNat decoded :: percentDecode (rest.drop 2)
    | none => byte :: percentDecode rest
termination_by text => text.length
decreasing_by
  all_goals simp only [List.length_drop, List.length_cons]
  all_goals omega

theorem percentDecode_none {byte : UInt8} {rest : Bytes} (h : httpTryDecodePercentByte (byte :: rest) = none) :
    percentDecode (byte :: rest) = byte :: percentDecode rest := by
  rw [percentDecode, h]

theorem percentDecode_some {byte : UInt8} {rest : Bytes} {decoded : Nat}
    (h : httpTryDecodePercentByte (byte :: rest) = some decoded) :
    percentDecode (byte :: rest) = UInt8.ofNat decoded :: percentDecode (rest.drop 2) := by
  rw [percentDecode, h]

theorem percentDecode_triplet (byte : UInt8) (rest : Bytes) :
    percentDecode (percentTriplet byte ++ rest) = byte :: percentDecode rest := by
  have hdecode := httpTryDecodePercentByte_triplet byte rest
  rw [percentTriplet, List.cons_append, List.cons_append, List.cons_append, List.nil_append] at hdecode ⊢
  rw [percentDecode, hdecode]
  simp

/-- **The output decodes to what the reference decodes to.** -/
theorem percentDecode_encodeKept (layout : UriReferenceLayout) (index : Nat) (rest : Bytes) (fragmentSeen : Bool) :
    percentDecode (encodeKept layout index rest fragmentSeen) = percentDecode rest := by
  induction index, rest, fragmentSeen using encodeKept.induct layout with
  | case1 => rw [encodeKept_nil]
  | case2 index byte rest fragmentSeen step ih =>
    have hstep : StepCase layout index byte rest fragmentSeen step := referenceStep_cases
    rw [encodeKept_cons]
    show percentDecode (step.output ++
      encodeKept layout (index + step.width) (rest.drop (step.width - 1)) step.fragmentSeen) = _
    generalize step = turn at hstep ih
    cases hstep with
    | escape hescape =>
      obtain ⟨decoded, hdecoded⟩ := Option.isSome_iff_exists.mp hescape
      obtain ⟨high, low, behind, rfl, -, -, hany⟩ := triplet_cases hdecoded
      simp only [List.take_succ_cons, List.take_zero, List.cons_append, List.nil_append, List.drop_succ_cons,
        List.drop_zero, Nat.reduceSub] at ih ⊢
      rw [percentDecode_some (hany _), percentDecode_some (hany _)]
      simp only [List.drop_succ_cons, List.drop_zero]
      rw [ih]
    | stray hnone =>
      rw [percentDecode_triplet, percentDecode_none hnone]
      simpa using ih
    | literal hpercent hkeeps =>
      rw [percentDecode_none (httpTryDecodePercentByte_of_ne hpercent rest), List.singleton_append,
        percentDecode_none (httpTryDecodePercentByte_of_ne hpercent _)]
      simpa using ih
    | encoded hpercent hkeeps =>
      rw [percentDecode_triplet, percentDecode_none (httpTryDecodePercentByte_of_ne hpercent rest)]
      simpa using ih

end Ruvia.Http
