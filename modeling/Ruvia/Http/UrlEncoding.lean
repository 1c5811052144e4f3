import Ruvia.Http.UriPath

/-!
# `Http.UrlEncoding` — percent-encoding and decoding of URL components

`http_append_percent_byte` and `decode_url_component`. What an encoder keeps is a parameter here: as long as it does
not keep `%`, the encoded text decodes to what was encoded (`decodeUrlComponent_encode`), and its path units are the
octets of that (`uriPathUnits_encode`).
-/

namespace Ruvia.Http

open Library

abbrev plusSign : UInt8 := 0x2b

abbrev space : UInt8 := 0x20

/-- `http_upper_hex_digit`. -/
def httpUpperHexDigit (value : Nat) : UInt8 :=
  if value % 16 < 10 then UInt8.ofNat (0x30 + value % 16) else UInt8.ofNat (0x41 + (value % 16 - 10))

/-- The triplet of `http_append_percent_byte`. -/
def percentTriplet (byte : UInt8) : Bytes :=
  [percent, httpUpperHexDigit (byte.toNat / 16), httpUpperHexDigit byte.toNat]

inductive UrlDecodeMode where
  | percent
  | form
  deriving DecidableEq, Repr

/-- `decode_url_component`; no value for a malformed escape, which form mode keeps. -/
def decodeUrlComponent (mode : UrlDecodeMode) : Bytes → Option Bytes
  | [] => some []
  | byte :: rest =>
    if mode = .form ∧ byte = plusSign then (decodeUrlComponent mode rest).map (space :: ·)
    else if byte = percent then
      match httpTryDecodePercentByte (byte :: rest) with
      | some decoded => (decodeUrlComponent mode (rest.drop 2)).map (UInt8.ofNat decoded :: ·)
      | none => if mode = .form then (decodeUrlComponent mode rest).map (byte :: ·) else none
    else (decodeUrlComponent mode rest).map (byte :: ·)
termination_by input => input.length
decreasing_by
  all_goals simp only [List.length_drop, List.length_cons]
  all_goals omega

/-- A text with a triplet for every byte that is not kept. -/
def encodeUrlBytes (keeps : UInt8 → Bool) (value : Bytes) : Bytes :=
  value.flatMap fun byte => if keeps byte then [byte] else percentTriplet byte

@[simp] theorem encodeUrlBytes_nil (keeps : UInt8 → Bool) : encodeUrlBytes keeps [] = [] := rfl

theorem encodeUrlBytes_cons (keeps : UInt8 → Bool) (byte : UInt8) (value : Bytes) :
    encodeUrlBytes keeps (byte :: value) =
      (if keeps byte then [byte] else percentTriplet byte) ++ encodeUrlBytes keeps value := rfl

theorem encodeUrlBytes_append (keeps : UInt8 → Bool) (value value' : Bytes) :
    encodeUrlBytes keeps (value ++ value') = encodeUrlBytes keeps value ++ encodeUrlBytes keeps value' :=
  List.flatMap_append

/-! ## Reading back -/

theorem httpDecodeHexNibble_upperHexDigit (value : Nat) :
    httpDecodeHexNibble (httpUpperHexDigit value) = some (value % 16) := by
  have hdigit : ∀ nibble : Fin 16, httpDecodeHexNibble (httpUpperHexDigit nibble) = some nibble.val := by
    decide
  have hnibble := hdigit ⟨value % 16, Nat.mod_lt _ (by decide)⟩
  rwa [httpUpperHexDigit, Nat.mod_mod, ← httpUpperHexDigit] at hnibble

/-- A triplet is read back as the byte it stands for. -/
theorem httpTryDecodePercentByte_triplet (byte : UInt8) (rest : Bytes) :
    httpTryDecodePercentByte (percentTriplet byte ++ rest) = some byte.toNat := by
  have hlt := byte.toNat_lt
  have hhigh : byte.toNat / 16 % 16 = byte.toNat / 16 := Nat.mod_eq_of_lt (by omega)
  show httpTryDecodePercentByte (percent :: httpUpperHexDigit (byte.toNat / 16) ::
    httpUpperHexDigit byte.toNat :: rest) = _
  rw [httpTryDecodePercentByte, if_neg (by decide)]
  simp only [httpDecodeHexNibble_upperHexDigit, hhigh]
  rw [Nat.div_add_mod']

/-- A triplet has two hexadecimal digits, and it is decoded whatever follows it. -/
theorem triplet_cases {byte : UInt8} {rest : Bytes} {decoded : Nat}
    (h : httpTryDecodePercentByte (byte :: rest) = some decoded) :
    ∃ high low behind, rest = high :: low :: behind ∧ (httpDecodeHexNibble high).isSome ∧
      (httpDecodeHexNibble low).isSome ∧
        ∀ other, httpTryDecodePercentByte (byte :: high :: low :: other) = some decoded := by
  match rest, h with
  | high :: low :: behind, h =>
    refine ⟨high, low, behind, rfl, ?_⟩
    by_cases hbyte : byte = percent
    · cases hhigh : httpDecodeHexNibble high <;> cases hlow : httpDecodeHexNibble low <;>
        simp_all [httpTryDecodePercentByte]
    · simp [httpTryDecodePercentByte, hbyte] at h

theorem httpTryDecodePercentByte_of_ne {byte : UInt8} (h : byte ≠ percent) (rest : Bytes) :
    httpTryDecodePercentByte (byte :: rest) = none := by
  unfold httpTryDecodePercentByte
  split
  · rename_i heq
    obtain ⟨rfl, -⟩ := List.cons_eq_cons.mp heq
    rw [if_pos h]
  · rfl

theorem httpUpperHexDigit_ne_slash (value : Nat) : httpUpperHexDigit value ≠ slash := by
  intro heq
  have hdigit := httpDecodeHexNibble_upperHexDigit value
  rw [heq] at hdigit
  cases hdigit

section

variable {keeps : UInt8 → Bool}

section

variable (hpercent : keeps percent = false)
include hpercent

theorem ne_percent_of_keeps {byte : UInt8} (h : keeps byte = true) : byte ≠ percent := by
  rintro rfl
  rw [hpercent] at h
  cases h

/-- **An encoded text decodes to what was encoded.** -/
theorem decodeUrlComponent_encode (value : Bytes) :
    decodeUrlComponent .percent (encodeUrlBytes keeps value) = some value := by
  induction value with
  | nil => rw [encodeUrlBytes_nil, decodeUrlComponent]
  | cons byte rest ih =>
    rw [encodeUrlBytes_cons]
    cases hkeeps : keeps byte with
    | true =>
      rw [if_pos rfl, List.singleton_append, decodeUrlComponent, if_neg (by simp),
        if_neg (ne_percent_of_keeps hpercent hkeeps), ih]
      rfl
    | false =>
      have hdecode := httpTryDecodePercentByte_triplet byte (encodeUrlBytes keeps rest)
      rw [percentTriplet] at hdecode
      rw [if_neg (by decide), percentTriplet, List.cons_append, decodeUrlComponent, if_neg (by simp), if_pos rfl,
        ← List.cons_append, hdecode]
      show (decodeUrlComponent .percent (encodeUrlBytes keeps rest)).map (UInt8.ofNat byte.toNat :: ·) = _
      rw [ih, UInt8.ofNat_toNat]
      rfl

/-- **The units of an encoded text** are the octets of what was encoded; a slash that is kept separates. -/
theorem uriPathUnits_encode (value : Bytes) :
    uriPathUnits (encodeUrlBytes keeps value) =
      value.map fun byte => if keeps byte && byte == slash then uriPathSeparatorUnit else (byte.toNat : Int) := by
  induction value with
  | nil => rw [encodeUrlBytes_nil, uriPathUnits_nil, List.map_nil]
  | cons byte rest ih =>
    rw [encodeUrlBytes_cons, List.map_cons, ← ih]
    cases hkeeps : keeps byte with
    | true =>
      rw [if_pos rfl, List.singleton_append, uriPathUnits_cons, nextUriPathUnit, Bool.true_and]
      by_cases hslash : byte = slash
      · rw [if_pos hslash, if_pos (beq_iff_eq.mpr hslash)]
      · rw [if_neg hslash, if_neg (ne_percent_of_keeps hpercent hkeeps),
          if_neg (fun heq => hslash (beq_iff_eq.mp heq))]
    | false =>
      have hdecode := httpTryDecodePercentByte_triplet byte (encodeUrlBytes keeps rest)
      rw [percentTriplet, List.cons_append] at hdecode
      rw [Bool.false_and, if_neg (by decide), if_neg (by decide), percentTriplet, List.cons_append, uriPathUnits_cons,
        nextUriPathUnit, if_neg (by decide), if_pos rfl, hdecode]
      rfl

end

end

/-- Only a slash that is kept is a slash of the encoded text. -/
theorem slash_not_mem_encode {keeps : UInt8 → Bool} (hslash : keeps slash = false) (value : Bytes) :
    slash ∉ encodeUrlBytes keeps value := by
  induction value with
  | nil => exact List.not_mem_nil
  | cons byte rest ih =>
    rw [encodeUrlBytes_cons, List.mem_append, not_or]
    refine ⟨?_, ih⟩
    split
    · rename_i hkeeps
      intro hmem
      rw [← List.mem_singleton.mp hmem, hslash] at hkeeps
      cases hkeeps
    · intro hmem
      rcases List.mem_cons.mp hmem with heq | hmem
      · exact absurd heq (by decide)
      · rcases List.mem_cons.mp hmem with heq | hmem
        · exact httpUpperHexDigit_ne_slash _ heq.symm
        · exact httpUpperHexDigit_ne_slash _ (List.mem_singleton.mp hmem).symm

theorem length_encodeUrlBytes (keeps : UInt8 → Bool) (value : Bytes) :
    (encodeUrlBytes keeps value).length = value.length + 2 * value.countP fun byte => !keeps byte := by
  induction value with
  | nil => rfl
  | cons byte rest ih =>
    rw [encodeUrlBytes_cons, List.length_append, ih, List.length_cons, List.countP_cons]
    cases keeps byte with
    | true =>
      show 1 + (rest.length + 2 * rest.countP fun byte => !keeps byte) = _
      rw [Bool.not_true, if_neg Bool.false_ne_true]
      omega
    | false =>
      show 3 + (rest.length + 2 * rest.countP fun byte => !keeps byte) = _
      rw [Bool.not_false, if_pos rfl]
      omega

end Ruvia.Http
