import Ruvia.Http.ChunkFraming

/-!
# `Http.HexText` — bytes written as hexadecimal digits

`http_encode_lower_hex` of `http_hex.h`, and the digits read back two by two.
-/

namespace Ruvia.Http

open Library

/-- `http_encode_lower_hex`: the high digit of each byte, then the low one. -/
def httpEncodeLowerHex (bytes : Bytes) : Bytes :=
  bytes.flatMap fun byte => [httpLowerHexDigit (byte.toNat / 16), httpLowerHexDigit byte.toNat]

/-- The byte two digits write. -/
def decodeHexPair (high low : UInt8) : Option UInt8 := do
  let high ← httpDecodeHexNibble high
  let low ← httpDecodeHexNibble low
  return UInt8.ofNat (high * 16 + low)

/-- The bytes an even number of digits writes. -/
def decodeHex : Bytes → Option Bytes
  | [] => some []
  | [_] => none
  | high :: low :: rest => do
    let byte ← decodeHexPair high low
    let bytes ← decodeHex rest
    return byte :: bytes

theorem httpEncodeLowerHex_cons (byte : UInt8) (bytes : Bytes) : httpEncodeLowerHex (byte :: bytes) =
    httpLowerHexDigit (byte.toNat / 16) :: httpLowerHexDigit byte.toNat :: httpEncodeLowerHex bytes := rfl

theorem decodeHexPair_encode (byte : UInt8) :
    decodeHexPair (httpLowerHexDigit (byte.toNat / 16)) (httpLowerHexDigit byte.toNat) = some byte := by
  have hbyte := byte.toNat_lt
  have hvalue : byte.toNat / 16 % 16 * 16 + byte.toNat % 16 = byte.toNat := by omega
  rw [decodeHexPair, httpDecodeHexNibble_lowerHexDigit, httpDecodeHexNibble_lowerHexDigit]
  show some (UInt8.ofNat (byte.toNat / 16 % 16 * 16 + byte.toNat % 16)) = some byte
  rw [hvalue, UInt8.ofNat_toNat]

/-- **The digits are read back.** -/
@[simp] theorem decodeHex_encode (bytes : Bytes) : decodeHex (httpEncodeLowerHex bytes) = some bytes := by
  induction bytes with
  | nil => rfl
  | cons byte bytes ih =>
    rw [httpEncodeLowerHex_cons, decodeHex, decodeHexPair_encode, ih]
    rfl

theorem httpEncodeLowerHex_injective {bytes others : Bytes} (h : httpEncodeLowerHex bytes = httpEncodeLowerHex others) :
    bytes = others := by
  have hdecoded := congrArg decodeHex h
  rw [decodeHex_encode, decodeHex_encode] at hdecoded
  exact Option.some.inj hdecoded

@[simp] theorem length_httpEncodeLowerHex (bytes : Bytes) : (httpEncodeLowerHex bytes).length = 2 * bytes.length := by
  induction bytes with
  | nil => rfl
  | cons byte bytes ih =>
    rw [httpEncodeLowerHex_cons, List.length_cons, List.length_cons, ih, List.length_cons]
    omega

end Ruvia.Http
