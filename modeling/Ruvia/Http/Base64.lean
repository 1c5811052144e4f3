import Ruvia.Library.ByteMemory
import Ruvia.Http.Syntax

/-!
# `Http.Base64` — the Base64 codec in a memory that its buffers may share

`http_base64.h` and `http_forward_encoded_groups`. The encoder and the decoder work on addresses of one memory, so that
the input and the output may overlap as the functions allow.

The encoding itself is `base64Text`, the text of RFC 4648 for a byte string; `Http.Base64Encoder` and
`Http.Base64Decoder` compare the two functions with it.
-/

namespace Ruvia.Http

open Library

/-- `http_base64_charset`. -/
inductive HttpBase64Charset where
  | standard
  | urlSafe
  deriving DecidableEq, Repr

/-- `http_base64_padding`. -/
inductive HttpBase64Padding where
  | required
  | forbidden
  deriving DecidableEq, Repr

def httpBase64Alphabet : Bytes := lit "ABCDEFGHIJKLMNOPQRSTUVWXYZabcdefghijklmnopqrstuvwxyz0123456789+/"

def httpBase64UrlAlphabet : Bytes := lit "ABCDEFGHIJKLMNOPQRSTUVWXYZabcdefghijklmnopqrstuvwxyz0123456789-_"

/-- `=`. -/
def base64Pad : UInt8 := 0x3d

/-! ## The encoder -/

namespace HttpBase64Charset

def alphabet : HttpBase64Charset → Bytes
  | standard => httpBase64Alphabet
  | urlSafe => httpBase64UrlAlphabet

/-- The character of a 6-bit value. -/
def digit (charset : HttpBase64Charset) (value : Nat) : UInt8 := charset.alphabet.getD value 0

end HttpBase64Charset

/-- `http_base64_encoded_size`; no value when the length cannot be represented. -/
def httpBase64EncodedSize (inputSize : Nat) (padding : HttpBase64Padding) : Option Nat :=
  let groups := inputSize / 3
  let remainder := inputSize % 3
  let tail := if remainder = 0 then 0 else if padding = .required then 4 else remainder + 1
  if (2 ^ 64 - 1 - tail) / 4 < groups then none else some (groups * 4 + tail)

/-- The bytes of a group as one number. -/
def groupValue (bytes : Bytes) : Nat :=
  let value := (bytes.getD 0 0).toNat <<< 16
  let value := if 1 < bytes.length then value ||| (bytes.getD 1 0).toNat <<< 8 else value
  if 2 < bytes.length then value ||| (bytes.getD 2 0).toNat else value

/-- The characters that `encode_group` writes for the bytes of a group. -/
def encodeGroup (charset : HttpBase64Charset) (padding : HttpBase64Padding) (bytes : Bytes) : Bytes :=
  let value := groupValue bytes
  [charset.digit ((value >>> 18) &&& 0x3f), charset.digit ((value >>> 12) &&& 0x3f)] ++
    (if 1 < bytes.length then [charset.digit ((value >>> 6) &&& 0x3f)]
      else if padding = .required then [base64Pad] else []) ++
    if 2 < bytes.length then [charset.digit (value &&& 0x3f)] else if padding = .required then [base64Pad] else []

/-- `http_forward_encoded_groups`. -/
def httpForwardEncodedGroups (output input groups : Nat) : Nat :=
  if input ≤ output then 0 else if input - output < groups then input - output else groups

/-- `http_base64_encode`. -/
def httpBase64Encode (mem : ByteMemory) (output input size : Nat) (charset : HttpBase64Charset)
    (padding : HttpBase64Padding) : ByteMemory :=
  let encode (mem : ByteMemory) (group : Nat) : ByteMemory :=
    mem.store (output + group * 4)
      (encodeGroup charset padding (mem.load (input + group * 3) (min (size - group * 3) 3)))
  let groups := size / 3 + if size % 3 = 0 then 0 else 1
  let forwardGroups := httpForwardEncodedGroups output input groups
  (List.range forwardGroups).foldl encode
    ((List.range' forwardGroups (groups - forwardGroups)).reverse.foldl encode mem)

/-! ## The decoder -/

/-- `http_base64_decode_char`; no value for any other character. -/
def httpBase64DecodeChar (c : UInt8) : Option Nat :=
  if 0x41 ≤ c ∧ c ≤ 0x5a then some (c.toNat - 0x41)
  else if 0x61 ≤ c ∧ c ≤ 0x7a then some (c.toNat - 0x61 + 26)
  else if 0x30 ≤ c ∧ c ≤ 0x39 then some (c.toNat - 0x30 + 52)
  else if c = 0x2b then some 62
  else if c = 0x2f then some 63
  else none

/-- `http_base64_url_decode_char`. -/
def httpBase64UrlDecodeChar (c : UInt8) : Option Nat :=
  if c = 0x2d then some 62
  else if c = 0x5f then some 63
  else if c = 0x2b ∨ c = 0x2f then none
  else httpBase64DecodeChar c

def HttpBase64Charset.valueOf : HttpBase64Charset → UInt8 → Option Nat
  | .standard => httpBase64DecodeChar
  | .urlSafe => httpBase64UrlDecodeChar

/-- `http_base64_decoded_size_bound`. -/
def httpBase64DecodedSizeBound (inputSize : Nat) : Nat :=
  inputSize / 4 * 3 + if inputSize % 4 = 0 then 0 else inputSize % 4 - 1

/-- How many characters stand in front of at most two `=`. -/
def unpaddedSize (text : Bytes) : Nat :=
  if [base64Pad, base64Pad] <:+ text then text.length - 2
  else if [base64Pad] <:+ text then text.length - 1
  else text.length

/-- How many characters stand in front of the padding; no value for a padding that is not exact. -/
def base64DataSize (padding : HttpBase64Padding) (text : Bytes) : Option Nat :=
  if padding = .required then
    if text.length % 4 ≠ 0 then none
    else if unpaddedSize text ≠ text.length ∧ unpaddedSize text % 4 + (text.length - unpaddedSize text) ≠ 4 then none
    else some (unpaddedSize text)
  else some text.length

section

variable (valueOf : UInt8 → Option Nat)

/-- The bytes of a whole quantum. -/
def decodeQuantum (a b c d : UInt8) : Option Bytes := do
  let first ← valueOf a
  let second ← valueOf b
  let third ← valueOf c
  let fourth ← valueOf d
  return [UInt8.ofNat (first <<< 2 ||| second >>> 4), UInt8.ofNat (second <<< 4 ||| third >>> 2),
    UInt8.ofNat (third <<< 6 ||| fourth)]

/-- The bytes of a partial quantum of two characters or three. -/
def decodeTail (a b : UInt8) (c : Option UInt8) : Option Bytes := do
  let first ← valueOf a
  let second ← valueOf b
  match c with
  | none => if second &&& 0x0f ≠ 0 then none else some [UInt8.ofNat (first <<< 2 ||| second >>> 4)]
  | some c =>
    let third ← valueOf c
    if third &&& 0x03 ≠ 0 then none
    else some [UInt8.ofNat (first <<< 2 ||| second >>> 4), UInt8.ofNat (second <<< 4 ||| third >>> 2)]

/-- The loop over the whole quanta: where the input and the output have come to, if all are valid. -/
def decodeQuanta (data size output : Nat) (mem : ByteMemory) (inAt outAt : Nat) : Option (Nat × Nat) × ByteMemory :=
  if 4 ≤ size - inAt then
    match decodeQuantum valueOf (mem (data + inAt)) (mem (data + inAt + 1)) (mem (data + inAt + 2))
        (mem (data + inAt + 3)) with
    | none => (none, mem)
    | some bytes => decodeQuanta data size output (mem.store (output + outAt) bytes) (inAt + 4) (outAt + 3)
  else (some (inAt, outAt), mem)
termination_by size - inAt

end

/-- `http_base64_decode`. -/
def httpBase64Decode (mem : ByteMemory) (input size output outputSize : Nat) (charset : HttpBase64Charset)
    (padding : HttpBase64Padding) : Option Nat × ByteMemory :=
  match base64DataSize padding (mem.load input size) with
  | none => (none, mem)
  | some dataSize =>
    if dataSize % 4 = 1 then (none, mem)
    else if outputSize < httpBase64DecodedSizeBound dataSize then (none, mem)
    -- the output starts inside the characters, behind the first one
    else if 0 < dataSize ∧ input < output ∧ output - input < dataSize then (none, mem)
    else
      match decodeQuanta charset.valueOf input dataSize output mem 0 0 with
      | (none, mem) => (none, mem)
      | (some (inAt, outAt), mem) =>
        if dataSize % 4 = 0 then (some outAt, mem)
        else
          match decodeTail charset.valueOf (mem (input + inAt)) (mem (input + inAt + 1))
              (if dataSize % 4 = 3 then some (mem (input + inAt + 2)) else none) with
          | none => (none, mem)
          | some bytes => (some (outAt + bytes.length), mem.store (output + outAt) bytes)

/-! ## The encoding -/

section

variable (charset : HttpBase64Charset) (padding : HttpBase64Padding)

/-- The padding of a last group that lacks some bytes. -/
def base64Padding (missing : Nat) : Bytes := if padding = .required then List.replicate missing base64Pad else []

/-- The encoding of a byte string: four characters for three bytes, the bits in order. -/
def base64Text : Bytes → Bytes
  | [] => []
  | [a] => [charset.digit (a.toNat / 4), charset.digit (a.toNat % 4 * 16)] ++ base64Padding padding 2
  | [a, b] =>
    [charset.digit (a.toNat / 4), charset.digit (a.toNat % 4 * 16 + b.toNat / 16),
      charset.digit (b.toNat % 16 * 4)] ++ base64Padding padding 1
  | a :: b :: c :: rest =>
    charset.digit (a.toNat / 4) :: charset.digit (a.toNat % 4 * 16 + b.toNat / 16) ::
      charset.digit (b.toNat % 16 * 4 + c.toNat / 64) :: charset.digit (c.toNat % 64) :: base64Text rest

example : base64Text .standard .required (lit "foobar!") = lit "Zm9vYmFyIQ==" := by decide
example : base64Text .urlSafe .forbidden [0xfb, 0xff] = lit "-_8" := by decide

end

end Ruvia.Http
