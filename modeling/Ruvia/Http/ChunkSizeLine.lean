import Ruvia.Http.FieldValues

/-!
# `Http.ChunkSizeLine` — `chunk-size [ chunk-ext ]`

`parse_http_chunk_size_line` of `http_parser_syntax.cpp`. The cursor of the source is the list of bytes not
yet read, so "no whitespace was skipped" is "the remaining list is the same".
-/

namespace Ruvia.Http

open Library

structure HttpChunkSizeLine where
  size : Nat
  overheadBytes : Nat
  deriving DecidableEq, Repr

/-! ## Chunk extensions -/

/-- `skip_bws`. -/
def skipBws (value : Bytes) : Bytes := value.dropWhile isHttpOwsChar

/-- `parse_token`: the bytes behind a nonempty token. -/
def parseToken (value : Bytes) : Option Bytes :=
  let rest := value.dropWhile isHttpTokenChar
  if rest.length = value.length then none else some rest

/-- The value of one extension: a quoted-string or a token. -/
def parseChunkExtensionValue (value : Bytes) : Option Bytes :=
  match value with
  | [] => none
  | first :: _ =>
    if first = dquote then
      if httpQuotedStringSize value = 0 then none else some (value.drop (httpQuotedStringSize value))
    else parseToken value

/-- The loop of `is_valid_http_chunk_extension`; every round reads at least `;` and a token byte. -/
def isValidHttpChunkExtensionLoop : Nat → Bytes → Bool
  | 0, _ => false
  | fuel + 1, value =>
    if value.isEmpty then true
    else
      match skipBws value with
      | [] => false
      | c :: afterSemicolon =>
        if c ≠ semicolon then false
        else
          match parseToken (skipBws afterSemicolon) with
          | none => false
          | some afterName =>
            match skipBws afterName with
            | [] => afterName.isEmpty
            | d :: afterDelimiter =>
              if d = semicolon then isValidHttpChunkExtensionLoop fuel (d :: afterDelimiter)
              else if d ≠ equalsSign then false
              else
                match parseChunkExtensionValue (skipBws afterDelimiter) with
                | none => false
                | some afterValue =>
                  match skipBws afterValue with
                  | [] => afterValue.isEmpty
                  | e :: next =>
                    if e ≠ semicolon then false else isValidHttpChunkExtensionLoop fuel (e :: next)

def isValidHttpChunkExtension (value : Bytes) : Bool :=
  isValidHttpChunkExtensionLoop (value.length + 1) value

/-! ## The size -/

/-- What the digit loop of `parse_http_chunk_size_line` has read. -/
structure ChunkSizeDigits where
  parsedValue : Nat
  leadingZeroDigits : Nat
  digits : Nat
  rest : Bytes

/-- The largest value that four more bits do not overflow. -/
def maxBeforeShift : Nat := 0x0fffffffffffffff

def readChunkSizeDigits (parsedValue leadingZeroDigits digits : Nat) : Bytes → Option ChunkSizeDigits
  | [] => some ⟨parsedValue, leadingZeroDigits, digits, []⟩
  | b :: rest =>
    match httpDecodeHexNibble b with
    | none => some ⟨parsedValue, leadingZeroDigits, digits, b :: rest⟩
    | some nibble =>
      if maxBeforeShift < parsedValue then none
      else
        readChunkSizeDigits (parsedValue * 16 + nibble)
          (if parsedValue = 0 ∧ nibble = 0 then leadingZeroDigits + 1 else leadingZeroDigits)
          (digits + 1) rest

def parseHttpChunkSizeLine (value : Bytes) : Option HttpChunkSizeLine :=
  match readChunkSizeDigits 0 0 0 value with
  | none => none
  | some read =>
    if read.digits = 0 ∨ isValidHttpChunkExtension read.rest = false then none
    else
      let significantDigits := max (read.digits - read.leadingZeroDigits) 1
      some ⟨read.parsedValue, value.length - significantDigits⟩

example : parseHttpChunkSizeLine (lit "00A1 ; a=\"b\";c") = some ⟨161, 12⟩ := by decide +kernel
example : parseHttpChunkSizeLine (lit "5 ") = none := by decide +kernel

end Ruvia.Http
