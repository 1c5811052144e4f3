import Ruvia.Http.Syntax

/-!
# `Http.UriGrammar` — components, hosts and ports

`http_uri_grammar.cpp` and the authority parser of `http_request_authority.cpp`: which byte strings are a
URI component, a registered name, an IPv4 / IPv6 / IPvFuture literal, a port or an authority.
-/

namespace Ruvia.Http

open Library

abbrev openBracket : UInt8 := 0x5b
abbrev closeBracket : UInt8 := 0x5d
abbrev atSign : UInt8 := 0x40
abbrev questionMark : UInt8 := 0x3f
abbrev dot : UInt8 := 0x2e

/-! ## Decimal numbers -/

def decimalValue (digits : Bytes) : Nat := digits.foldl (fun n b => n * 10 + (b.toNat - 0x30)) 0

/-- `std::from_chars` over the whole of `value`: digits only, and a value below `limit`. -/
def fromChars (limit : Nat) (value : Bytes) : Option Nat :=
  if value.isEmpty || !value.all isDigit then none
  else if decimalValue value < limit then some (decimalValue value)
  else none

theorem fromChars_eq_some_iff {limit n : Nat} {value : Bytes} :
    fromChars limit value = some n ↔
      value ≠ [] ∧ (∀ b ∈ value, isDigit b = true) ∧ decimalValue value = n ∧ n < limit := by
  unfold fromChars
  cases value with
  | nil => simp
  | cons b rest =>
    by_cases hall : (b :: rest).all isDigit = true
    · by_cases hlt : decimalValue (b :: rest) < limit
      · simp only [List.isEmpty_cons, hall, Bool.not_true, Bool.or_self, if_pos hlt]
        constructor
        · rintro h
          obtain rfl := Option.some.inj h
          exact ⟨by simp, List.all_eq_true.mp hall, rfl, hlt⟩
        · rintro ⟨_, _, rfl, _⟩
          rfl
      · simp only [List.isEmpty_cons, hall, Bool.not_true, Bool.or_self, if_neg hlt]
        constructor
        · rintro h
          cases h
        · rintro ⟨_, _, rfl, h⟩
          exact absurd h hlt
    · have hfalse : (b :: rest).all isDigit = false := by simpa using hall
      simp only [hfalse, Bool.not_false, Bool.or_true, if_true]
      constructor
      · rintro h
        cases h
      · rintro ⟨_, h, _⟩
        exact absurd (List.all_eq_true.mpr h) hall

/-- `parse_port_value`: sixteen bits. -/
def parsePortValue (value : Bytes) : Option Nat := fromChars (2 ^ 16) value

/-! ## Components -/

def isUnreservedByte (b : UInt8) : Bool := isDigit b || isAlpha b || (lit "-._~").contains b

def isUriSubDelimiter (b : UInt8) : Bool := (lit "!$&'()*+,;=").contains b

/-- `reg_name_char_table`. -/
def isRegNameChar (b : UInt8) : Bool := isUnreservedByte b || isUriSubDelimiter b

def isUriUserinfoLiteral (b : UInt8) : Bool := isRegNameChar b || b == colon

def isUriPchar (b : UInt8) : Bool := isUriUserinfoLiteral b || b == atSign

/-- `http_try_decode_percent_byte` at the front of `input`. -/
def httpTryDecodePercentByte : Bytes → Option Nat
  | p :: high :: low :: _ =>
    if p ≠ percent then none
    else
      match httpDecodeHexNibble high, httpDecodeHexNibble low with
      | some h, some l => some (h * 16 + l)
      | _, _ => none
  | _ => none

/-- Every byte is allowed or belongs to a percent triplet. -/
def isValidPercentEncoded (isAllowed : UInt8 → Bool) : Bytes → Bool
  | [] => true
  | b :: rest =>
    if b = percent then
      match rest with
      | high :: low :: rest' =>
        (httpTryDecodePercentByte [b, high, low]).isSome && isValidPercentEncoded isAllowed rest'
      | _ => false
    else isAllowed b && isValidPercentEncoded isAllowed rest

def isValidUriComponent (value : Bytes) (allowSlash allowQuestion : Bool) : Bool :=
  isValidPercentEncoded
    (fun b => isUriPchar b || (allowSlash && b == slash) || (allowQuestion && b == questionMark)) value

def isValidRegName (value : Bytes) : Bool := !value.isEmpty && isValidPercentEncoded isRegNameChar value

/-! ## IP literals -/

/-- The digits of one IPv4 octet: its value, the number of digits and the bytes behind them. -/
def readIpv4Octet (octet digits : Nat) : Bytes → Option (Nat × Nat × Bytes)
  | [] => some (octet, digits, [])
  | b :: rest =>
    if isDigit b then
      let octet := octet * 10 + (b.toNat - 0x30)
      if 3 < digits + 1 ∨ 255 < octet then none else readIpv4Octet octet (digits + 1) rest
    else some (octet, digits, b :: rest)

/-- The remaining `parts + 1` octets of `parse_ipv4_address`. -/
def parseIpv4Parts : Nat → Bytes → Option (List Nat)
  | _, [] => none
  | parts, first :: rest =>
    if isDigit first = false then none
    else
      match readIpv4Octet 0 0 (first :: rest) with
      | none => none
      | some (octet, digits, behind) =>
        if 1 < digits ∧ first = 0x30 then none
        else
          match parts with
          | 0 => if behind.isEmpty then some [octet] else none
          | parts + 1 =>
            match behind with
            | [] => none
            | d :: next => if d = dot then (parseIpv4Parts parts next).map (octet :: ·) else none

def parseIpv4Address (value : Bytes) : Option (List Nat) := parseIpv4Parts 3 value

/-- `parse_ipv6_hex_group`: at most four hex digits, at least one. -/
def parseIpv6HexGroup (literal : Bytes) : Option (Nat × Bytes) :=
  let digits := (literal.take 4).takeWhile fun b => (httpDecodeHexNibble b).isSome
  if digits.isEmpty then none
  else
    some (digits.foldl (fun n b => n * 16 + (httpDecodeHexNibble b).getD 0) 0, literal.drop digits.length)

/-- The group loop of `parse_ipv6_address`; every round reads at least one byte. -/
def parseIpv6Groups : Nat → List Nat → Option Nat → Bytes → Option (List Nat × Option Nat)
  | 0, _, _, _ => none
  | fuel + 1, groups, compression, literal =>
    match literal with
    | [] => some (groups, compression)
    | first :: _ =>
      if groups.length = 8 then none
      else
        let nextDot := findByte dot literal 0
        let nextColon := findByte colon literal 0
        let dottedTail :=
          match nextDot, nextColon with
          | some d, some c => decide (d < c)
          | some _, none => true
          | none, _ => false
        if isDigit first && dottedTail then
          match parseIpv4Address literal with
          | some [a, b, c, d] =>
            if 6 < groups.length then none
            else some (groups ++ [a * 256 + b, c * 256 + d], compression)
          | _ => none
        else
          match parseIpv6HexGroup literal with
          | none => none
          | some (group, behind) =>
            let groups := groups ++ [group]
            match behind with
            | [] => some (groups, compression)
            | c :: next =>
              if c ≠ colon then none
              else
                match next with
                | [] => none
                | c' :: next' =>
                  if c' = colon then
                    if compression.isSome then none
                    else parseIpv6Groups fuel groups (some groups.length) next'
                  else parseIpv6Groups fuel groups compression next

def parseIpv6Address (literal : Bytes) : Option (List Nat) :=
  if literal.isEmpty then none
  else
    let compressed := [colon, colon].isPrefixOf literal
    let start := if compressed then literal.drop 2 else literal
    match parseIpv6Groups (literal.length + 1) [] (if compressed then some 0 else none) start with
    | none => none
    | some (groups, none) => if groups.length = 8 then some groups else none
    | some (groups, some compression) =>
      if 8 ≤ groups.length ∨ groups.length < compression then none
      else
        some (groups.take compression ++ List.replicate (8 - groups.length) 0 ++ groups.drop compression)

def isValidIpvFuture (literal : Bytes) : Bool :=
  match literal with
  | v :: rest =>
    let behind := rest.dropWhile fun b => (httpDecodeHexNibble b).isSome
    decide (4 ≤ literal.length) && (v == 0x76 || v == 0x56) && decide (behind.length < rest.length) &&
      match behind with
      | d :: tail => d == dot && !tail.isEmpty && tail.all isUriUserinfoLiteral
      | [] => false
  | [] => false

/-! ## Hosts and authorities -/

/-- `split_uri_host_port`: the host and, behind a delimiter, the port. -/
def splitUriHostPort (value : Bytes) : Option (Bytes × Option Bytes) :=
  if value.head? = some openBracket then
    match findByte closeBracket value 0 with
    | none => none
    | some close =>
      match value.drop (close + 1) with
      | [] => some (value.take (close + 1), none)
      | c :: port => if c = colon then some (value.take (close + 1), some port) else none
  else
    match findByte colon value 0 with
    | none => some (value, none)
    | some delimiter =>
      let port := value.drop (delimiter + 1)
      if (findByte colon port 0).isSome then none else some (value.take delimiter, some port)

def isValidHttpHost (value : Bytes) : Bool :=
  match value with
  | [] => false
  | first :: _ =>
    if first = openBracket then
      let literal := (value.drop 1).dropLast
      decide (3 ≤ value.length) && value.getLast? == some closeBracket &&
        ((parseIpv6Address literal).isSome || isValidIpvFuture literal)
    else (findByte colon value 0).isNone && isValidRegName value

inductive HttpAuthorityPort where
  | absent
  | empty
  | value (port : Nat)
  deriving DecidableEq, Repr

structure HttpAuthorityView where
  host : Bytes
  port : HttpAuthorityPort
  deriving DecidableEq, Repr

def parseHttpAuthority (value : Bytes) : Option HttpAuthorityView :=
  if value.isEmpty then none
  else
    match splitUriHostPort value with
    | none => none
    | some (host, port) =>
      if isValidHttpHost host = false then none
      else
        match port with
        | none => some ⟨host, .absent⟩
        | some [] => some ⟨host, .empty⟩
        | some text => (parsePortValue text).map fun port => ⟨host, .value port⟩

/-- A received Host value: empty, or an authority. -/
def isValidHostHeader (value : Bytes) : Bool := value.isEmpty || (parseHttpAuthority value).isSome

example : parseIpv6Address (lit "1::ff:1.2.3.4") = some [1, 0, 0, 0, 0, 0xff, 0x102, 0x304] := by
  decide +kernel
example : parseHttpAuthority (lit "[::1]:80") = some ⟨lit "[::1]", .value 80⟩ := by decide +kernel

end Ruvia.Http
