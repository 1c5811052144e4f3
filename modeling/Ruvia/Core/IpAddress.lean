import Ruvia.Http.Syntax

/-!
# `Core.IpAddress` — address literals

`parse_ip_address` of `socket.cpp`: the lexical shape is checked here, and only a complete IPv6 literal reaches the
platform's parser, which is the parameter `makeAddressV6` (the bytes of the address and its scope, by interface name
or number).
-/

namespace Ruvia.Core

open Library Http

/-- An address in IPv6 form. -/
abbrev AddressBytes := { bytes : Bytes // bytes.length = 16 }

/-- `asio::ip::make_address_v6`: the bytes and the scope identifier. -/
abbrev MakeAddressV6 := Bytes → Option (AddressBytes × Nat)

inductive IpAddress where
  | v4 (bytes : { bytes : Bytes // bytes.length = 4 })
  | v6 (bytes : AddressBytes) (scopeId : Nat)
  deriving DecidableEq

def octetDot : UInt8 := 0x2e

/-- The digits of one octet: at most three, no leading zero, at most 255. -/
def parseIpv4Octet (digits value : Nat) : Bytes → Option (Nat × Bytes)
  | [] => if digits = 0 ∨ 255 < value then none else some (value, [])
  | ch :: rest =>
    if isDigit ch then
      if digits = 3 ∨ digits = 1 ∧ value = 0 then none
      else parseIpv4Octet (digits + 1) (value * 10 + (ch.toNat - 0x30)) rest
    else if digits = 0 ∨ 255 < value then none
    else some (value, ch :: rest)

/-- One octet, and `more` others, each behind a dot. -/
def parseIpv4Octets : (more : Nat) → Bytes → Option Bytes
  | 0, text =>
    match parseIpv4Octet 0 0 text with
    | some (value, []) => some [UInt8.ofNat value]
    | _ => none
  | more + 1, text =>
    match parseIpv4Octet 0 0 text with
    | some (value, ch :: rest) =>
      if ch = octetDot then (parseIpv4Octets more rest).map (UInt8.ofNat value :: ·) else none
    | _ => none

def parseIpv4Literal (text : Bytes) : Option Bytes := parseIpv4Octets 3 text

theorem length_parseIpv4Octets {more : Nat} {text bytes : Bytes} (h : parseIpv4Octets more text = some bytes) :
    bytes.length = more + 1 := by
  induction more generalizing text bytes with
  | zero =>
    rw [parseIpv4Octets] at h
    split at h
    · cases h
      rfl
    · cases h
  | succ more ih =>
    rw [parseIpv4Octets] at h
    split at h
    · split at h
      · obtain ⟨others, hothers, rfl⟩ := Option.map_eq_some_iff.mp h
        rw [List.length_cons, ih hothers]
      · cases h
    · cases h

def scopeIdMax : Nat := 2 ^ 32 - 1

def isHexDigit (ch : UInt8) : Bool := (httpDecodeHexNibble ch).isSome

/-- A zone behind the `%`: an interface name, or a number without leading zeros. -/
def isZoneShape (zoneName : Bytes) : Bool :=
  match zoneName with
  | [] => false
  | front :: _ =>
    if zoneName.any fun ch => ch ≤ 0x20 || 0x7f ≤ ch || ch == percent || ch == colon || ch == 0x5b || ch == 0x5d then
      false
    else if front == 0x2b || front == 0x2d then false
    else if isDigit front then front != 0x30 && zoneName.all isDigit && decimalNumber zoneName ≤ scopeIdMax
    else true

/-- Hex digits, colons and dots, with an IPv4 literal behind the last colon if there is a dot, and at most a zone. -/
def isIpv6LiteralShape (text : Bytes) : Bool :=
  let zone := findByte percent text 0
  let address := text.take (zone.getD text.length)
  if !address.contains colon then false
  else if !address.all fun ch => isHexDigit ch || ch == colon || ch == octetDot then false
  else if address.contains octetDot && (parseIpv4Literal (address.reverse.takeWhile (· != colon)).reverse).isNone then
    false
  else
    match zone with
    | none => true
    | some zone => isZoneShape (text.drop (zone + 1))

/-- `parse_ip_address`: the whole text must be a literal, and a zone must name a scope. -/
def parseIpAddress (makeAddressV6 : MakeAddressV6) (text : Bytes) : Option IpAddress :=
  if text.contains 0 then none
  else
    match h : parseIpv4Literal text with
    | some bytes => some (.v4 ⟨bytes, length_parseIpv4Octets h⟩)
    | none =>
      if !isIpv6LiteralShape text then none
      else
        match makeAddressV6 text with
        | none => none
        | some (bytes, scopeId) => if text.contains percent && scopeId == 0 then none else some (.v6 bytes scopeId)

end Ruvia.Core
