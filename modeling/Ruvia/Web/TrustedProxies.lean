import Ruvia.Core.IpAddress

/-!
# `Web.TrustedProxies` — which hops the deployment trusts

`trusted_proxies.cpp`. Addresses are compared in IPv6 form, so an IPv4 block matches both spellings of an IPv4
address; a text that is no address (`unknown`, an obfuscated name) is neither trusted nor untrusted.
-/

namespace Ruvia.Web

open Library Core

/-- An address in IPv6 form, and whether it was written as an IPv4 literal. -/
structure MappedAddress where
  bytes : AddressBytes
  wasV4 : Bool

/-- Only an IPv4 literal counts IPv4 bits. -/
def MappedAddress.maxBits (address : MappedAddress) : Nat := if address.wasV4 then 32 else 128

/-- The bits of the IPv6 form that `bits` of the literal stand for. -/
def MappedAddress.mappedBits (address : MappedAddress) (bits : Nat) : Nat := if address.wasV4 then bits + 96 else bits

theorem MappedAddress.mappedBits_le {address : MappedAddress} {bits : Nat} (h : bits ≤ address.maxBits) :
    address.mappedBits bits ≤ 128 := by
  rw [maxBits] at h
  rw [mappedBits]
  split <;> simp_all

/-- `::ffff:a.b.c.d` for an IPv4 address. -/
def toMappedBytes (makeAddressV6 : MakeAddressV6) (text : Bytes) : Option MappedAddress :=
  (parseIpAddress makeAddressV6 text).map fun
    | .v4 bytes => ⟨⟨List.replicate 10 0 ++ [0xff, 0xff] ++ bytes.val, by simp [bytes.property]⟩, true⟩
    | .v6 bytes _ => ⟨bytes, false⟩

/-- A block: the bits of the network that count. -/
structure TrustedProxyBlock where
  network : AddressBytes
  prefixBits : Nat
  prefixBits_le : prefixBits ≤ 128

/-- The digits behind the slash, at most three. -/
def parsePrefixBits (prefixText : Bytes) : Option Nat :=
  if prefixText = [] ∨ 3 < prefixText.length then none
  else if prefixText.all Http.isDigit then some (decimalNumber prefixText)
  else none

/-- `"10.0.0.0/8"`, or a bare address for all its bits. -/
def parseTrustedProxyBlock (makeAddressV6 : MakeAddressV6) (cidr : Bytes) : Option TrustedProxyBlock :=
  let slashAt := findByte Http.slash cidr 0
  match toMappedBytes makeAddressV6 (cidr.take (slashAt.getD cidr.length)) with
  | none => none
  | some address =>
    let bits := match slashAt with
      | none => some address.maxBits
      | some slashAt => parsePrefixBits (cidr.drop (slashAt + 1))
    match bits with
    | none => none
    | some bits =>
      if h : bits ≤ address.maxBits then
        some {
          network := address.bytes
          prefixBits := address.mappedBits bits
          prefixBits_le := address.mappedBits_le h }
      else none

/-- The whole bytes of the prefix, then the bits of the next byte. -/
def containsMappedAddress (block : TrustedProxyBlock) (peer : AddressBytes) : Bool :=
  let wholeBytes := block.prefixBits / 8
  let remainder := block.prefixBits % 8
  let mask : UInt8 := UInt8.ofNat (0xff * 2 ^ (8 - remainder))
  (List.range wholeBytes).all (fun i => peer.val.getD i 0 == block.network.val.getD i 0) &&
    (remainder == 0 || peer.val.getD wholeBytes 0 &&& mask == block.network.val.getD wholeBytes 0 &&& mask)

structure TrustedProxySet where
  blocks : List TrustedProxyBlock := []
  trustXForwardedProto : Bool := false

inductive HopTrust where
  | unidentified
  | untrusted
  | trusted
  deriving DecidableEq, Repr

namespace TrustedProxySet

variable (makeAddressV6 : MakeAddressV6) (set : TrustedProxySet)

def classify (address : Bytes) : HopTrust :=
  match toMappedBytes makeAddressV6 address with
  | none => .unidentified
  | some peer => if set.blocks.any fun block => containsMappedAddress block peer.bytes then .trusted else .untrusted

/-- With no block configured no peer is trusted. -/
def trusts (peerAddress : Bytes) : Bool := !set.blocks.isEmpty && classify makeAddressV6 set peerAddress == .trusted

end TrustedProxySet

end Ruvia.Web
