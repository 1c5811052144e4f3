import Mathlib.Tactic.IntervalCases
import Ruvia.Library.ByteString

/-!
# `Library.IpGrammar` — IPv4 and IPv6 addresses

The rules `IPv4address` and `IPv6address` of RFC 3986, each with the numbers its text denotes. The nine alternatives
of `IPv6address` are rules of their own here. A parser counts groups instead; `ipv6Address_iff` brings the
alternatives into the form it needs: eight groups without `::`, or at most seven around it.
-/

namespace Library

/-! ## Rules -/

/-- `DIGIT`. -/
def Digit (byte : UInt8) (n : Nat) : Prop := n < 10 ∧ byte.toNat = 0x30 + n

/-- `HEXDIG`, in both cases of letters. -/
def HexDigit (byte : UInt8) (n : Nat) : Prop :=
  (n < 10 ∧ byte.toNat = 0x30 + n) ∨
    (10 ≤ n ∧ n < 16 ∧ (byte.toNat = 0x41 + (n - 10) ∨ byte.toNat = 0x61 + (n - 10)))

/-- `dec-octet`. -/
inductive DecOctet : Bytes → Nat → Prop where
  /-- `DIGIT` -/
  | one {a : UInt8} {i : Nat} : Digit a i → DecOctet [a] i
  /-- `%x31-39 DIGIT` -/
  | two {a b : UInt8} {i j : Nat} : Digit a i → 1 ≤ i → Digit b j → DecOctet [a, b] (10 * i + j)
  /-- `"1" 2DIGIT` -/
  | hundred {b c : UInt8} {j k : Nat} : Digit b j → Digit c k → DecOctet [0x31, b, c] (100 + 10 * j + k)
  /-- `"2" %x30-34 DIGIT` -/
  | twoHundred {b c : UInt8} {j k : Nat} : Digit b j → j ≤ 4 → Digit c k → DecOctet [0x32, b, c] (200 + 10 * j + k)
  /-- `"25" %x30-35` -/
  | twoFifty {c : UInt8} {k : Nat} : Digit c k → k ≤ 5 → DecOctet [0x32, 0x35, c] (250 + k)

/-- `IPv4address = dec-octet "." dec-octet "." dec-octet "." dec-octet`. -/
inductive Ipv4Address : Bytes → List Nat → Prop where
  | octets {a b c d : Bytes} {i j k l : Nat} : DecOctet a i → DecOctet b j → DecOctet c k → DecOctet d l →
      Ipv4Address (a ++ lit "." ++ b ++ lit "." ++ c ++ lit "." ++ d) [i, j, k, l]

/-- `*HEXDIG`. -/
inductive HexDigits : Bytes → Nat → Prop where
  | nil : HexDigits [] 0
  | snoc {text : Bytes} {byte : UInt8} {m n : Nat} :
      HexDigits text m → HexDigit byte n → HexDigits (text ++ [byte]) (16 * m + n)

/-- `h16 = 1*4HEXDIG`. -/
def H16 (text : Bytes) (n : Nat) : Prop := 1 ≤ text.length ∧ text.length ≤ 4 ∧ HexDigits text n

/-- `k( h16 ":" )`. -/
inductive H16Colons : Nat → Bytes → List Nat → Prop where
  | zero : H16Colons 0 [] []
  | succ {k n : Nat} {text rest : Bytes} {ns : List Nat} :
      H16 text n → H16Colons k rest ns → H16Colons (k + 1) (text ++ lit ":" ++ rest) (n :: ns)

/-- `ls32 = ( h16 ":" h16 ) / IPv4address`. -/
inductive Ls32 : Bytes → List Nat → Prop where
  | groups {a b : Bytes} {m n : Nat} : H16 a m → H16 b n → Ls32 (a ++ lit ":" ++ b) [m, n]
  | ipv4 {text : Bytes} {i j k l : Nat} : Ipv4Address text [i, j, k, l] → Ls32 text [i * 256 + j, k * 256 + l]

/-- `[ *k( h16 ":" ) h16 ]`. -/
inductive Before : Nat → Bytes → List Nat → Prop where
  | absent {k : Nat} : Before k [] []
  | present {j k n : Nat} {a b : Bytes} {ms : List Nat} :
      j ≤ k → H16Colons j a ms → H16 b n → Before k (a ++ b) (ms ++ [n])

/-- `::` stands for as many zero groups as are missing. -/
def elide (front back : List Nat) : List Nat :=
  front ++ List.replicate (8 - (front.length + back.length)) 0 ++ back

/-- `IPv6address`, alternative by alternative. -/
inductive Ipv6Address : Bytes → List Nat → Prop where
  /-- `6( h16 ":" ) ls32` -/
  | full {a b : Bytes} {ms ns : List Nat} : H16Colons 6 a ms → Ls32 b ns → Ipv6Address (a ++ b) (ms ++ ns)
  /-- `"::" 5( h16 ":" ) ls32` -/
  | elided7 {a b : Bytes} {ms ns : List Nat} :
      H16Colons 5 a ms → Ls32 b ns → Ipv6Address (lit "::" ++ (a ++ b)) (elide [] (ms ++ ns))
  /-- `[ h16 ] "::" 4( h16 ":" ) ls32` -/
  | elided6 {p a b : Bytes} {ls ms ns : List Nat} : Before 0 p ls → H16Colons 4 a ms → Ls32 b ns →
      Ipv6Address (p ++ lit "::" ++ (a ++ b)) (elide ls (ms ++ ns))
  /-- `[ *1( h16 ":" ) h16 ] "::" 3( h16 ":" ) ls32` -/
  | elided5 {p a b : Bytes} {ls ms ns : List Nat} : Before 1 p ls → H16Colons 3 a ms → Ls32 b ns →
      Ipv6Address (p ++ lit "::" ++ (a ++ b)) (elide ls (ms ++ ns))
  /-- `[ *2( h16 ":" ) h16 ] "::" 2( h16 ":" ) ls32` -/
  | elided4 {p a b : Bytes} {ls ms ns : List Nat} : Before 2 p ls → H16Colons 2 a ms → Ls32 b ns →
      Ipv6Address (p ++ lit "::" ++ (a ++ b)) (elide ls (ms ++ ns))
  /-- `[ *3( h16 ":" ) h16 ] "::" h16 ":" ls32` -/
  | elided3 {p a b : Bytes} {ls ms ns : List Nat} : Before 3 p ls → H16Colons 1 a ms → Ls32 b ns →
      Ipv6Address (p ++ lit "::" ++ (a ++ b)) (elide ls (ms ++ ns))
  /-- `[ *4( h16 ":" ) h16 ] "::" ls32` -/
  | elided2 {p b : Bytes} {ls ns : List Nat} : Before 4 p ls → Ls32 b ns →
      Ipv6Address (p ++ lit "::" ++ b) (elide ls ns)
  /-- `[ *5( h16 ":" ) h16 ] "::" h16` -/
  | elided1 {p b : Bytes} {ls : List Nat} {n : Nat} : Before 5 p ls → H16 b n →
      Ipv6Address (p ++ lit "::" ++ b) (elide ls [n])
  /-- `[ *6( h16 ":" ) h16 ] "::"` -/
  | elided0 {p : Bytes} {ls : List Nat} : Before 6 p ls → Ipv6Address (p ++ lit "::") (elide ls [])

/-! ## Groups between colons -/

/-- Groups in hexadecimal digits, separated by colons. -/
inductive HexText : Bytes → List Nat → Prop where
  | last {text : Bytes} {n : Nat} : H16 text n → HexText text [n]
  | cons {text rest : Bytes} {n : Nat} {ns : List Nat} :
      H16 text n → HexText rest ns → HexText (text ++ lit ":" ++ rest) (n :: ns)

/-- The same, with an IPv4 address for the last two groups or not. -/
inductive GroupText : Bytes → List Nat → Prop where
  | last {text : Bytes} {n : Nat} : H16 text n → GroupText text [n]
  | ipv4 {text : Bytes} {i j k l : Nat} :
      Ipv4Address text [i, j, k, l] → GroupText text [i * 256 + j, k * 256 + l]
  | cons {text rest : Bytes} {n : Nat} {ns : List Nat} :
      H16 text n → GroupText rest ns → GroupText (text ++ lit ":" ++ rest) (n :: ns)

section

variable {k n : Nat} {a b text : Bytes} {ms ns : List Nat}

theorem H16Colons.length_eq (h : H16Colons k a ms) : ms.length = k := by
  induction h with
  | zero => rfl
  | succ _ _ ih => rw [List.length_cons, ih]

theorem Ls32.length_eq (h : Ls32 b ns) : ns.length = 2 := by
  cases h <;> rfl

theorem H16Colons.hexText (h : H16Colons k a ms) (hb : H16 b n) : HexText (a ++ b) (ms ++ [n]) := by
  induction h with
  | zero => exact HexText.last hb
  | succ htext _ ih =>
    rw [List.append_assoc]
    exact HexText.cons htext ih

theorem HexText.split (h : HexText text ns) :
    ∃ k a b ms n, H16Colons k a ms ∧ H16 b n ∧ text = a ++ b ∧ ns = ms ++ [n] := by
  induction h with
  | last h => exact ⟨0, [], _, [], _, H16Colons.zero, h, rfl, rfl⟩
  | cons h _ ih =>
    obtain ⟨k, a, b, ms, n, ha, hb, rfl, rfl⟩ := ih
    exact ⟨k + 1, _, b, _, n, H16Colons.succ h ha, hb, (List.append_assoc _ _ _).symm, rfl⟩

theorem before_iff : Before k text ns ↔ (text = [] ∧ ns = []) ∨ (HexText text ns ∧ ns.length ≤ k + 1) := by
  constructor
  · intro h
    cases h with
    | absent => exact Or.inl ⟨rfl, rfl⟩
    | present hj ha hb =>
      refine Or.inr ⟨ha.hexText hb, ?_⟩
      rw [List.length_append, ha.length_eq, List.length_singleton]
      omega
  · rintro (⟨rfl, rfl⟩ | ⟨h, hlength⟩)
    · exact Before.absent
    · obtain ⟨j, a, b, ms, n, ha, hb, rfl, rfl⟩ := h.split
      rw [List.length_append, ha.length_eq, List.length_singleton] at hlength
      exact Before.present (by omega) ha hb

theorem H16Colons.groupText (h : H16Colons k a ms) (hb : Ls32 b ns) : GroupText (a ++ b) (ms ++ ns) := by
  induction h with
  | zero =>
    cases hb with
    | groups hm hn => exact GroupText.cons hm (GroupText.last hn)
    | ipv4 h => exact GroupText.ipv4 h
  | succ htext _ ih =>
    rw [List.append_assoc]
    exact GroupText.cons htext ih

/-- One group, or some groups in front of the last two. -/
theorem GroupText.split (h : GroupText text ns) :
    (∃ n, ns = [n] ∧ H16 text n) ∨
      ∃ k a b ms hs, H16Colons k a ms ∧ Ls32 b hs ∧ text = a ++ b ∧ ns = ms ++ hs := by
  induction h with
  | last h => exact Or.inl ⟨_, rfl, h⟩
  | ipv4 h => exact Or.inr ⟨0, [], _, [], _, H16Colons.zero, Ls32.ipv4 h, rfl, rfl⟩
  | cons h _ ih =>
    right
    rcases ih with ⟨n, rfl, hn⟩ | ⟨k, a, b, ms, hs, ha, hb, rfl, rfl⟩
    · exact ⟨0, [], _, [], _, H16Colons.zero, Ls32.groups h hn, rfl, rfl⟩
    · exact ⟨k + 1, _, b, _, hs, H16Colons.succ h ha, hb, (List.append_assoc _ _ _).symm, rfl⟩

theorem GroupText.split_of_length (h : GroupText text ns) (hlength : ns.length = k + 2) :
    ∃ a b ms hs, H16Colons k a ms ∧ Ls32 b hs ∧ text = a ++ b ∧ ns = ms ++ hs := by
  rcases h.split with ⟨n, rfl, -⟩ | ⟨j, a, b, ms, hs, ha, hb, rfl, rfl⟩
  · rw [List.length_singleton] at hlength
    omega
  · rw [List.length_append, ha.length_eq, hb.length_eq] at hlength
    obtain rfl : j = k := by omega
    exact ⟨a, b, ms, hs, ha, hb, rfl, rfl⟩

theorem GroupText.ne_nil (h : GroupText text ns) : ns ≠ [] := by
  cases h <;> exact List.cons_ne_nil _ _

end

/-- Groups in front of `::`, or none. -/
def Front (text : Bytes) (ns : List Nat) : Prop := (text = [] ∧ ns = []) ∨ HexText text ns

/-- Groups behind `::`, or none. -/
def Back (text : Bytes) (ns : List Nat) : Prop := (text = [] ∧ ns = []) ∨ GroupText text ns

variable {k : Nat} {text : Bytes} {ns : List Nat}

theorem Before.front (h : Before k text ns) : Front text ns ∧ ns.length ≤ k + 1 := by
  rcases before_iff.mp h with ⟨rfl, rfl⟩ | ⟨h, hlength⟩
  · exact ⟨Or.inl ⟨rfl, rfl⟩, Nat.zero_le _⟩
  · exact ⟨Or.inr h, hlength⟩

theorem Front.before (h : Front text ns) (hlength : ns.length ≤ k + 1) :
    Before k text ns := before_iff.mpr (h.imp id fun h => ⟨h, hlength⟩)

/-- At most seven groups around `::`. -/
def Elided (text : Bytes) (groups : List Nat) : Prop :=
  ∃ p q ls ns, Front p ls ∧ Back q ns ∧ ls.length + ns.length ≤ 7 ∧ text = p ++ lit "::" ++ q ∧ groups = elide ls ns

/-- An alternative with `ls32` at its end. -/
theorem elided_of_ls32 {j : Nat} {p a b : Bytes} {ls ms : List Nat} (hp : Before j p ls) (ha : H16Colons k a ms)
    (hb : Ls32 b ns) (hroom : j + k ≤ 4) : Elided (p ++ lit "::" ++ (a ++ b)) (elide ls (ms ++ ns)) := by
  obtain ⟨hfront, hlength⟩ := hp.front
  refine ⟨p, a ++ b, ls, ms ++ ns, hfront, Or.inr (ha.groupText hb), ?_, rfl, rfl⟩
  rw [List.length_append, ha.length_eq, hb.length_eq]
  omega

/-- **Counting groups**: the nine alternatives are eight groups, or at most seven around `::`. -/
theorem ipv6Address_iff (text : Bytes) (groups : List Nat) :
    Ipv6Address text groups ↔ (GroupText text groups ∧ groups.length = 8) ∨ Elided text groups := by
  constructor
  · intro h
    cases h with
    | full ha hb =>
      refine Or.inl ⟨ha.groupText hb, ?_⟩
      rw [List.length_append, ha.length_eq, hb.length_eq]
    | elided7 ha hb =>
      refine Or.inr ⟨[], _, [], _, Or.inl ⟨rfl, rfl⟩, Or.inr (ha.groupText hb), ?_, rfl, rfl⟩
      rw [List.length_append, ha.length_eq, hb.length_eq, List.length_nil]
    | elided6 hp ha hb | elided5 hp ha hb | elided4 hp ha hb => exact Or.inr (elided_of_ls32 hp ha hb (by decide))
    | elided3 hp ha hb => exact Or.inr (elided_of_ls32 hp ha hb (by decide))
    | elided2 hp hb => exact Or.inr (elided_of_ls32 hp H16Colons.zero hb (by decide))
    | elided1 hp hb =>
      obtain ⟨hfront, hlength⟩ := hp.front
      exact Or.inr ⟨_, _, _, _, hfront, Or.inr (GroupText.last hb), Nat.succ_le_succ hlength, rfl, rfl⟩
    | elided0 hp =>
      obtain ⟨hfront, hlength⟩ := hp.front
      exact Or.inr ⟨_, [], _, [], hfront, Or.inl ⟨rfl, rfl⟩, hlength, (List.append_nil _).symm, rfl⟩
  · rintro (⟨h, hlength⟩ | ⟨p, q, ls, ns, hfront, hback, hroom, rfl, rfl⟩)
    · obtain ⟨a, b, ms, hs, ha, hb, rfl, rfl⟩ := h.split_of_length hlength
      exact Ipv6Address.full ha hb
    rcases hback with ⟨rfl, rfl⟩ | hback
    · rw [List.append_nil]
      exact Ipv6Address.elided0 (hfront.before (by rwa [List.length_nil] at hroom))
    have hpos := List.length_pos_of_ne_nil hback.ne_nil
    by_cases hone : ns.length = 1
    · rcases hback.split with ⟨n, rfl, hn⟩ | ⟨k, a, b, ms, hs, ha, hb, rfl, rfl⟩
      · exact Ipv6Address.elided1 (hfront.before (by omega)) hn
      · rw [List.length_append, hb.length_eq] at hone
        omega
    -- From two groups on, the last two are an `ls32`; their number selects the alternative.
    obtain ⟨k, hk⟩ := Nat.exists_eq_add_of_le' (show 2 ≤ ns.length by omega)
    obtain ⟨a, b, ms, hs, ha, hb, rfl, rfl⟩ := hback.split_of_length hk
    have hk5 : k ≤ 5 := by omega
    interval_cases k
    · cases ha
      exact Ipv6Address.elided2 (hfront.before (by omega)) hb
    · exact Ipv6Address.elided3 (hfront.before (by omega)) ha hb
    · exact Ipv6Address.elided4 (hfront.before (by omega)) ha hb
    · exact Ipv6Address.elided5 (hfront.before (by omega)) ha hb
    · exact Ipv6Address.elided6 (hfront.before (by omega)) ha hb
    · obtain rfl : ls = [] := List.length_eq_zero_iff.mp (by omega)
      rcases hfront with ⟨rfl, -⟩ | hfront
      · exact Ipv6Address.elided7 ha hb
      · cases hfront

end Library
