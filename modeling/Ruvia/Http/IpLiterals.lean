import Ruvia.Http.UriGrammar
import Ruvia.Library.IpGrammar

/-!
# `Http.IpLiterals` — the address parsers and their grammar

`parseIpv4Address` and `parseIpv6Address` read from left to right and count; the rules of the grammar say how a text
may be cut. Each loop of the parsers gets one lemma that says which cut it finds (`readIpv4Octet_iff`), and the loop
over the groups is compared with the groups between colons (`groupsRead_of_parse`).
-/

namespace Ruvia.Http

open Library

/-! ## Digits -/

variable {byte : UInt8}

theorem isDigit_iff : isDigit byte = true ↔ Digit byte (byte.toNat - 0x30) := by
  simp only [isDigit, Digit, Bool.and_eq_true, decide_eq_true_eq, UInt8.le_iff_toNat_le, UInt8.reduceToNat]
  omega

variable {n : Nat}

theorem digit_eq (h : Digit byte n) : isDigit byte = true ∧ n = byte.toNat - 0x30 := by
  obtain ⟨hlt, hbyte⟩ := h
  have hn : n = byte.toNat - 0x30 := by omega
  exact ⟨isDigit_iff.mpr ⟨by omega, by omega⟩, hn⟩

theorem httpDecodeHexNibble_iff : httpDecodeHexNibble byte = some n ↔ HexDigit byte n := by
  unfold httpDecodeHexNibble HexDigit
  simp only [isDigit, Bool.and_eq_true, decide_eq_true_eq, UInt8.le_iff_toNat_le, UInt8.reduceToNat]
  split
  · rw [Option.some.injEq]
    omega
  split
  · rw [Option.some.injEq]
    omega
  split
  · rw [Option.some.injEq]
    omega
  · rw [iff_false_left (by simp)]
    omega

/-! ## IPv4 addresses -/

/-- The number that digits go on to. -/
def octetValue (octet : Nat) (digits : Bytes) : Nat := digits.foldl (fun n b => n * 10 + (b.toNat - 0x30)) octet

theorem le_octetValue (octet : Nat) (digits : Bytes) : octet ≤ octetValue octet digits := by
  induction digits generalizing octet with
  | nil => exact Nat.le_refl octet
  | cons digit digits ih =>
    have hle : octet ≤ octet * 10 + (digit.toNat - 0x30) := by omega
    exact hle.trans (ih _)

variable {text behind : Bytes}

/-- The loop takes all the digits there are, and gives up on a fourth one or a number above 255. -/
theorem readIpv4Octet_iff {octet digits : Nat} {value count : Nat} (hoctet : octet ≤ 255) (hdigits : digits ≤ 3) :
    readIpv4Octet octet digits text = some (value, count, behind) ↔
      ∃ front, text = front ++ behind ∧ (∀ b ∈ front, isDigit b = true) ∧ (∀ b ∈ behind.head?, isDigit b = false) ∧
        value = octetValue octet front ∧ count = digits + front.length ∧ value ≤ 255 ∧ count ≤ 3 := by
  induction text generalizing octet digits with
  | nil =>
    rw [readIpv4Octet, Option.some.injEq, Prod.mk.injEq, Prod.mk.injEq]
    constructor
    · rintro ⟨rfl, rfl, rfl⟩
      exact ⟨[], rfl, nofun, nofun, rfl, rfl, hoctet, hdigits⟩
    · rintro ⟨front, htext, -, -, rfl, rfl, -, -⟩
      obtain ⟨rfl, rfl⟩ := List.append_eq_nil_iff.mp htext.symm
      exact ⟨rfl, rfl, rfl⟩
  | cons byte rest ih =>
    unfold readIpv4Octet
    by_cases hbyte : isDigit byte = true
    · rw [if_pos hbyte]
      dsimp only
      -- The first byte belongs to the digits that are taken.
      have hcut : (∃ front, byte :: rest = front ++ behind ∧ (∀ b ∈ front, isDigit b = true) ∧
            (∀ b ∈ behind.head?, isDigit b = false) ∧ value = octetValue octet front ∧
            count = digits + front.length ∧ value ≤ 255 ∧ count ≤ 3) ↔
          ∃ front, rest = front ++ behind ∧ (∀ b ∈ front, isDigit b = true) ∧
            (∀ b ∈ behind.head?, isDigit b = false) ∧
            value = octetValue (octet * 10 + (byte.toNat - 0x30)) front ∧
            count = digits + 1 + front.length ∧ value ≤ 255 ∧ count ≤ 3 := by
        constructor
        · rintro ⟨front, htext, hfront, hbehind, hvalue, hcount, hbounds⟩
          cases front with
          | nil =>
            have := hbehind byte (by rw [← List.nil_append behind, ← htext]; rfl)
            rw [hbyte] at this
            cases this
          | cons first front =>
            rw [List.cons_append, List.cons_eq_cons] at htext
            obtain ⟨rfl, htext⟩ := htext
            refine ⟨front, htext, fun b hb => hfront b (List.mem_cons_of_mem _ hb), hbehind, hvalue, ?_, hbounds⟩
            rw [hcount, List.length_cons]
            omega
        · rintro ⟨front, rfl, hfront, hbehind, hvalue, hcount, hbounds⟩
          refine ⟨byte :: front, rfl, ?_, hbehind, hvalue, ?_, hbounds⟩
          · intro b hb
            rcases List.mem_cons.mp hb with rfl | hb
            · exact hbyte
            · exact hfront b hb
          · rw [hcount, List.length_cons]
            omega
      rw [hcut]
      split
      · rename_i hstop
        refine iff_of_false nofun ?_
        rintro ⟨front, -, -, -, hvalue, hcount, hle, hthree⟩
        have := le_octetValue (octet * 10 + (byte.toNat - 0x30)) front
        omega
      · rename_i hgo
        exact ih (by omega) (by omega)
    · rw [if_neg hbyte, Option.some.injEq, Prod.mk.injEq, Prod.mk.injEq]
      constructor
      · rintro ⟨rfl, rfl, rfl⟩
        refine ⟨[], rfl, nofun, ?_, rfl, rfl, hoctet, hdigits⟩
        intro b hb
        obtain rfl := Option.some.inj hb
        simpa using hbyte
      · rintro ⟨front, htext, hfront, -, rfl, rfl, -, -⟩
        cases front with
        | nil => exact ⟨rfl, rfl, htext⟩
        | cons first front =>
          rw [List.cons_append, List.cons_eq_cons] at htext
          rw [htext.1] at hbyte
          exact absurd (hfront _ List.mem_cons_self) hbyte

/-- A byte is recovered from the digit it stands for. -/
theorem eq_of_digit (literal : UInt8) (h : Digit byte n) (hliteral : literal.toNat = 0x30 + n) :
    byte = literal := UInt8.toNat_inj.mp (by rw [h.2, hliteral])

/-- **`dec-octet`**: one to three digits for a number up to 255, and a leading zero only by itself. -/
theorem decOctet_iff :
    DecOctet text n ↔ text ≠ [] ∧ text.length ≤ 3 ∧ (∀ b ∈ text, isDigit b = true) ∧ n = octetValue 0 text ∧ n ≤ 255 ∧
      ¬ (1 < text.length ∧ text.head? = some 0x30) := by
  have hone : isDigit 0x31 = true := by decide
  have htwo : isDigit 0x32 = true := by decide
  have hfive : isDigit 0x35 = true := by decide
  constructor
  · intro h
    cases h with
    | one ha =>
      obtain ⟨hdigit, hi⟩ := digit_eq ha
      have := ha.1
      refine ⟨by simp, by simp, by simpa using hdigit, by simp [octetValue, hi], by omega, by simp⟩
    | @two a b i j ha hi hb =>
      obtain ⟨hdigit, hi'⟩ := digit_eq ha
      obtain ⟨hdigit', hj⟩ := digit_eq hb
      have := ha.1
      have := hb.1
      have hzero : a ≠ 0x30 := by
        rintro rfl
        simp only [UInt8.reduceToNat] at hi'
        omega
      refine ⟨by simp, by simp, by simp [hdigit, hdigit'], ?_, by omega, by simp [hzero]⟩
      simp only [octetValue, List.foldl_cons, List.foldl_nil]
      omega
    | hundred hb hc =>
      obtain ⟨hdigit, hj⟩ := digit_eq hb
      obtain ⟨hdigit', hk⟩ := digit_eq hc
      have := hb.1
      have := hc.1
      refine ⟨by simp, by simp, by simp [hdigit, hdigit', hone], ?_, by omega, by simp⟩
      simp only [octetValue, List.foldl_cons, List.foldl_nil, UInt8.reduceToNat]
      omega
    | twoHundred hb hle hc =>
      obtain ⟨hdigit, hj⟩ := digit_eq hb
      obtain ⟨hdigit', hk⟩ := digit_eq hc
      have := hc.1
      refine ⟨by simp, by simp, by simp [hdigit, hdigit', htwo], ?_, by omega, by simp⟩
      simp only [octetValue, List.foldl_cons, List.foldl_nil, UInt8.reduceToNat]
      omega
    | twoFifty hc hle =>
      obtain ⟨hdigit, hk⟩ := digit_eq hc
      refine ⟨by simp, by simp, by simp [hdigit, htwo, hfive], ?_, by omega, by simp⟩
      simp only [octetValue, List.foldl_cons, List.foldl_nil, UInt8.reduceToNat]
      omega
  · rintro ⟨hne, hlength, hdigits, hn, hle, hzero⟩
    match text with
    | [a] =>
      have ha := isDigit_iff.mp (hdigits a (by simp))
      have hvalue : n = a.toNat - 0x30 := by simpa [octetValue] using hn
      rw [hvalue]
      exact DecOctet.one ha
    | [a, b] =>
      have ha := isDigit_iff.mp (hdigits a (by simp))
      have hb := isDigit_iff.mp (hdigits b (by simp))
      have hvalue : n = 10 * (a.toNat - 0x30) + (b.toNat - 0x30) := by
        rw [hn]
        simp only [octetValue, List.foldl_cons, List.foldl_nil]
        omega
      have hlead : a ≠ 0x30 := by simpa using hzero
      rw [hvalue]
      refine DecOctet.two ha ?_ hb
      by_contra hsmall
      exact hlead (eq_of_digit 0x30 ha (by show 0x30 = _; omega))
    | [a, b, c] =>
      have ha := isDigit_iff.mp (hdigits a (by simp))
      have hb := isDigit_iff.mp (hdigits b (by simp))
      have hc := isDigit_iff.mp (hdigits c (by simp))
      have hvalue : n = 100 * (a.toNat - 0x30) + 10 * (b.toNat - 0x30) + (c.toNat - 0x30) := by
        rw [hn]
        simp only [octetValue, List.foldl_cons, List.foldl_nil]
        omega
      have hlead : a ≠ 0x30 := by simpa using hzero
      have hpos : a.toNat - 0x30 ≠ 0 := fun h => hlead (eq_of_digit 0x30 ha (by rw [h]; rfl))
      rw [hvalue]
      generalize a.toNat - 0x30 = i at ha hpos hvalue ⊢
      generalize b.toNat - 0x30 = j at hb hvalue ⊢
      generalize c.toNat - 0x30 = k at hc hvalue ⊢
      -- The number is at most 255, so the first digit is 1 or 2.
      obtain rfl | rfl : i = 1 ∨ i = 2 := by omega
      · rw [eq_of_digit 0x31 ha rfl]
        exact DecOctet.hundred hb hc
      · rw [eq_of_digit 0x32 ha rfl]
        rcases Nat.lt_or_ge j 5 with hj | hj
        · exact DecOctet.twoHundred hb (by omega) hc
        · obtain rfl : j = 5 := by omega
          rw [eq_of_digit 0x35 hb rfl]
          exact DecOctet.twoFifty hc (by omega)

/-- Octets between dots. -/
inductive OctetText : Nat → Bytes → List Nat → Prop where
  | last {text : Bytes} {n : Nat} : DecOctet text n → OctetText 0 text [n]
  | cons {parts n : Nat} {text rest : Bytes} {ns : List Nat} :
      DecOctet text n → OctetText parts rest ns → OctetText (parts + 1) (text ++ dot :: rest) (n :: ns)

variable {octets : List Nat}

theorem ipv4Address_iff : Ipv4Address text octets ↔ OctetText 3 text octets := by
  constructor
  · intro h
    cases h with
    | octets ha hb hc hd =>
      have h := OctetText.cons ha (OctetText.cons hb (OctetText.cons hc (OctetText.last hd)))
      simpa [List.append_assoc] using! h
  · intro h
    cases h with
    | cons ha h =>
      cases h with
      | cons hb h =>
        cases h with
        | cons hc h =>
          cases h with
          | last hd =>
            have h := Ipv4Address.octets ha hb hc hd
            simpa [List.append_assoc] using! h

/-- One octet in front of a byte that is no digit: the three checks of the parser are those of the grammar. -/
theorem readIpv4Octet_decOctet {first : UInt8} {rest : Bytes} {value count : Nat} :
    (isDigit first = true ∧ readIpv4Octet 0 0 (first :: rest) = some (value, count, behind) ∧
        ¬ (1 < count ∧ first = 0x30)) ↔
      ∃ front, first :: rest = front ++ behind ∧ DecOctet front value ∧ count = front.length ∧
        ∀ b ∈ behind.head?, isDigit b = false := by
  rw [readIpv4Octet_iff (Nat.zero_le _) (Nat.zero_le _)]
  constructor
  · rintro ⟨hfirst, ⟨front, htext, hdigits, hbehind, hvalue, hcount, hle, hthree⟩, hzero⟩
    rw [Nat.zero_add] at hcount
    refine ⟨front, htext, decOctet_iff.mpr ⟨?_, by omega, hdigits, hvalue, hle, ?_⟩, hcount, hbehind⟩
    · rintro rfl
      have := hbehind first (by rw [← List.nil_append behind, ← htext]; rfl)
      rw [hfirst] at this
      cases this
    · rintro ⟨hlong, hhead⟩
      obtain ⟨tail, rfl⟩ := List.head?_eq_some_iff.mp hhead
      rw [List.cons_append, List.cons_eq_cons] at htext
      exact hzero ⟨by omega, htext.1⟩
  · rintro ⟨front, htext, hoctet, hcount, hbehind⟩
    obtain ⟨hne, hthree, hdigits, hvalue, hle, hzero⟩ := decOctet_iff.mp hoctet
    obtain ⟨head, tail, rfl⟩ := List.exists_cons_of_ne_nil hne
    have hhead : first = head := by
      rw [List.cons_append, List.cons_eq_cons] at htext
      exact htext.1
    refine ⟨?_, ⟨_, htext, hdigits, hbehind, hvalue, by omega, hle, by omega⟩, ?_⟩
    · rw [hhead]
      exact hdigits head List.mem_cons_self
    · rintro ⟨hlong, hfirst⟩
      exact hzero ⟨by omega, by rw [← hhead, hfirst]; rfl⟩

/-- The parser finds the one cut behind its first octet. -/
theorem parseIpv4Parts_cut {parts : Nat} :
    parseIpv4Parts parts text = some octets ↔
      ∃ front value behind, text = front ++ behind ∧ DecOctet front value ∧ (∀ b ∈ behind.head?, isDigit b = false) ∧
        ((parts = 0 ∧ behind = [] ∧ octets = [value]) ∨
          ∃ left next values, parts = left + 1 ∧ behind = dot :: next ∧ parseIpv4Parts left next = some values ∧
            octets = value :: values) := by
  cases text with
  | nil =>
    rw [parseIpv4Parts]
    refine iff_of_false nofun ?_
    rintro ⟨front, value, behind, htext, hoctet, -⟩
    obtain ⟨rfl, -⟩ := List.append_eq_nil_iff.mp htext.symm
    cases hoctet
  | cons first rest =>
    -- Any cut of the text is the one that the reader found.
    have hread : ∀ {front value behind}, first :: rest = front ++ behind → DecOctet front value →
        (∀ b ∈ behind.head?, isDigit b = false) →
          isDigit first = true ∧ readIpv4Octet 0 0 (first :: rest) = some (value, front.length, behind) ∧
            ¬ (1 < front.length ∧ first = 0x30) := fun htext hoctet hbehind =>
      readIpv4Octet_decOctet.mpr ⟨_, htext, hoctet, rfl, hbehind⟩
    rw [parseIpv4Parts]
    by_cases hfirst : isDigit first = true
    · rw [if_neg (by rw [hfirst]; decide)]
      cases hresult : readIpv4Octet 0 0 (first :: rest) with
      | none =>
        refine iff_of_false nofun ?_
        rintro ⟨front, value, behind, htext, hoctet, hbehind, -⟩
        have := (hread htext hoctet hbehind).2.1
        rw [hresult] at this
        cases this
      | some result =>
        obtain ⟨value, count, behind⟩ := result
        dsimp only
        by_cases hzero : 1 < count ∧ first = 0x30
        · rw [if_pos hzero]
          refine iff_of_false nofun ?_
          rintro ⟨front, value', behind', htext, hoctet, hbehind, -⟩
          obtain ⟨-, hsome, hzero'⟩ := hread htext hoctet hbehind
          rw [hresult, Option.some.injEq, Prod.mk.injEq, Prod.mk.injEq] at hsome
          rw [hsome.2.1] at hzero
          exact hzero' hzero
        · rw [if_neg hzero]
          obtain ⟨front, htext, hoctet, hcount, hbehind⟩ := readIpv4Octet_decOctet.mp ⟨hfirst, hresult, hzero⟩
          have hunique : ∀ {front' value' behind'}, first :: rest = front' ++ behind' → DecOctet front' value' →
              (∀ b ∈ behind'.head?, isDigit b = false) → value' = value ∧ behind' = behind := by
            intro front' value' behind' htext' hoctet' hbehind'
            have hsome := (hread htext' hoctet' hbehind').2.1
            rw [hresult, Option.some.injEq, Prod.mk.injEq, Prod.mk.injEq] at hsome
            exact ⟨hsome.1.symm, hsome.2.2.symm⟩
          cases parts with
          | zero =>
            dsimp only
            constructor
            · intro h
              split at h
              · rename_i hempty
                exact ⟨front, value, behind, htext, hoctet, hbehind,
                  Or.inl ⟨rfl, List.isEmpty_iff.mp hempty, (Option.some.inj h).symm⟩⟩
              · cases h
            · rintro ⟨front', value', behind', htext', hoctet', hbehind', ⟨-, hnil, rfl⟩ | ⟨_, _, _, hleft, -⟩⟩
              · obtain ⟨rfl, rfl⟩ := hunique htext' hoctet' hbehind'
                rw [if_pos (List.isEmpty_iff.mpr hnil)]
              · cases hleft
          | succ left =>
            constructor
            · intro h
              cases behind with
              | nil => cases h
              | cons mark next =>
                dsimp only at h
                split at h
                · rename_i hmark
                  obtain ⟨values, hvalues, rfl⟩ := Option.map_eq_some_iff.mp h
                  exact ⟨front, value, mark :: next, htext, hoctet, hbehind,
                    Or.inr ⟨left, next, values, rfl, by rw [hmark], hvalues, rfl⟩⟩
                · cases h
            · rintro ⟨front', value', behind', htext', hoctet', hbehind', ⟨hzero', -⟩ |
                ⟨left', next, values, hleft, hmark, hvalues, rfl⟩⟩
              · cases hzero'
              · obtain rfl : left = left' := by omega
                obtain ⟨rfl, rfl⟩ := hunique htext' hoctet' hbehind'
                subst hmark
                dsimp only
                rw [if_pos rfl, hvalues]
                rfl
    · rw [if_pos (by simpa using hfirst)]
      refine iff_of_false nofun ?_
      rintro ⟨front, value, behind, htext, hoctet, hbehind, -⟩
      exact hfirst (hread htext hoctet hbehind).1

/-- **The octets that are left** are read as the grammar cuts them. -/
theorem parseIpv4Parts_iff {parts : Nat} : parseIpv4Parts parts text = some octets ↔ OctetText parts text octets := by
  have hdot : isDigit dot = false := by decide
  induction parts generalizing text octets with
  | zero =>
    rw [parseIpv4Parts_cut]
    constructor
    · rintro ⟨front, value, behind, rfl, hoctet, -, ⟨-, rfl, rfl⟩ | ⟨left, _, _, hleft, -⟩⟩
      · rw [List.append_nil]
        exact OctetText.last hoctet
      · omega
    · intro h
      cases h with
      | last hoctet =>
        exact ⟨text, _, [], (List.append_nil _).symm, hoctet, nofun, Or.inl ⟨rfl, rfl, rfl⟩⟩
  | succ parts ih =>
    rw [parseIpv4Parts_cut]
    constructor
    · rintro ⟨front, value, behind, rfl, hoctet, -, ⟨hzero, -⟩ | ⟨left, next, values, hleft, rfl, hnext, rfl⟩⟩
      · omega
      · obtain rfl : parts = left := by omega
        exact OctetText.cons hoctet (ih.mp hnext)
    · intro h
      cases h with
      | cons hoctet hrest =>
        refine ⟨_, _, _, rfl, hoctet, ?_, Or.inr ⟨parts, _, _, rfl, rfl, ih.mpr hrest, rfl⟩⟩
        intro b hb
        obtain rfl := Option.some.inj hb
        exact hdot

/-- **`parse_ipv4_address`** accepts the texts of `IPv4address`, and answers the octets that they denote. -/
theorem parseIpv4Address_iff : parseIpv4Address text = some octets ↔ Ipv4Address text octets := by
  rw [parseIpv4Address, parseIpv4Parts_iff, ipv4Address_iff]

/-! ## Groups -/

theorem hexDigits_iff :
    HexDigits text n ↔ (∀ b ∈ text, (httpDecodeHexNibble b).isSome) ∧
      n = text.foldl (fun n b => n * 16 + (httpDecodeHexNibble b).getD 0) 0 := by
  constructor
  · intro h
    induction h with
    | nil => exact ⟨nofun, rfl⟩
    | snoc _ hbyte ih =>
      obtain ⟨hdigits, hvalue⟩ := ih
      have hnibble := httpDecodeHexNibble_iff.mpr hbyte
      refine ⟨?_, ?_⟩
      · intro b hb
        rcases List.mem_append.mp hb with hb | hb
        · exact hdigits b hb
        · rw [List.mem_singleton.mp hb, hnibble]
          rfl
      · rw [List.foldl_append, ← hvalue, List.foldl_cons, List.foldl_nil, hnibble, Option.getD_some, Nat.mul_comm]
  · rintro ⟨hdigits, rfl⟩
    induction text using List.reverseRecOn with
    | nil => exact HexDigits.nil
    | append_singleton text byte ih =>
      obtain ⟨m, hm⟩ := Option.isSome_iff_exists.mp (hdigits byte (by simp))
      have htext := ih fun b hb => hdigits b (List.mem_append_left _ hb)
      have hsnoc := HexDigits.snoc htext (httpDecodeHexNibble_iff.mp hm)
      rw [List.foldl_append, List.foldl_cons, List.foldl_nil, hm, Option.getD_some, Nat.mul_comm]
      exact hsnoc

/-- A group in front of a byte that is no digit is read. -/
theorem parseIpv6HexGroup_append (h : H16 text n) (hbehind : ∀ b ∈ behind.head?, httpDecodeHexNibble b = none) :
    parseIpv6HexGroup (text ++ behind) = some (n, behind) := by
  obtain ⟨hpos, hlength, hdigits⟩ := h
  obtain ⟨hnibbles, hvalue⟩ := hexDigits_iff.mp hdigits
  have htake : ((text ++ behind).take 4).takeWhile (fun b => (httpDecodeHexNibble b).isSome) = text := by
    rw [List.take_append, List.take_of_length_le hlength, List.takeWhile_append_of_pos (by simpa using hnibbles)]
    cases behind with
    | nil => simp
    | cons byte rest =>
      have hbyte := hbehind byte rfl
      cases 4 - text.length with
      | zero => simp
      | succ k => simp [hbyte]
  unfold parseIpv6HexGroup
  rw [htake, if_neg, List.drop_left, ← hvalue]
  simpa using List.ne_nil_of_length_pos hpos

/-- What is read is a group. -/
theorem h16_of_parseIpv6HexGroup {literal : Bytes} (h : parseIpv6HexGroup literal = some (n, behind)) :
    ∃ text, literal = text ++ behind ∧ H16 text n := by
  unfold parseIpv6HexGroup at h
  dsimp only at h
  split at h
  · cases h
  · rename_i hne
    rw [Option.some.injEq, Prod.mk.injEq] at h
    obtain ⟨hvalue, hbehind⟩ := h
    have hfront : (literal.take 4).takeWhile (fun b => (httpDecodeHexNibble b).isSome) <+: literal :=
      (List.takeWhile_prefix _).trans (List.take_prefix 4 literal)
    refine ⟨_, ?_, ?_, ?_, hexDigits_iff.mpr ⟨?_, hvalue.symm⟩⟩
    · rw [← hbehind, List.prefix_iff_eq_append.mp hfront]
    · exact List.length_pos_of_ne_nil (by simpa using hne)
    · have := (List.takeWhile_prefix (l := literal.take 4) fun b => (httpDecodeHexNibble b).isSome).length_le
      rw [List.length_take] at this
      omega
    · intro b hb
      simpa using List.mem_takeWhile_imp hb

/-! ## One round of the group loop -/

theorem nibble_colon : httpDecodeHexNibble colon = none := by decide

theorem nibble_dot : httpDecodeHexNibble dot = none := by decide

theorem not_mem_of_h16 (h : H16 text n) {mark : UInt8} (hmark : httpDecodeHexNibble mark = none) : mark ∉ text := by
  intro hmem
  have := (hexDigits_iff.mp h.2.2).1 mark hmem
  rw [hmark] at this
  cases this

/-- Behind a group comes its colon or nothing, so no dot is next. -/
theorem findByte_of_h16 (h : H16 text n) (hbehind : ∀ b ∈ behind.head?, b = colon) :
    findByte dot (text ++ behind) 0 = none ∨
      ∃ c, findByte colon (text ++ behind) 0 = some c ∧ ∀ d, findByte dot (text ++ behind) 0 = some d → ¬ d < c := by
  have hdot : dot ∉ text := not_mem_of_h16 h nibble_dot
  have hcolon : colon ∉ text := not_mem_of_h16 h nibble_colon
  cases behind with
  | nil =>
    left
    rw [List.append_nil, findByte_eq_none_iff]
    intro j _ hj
    exact hdot (List.mem_of_getElem? hj)
  | cons mark rest =>
    right
    obtain rfl := hbehind mark rfl
    refine ⟨text.length, findByte_eq_some_iff.mpr ⟨Nat.zero_le _, ?_, ?_⟩, ?_⟩
    · rw [List.getElem?_append_right (Nat.le_refl _), Nat.sub_self]
      rfl
    · intro j _ hj hget
      rw [List.getElem?_append_left hj] at hget
      exact hcolon (List.mem_of_getElem? hget)
    · intro d hd hlt
      have hget := (findByte_eq_some_iff.mp hd).2.1
      rw [List.getElem?_append_left hlt] at hget
      exact hdot (List.mem_of_getElem? hget)

theorem decOctet_byte (h : DecOctet text n) : colon ∉ text := by
  intro hmem
  exact absurd ((decOctet_iff.mp h).2.2.1 colon hmem) (by decide)

/-- An IPv4 address starts with a digit, has a dot and has no colon. -/
theorem ipv4Address_shape (h : Ipv4Address text octets) :
    (∃ first rest, text = first :: rest ∧ isDigit first = true) ∧ (∃ d, findByte dot text 0 = some d) ∧
      findByte colon text 0 = none := by
  cases h with
  | @octets a b c d _ _ _ _ ha hb hc hd =>
    refine ⟨?_, ?_, ?_⟩
    · obtain ⟨hne, -, hdigits, -⟩ := decOctet_iff.mp ha
      obtain ⟨first, rest, rfl⟩ := List.exists_cons_of_ne_nil hne
      exact ⟨first, _, rfl, hdigits first List.mem_cons_self⟩
    · rw [← Option.ne_none_iff_exists']
      intro hnone
      have hdot : dot ∈ a ++ lit "." ++ b ++ lit "." ++ c ++ lit "." ++ d := by
        have : dot ∈ lit "." := by decide
        simp [this]
      obtain ⟨j, hj⟩ := List.getElem?_of_mem hdot
      exact findByte_eq_none_iff.mp hnone j (Nat.zero_le j) hj
    · rw [findByte_eq_none_iff]
      intro j _ hj
      have hmem := List.mem_of_getElem? hj
      simp only [List.mem_append] at hmem
      have := decOctet_byte ha
      have := decOctet_byte hb
      have := decOctet_byte hc
      have := decOctet_byte hd
      have : colon ∉ lit "." := by decide
      tauto

section

variable {fuel n : Nat} {groups : List Nat} {compression : Option Nat} {text : Bytes}

/-- What the loop does behind a group. -/
def behindGroup (fuel : Nat) (groups : List Nat) (compression : Option Nat) :
    Bytes → Option (List Nat × Option Nat)
  | [] => some (groups, compression)
  | c :: next =>
    if c ≠ colon then none
    else
      match next with
      | [] => none
      | c' :: next' =>
        if c' = colon then
          if compression.isSome then none else parseIpv6Groups fuel groups (some groups.length) next'
        else parseIpv6Groups fuel groups compression next

/-- A group is read, and the loop goes on behind it. -/
theorem parseIpv6Groups_h16 {behind : Bytes} (h : H16 text n) (hbehind : ∀ b ∈ behind.head?, b = colon)
    (hroom : groups.length ≠ 8) :
    parseIpv6Groups (fuel + 1) groups compression (text ++ behind) =
      behindGroup fuel (groups ++ [n]) compression behind := by
  have hgroup : parseIpv6HexGroup (text ++ behind) = some (n, behind) := by
    apply parseIpv6HexGroup_append h
    intro b hb
    rw [hbehind b hb]
    exact nibble_colon
  have hnext := findByte_of_h16 h hbehind
  obtain ⟨first, rest, hcons⟩ := List.exists_cons_of_ne_nil (List.ne_nil_of_length_pos h.1)
  rw [hcons, List.cons_append] at hgroup hnext ⊢
  unfold parseIpv6Groups
  dsimp only
  rw [if_neg hroom]
  rcases hnext with hdot | ⟨c, hcolon, hbehindColon⟩
  · simp only [hdot, hgroup, Bool.and_false, Bool.false_eq_true, if_false]
    rfl
  · cases hdot : findByte dot (first :: (rest ++ behind)) 0 with
    | none =>
      simp only [hgroup, Bool.and_false, Bool.false_eq_true, if_false]
      rfl
    | some d =>
      have hlt : decide (d < c) = false := by simpa using hbehindColon d hdot
      simp only [hcolon, hlt, hgroup, Bool.and_false, Bool.false_eq_true, if_false]
      rfl

/-- An IPv4 address is read to its end. -/
theorem parseIpv6Groups_ipv4 {i j k l : Nat} (h : Ipv4Address text [i, j, k, l]) (hroom : groups.length ≤ 6) :
    parseIpv6Groups (fuel + 1) groups compression text =
      some (groups ++ [i * 256 + j, k * 256 + l], compression) := by
  obtain ⟨⟨first, rest, rfl, hfirst⟩, ⟨d, hd⟩, hcolon⟩ := ipv4Address_shape h
  have hparse := parseIpv4Address_iff.mpr h
  unfold parseIpv6Groups
  dsimp only
  rw [if_neg (by omega)]
  simp only [hd, hcolon, hfirst, hparse, Bool.and_self, if_true]
  rw [if_neg (by omega)]

/-- **One round**: the end of the literal, an IPv4 address, or a group and what is behind it. -/
theorem parseIpv6Groups_cases {literal : Bytes} {result : List Nat × Option Nat}
    (h : parseIpv6Groups (fuel + 1) groups compression literal = some result) :
    (literal = [] ∧ result = (groups, compression)) ∨
      (literal ≠ [] ∧ groups.length ≠ 8 ∧
        ((∃ i j k l, Ipv4Address literal [i, j, k, l] ∧ groups.length ≤ 6 ∧
            result = (groups ++ [i * 256 + j, k * 256 + l], compression)) ∨
          ∃ text n behind, literal = text ++ behind ∧ H16 text n ∧
            behindGroup fuel (groups ++ [n]) compression behind = some result)) := by
  unfold parseIpv6Groups at h
  cases literal with
  | nil =>
    left
    exact ⟨rfl, (Option.some.inj h).symm⟩
  | cons first rest =>
    right
    dsimp only at h
    split at h
    · cases h
    rename_i hroom
    refine ⟨List.cons_ne_nil _ _, hroom, ?_⟩
    rcases ite_eq_iff.mp h with ⟨-, h⟩ | ⟨-, h⟩
    · left
      split at h
      · rename_i i j k l hparse
        split at h
        · cases h
        · exact ⟨i, j, k, l, parseIpv4Address_iff.mp hparse, by omega, (Option.some.inj h).symm⟩
      · cases h
    · right
      cases hgroup : parseIpv6HexGroup (first :: rest) with
      | none =>
        rw [hgroup] at h
        cases h
      | some read =>
        obtain ⟨n, behind⟩ := read
        obtain ⟨text, htext, hn⟩ := h16_of_parseIpv6HexGroup hgroup
        rw [hgroup] at h
        exact ⟨text, n, behind, htext, hn, h⟩

end

/-! ## The group loop -/

/-- What the loop has read behind `groups`: groups to the end of the literal, or groups around the first `::`. -/
def GroupsRead (groups : List Nat) (compression : Option Nat) (literal : Bytes) (out : List Nat) (mark : Option Nat) :
    Prop :=
  (∃ ns, Back literal ns ∧ groups.length + ns.length ≤ 8 ∧ out = groups ++ ns ∧ mark = compression) ∨
    (compression = none ∧ ∃ p q ls ns, HexText p ls ∧ Back q ns ∧ literal = p ++ lit "::" ++ q ∧
      groups.length + (ls.length + ns.length) ≤ 8 ∧ out = groups ++ (ls ++ ns) ∧
        mark = some (groups.length + ls.length))

section

variable {fuel n : Nat} {groups out : List Nat} {compression mark : Option Nat} {text behind : Bytes}

/-- The loop's answer behind a group. -/
theorem groupsRead_of_behindGroup (h : H16 text n) (hroom : groups.length < 8)
    (ih : ∀ {groups compression literal}, groups.length ≤ 8 →
      parseIpv6Groups fuel groups compression literal = some (out, mark) →
        GroupsRead groups compression literal out mark)
    (hbehind : behindGroup fuel (groups ++ [n]) compression behind = some (out, mark)) :
    GroupsRead groups compression (text ++ behind) out mark := by
  have hlength : (groups ++ [n]).length = groups.length + 1 := by rw [List.length_append, List.length_singleton]
  cases behind with
  | nil =>
    rw [behindGroup, Option.some.injEq, Prod.mk.injEq] at hbehind
    rw [List.append_nil]
    exact Or.inl ⟨[n], Or.inr (GroupText.last h), hroom, hbehind.1.symm, hbehind.2.symm⟩
  | cons c next =>
    change (if c ≠ colon then none else _) = some (out, mark) at hbehind
    split at hbehind
    · cases hbehind
    rename_i hcolon
    rw [not_not] at hcolon
    subst hcolon
    cases next with
    | nil => cases hbehind
    | cons c' next' =>
      dsimp only at hbehind
      split at hbehind
      · rename_i helided
        subst helided
        split at hbehind
        · cases hbehind
        · rename_i hnone
          have hnone : compression = none := by simpa using hnone
          rcases ih (by omega) hbehind with ⟨ns, hback, hle, hout, hmark⟩ | ⟨hcompression, -⟩
          · refine Or.inr ⟨hnone, text, next', [n], ns, HexText.last h, hback, ?_, ?_, ?_, ?_⟩
            · rw [List.append_assoc]
              rfl
            · rw [hlength] at hle
              rw [List.length_singleton]
              omega
            · rw [hout, List.append_assoc]
            · rw [hmark, hlength, List.length_singleton]
          · cases hcompression
      · rename_i hother
        rcases ih (by omega) hbehind with ⟨ns, hback, hle, hout, hmark⟩ |
          ⟨hnone, p, q, ls, ns, hp, hq, hsplit, hle, hout, hmark⟩
        · rcases hback with ⟨hnil, -⟩ | hback
          · cases hnil
          · refine Or.inl ⟨n :: ns, Or.inr ?_, ?_, ?_, hmark⟩
            · have hcons := GroupText.cons h hback
              rwa [List.append_assoc] at hcons
            · rw [hlength] at hle
              rw [List.length_cons]
              omega
            · rw [hout, List.append_assoc]
              rfl
        · refine Or.inr ⟨hnone, _, q, n :: ls, ns, HexText.cons h hp, hq, ?_, ?_, ?_, ?_⟩
          · rw [hsplit]
            simp only [List.append_assoc]
            rfl
          · rw [hlength] at hle
            rw [List.length_cons]
            omega
          · rw [hout, List.append_assoc]
            rfl
          · rw [hmark, hlength, List.length_cons]
            congr 1
            omega

/-- The loop gives what the grammar allows. -/
theorem groupsRead_of_parse (hgroups : groups.length ≤ 8) {literal : Bytes}
    (h : parseIpv6Groups fuel groups compression literal = some (out, mark)) :
    GroupsRead groups compression literal out mark := by
  induction fuel generalizing groups compression literal with
  | zero =>
    cases h
  | succ fuel ih =>
    rcases parseIpv6Groups_cases h with ⟨rfl, hresult⟩ | ⟨-, hroom, ⟨i, j, k, l, hipv4, hsix, hresult⟩ |
      ⟨text, n, behind, rfl, hn, hbehind⟩⟩
    · obtain ⟨rfl, rfl⟩ := Prod.mk.inj hresult
      exact Or.inl ⟨[], Or.inl ⟨rfl, rfl⟩, hgroups, (List.append_nil _).symm, rfl⟩
    · obtain ⟨rfl, rfl⟩ := Prod.mk.inj hresult
      exact Or.inl ⟨_, Or.inr (GroupText.ipv4 hipv4), Nat.add_le_add_right hsix 2, rfl, rfl⟩
    · exact groupsRead_of_behindGroup hn (by omega) (fun hgroups h => ih hgroups h) hbehind

theorem h16_head (h : H16 text n) : ∃ first rest, text = first :: rest ∧ first ≠ colon := by
  obtain ⟨first, rest, rfl⟩ := List.exists_cons_of_ne_nil (List.ne_nil_of_length_pos h.1)
  refine ⟨first, rest, rfl, ?_⟩
  rintro rfl
  exact not_mem_of_h16 h nibble_colon List.mem_cons_self

variable {ns : List Nat}

theorem groupText_head (h : GroupText text ns) : ∃ first rest, text = first :: rest ∧ first ≠ colon := by
  cases h with
  | last h => exact h16_head h
  | ipv4 h =>
    obtain ⟨⟨first, rest, rfl, hfirst⟩, -, -⟩ := ipv4Address_shape h
    refine ⟨first, rest, rfl, ?_⟩
    rintro rfl
    exact absurd hfirst (by decide)
  | cons h _ =>
    obtain ⟨first, rest, rfl, hne⟩ := h16_head h
    exact ⟨first, _, rfl, hne⟩

theorem hexText_head (h : HexText text ns) : ∃ first rest, text = first :: rest ∧ first ≠ colon := by
  cases h with
  | last h => exact h16_head h
  | cons h _ =>
    obtain ⟨first, rest, rfl, hne⟩ := h16_head h
    exact ⟨first, _, rfl, hne⟩

/-- A group and its colon: the loop goes on with the next group. -/
theorem parseIpv6Groups_colon (h : H16 text n) (hroom : groups.length ≠ 8)
    (hbehind : ∃ first rest, behind = first :: rest ∧ first ≠ colon) :
    parseIpv6Groups (fuel + 1) groups compression (text ++ colon :: behind) =
      parseIpv6Groups fuel (groups ++ [n]) compression behind := by
  obtain ⟨first, rest, rfl, hne⟩ := hbehind
  rw [parseIpv6Groups_h16 h (by rintro b ⟨⟩; rfl) hroom]
  change (if colon ≠ colon then none else if first = colon then _ else parseIpv6Groups _ _ _ _) = _
  rw [if_neg (by simp), if_neg hne]

/-- A group and the first `::`. -/
theorem parseIpv6Groups_elided (h : H16 text n) (hroom : groups.length ≠ 8) :
    parseIpv6Groups (fuel + 1) groups none (text ++ colon :: colon :: behind) =
      parseIpv6Groups fuel (groups ++ [n]) (some (groups.length + 1)) behind := by
  rw [parseIpv6Groups_h16 h (by rintro b ⟨⟩; rfl) hroom]
  simp [behindGroup]

theorem parse_of_groupText (h : GroupText text ns) (hfuel : text.length < fuel)
    (hroom : groups.length + ns.length ≤ 8) :
    parseIpv6Groups fuel groups compression text = some (groups ++ ns, compression) := by
  obtain ⟨fuel, rfl⟩ := Nat.exists_eq_add_one_of_ne_zero (show fuel ≠ 0 by omega)
  induction h generalizing groups fuel with
  | last h =>
    rw [List.length_singleton] at hroom
    have hround := @parseIpv6Groups_h16 fuel _ groups compression _ [] h nofun (by omega)
    rw [List.append_nil] at hround
    exact hround
  | ipv4 h =>
    rw [List.length_cons, List.length_singleton] at hroom
    exact parseIpv6Groups_ipv4 h (by omega)
  | @cons text rest n ns h hrest ih =>
    rw [List.length_cons] at hroom
    have htext := h.1
    simp only [List.length_append] at hfuel
    have hcolon : text ++ lit ":" ++ rest = text ++ colon :: rest := List.append_assoc _ _ _
    rw [hcolon, parseIpv6Groups_colon h (by omega) (groupText_head hrest)]
    obtain ⟨fuel, rfl⟩ := Nat.exists_eq_add_one_of_ne_zero (show fuel ≠ 0 by omega)
    rw [ih (by rw [List.length_append, List.length_singleton]; omega) fuel (by omega), List.append_assoc]
    rfl

theorem parse_of_back (h : Back text ns) (hfuel : text.length < fuel) (hroom : groups.length + ns.length ≤ 8) :
    parseIpv6Groups fuel groups compression text = some (groups ++ ns, compression) := by
  rcases h with ⟨rfl, rfl⟩ | h
  · obtain ⟨fuel, rfl⟩ := Nat.exists_eq_add_one_of_ne_zero (show fuel ≠ 0 by omega)
    rw [List.append_nil]
    rfl
  · exact parse_of_groupText h hfuel hroom

theorem parse_of_hexText {q : Bytes} {ls : List Nat} (h : HexText text ls) (hback : Back q ns)
    (hfuel : (text ++ lit "::" ++ q).length < fuel) (hroom : groups.length + (ls.length + ns.length) ≤ 8) :
    parseIpv6Groups fuel groups none (text ++ lit "::" ++ q) =
      some (groups ++ (ls ++ ns), some (groups.length + ls.length)) := by
  obtain ⟨fuel, rfl⟩ := Nat.exists_eq_add_one_of_ne_zero (show fuel ≠ 0 by omega)
  induction h generalizing groups fuel with
  | last h =>
    have htext := h.1
    simp only [List.length_append] at hfuel
    rw [List.length_singleton] at hroom
    rw [List.append_assoc]
    show parseIpv6Groups _ _ _ (_ ++ colon :: colon :: q) = _
    rw [parseIpv6Groups_elided h (by omega), parse_of_back hback (by omega)]
    · rw [List.append_assoc, List.length_singleton]
    · rw [List.length_append, List.length_singleton]
      omega
  | @cons text rest n ns h hrest ih =>
    rw [List.length_cons] at hroom
    have htext := h.1
    simp only [List.length_append] at hfuel
    have hcolon : text ++ lit ":" ++ rest ++ lit "::" ++ q = text ++ colon :: (rest ++ lit "::" ++ q) := by
      simp only [List.append_assoc]
      rfl
    obtain ⟨first, tail, hcons, hne⟩ := hexText_head hrest
    rw [hcolon, parseIpv6Groups_colon h (by omega) ⟨first, tail ++ lit "::" ++ q, by rw [hcons]; rfl, hne⟩]
    obtain ⟨fuel, rfl⟩ := Nat.exists_eq_add_one_of_ne_zero (show fuel ≠ 0 by omega)
    rw [ih (by rw [List.length_append, List.length_singleton]; omega) fuel (by simp only [List.length_append]; omega)]
    rw [List.append_assoc, List.length_append, List.length_singleton, List.length_cons, Nat.add_assoc,
      Nat.add_comm 1]
    rfl

end

/-! ## IPv6 addresses -/

/-- What the address parser makes of the groups that the loop has read. -/
def completed : List Nat × Option Nat → Option (List Nat)
  | (groups, none) => if groups.length = 8 then some groups else none
  | (groups, some compression) =>
    if 8 ≤ groups.length ∨ groups.length < compression then none
    else some (groups.take compression ++ List.replicate (8 - groups.length) 0 ++ groups.drop compression)

theorem completed_elided {ls ns groups : List Nat} :
    completed (ls ++ ns, some ls.length) = some groups ↔ ls.length + ns.length ≤ 7 ∧ groups = elide ls ns := by
  have hlength : (ls ++ ns).length = ls.length + ns.length := List.length_append
  rw [completed]
  by_cases h : ls.length + ns.length ≤ 7
  · rw [if_neg (by omega), List.take_left, List.drop_left, hlength, Option.some.injEq, and_iff_right h, elide]
    exact eq_comm
  · rw [if_pos (by omega)]
    exact iff_of_false nofun fun hboth => h hboth.1

/-- The parser on a text that does not start with `::`. -/
theorem parseIpv6Address_plain (hne : text ≠ []) (hfront : [colon, colon].isPrefixOf text = false) :
    parseIpv6Address text = (parseIpv6Groups (text.length + 1) [] none text).bind completed := by
  unfold parseIpv6Address
  rw [if_neg (by simpa using hne), hfront]
  simp only [Bool.false_eq_true, if_false]
  cases parseIpv6Groups (text.length + 1) [] none text with
  | none => rfl
  | some read =>
    obtain ⟨groups, mark⟩ := read
    cases mark <;> rfl

/-- The parser on a text that starts with `::`. -/
theorem parseIpv6Address_front (back : Bytes) :
    parseIpv6Address (lit "::" ++ back) =
      (parseIpv6Groups ((lit "::" ++ back).length + 1) [] (some 0) back).bind completed := by
  unfold parseIpv6Address
  have hfront : [colon, colon].isPrefixOf (lit "::" ++ back) = true := by
    show (colon == colon && (colon == colon && _)) = true
    simp
  rw [if_neg (by simp [lit]), hfront]
  simp only [if_true]
  rw [show (lit "::" ++ back).drop 2 = back from rfl]
  cases parseIpv6Groups ((lit "::" ++ back).length + 1) [] (some 0) back with
  | none => rfl
  | some read =>
    obtain ⟨groups, mark⟩ := read
    cases mark <;> rfl

theorem not_front_of_head (h : ∃ first rest, text = first :: rest ∧ first ≠ colon) :
    text ≠ [] ∧ [colon, colon].isPrefixOf text = false := by
  obtain ⟨first, rest, rfl, hne⟩ := h
  refine ⟨List.cons_ne_nil _ _, ?_⟩
  show (colon == first && _) = false
  rw [beq_eq_false_iff_ne.mpr hne.symm, Bool.false_and]

/-- **`parse_ipv6_address`** accepts the texts of `IPv6address`, and answers the groups that they denote. -/
theorem parseIpv6Address_iff {groups : List Nat} : parseIpv6Address text = some groups ↔ Ipv6Address text groups := by
  rw [ipv6Address_iff]
  constructor
  · intro h
    by_cases hne : text = []
    · subst hne
      cases h
    cases hfront : [colon, colon].isPrefixOf text with
    | true =>
      obtain ⟨back, rfl⟩ := List.isPrefixOf_iff_prefix.mp hfront
      change parseIpv6Address (lit "::" ++ back) = some groups at h
      rw [parseIpv6Address_front] at h
      obtain ⟨⟨read, mark⟩, hread, hcompleted⟩ := Option.bind_eq_some_iff.mp h
      rcases groupsRead_of_parse (by simp) hread with ⟨_, hback, -, rfl, rfl⟩ | ⟨hnone, -⟩
      · obtain ⟨hroom, rfl⟩ := (@completed_elided [] read groups).mp hcompleted
        exact Or.inr ⟨[], back, [], read, Or.inl ⟨rfl, rfl⟩, hback, hroom, rfl, rfl⟩
      · cases hnone
    | false =>
      rw [parseIpv6Address_plain hne hfront] at h
      obtain ⟨⟨read, mark⟩, hread, hcompleted⟩ := Option.bind_eq_some_iff.mp h
      rcases groupsRead_of_parse (by simp) hread with ⟨_, hback, -, rfl, rfl⟩ |
        ⟨-, p, q, ls, ns, hp, hq, rfl, -, rfl, rfl⟩
      · left
        change (if read.length = 8 then some read else none) = some groups at hcompleted
        split at hcompleted
        · rename_i height
          obtain rfl := Option.some.inj hcompleted
          exact ⟨hback.resolve_left (fun hnil => hne hnil.1), height⟩
        · cases hcompleted
      · right
        rw [List.length_nil, Nat.zero_add, List.nil_append] at hcompleted
        obtain ⟨hroom, rfl⟩ := completed_elided.mp hcompleted
        exact ⟨p, q, ls, ns, Or.inr hp, hq, hroom, rfl, rfl⟩
  · rintro (⟨h, height⟩ | ⟨p, q, ls, ns, hfront, hback, hroom, rfl, rfl⟩)
    · obtain ⟨hne, hplain⟩ := not_front_of_head (groupText_head h)
      rw [parseIpv6Address_plain hne hplain,
        parse_of_groupText h (Nat.lt_succ_self _) (by rw [List.length_nil]; omega), Option.bind_some]
      exact if_pos height
    · rcases hfront with ⟨rfl, rfl⟩ | hfront
      · rw [List.nil_append, parseIpv6Address_front,
          parse_of_back hback (by rw [List.length_append]; omega) (by rw [List.length_nil] at hroom ⊢; omega),
          Option.bind_some]
        exact (@completed_elided [] ns _).mpr ⟨hroom, rfl⟩
      · obtain ⟨first, rest, hcons, hfirst⟩ := hexText_head hfront
        have hhead : ∃ first rest, p ++ lit "::" ++ q = first :: rest ∧ first ≠ colon :=
          ⟨first, rest ++ lit "::" ++ q, by rw [hcons]; rfl, hfirst⟩
        obtain ⟨hne, hplain⟩ := not_front_of_head hhead
        rw [parseIpv6Address_plain hne hplain,
          parse_of_hexText hfront hback (Nat.lt_succ_self _) (by rw [List.length_nil]; omega), Option.bind_some]
        rw [List.length_nil, Nat.zero_add, List.nil_append]
        exact completed_elided.mpr ⟨hroom, rfl⟩

/-- **IP literals are parsed as the grammar says.** A text is accepted exactly when it derives from `IPv4address`,
    respectively `IPv6address`, and the numbers answered are those of the derivation. -/
theorem ip_literals (text : Bytes) (numbers : List Nat) :
    (parseIpv4Address text = some numbers ↔ Ipv4Address text numbers) ∧
      (parseIpv6Address text = some numbers ↔ Ipv6Address text numbers) :=
  ⟨parseIpv4Address_iff, parseIpv6Address_iff⟩

end Ruvia.Http
