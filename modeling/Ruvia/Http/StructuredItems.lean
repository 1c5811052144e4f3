import Ruvia.Http.StructuredFields

/-!
# `Http.StructuredItems` — the bare items of RFC 8941

The grammar of the six bare items, and that `item` reads one exactly: what it reads is derived (`item_sound`), and what
is derived it reads, in front of anything that can follow an item (`item_complete`).
-/

namespace Ruvia.Http

open Library

namespace HttpStructuredParser

open StructuredInput (empty peek data advance text)

/-! ## The grammar -/

inductive BareItem where
  | integer (value : Int)
  | decimal
  | string
  | token
  | byteSequence
  | boolean (value : Bool)
  deriving DecidableEq, Repr

/-- What the scanner tells of an item. -/
def BareItem.structured : BareItem → HttpStructuredItem
  | .integer value => { kind := .integer, integer := value }
  | .boolean value => { kind := .boolean, boolean := value }
  | _ => {}

/-- `least*most DIGIT`. -/
structure DigitRun (least most : Nat) (digits : Bytes) : Prop where
  least : least ≤ digits.length
  most : digits.length ≤ most
  digit : ∀ byte ∈ digits, isDigit byte = true

/-- `*chr` of `sf-string`. -/
inductive StringText : Bytes → Prop where
  | nil : StringText []
  | char {byte : UInt8} {rest : Bytes} (hrange : ¬(byte < 0x20 ∨ 0x7e < byte))
      (hplain : byte ≠ dquote ∧ byte ≠ backslash) (hrest : StringText rest) : StringText (byte :: rest)
  | pair {byte : UInt8} {rest : Bytes} (hescaped : byte = backslash ∨ byte = dquote) (hrest : StringText rest) :
      StringText (backslash :: byte :: rest)

def IsBase64Digit (byte : UInt8) : Prop := httpBase64DecodeChar byte ≠ none

/-- The bare items of RFC 8941; of the padding of a byte sequence, any part may be missing. -/
inductive IsBareItem : Bytes → BareItem → Prop where
  | integer {digits : Bytes} (hdigits : DigitRun 1 15 digits) : IsBareItem digits (.integer (decimalValue digits))
  | negative {digits : Bytes} (hdigits : DigitRun 1 15 digits) :
      IsBareItem (hyphen :: digits) (.integer (-(decimalValue digits : Int)))
  | decimal {sign digits fraction : Bytes} (hsign : sign = [] ∨ sign = [hyphen]) (hdigits : DigitRun 1 12 digits)
      (hfraction : DigitRun 1 3 fraction) : IsBareItem (sign ++ (digits ++ dot :: fraction)) .decimal
  | string {body : Bytes} (hbody : StringText body) : IsBareItem (dquote :: (body ++ [dquote])) .string
  | token {first : UInt8} {rest : Bytes} (hfirst : isTokenStart first = true)
      (hrest : ∀ byte ∈ rest, isTokenByte byte = true) : IsBareItem (first :: rest) .token
  | byteSequence {digits : Bytes} {padding missing : Nat} (hdigits : ∀ byte ∈ digits, IsBase64Digit byte)
      (hquartets : (digits.length + (padding + missing)) % 4 = 0) (hpadding : padding + missing ≤ 2) :
      IsBareItem (colon :: (digits ++ (List.replicate padding equalsSign ++ [colon]))) .byteSequence
  | boolean (value : Bool) : IsBareItem [questionMark, if value then 0x31 else 0x30] (.boolean value)

/-- A byte that may stand behind an item. -/
def isItemEnd (byte : UInt8) : Bool :=
  byte == sp || byte == htab || byte == closeParenthesis || byte == comma || byte == semicolon

/-- What may stand behind an item. -/
def BehindItem (rest : Bytes) : Prop := ∀ byte ∈ rest.head?, isItemEnd byte = true

/-! ## Loops -/

section

variable {ι : Type} [StructuredInput ι] {input next : ι} {rest body digits : Bytes} {count padding extra : Nat}

theorem isItemEnd_cases {byte : UInt8} (h : isItemEnd byte = true) :
    byte = sp ∨ byte = htab ∨ byte = closeParenthesis ∨ byte = comma ∨ byte = semicolon := by
  simpa only [isItemEnd, Bool.or_eq_true, beq_iff_eq, or_assoc] using h

/-- No byte behind an item can go on with one. -/
theorem BehindItem.stop (h : BehindItem rest) {p : UInt8 → Bool}
    (hp : [sp, htab, closeParenthesis, comma, semicolon].all (!p ·) = true) :
    ∀ byte, rest.head? = some byte → p byte = false := by
  intro byte hbyte
  simp only [List.all_cons, List.all_nil, Bool.and_true, Bool.and_eq_true, Bool.not_eq_true'] at hp
  obtain ⟨h1, h2, h3, h4, h5⟩ := hp
  rcases isItemEnd_cases (h byte hbyte) with rfl | rfl | rfl | rfl | rfl
  · exact h1
  · exact h2
  · exact h3
  · exact h4
  · exact h5

theorem takeWhile_text_of_not {p : UInt8 → Bool} (h : ¬ (empty input = false ∧ p (peek input) = true)) :
    (text input).takeWhile p = [] := by
  rcases input_cases input with ⟨-, htext⟩ | ⟨hempty, htext⟩ <;> rw [htext]
  · rfl
  · exact List.takeWhile_cons_of_neg fun hp => h ⟨hempty, hp⟩

theorem numberLoop_eq {length : Nat} (hlength : length ≤ 15) (number : Int) (input : ι) :
    numberLoop length number input =
      if length + ((text input).takeWhile isDigit).length ≤ 15 then
        some (length + ((text input).takeWhile isDigit).length,
          ((text input).takeWhile isDigit).foldl (fun n b => n * 10 + ((b.toNat - 0x30 : Nat) : Int)) number,
          skipWhile isDigit input)
      else none := by
  induction hsize : (text input).length using Nat.strong_induction_on generalizing length number input with
  | _ n ih =>
    subst hsize
    rw [numberLoop, skipWhile]
    by_cases hgo : empty input = false ∧ isDigit (peek input) = true
    · rw [dif_pos hgo, dif_pos hgo, StructuredInput.text_of_not_empty input hgo.1, List.takeWhile_cons_of_pos hgo.2,
        List.length_cons, List.foldl_cons]
      by_cases hroom : 15 < length + 1
      · rw [if_pos hroom, if_neg (by omega)]
      · rw [if_neg hroom, ih _ (length_advance hgo.1) (Nat.not_lt.mp hroom) _ _ rfl, Nat.add_right_comm length 1,
          Nat.add_assoc]
    · rw [dif_neg hgo, dif_neg hgo, takeWhile_text_of_not hgo]
      exact (if_pos hlength).symm

theorem fractionLoop_eq {length : Nat} (hlength : length ≤ 3) (input : ι) :
    fractionLoop length input =
      if length + ((text input).takeWhile isDigit).length ≤ 3 then
        some (length + ((text input).takeWhile isDigit).length, skipWhile isDigit input)
      else none := by
  induction hsize : (text input).length using Nat.strong_induction_on generalizing length input with
  | _ n ih =>
    subst hsize
    rw [fractionLoop, skipWhile]
    by_cases hgo : empty input = false ∧ isDigit (peek input) = true
    · rw [dif_pos hgo, dif_pos hgo, StructuredInput.text_of_not_empty input hgo.1, List.takeWhile_cons_of_pos hgo.2,
        List.length_cons]
      by_cases hroom : 3 < length + 1
      · rw [if_pos hroom, if_neg (by omega)]
      · rw [if_neg hroom, ih _ (length_advance hgo.1) (Nat.not_lt.mp hroom) _ rfl, Nat.add_right_comm length 1,
          Nat.add_assoc]
    · rw [dif_neg hgo, dif_neg hgo, takeWhile_text_of_not hgo]
      exact (if_pos hlength).symm

theorem stringLoop_sound (h : stringLoop input = some next) :
    ∃ body, text input = body ++ dquote :: text next ∧ StringText body := by
  induction hsize : (text input).length using Nat.strong_induction_on generalizing input with
  | _ n ih =>
    subst hsize
    rw [stringLoop] at h
    rcases input_cases input with ⟨hempty, htext⟩ | ⟨hempty, htext⟩
    · rw [dif_neg (by rw [hempty]; simp)] at h
      cases h
    · rw [dif_pos hempty] at h
      by_cases hquote : peek input = dquote
      · rw [if_pos hquote] at h
        obtain rfl := Option.some.inj h
        rw [htext, hquote]
        exact ⟨[], rfl, .nil⟩
      · rw [if_neg hquote] at h
        by_cases hescape : peek input = backslash
        · rw [if_pos hescape] at h
          rcases input_cases (advance input) with ⟨hempty', -⟩ | ⟨hempty', htext'⟩
          · rw [dif_neg (by rw [hempty']; simp)] at h
            cases h
          · rw [dif_pos hempty'] at h
            split_ifs at h with hplain
            have hlt := Nat.lt_trans (length_advance hempty') (length_advance hempty)
            obtain ⟨body, hbody, hstring⟩ := ih _ hlt h rfl
            refine ⟨backslash :: peek (advance input) :: body, ?_, .pair ?_ hstring⟩
            · rw [htext, htext', hbody, hescape]
              rfl
            · rw [not_and_or, not_not, not_not] at hplain
              exact hplain
        · rw [if_neg hescape] at h
          split_ifs at h with hrange
          obtain ⟨body, hbody, hstring⟩ := ih _ (length_advance hempty) h rfl
          refine ⟨peek input :: body, ?_, .char hrange ⟨hquote, hescape⟩ hstring⟩
          rw [htext, hbody]
          rfl

theorem stringLoop_complete (hbody : StringText body) (htext : text input = body ++ dquote :: rest) :
    ∃ next, stringLoop input = some next ∧ text next = rest := by
  induction hbody generalizing input with
  | nil =>
    obtain ⟨hempty, hpeek, hnext⟩ := input_of_text_cons htext
    rw [stringLoop, dif_pos hempty]
    rw [if_pos hpeek]
    exact ⟨_, rfl, hnext⟩
  | char hrange hplain hrest ih =>
    obtain ⟨hempty, hpeek, hnext⟩ := input_of_text_cons htext
    rw [stringLoop, dif_pos hempty]
    rw [hpeek, if_neg hplain.1, if_neg hplain.2, if_neg hrange]
    exact ih hnext
  | pair hescaped hrest ih =>
    obtain ⟨hempty, hpeek, hnext⟩ := input_of_text_cons htext
    obtain ⟨hempty', hpeek', hnext'⟩ := input_of_text_cons hnext
    rw [stringLoop, dif_pos hempty]
    rw [hpeek, if_neg (by decide), if_pos rfl, dif_pos hempty', hpeek', if_neg]
    · exact ih hnext'
    · rintro ⟨hne, hne'⟩
      exact hescaped.elim hne hne'

theorem byteSequenceLoop_sound {count' padding' : Nat} (hpadding : padding ≤ 2)
    (h : byteSequenceLoop count padding input = some (count', padding', next)) :
    ∃ digits extra, text input = digits ++ (List.replicate extra equalsSign ++ text next) ∧
      (padding ≠ 0 → digits = []) ∧ (∀ byte ∈ digits, IsBase64Digit byte) ∧
      count' = count + digits.length + extra ∧ padding' = padding + extra ∧ padding' ≤ 2 := by
  induction hsize : (text input).length using Nat.strong_induction_on generalizing count padding input with
  | _ n ih =>
    subst hsize
    rw [byteSequenceLoop] at h
    by_cases hgo : empty input = false ∧ peek input ≠ colon
    · rw [dif_pos hgo] at h
      have htext := StructuredInput.text_of_not_empty input hgo.1
      by_cases hpad : peek input = equalsSign
      · rw [if_pos hpad] at h
        split_ifs at h with hroom
        obtain ⟨digits, extra, hrest, hnone, hdigits, rfl, rfl, hle⟩ :=
          ih _ (length_advance hgo.1) (Nat.not_lt.mp hroom) h rfl
        obtain rfl := hnone (Nat.succ_ne_zero _)
        refine ⟨[], extra + 1, ?_, fun _ => rfl, by simp, ?_, ?_, hle⟩
        · rw [htext, hrest, hpad]
          rfl
        · omega
        · omega
      · rw [if_neg hpad] at h
        by_cases hbad : padding ≠ 0 ∨ httpBase64DecodeChar (peek input) = none
        · rw [if_pos hbad] at h
          cases h
        rw [if_neg hbad] at h
        rw [not_or, not_not] at hbad
        obtain ⟨digits, extra, hrest, -, hdigits, rfl, rfl, hle⟩ := ih _ (length_advance hgo.1) hpadding h rfl
        refine ⟨peek input :: digits, extra, ?_, fun hne => absurd hbad.1 hne, ?_, ?_, rfl, hle⟩
        · rw [htext, hrest]
          rfl
        · exact List.forall_mem_cons.mpr ⟨hbad.2, hdigits⟩
        · rw [List.length_cons]
          omega
    · rw [dif_neg hgo] at h
      obtain ⟨rfl, rfl, rfl⟩ : count = count' ∧ padding = padding' ∧ input = next := by
        simpa only [Option.some.injEq, Prod.mk.injEq] using h
      exact ⟨[], 0, rfl, fun _ => rfl, by simp, rfl, rfl, hpadding⟩

theorem byteSequenceLoop_padding (hpadding : padding + extra ≤ 2)
    (htext : text input = List.replicate extra equalsSign ++ colon :: rest) :
    ∃ next, byteSequenceLoop count padding input = some (count + extra, padding + extra, next) ∧
      text next = colon :: rest := by
  induction extra generalizing count padding input with
  | zero =>
    obtain ⟨hempty, hpeek, hnext⟩ := input_of_text_cons htext
    rw [byteSequenceLoop, dif_neg fun hgo => hgo.2 hpeek]
    exact ⟨input, rfl, htext⟩
  | succ extra ih =>
    obtain ⟨hempty, hpeek, hnext⟩ := input_of_text_cons htext
    have hroom : padding + 1 + extra ≤ 2 := by omega
    obtain ⟨next, hloop, hrest⟩ := @ih (advance input) (count + 1) (padding + 1) hroom hnext
    rw [byteSequenceLoop, dif_pos ⟨hempty, by rw [hpeek]; decide⟩]
    rw [if_pos hpeek, if_neg (by omega), hloop]
    exact ⟨next, by rw [Nat.add_right_comm count, Nat.add_right_comm padding]; rfl, hrest⟩

theorem byteSequenceLoop_complete (hdigits : ∀ byte ∈ digits, IsBase64Digit byte) (hpadding : extra ≤ 2)
    (htext : text input = digits ++ (List.replicate extra equalsSign ++ colon :: rest)) :
    ∃ next, byteSequenceLoop count 0 input = some (count + digits.length + extra, extra, next) ∧
      text next = colon :: rest := by
  induction digits generalizing count input with
  | nil =>
    obtain ⟨next, hloop, hrest⟩ := @byteSequenceLoop_padding ι _ input rest count 0 extra (by omega) htext
    rw [Nat.zero_add] at hloop
    exact ⟨next, hloop, hrest⟩
  | cons first digits ih =>
    obtain ⟨hfirst, hdigits⟩ := List.forall_mem_cons.mp hdigits
    obtain ⟨hempty, hpeek, hnext⟩ := input_of_text_cons htext
    obtain ⟨next, hloop, hrest⟩ := @ih (advance input) (count + 1) hdigits hnext
    have hcolon : first ≠ colon := by
      rintro rfl
      exact hfirst (by decide)
    have hpad : first ≠ equalsSign := by
      rintro rfl
      exact hfirst (by decide)
    have hgood : ¬((0 : Nat) ≠ 0 ∨ httpBase64DecodeChar first = none) := by
      rintro (hzero | hnone)
      · exact hzero rfl
      · exact hfirst hnone
    rw [byteSequenceLoop, dif_pos ⟨hempty, by rw [hpeek]; exact hcolon⟩]
    rw [hpeek, if_neg hpad, if_neg hgood, hloop, List.length_cons]
    exact ⟨next, by rw [Nat.add_right_comm count 1]; rfl, hrest⟩

end

/-! ## Items -/

section

variable {ι : Type} [StructuredInput ι] {input next : ι} {rest digits fraction item : Bytes}
  {value : HttpStructuredItem} {negative : Bool} {bare : BareItem}

/-- The sign that was read. -/
def signText (negative : Bool) : Bytes := if negative then [hyphen] else []

theorem foldl_digits (digits : Bytes) :
    digits.foldl (fun n b => n * 10 + ((b.toNat - 0x30 : Nat) : Int)) 0 = (decimalValue digits : Int) := by
  have hcast : ∀ number : Nat, digits.foldl (fun n b => n * 10 + ((b.toNat - 0x30 : Nat) : Int)) (number : Int) =
      ((digits.foldl (fun n b => n * 10 + (b.toNat - 0x30)) number : Nat) : Int) := by
    induction digits with
    | nil => exact fun _ => rfl
    | cons byte digits ih =>
      intro number
      rw [List.foldl_cons, List.foldl_cons, ← ih]
      congr 1
  exact hcast 0

/-- The digits in front, and what is behind them. -/
theorem digits_split (text : Bytes) :
    text = text.takeWhile isDigit ++ text.dropWhile isDigit ∧ ∀ byte ∈ text.takeWhile isDigit, isDigit byte = true :=
  ⟨List.takeWhile_append_dropWhile.symm, fun _ hbyte => List.mem_takeWhile_imp hbyte⟩

theorem number_sound (h : number negative input = some (value, next)) :
    ∃ item bare, text input = item ++ text next ∧ IsBareItem (signText negative ++ item) bare ∧
      value = bare.structured := by
  obtain ⟨hsplit, hdigits⟩ := digits_split (text input)
  unfold number at h
  rw [numberLoop_eq (Nat.zero_le _), foldl_digits, Nat.zero_add] at h
  by_cases hroom : ((text input).takeWhile isDigit).length ≤ 15
  · rw [if_pos hroom] at h
    dsimp only at h
    by_cases hzero : ((text input).takeWhile isDigit).length = 0
    · rw [if_pos hzero] at h
      cases h
    rw [if_neg hzero] at h
    have hbehind : text (skipWhile isDigit input) = (text input).dropWhile isDigit := text_skipWhile _ _
    rcases take_cases dot (skipWhile isDigit input) with ⟨point, htake, hpoint⟩ | ⟨htake, -⟩
    · rw [htake] at h
      dsimp only at h
      by_cases hlong : 12 < ((text input).takeWhile isDigit).length
      · rw [if_pos hlong] at h
        cases h
      rw [if_neg hlong, fractionLoop_eq (Nat.zero_le _), Nat.zero_add] at h
      obtain ⟨hsplit', hdigits'⟩ := digits_split (text point)
      by_cases hroom' : ((text point).takeWhile isDigit).length ≤ 3
      · rw [if_pos hroom'] at h
        dsimp only at h
        by_cases hnone : ((text point).takeWhile isDigit).length ≠ 0
        · rw [if_pos hnone] at h
          obtain ⟨rfl, rfl⟩ := Prod.mk.inj (Option.some.inj h)
          refine ⟨(text input).takeWhile isDigit ++ dot :: (text point).takeWhile isDigit, .decimal, ?_, ?_, rfl⟩
          · rw [text_skipWhile, List.append_assoc, List.cons_append, ← hsplit', ← hpoint, hbehind]
            exact hsplit
          · apply IsBareItem.decimal
            · cases negative
              · exact .inl rfl
              · exact .inr rfl
            · exact ⟨Nat.pos_of_ne_zero hzero, Nat.not_lt.mp hlong, hdigits⟩
            · exact ⟨Nat.pos_of_ne_zero hnone, hroom', hdigits'⟩
        · rw [if_neg hnone] at h
          cases h
      · rw [if_neg hroom'] at h
        cases h
    · rw [htake] at h
      obtain ⟨rfl, rfl⟩ := Prod.mk.inj (Option.some.inj h)
      have hrun : DigitRun 1 15 ((text input).takeWhile isDigit) := ⟨Nat.pos_of_ne_zero hzero, hroom, hdigits⟩
      rw [hbehind]
      cases negative with
      | false => exact ⟨_, _, hsplit, .integer hrun, rfl⟩
      | true => exact ⟨_, _, hsplit, .negative hrun, rfl⟩
  · rw [if_neg hroom] at h
    cases h

/-- What the first loop of a number gives. -/
theorem numberLoop_digits (hdigits : DigitRun 1 15 digits) (htext : text input = digits ++ rest)
    (hrest : ∀ byte, rest.head? = some byte → isDigit byte = false) :
    numberLoop 0 0 input = some (digits.length, (decimalValue digits : Int), skipWhile isDigit input) ∧
      text (skipWhile isDigit input) = rest := by
  have hrun : (text input).takeWhile isDigit = digits := by
    rw [htext]
    exact takeWhile_run_stop hdigits.digit hrest
  refine ⟨?_, ?_⟩
  · rw [numberLoop_eq (Nat.zero_le _), hrun, Nat.zero_add, foldl_digits, if_pos hdigits.most]
  · rw [text_skipWhile, htext]
    exact Library.dropWhile_append_stop hdigits.digit hrest

theorem number_integer (hdigits : DigitRun 1 15 digits) (htext : text input = digits ++ rest)
    (hrest : BehindItem rest) :
    ∃ next, number negative input =
      some ((BareItem.integer (if negative then -(decimalValue digits : Int) else decimalValue digits)).structured,
        next) ∧ text next = rest := by
  obtain ⟨hloop, hbehind⟩ := numberLoop_digits hdigits htext (hrest.stop (by decide))
  have hpoint : take dot (skipWhile isDigit input) = none := by
    rw [take_eq_none_iff, hbehind]
    intro hhead
    exact absurd (hrest dot hhead) (by decide)
  have hpos := hdigits.least
  unfold number
  rw [hloop]
  dsimp only
  rw [if_neg (by omega), hpoint]
  exact ⟨_, rfl, hbehind⟩

theorem number_decimal (hdigits : DigitRun 1 12 digits) (hfraction : DigitRun 1 3 fraction)
    (htext : text input = digits ++ dot :: (fraction ++ rest)) (hrest : BehindItem rest) :
    ∃ next, number negative input = some ({}, next) ∧ text next = rest := by
  have hwide : DigitRun 1 15 digits := ⟨hdigits.least, Nat.le_trans hdigits.most (by decide), hdigits.digit⟩
  obtain ⟨hloop, hbehind⟩ := numberLoop_digits hwide htext (fun byte hbyte => by
    rw [← Option.some.inj hbyte]
    rfl)
  obtain ⟨point, htake, hpoint⟩ := take_of_text hbehind
  have hstop : ∀ byte, rest.head? = some byte → isDigit byte = false := hrest.stop (by decide)
  have hrun : (text point).takeWhile isDigit = fraction := by
    rw [hpoint]
    exact takeWhile_run_stop hfraction.digit hstop
  have hpos := hdigits.least
  have hmost := hdigits.most
  have hpos' := hfraction.least
  unfold number
  rw [hloop]
  dsimp only
  rw [if_neg (by omega), htake]
  dsimp only
  rw [if_neg (by omega), fractionLoop_eq (Nat.zero_le _), hrun, Nat.zero_add, if_pos hfraction.most]
  dsimp only
  rw [if_pos (by omega)]
  refine ⟨_, rfl, ?_⟩
  rw [text_skipWhile, hpoint]
  exact Library.dropWhile_append_stop hfraction.digit hstop

theorem byteSequence_sound (h : byteSequence input = some next) :
    ∃ item, text input = item ++ text next ∧ IsBareItem (colon :: item) .byteSequence := by
  unfold byteSequence at h
  cases hloop : byteSequenceLoop 0 0 input with
  | none =>
    rw [hloop] at h
    cases h
  | some read =>
    obtain ⟨count, padding, behind⟩ := read
    obtain ⟨digits, extra, htext, -, hdigits, rfl, rfl, hle⟩ := byteSequenceLoop_sound (by decide) hloop
    rw [hloop] at h
    dsimp only at h
    rcases take_cases colon behind with ⟨close, htake, hclose⟩ | ⟨htake, -⟩
    · rw [htake] at h
      dsimp only at h
      split_ifs at h with hquartets
      obtain rfl := Option.some.inj h
      obtain ⟨missing, hmissing⟩ : ∃ missing, extra + missing = (4 - digits.length % 4) % 4 :=
        ⟨(4 - digits.length % 4) % 4 - extra, by omega⟩
      refine ⟨digits ++ (List.replicate extra equalsSign ++ [colon]), ?_, ?_⟩
      · rw [htext, hclose]
        simp
      · exact .byteSequence hdigits (show (digits.length + (extra + missing)) % 4 = 0 by omega) (by omega)
    · rw [htake] at h
      cases h

theorem byteSequence_complete {padding missing : Nat} (hdigits : ∀ byte ∈ digits, IsBase64Digit byte)
    (hquartets : (digits.length + (padding + missing)) % 4 = 0) (hpadding : padding + missing ≤ 2)
    (htext : text input = digits ++ (List.replicate padding equalsSign ++ colon :: rest)) :
    ∃ next, byteSequence input = some next ∧ text next = rest := by
  obtain ⟨behind, hloop, hbehind⟩ := @byteSequenceLoop_complete ι _ input rest digits 0 padding hdigits (by omega) htext
  obtain ⟨next, htake, hnext⟩ := take_of_text hbehind
  unfold byteSequence
  rw [hloop]
  dsimp only
  rw [htake, Nat.zero_add, Nat.add_sub_cancel]
  dsimp only
  rw [if_pos (by omega)]
  exact ⟨next, rfl, hnext⟩

/-- **What is read is a bare item.** -/
theorem item_sound (h : HttpStructuredParser.item input = some (value, next)) :
    ∃ item bare, text input = item ++ text next ∧ IsBareItem item bare ∧ value = bare.structured := by
  unfold HttpStructuredParser.item at h
  rcases input_cases input with ⟨hempty, -⟩ | ⟨hempty, htext⟩
  · rw [if_pos hempty] at h
    cases h
  rw [if_neg (Bool.eq_false_iff.mp hempty)] at h
  by_cases hquestion : peek input = questionMark
  · rw [if_pos hquestion] at h
    rcases take_cases 0x31 (advance input) with ⟨behind, htake, hbehind⟩ | ⟨htake, -⟩
    · rw [htake] at h
      obtain ⟨rfl, rfl⟩ := Prod.mk.inj (Option.some.inj h)
      exact ⟨_, .boolean true, by rw [htext, hbehind, hquestion]; rfl, .boolean true, rfl⟩
    · rw [htake] at h
      obtain ⟨behind, hbehind, heq⟩ := Option.map_eq_some_iff.mp h
      obtain ⟨rfl, rfl⟩ := Prod.mk.inj heq
      exact ⟨_, .boolean false, by rw [htext, text_of_take hbehind, hquestion]; rfl, .boolean false, rfl⟩
  rw [if_neg hquestion] at h
  by_cases hquote : peek input = dquote
  · rw [if_pos hquote] at h
    obtain ⟨behind, hbehind, heq⟩ := Option.map_eq_some_iff.mp h
    obtain ⟨rfl, rfl⟩ := Prod.mk.inj heq
    obtain ⟨body, hbody, hstring⟩ := stringLoop_sound hbehind
    exact ⟨_, .string, by rw [htext, hbody, hquote]; simp, .string hstring, rfl⟩
  rw [if_neg hquote] at h
  by_cases hcolon : peek input = colon
  · rw [if_pos hcolon] at h
    obtain ⟨behind, hbehind, heq⟩ := Option.map_eq_some_iff.mp h
    obtain ⟨rfl, rfl⟩ := Prod.mk.inj heq
    obtain ⟨item, hitem, hsequence⟩ := byteSequence_sound hbehind
    exact ⟨_, .byteSequence, by rw [htext, hitem, hcolon]; rfl, hsequence, rfl⟩
  rw [if_neg hcolon] at h
  by_cases hminus : peek input = hyphen
  · rw [if_pos hminus] at h
    obtain ⟨item, bare, hitem, hbare, hvalue⟩ := number_sound h
    exact ⟨hyphen :: item, bare, by rw [htext, hitem, hminus]; rfl, hbare, hvalue⟩
  rw [if_neg hminus] at h
  by_cases hdigit : isDigit (peek input) = true
  · rw [if_pos hdigit] at h
    obtain ⟨item, bare, hitem, hbare, hvalue⟩ := number_sound h
    exact ⟨item, bare, hitem, hbare, hvalue⟩
  rw [if_neg hdigit] at h
  split_ifs at h with hstart
  obtain ⟨rfl, rfl⟩ := Prod.mk.inj (Option.some.inj h)
  refine ⟨peek input :: (text (advance input)).takeWhile isTokenByte, .token, ?_, ?_, rfl⟩
  · rw [htext, text_skipWhile, List.cons_append, List.takeWhile_append_dropWhile]
  · exact .token hstart fun byte hbyte => List.mem_takeWhile_imp hbyte

/-- The first byte of a token begins no other item. -/
theorem token_start {first : UInt8} (h : isTokenStart first = true) :
    first ≠ questionMark ∧ first ≠ dquote ∧ first ≠ colon ∧ first ≠ hyphen ∧ isDigit first = false := by
  refine ⟨?_, ?_, ?_, ?_, ?_⟩
  · rintro rfl
    exact absurd h (by decide)
  · rintro rfl
    exact absurd h (by decide)
  · rintro rfl
    exact absurd h (by decide)
  · rintro rfl
    exact absurd h (by decide)
  · simp only [isTokenStart, isLower, isUpper, asterisk, Bool.or_eq_true, Bool.and_eq_true, decide_eq_true_eq,
      beq_iff_eq] at h
    simp only [isDigit, Bool.and_eq_false_iff, decide_eq_false_iff_not]
    rcases h with (⟨hlow, -⟩ | ⟨hlow, -⟩) | rfl
    · exact .inr fun hle => absurd (UInt8.le_trans hlow hle) (by decide)
    · exact .inr fun hle => absurd (UInt8.le_trans hlow hle) (by decide)
    · exact .inl (by decide)

/-- A digit begins no item but a number. -/
theorem digit_start {first : UInt8} (h : isDigit first = true) :
    first ≠ questionMark ∧ first ≠ dquote ∧ first ≠ colon ∧ first ≠ hyphen := by
  refine ⟨?_, ?_, ?_, ?_⟩ <;> rintro rfl <;> exact absurd h (by decide)

theorem item_of_number (htext : text input = digits ++ rest) (hdigits : digits ≠ [])
    (hdigit : ∀ byte ∈ digits, isDigit byte = true) : HttpStructuredParser.item input = number false input := by
  obtain ⟨first, digits, rfl⟩ := List.exists_cons_of_ne_nil hdigits
  obtain ⟨hempty, hpeek, -⟩ := input_of_text_cons htext
  have hfirst := hdigit first (List.mem_cons_self ..)
  obtain ⟨h1, h2, h3, h4⟩ := digit_start hfirst
  unfold HttpStructuredParser.item
  rw [if_neg (Bool.eq_false_iff.mp hempty), hpeek, if_neg h1, if_neg h2, if_neg h3, if_neg h4, if_pos hfirst]

theorem item_of_negative (htext : text input = hyphen :: rest) :
    HttpStructuredParser.item input = number true (advance input) := by
  obtain ⟨hempty, hpeek, -⟩ := input_of_text_cons htext
  unfold HttpStructuredParser.item
  rw [if_neg (Bool.eq_false_iff.mp hempty), hpeek]
  rfl

/-- **A bare item is read**, in front of what may follow one. -/
theorem item_complete (h : IsBareItem item bare) (htext : text input = item ++ rest) (hrest : BehindItem rest) :
    ∃ next, HttpStructuredParser.item input = some (bare.structured, next) ∧ text next = rest := by
  have hne : ∀ {digits : Bytes} {most : Nat}, DigitRun 1 most digits → digits ≠ [] := by
    rintro digits most hrun rfl
    exact absurd hrun.least (by decide)
  cases h with
  | integer hdigits =>
    rw [item_of_number htext (hne hdigits) hdigits.digit]
    exact number_integer hdigits htext hrest
  | negative hdigits =>
    rw [List.cons_append] at htext
    rw [item_of_negative htext]
    exact number_integer hdigits (input_of_text_cons htext).2.2 hrest
  | @decimal sign digits fraction hsign hdigits hfraction =>
    rcases hsign with rfl | rfl
    · rw [List.nil_append, List.append_assoc, List.cons_append] at htext
      rw [item_of_number htext (hne hdigits) hdigits.digit]
      exact number_decimal hdigits hfraction htext hrest
    · rw [List.append_assoc, List.append_assoc, List.singleton_append, List.cons_append] at htext
      rw [item_of_negative htext]
      exact number_decimal hdigits hfraction (input_of_text_cons htext).2.2 hrest
  | @string body hbody =>
    rw [List.cons_append, List.append_assoc, List.singleton_append] at htext
    obtain ⟨hempty, hpeek, hnext⟩ := input_of_text_cons htext
    obtain ⟨next, hloop, hbehind⟩ := stringLoop_complete hbody hnext
    unfold HttpStructuredParser.item
    rw [if_neg (Bool.eq_false_iff.mp hempty), hpeek, if_neg (by decide), if_pos rfl, hloop]
    exact ⟨next, rfl, hbehind⟩
  | @token first body hfirst hbody =>
    obtain ⟨hempty, hpeek, hnext⟩ := input_of_text_cons htext
    obtain ⟨h1, h2, h3, h4, h5⟩ := token_start hfirst
    unfold HttpStructuredParser.item
    rw [if_neg (Bool.eq_false_iff.mp hempty), hpeek, if_neg h1, if_neg h2, if_neg h3, if_neg h4,
      if_neg (Bool.eq_false_iff.mp h5), if_pos hfirst]
    refine ⟨_, rfl, ?_⟩
    rw [text_skipWhile, hnext]
    exact Library.dropWhile_append_stop hbody (hrest.stop (by decide))
  | @byteSequence digits padding missing hdigits hquartets hpadding =>
    rw [List.cons_append, List.append_assoc, List.append_assoc, List.singleton_append] at htext
    obtain ⟨hempty, hpeek, hnext⟩ := input_of_text_cons htext
    obtain ⟨next, hread, hbehind⟩ := byteSequence_complete hdigits hquartets hpadding hnext
    unfold HttpStructuredParser.item
    rw [if_neg (Bool.eq_false_iff.mp hempty), hpeek, if_neg (by decide), if_neg (by decide), if_pos rfl, hread]
    exact ⟨next, rfl, hbehind⟩
  | boolean flag =>
    obtain ⟨hempty, hpeek, hnext⟩ := input_of_text_cons htext
    unfold HttpStructuredParser.item
    rw [if_neg (Bool.eq_false_iff.mp hempty), hpeek, if_pos rfl]
    cases flag with
    | true =>
      obtain ⟨behind, htake, hbehind⟩ := take_of_text hnext
      rw [if_pos rfl] at htake
      rw [htake]
      exact ⟨behind, rfl, hbehind⟩
    | false =>
      obtain ⟨behind, htake, hbehind⟩ := take_of_text hnext
      rw [if_neg Bool.false_ne_true] at htake
      have hone : take 0x31 (advance input) = none := by
        rw [take_eq_none_iff, hnext]
        intro hhead
        exact absurd (Option.some.inj hhead) (by decide)
      rw [hone, htake]
      exact ⟨behind, rfl, hbehind⟩

end

end HttpStructuredParser

end Ruvia.Http
