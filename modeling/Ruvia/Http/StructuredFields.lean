import Ruvia.Http.Base64
import Ruvia.Http.ByteRange
import Ruvia.Http.MediaTypes
import Ruvia.Http.UriGrammar

/-!
# `Http.StructuredFields` — the scanner of structured field values

`http_structured_parser`, over any input that it can read byte by byte. An input has a text (`StructuredInput.text`),
and every function leaves an end of it. What the functions accept is in `Http.StructuredItems` and
`Http.StructuredMembers`.
-/

namespace Ruvia.Http

open Library

abbrev openParenthesis : UInt8 := 0x28
abbrev closeParenthesis : UInt8 := 0x29

/-! ## Inputs -/

/-- `input_type`: what the parser reads, and the text that this is. -/
class StructuredInput (ι : Type) where
  empty : ι → Bool
  peek : ι → UInt8
  data : ι → Bytes
  advance : ι → ι
  text : ι → Bytes
  text_of_empty (input : ι) : empty input = true → text input = []
  text_of_not_empty (input : ι) : empty input = false → text input = peek input :: text (advance input)
  /-- A run without what joins two parts is contiguous. -/
  contiguous (input : ι) (length : Nat) :
    (∀ byte ∈ (text input).take length, byte ≠ comma ∧ byte ≠ sp) →
      (data input).take length = (text input).take length

open StructuredInput (empty peek data advance text)

/-- `http_structured_text_input`. -/
structure HttpStructuredTextInput where
  remaining : Bytes

instance : StructuredInput HttpStructuredTextInput where
  empty input := input.remaining.isEmpty
  peek input := input.remaining.headD 0
  data input := input.remaining
  advance input := ⟨input.remaining.drop 1⟩
  text input := input.remaining
  text_of_empty input h := List.isEmpty_iff.mp h
  text_of_not_empty input h := by
    obtain ⟨_ | ⟨first, rest⟩⟩ := input
    · cases h
    · rfl
  contiguous _ _ _ := rfl

section

variable {ι : Type} [StructuredInput ι] {input next : ι} {byte : UInt8} {rest : Bytes}

/-- The input is at its end, or at a byte. -/
theorem input_cases (input : ι) :
    (empty input = true ∧ text input = []) ∨
      (empty input = false ∧ text input = peek input :: text (advance input)) := by
  cases h : empty input with
  | true => exact .inl ⟨rfl, StructuredInput.text_of_empty input h⟩
  | false => exact .inr ⟨rfl, StructuredInput.text_of_not_empty input h⟩

theorem empty_of_text_nil (h : text input = []) : empty input = true := by
  rcases input_cases input with ⟨hempty, -⟩ | ⟨-, htext⟩
  · exact hempty
  · rw [h] at htext
    cases htext

theorem input_of_text_cons (h : text input = byte :: rest) :
    empty input = false ∧ peek input = byte ∧ text (advance input) = rest := by
  rcases input_cases input with ⟨-, htext⟩ | ⟨hempty, htext⟩
  · rw [h] at htext
    cases htext
  · rw [h] at htext
    obtain ⟨rfl, rfl⟩ := List.cons.inj htext
    exact ⟨hempty, rfl, rfl⟩

theorem length_advance (h : empty input = false) : (text (advance input)).length < (text input).length := by
  rw [StructuredInput.text_of_not_empty input h]
  exact Nat.lt_succ_self _

end

/-! ## The scanner -/

inductive HttpStructuredItemKind where
  | other
  | integer
  | boolean
  deriving DecidableEq, Repr

structure HttpStructuredItem where
  kind : HttpStructuredItemKind := .other
  integer : Int := 0
  boolean : Bool := false
  deriving DecidableEq, Repr

namespace HttpStructuredParser

variable {ι : Type} [StructuredInput ι]

/-- The input behind `ch`, when it is at this byte. -/
def take (ch : UInt8) (input : ι) : Option ι :=
  if empty input = false ∧ peek input = ch then some (advance input) else none

/-- A loop that passes over bytes. -/
def skipWhile (p : UInt8 → Bool) (input : ι) : ι :=
  if _h : empty input = false ∧ p (peek input) = true then skipWhile p (advance input) else input
termination_by (text input).length
decreasing_by exact length_advance _h.1

def spaces (input : ι) : ι := skipWhile (· == sp) input

def ows (input : ι) : ι := skipWhile isHttpOwsChar input

def isKeyStart (ch : UInt8) : Bool := isLower ch || ch == asterisk

def isKeyByte (ch : UInt8) : Bool :=
  isLower ch || isDigit ch || ch == 0x5f || ch == hyphen || ch == dot || ch == asterisk

/-- The loop of `key`. -/
def keyLoop (length : Nat) (input : ι) : Nat × ι :=
  if _h : empty input = false ∧ isKeyByte (peek input) = true then keyLoop (length + 1) (advance input)
  else (length, input)
termination_by (text input).length
decreasing_by exact length_advance _h.1

/-- The key, empty when there is none. -/
def key (input : ι) : Bytes × ι :=
  if empty input = true ∨ isKeyStart (peek input) = false then ([], input)
  else
    let (length, next) := keyLoop 1 (advance input)
    ((data input).take length, next)

/-- The loop of a string. -/
def stringLoop (input : ι) : Option ι :=
  if _h : empty input = false then
    let ch := peek input
    let next := advance input
    if ch = dquote then some next
    else if ch = backslash then
      if _h' : empty next = false then
        if peek next ≠ backslash ∧ peek next ≠ dquote then none else stringLoop (advance next)
      else none
    else if ch < 0x20 ∨ 0x7e < ch then none
    else stringLoop next
  else none
termination_by (text input).length
decreasing_by
  · exact Nat.lt_trans (length_advance _h') (length_advance _h)
  · exact length_advance _h

/-- The loop of a byte sequence: the counts of characters and of `=`. -/
def byteSequenceLoop (count padding : Nat) (input : ι) : Option (Nat × Nat × ι) :=
  if _h : empty input = false ∧ peek input ≠ colon then
    let ch := peek input
    if ch = equalsSign then
      if 2 < padding + 1 then none else byteSequenceLoop (count + 1) (padding + 1) (advance input)
    else if padding ≠ 0 ∨ httpBase64DecodeChar ch = none then none
    else byteSequenceLoop (count + 1) padding (advance input)
  else some (count, padding, input)
termination_by (text input).length
decreasing_by all_goals exact length_advance _h.1

def byteSequence (input : ι) : Option ι :=
  match byteSequenceLoop 0 0 input with
  | none => none
  | some (count, padding, input) =>
    let dataRemainder := (count - padding) % 4
    match take colon input with
    | none => none
    | some next => if dataRemainder ≠ 1 ∧ padding ≤ (4 - dataRemainder) % 4 then some next else none

/-- The digits in front of a decimal point. -/
def numberLoop (digits : Nat) (number : Int) (input : ι) : Option (Nat × Int × ι) :=
  if _h : empty input = false ∧ isDigit (peek input) = true then
    if 15 < digits + 1 then none
    else numberLoop (digits + 1) (number * 10 + ((peek input).toNat - 0x30 : Nat)) (advance input)
  else some (digits, number, input)
termination_by (text input).length
decreasing_by exact length_advance _h.1

/-- The digits behind it. -/
def fractionLoop (fraction : Nat) (input : ι) : Option (Nat × ι) :=
  if _h : empty input = false ∧ isDigit (peek input) = true then
    if 3 < fraction + 1 then none else fractionLoop (fraction + 1) (advance input)
  else some (fraction, input)
termination_by (text input).length
decreasing_by exact length_advance _h.1

/-- A number, behind its sign. -/
def number (negative : Bool) (input : ι) : Option (HttpStructuredItem × ι) :=
  match numberLoop 0 0 input with
  | none => none
  | some (digits, number, input) =>
    if digits = 0 then none
    else
      match take dot input with
      | some behind =>
        if 12 < digits then none
        else
          match fractionLoop 0 behind with
          | none => none
          | some (fraction, next) => if fraction ≠ 0 then some ({}, next) else none
      | none => some ({ kind := .integer, integer := if negative then -number else number }, input)

def isTokenStart (ch : UInt8) : Bool := isLower ch || isUpper ch || ch == asterisk

def isTokenByte (ch : UInt8) : Bool := isHttpTokenChar ch || ch == colon || ch == slash

def item (input : ι) : Option (HttpStructuredItem × ι) :=
  if empty input = true then none
  else
    let ch := peek input
    let next := advance input
    if ch = questionMark then
      match take 0x31 next with
      | some behind => some ({ kind := .boolean, boolean := true }, behind)
      | none => (take 0x30 next).map fun behind => ({ kind := .boolean }, behind)
    else if ch = dquote then (stringLoop next).map fun behind => ({}, behind)
    else if ch = colon then (byteSequence next).map fun behind => ({}, behind)
    else if ch = hyphen then number true next
    else if isDigit ch then number false input
    else if isTokenStart ch then some ({}, skipWhile isTokenByte next)
    else none

/-! ## What the small functions read -/

section

variable {input next : ι} {ch byte : UInt8} {p : UInt8 → Bool} {rest : Bytes}

theorem take_cases (ch : UInt8) (input : ι) :
    (∃ next, take ch input = some next ∧ text input = ch :: text next) ∨
      (take ch input = none ∧ (text input).head? ≠ some ch) := by
  rcases input_cases input with ⟨hempty, htext⟩ | ⟨hempty, htext⟩
  · refine .inr ⟨if_neg fun h => ?_, ?_⟩
    · rw [hempty] at h
      exact Bool.false_ne_true h.1.symm
    · rw [htext]
      simp
  · by_cases hpeek : peek input = ch
    · subst hpeek
      exact .inl ⟨_, if_pos ⟨hempty, rfl⟩, htext⟩
    · refine .inr ⟨if_neg fun h => hpeek h.2, ?_⟩
      rw [htext, List.head?_cons, ne_eq, Option.some.injEq]
      exact hpeek

theorem text_of_take (h : take ch input = some next) : text input = ch :: text next := by
  rcases take_cases ch input with ⟨next', hnext, htext⟩ | ⟨hnone, -⟩
  · obtain rfl := Option.some.inj (h.symm.trans hnext)
    exact htext
  · rw [h] at hnone
    cases hnone

theorem take_of_text (h : text input = ch :: rest) : ∃ next, take ch input = some next ∧ text next = rest := by
  rcases take_cases ch input with ⟨next, hnext, htext⟩ | ⟨-, hhead⟩
  · rw [h] at htext
    exact ⟨next, hnext, (List.cons.inj htext).2.symm⟩
  · rw [h] at hhead
    exact absurd rfl hhead

theorem take_eq_none_iff : take ch input = none ↔ (text input).head? ≠ some ch := by
  rcases take_cases ch input with ⟨next, hnext, htext⟩ | ⟨hnone, hhead⟩
  · rw [hnext, htext]
    simp
  · exact iff_of_true hnone hhead

/-- **A skipping loop** leaves the text behind its run. -/
theorem text_skipWhile (p : UInt8 → Bool) (input : ι) : text (skipWhile p input) = (text input).dropWhile p := by
  induction hlength : (text input).length using Nat.strong_induction_on generalizing input with
  | _ n ih =>
    subst hlength
    rw [skipWhile]
    rcases input_cases input with ⟨hempty, htext⟩ | ⟨hempty, htext⟩
    · rw [dif_neg (by rw [hempty]; simp), htext]
      rfl
    · by_cases hp : p (peek input) = true
      · rw [dif_pos ⟨hempty, hp⟩, ih _ (length_advance hempty) _ rfl, htext, List.dropWhile_cons_of_pos hp]
      · rw [dif_neg fun h => hp h.2, htext, List.dropWhile_cons_of_neg hp]

theorem keyLoop_spec (length : Nat) (input : ι) :
    (keyLoop length input).1 = length + ((text input).takeWhile isKeyByte).length ∧
      text (keyLoop length input).2 = (text input).dropWhile isKeyByte := by
  induction hlength : (text input).length using Nat.strong_induction_on generalizing length input with
  | _ n ih =>
    subst hlength
    rw [keyLoop]
    rcases input_cases input with ⟨hempty, htext⟩ | ⟨hempty, htext⟩
    · rw [dif_neg (by rw [hempty]; simp), htext]
      exact ⟨rfl, rfl⟩
    · by_cases hp : isKeyByte (peek input) = true
      · obtain ⟨hcount, hrest⟩ := ih _ (length_advance hempty) (length + 1) _ rfl
        rw [dif_pos ⟨hempty, hp⟩, hcount, hrest, htext, List.dropWhile_cons_of_pos hp, List.takeWhile_cons_of_pos hp,
          List.length_cons]
        exact ⟨by omega, rfl⟩
      · rw [dif_neg fun h => hp h.2, htext, List.dropWhile_cons_of_neg hp, List.takeWhile_cons_of_neg hp]
        exact ⟨rfl, rfl⟩

/-- The key in front of a text, empty when there is none. -/
def keyOf : Bytes → Bytes
  | [] => []
  | first :: rest => if isKeyStart first then first :: rest.takeWhile isKeyByte else []

theorem isKeyByte_of_start (h : isKeyStart byte = true) : isKeyByte byte = true := by
  simp only [isKeyStart, Bool.or_eq_true] at h
  rcases h with h | h <;> simp [isKeyByte, h]

/-- **A key is read whole**: it does not reach over what joins two parts of the input. -/
theorem key_spec (input : ι) :
    (key input).1 = keyOf (text input) ∧ text input = (key input).1 ++ text (key input).2 := by
  unfold key
  rcases input_cases input with ⟨hempty, htext⟩ | ⟨hempty, htext⟩
  · rw [if_pos (.inl hempty), htext]
    exact ⟨rfl, rfl⟩
  · by_cases hstart : isKeyStart (peek input) = true
    · obtain ⟨hcount, hrest⟩ := keyLoop_spec 1 (advance input)
      have hrun : (text input).take (keyLoop 1 (advance input)).1 =
          peek input :: (text (advance input)).takeWhile isKeyByte := by
        rw [hcount, htext, Nat.add_comm, List.take_succ_cons,
          ← List.prefix_iff_eq_take.mp (List.takeWhile_prefix isKeyByte)]
      have hdata : (data input).take (keyLoop 1 (advance input)).1 =
          (text input).take (keyLoop 1 (advance input)).1 := by
        apply StructuredInput.contiguous
        rw [hrun]
        intro byte hbyte
        have hkey : isKeyByte byte = true := by
          rcases List.mem_cons.mp hbyte with rfl | hbyte
          · exact isKeyByte_of_start hstart
          · exact List.mem_takeWhile_imp hbyte
        constructor
        all_goals
          rintro rfl
          exact absurd hkey (by decide)
      rw [if_neg (by rw [hempty, hstart]; simp)]
      dsimp only
      rw [hdata, hrun, hrest, htext, keyOf, if_pos hstart]
      exact ⟨rfl, by rw [List.cons_append, List.takeWhile_append_dropWhile]⟩
    · rw [if_pos (.inr (by simpa using hstart)), htext, keyOf, if_neg hstart]
      exact ⟨rfl, rfl⟩

end

end HttpStructuredParser

end Ruvia.Http
