import Ruvia.Web.RedisMapping

/-!
# `Web.RedisSearchQuery` — the query language as the search index reads it

The fragment of RediSearch the compiler writes: `@field:{tag}` and `@field:[min max]` terms, `(` for an exclusive
bound, `-` for NOT, juxtaposition for AND and, weakest, `|` for OR. A query is read to its end or not at all, so a
text has one reading. A `Phrase` reads the same whatever follows it.
-/

namespace Ruvia.Web

open Library

/-! ## Grammar -/

inductive SearchBound where
  | negInf
  | posInf
  | inclusive (number : Bytes)
  | exclusive (number : Bytes)
  deriving DecidableEq

inductive SearchQuery where
  | everything
  | tag (field value : Bytes)
  | range (field : Bytes) (low high : SearchBound)
  | neg (operand : SearchQuery)
  | conj (left right : SearchQuery)
  | disj (left right : SearchQuery)
  deriving DecidableEq

/-- Digits, with or without a minus sign. -/
def isNumberText (text : Bytes) : Bool :=
  let digits := if text.head? = some 0x2d then text.tail else text
  !digits.isEmpty && digits.all Http.isDigit

def parseBound (text : Bytes) : Option SearchBound :=
  if text = lit "-inf" then some .negInf
  else if text = lit "+inf" then some .posInf
  else if text.head? = some 0x28 then
    if isNumberText text.tail then some (.exclusive text.tail) else none
  else if isNumberText text then some (.inclusive text)
  else none

def skipBlanks (text : Bytes) : Bytes := text.dropWhile (· == 0x20)

/-- A tag in braces. -/
def parseTag (field text : Bytes) : Option (SearchQuery × Bytes) :=
  match text.span isSafeIdentifierByte with
  | (value, 0x7d :: rest) => if value.isEmpty then none else some (.tag field value, rest)
  | _ => none

/-- Two bounds in brackets. -/
def parseRange (field text : Bytes) : Option (SearchQuery × Bytes) :=
  match text.span (· != 0x5d) with
  | (bounds, 0x5d :: rest) =>
    match bounds.span (· != 0x20) with
    | (low, 0x20 :: high) => do
      let low ← parseBound low
      let high ← parseBound high
      some (.range field low high, rest)
    | _ => none
  | _ => none

/-- A term, from the byte behind `@`. -/
def parseTerm (text : Bytes) : Option (SearchQuery × Bytes) :=
  match text.span isSafeIdentifierByte with
  | (field, 0x3a :: 0x7b :: rest) => if field.isEmpty then none else parseTag field rest
  | (field, 0x3a :: 0x5b :: rest) => if field.isEmpty then none else parseRange field rest
  | _ => none

/-- Whether an operand begins here. -/
def startsOperand : Bytes → Bool
  | ch :: _ => ch == 0x2d || ch == 0x28 || ch == 0x40
  | [] => false

mutual

/-- A negation, a group or a term. -/
def parseOperand : Nat → Bytes → Option (SearchQuery × Bytes)
  | 0, _ => none
  | fuel + 1, text =>
    match skipBlanks text with
    | 0x2d :: rest => (parseOperand fuel rest).map fun (operand, rest) => (.neg operand, rest)
    | 0x28 :: rest =>
      match parseUnion fuel rest with
      | some (query, rest) =>
        match skipBlanks rest with
        | 0x29 :: rest => some (query, rest)
        | _ => none
      | none => none
    | 0x40 :: rest => parseTerm rest
    | _ => none

/-- Operands side by side. -/
def parseIntersection : Nat → Bytes → Option (SearchQuery × Bytes)
  | 0, _ => none
  | fuel + 1, text =>
    match parseOperand fuel text with
    | some (left, rest) =>
      if startsOperand (skipBlanks rest) then
        (parseIntersection fuel rest).map fun (right, rest) => (.conj left right, rest)
      else some (left, rest)
    | none => none

/-- Intersections between bars. -/
def parseUnion : Nat → Bytes → Option (SearchQuery × Bytes)
  | 0, _ => none
  | fuel + 1, text =>
    match parseIntersection fuel text with
    | some (left, rest) =>
      match skipBlanks rest with
      | 0x7c :: rest => (parseUnion fuel rest).map fun (right, rest) => (.disj left right, rest)
      | _ => some (left, rest)
    | none => none

end

/-- A query, read to its end. -/
def parseSearchQuery (text : Bytes) : Option SearchQuery :=
  if text = lit "*" then some .everything
  else match parseUnion (4 * text.length + 2) text with
    | some (query, []) => some query
    | _ => none

/-! ## Phrases -/

/-- Text that reads as one operand, whatever is behind it. -/
structure Phrase (text : Bytes) (query : SearchQuery) : Prop where
  starts : startsOperand text = true
  reads : ∀ {fuel : Nat} {rest : Bytes}, 4 * text.length ≤ fuel →
    parseOperand fuel (text ++ rest) = some (query, rest)

/-- What ends a group: nothing more, or the closing parenthesis. -/
def Closes (rest : Bytes) : Prop := rest = [] ∨ ∃ behind, rest = 0x29 :: behind

/-- Text that reads as what stands between parentheses. -/
def Group (text : Bytes) (query : SearchQuery) : Prop :=
  ∀ (fuel : Nat) (rest : Bytes), Closes rest → 4 * text.length + 2 ≤ fuel →
    parseUnion fuel (text ++ rest) = some (query, rest)

section

variable {text left right rest field value low high : Bytes} {query leftQuery rightQuery : SearchQuery}
  {lowBound highBound : SearchBound} {fuel : Nat}

theorem startsOperand_append (h : startsOperand text = true) : startsOperand (text ++ rest) = true := by
  cases text with
  | nil => cases h
  | cons ch text => exact h

theorem skipBlanks_of_starts (h : startsOperand text = true) : skipBlanks (text ++ rest) = text ++ rest := by
  cases text with
  | nil => cases h
  | cons ch text =>
    rw [startsOperand] at h
    rw [List.cons_append, skipBlanks, List.dropWhile_cons_of_neg]
    rintro hblank
    rw [beq_iff_eq.mp hblank] at h
    cases h

theorem parseOperand_blank : parseOperand fuel (0x20 :: text) = parseOperand fuel text := by
  cases fuel with
  | zero => rfl
  | succ fuel =>
    have hblank : skipBlanks (0x20 :: text) = skipBlanks text := rfl
    rw [parseOperand, hblank, parseOperand]

theorem parseIntersection_blank : parseIntersection fuel (0x20 :: text) = parseIntersection fuel text := by
  cases fuel with
  | zero => rfl
  | succ fuel => rw [parseIntersection, parseOperand_blank, parseIntersection]

theorem Closes.not_starts (h : Closes rest) : startsOperand (skipBlanks rest) = false := by
  rcases h with rfl | ⟨behind, rfl⟩ <;> rfl

theorem Phrase.neg (h : Phrase text query) : Phrase (0x2d :: text) (.neg query) := by
  refine ⟨rfl, fun {fuel rest} hfuel => ?_⟩
  rw [List.length_cons] at hfuel
  obtain ⟨fuel, rfl⟩ : ∃ next, fuel = next + 1 := ⟨fuel - 1, by omega⟩
  have hskip : skipBlanks (0x2d :: (text ++ rest)) = 0x2d :: (text ++ rest) := rfl
  rw [List.cons_append, parseOperand, hskip]
  simp only [h.reads (show 4 * text.length ≤ fuel by omega), Option.map_some]

theorem Group.phrase (h : Group text query) : Phrase (0x28 :: (text ++ [0x29])) query := by
  refine ⟨rfl, fun {fuel rest} hfuel => ?_⟩
  rw [List.length_cons, List.length_append, List.length_singleton] at hfuel
  obtain ⟨fuel, rfl⟩ : ∃ next, fuel = next + 1 := ⟨fuel - 1, by omega⟩
  have hskip : skipBlanks (0x28 :: (text ++ [0x29] ++ rest)) = 0x28 :: (text ++ [0x29] ++ rest) := rfl
  have hinner : parseUnion fuel (text ++ [0x29] ++ rest) = some (query, 0x29 :: rest) := by
    rw [List.append_assoc]
    exact h _ _ (.inr ⟨rest, rfl⟩) (by omega)
  have hclose : skipBlanks (0x29 :: rest) = 0x29 :: rest := rfl
  rw [List.cons_append, parseOperand, hskip]
  simp only [hinner, hclose]

theorem Phrase.intersection (h : Phrase text query) (hstop : startsOperand (skipBlanks rest) = false)
    (hfuel : 4 * text.length + 1 ≤ fuel) : parseIntersection fuel (text ++ rest) = some (query, rest) := by
  obtain ⟨fuel, rfl⟩ : ∃ next, fuel = next + 1 := ⟨fuel - 1, by omega⟩
  rw [parseIntersection, h.reads (by omega)]
  simp only [hstop, Bool.false_eq_true, if_false]

/-- An intersection with nothing behind it is a union. -/
theorem parseUnion_of_intersection (hread : parseIntersection fuel (text ++ rest) = some (query, rest))
    (hclose : Closes rest) : parseUnion (fuel + 1) (text ++ rest) = some (query, rest) := by
  rw [parseUnion, hread]
  rcases hclose with rfl | ⟨behind, rfl⟩ <;> rfl

theorem Phrase.group (h : Phrase text query) : Group text query := by
  intro fuel rest hclose hfuel
  obtain ⟨fuel, rfl⟩ : ∃ next, fuel = next + 1 := ⟨fuel - 1, by omega⟩
  exact parseUnion_of_intersection (h.intersection hclose.not_starts (by omega)) hclose

/-- Two operands side by side. -/
theorem Phrase.beside (hleft : Phrase left leftQuery) (hright : Phrase right rightQuery) :
    Group (left ++ 0x20 :: right) (.conj leftQuery rightQuery) := by
  intro fuel rest hclose hfuel
  rw [List.length_append, List.length_cons] at hfuel
  obtain ⟨fuel, rfl⟩ : ∃ next, fuel = next + 2 := ⟨fuel - 2, by omega⟩
  refine parseUnion_of_intersection ?_ hclose
  have hstarts : startsOperand (skipBlanks (0x20 :: (right ++ rest))) = true := by
    have hblank : skipBlanks (0x20 :: (right ++ rest)) = skipBlanks (right ++ rest) := rfl
    rw [hblank, skipBlanks_of_starts hright.starts]
    exact startsOperand_append hright.starts
  have hbehind : parseIntersection fuel (0x20 :: (right ++ rest)) = some (rightQuery, rest) := by
    rw [parseIntersection_blank]
    exact hright.intersection hclose.not_starts (by omega)
  rw [List.append_assoc, List.cons_append, parseIntersection, hleft.reads (by omega)]
  simp only [hstarts, if_true, hbehind, Option.map_some]

/-- An operand and a group with a bar between them. -/
theorem Phrase.bar (hleft : Phrase left leftQuery) (hright : Group right rightQuery) :
    Group (left ++ 0x7c :: right) (.disj leftQuery rightQuery) := by
  intro fuel rest hclose hfuel
  rw [List.length_append, List.length_cons] at hfuel
  obtain ⟨fuel, rfl⟩ : ∃ next, fuel = next + 1 := ⟨fuel - 1, by omega⟩
  have hfront : parseIntersection fuel (left ++ 0x7c :: (right ++ rest)) =
      some (leftQuery, 0x7c :: (right ++ rest)) := hleft.intersection rfl (by omega)
  have hbar : skipBlanks (0x7c :: (right ++ rest)) = 0x7c :: (right ++ rest) := rfl
  rw [List.append_assoc, List.cons_append, parseUnion, hfront]
  simp only [hbar, hright _ _ hclose (show 4 * right.length + 2 ≤ fuel by omega), Option.map_some]

/-! ## Terms -/

/-- A run of a kind of byte in front of one that is not. -/
theorem span_append {p : UInt8 → Bool} {run : Bytes} {stop : UInt8} (hrun : ∀ byte ∈ run, p byte = true)
    (hstop : p stop = false) : (run ++ stop :: rest).span p = (run, stop :: rest) := by
  rw [List.span_eq_takeWhile_dropWhile, List.takeWhile_append_of_pos hrun, List.dropWhile_append_of_pos hrun,
    List.takeWhile_cons_of_neg (by simp [hstop]), List.dropWhile_cons_of_neg (by simp [hstop]), List.append_nil]

/-- A name or tag the grammar takes in one piece. -/
def IsWord (text : Bytes) : Prop := text ≠ [] ∧ ∀ byte ∈ text, isSafeIdentifierByte byte = true

theorem isWord_of_isSafeIdentifier (h : isSafeIdentifier text = true) : IsWord text := by
  rw [isSafeIdentifier, Bool.and_eq_true, Bool.not_eq_true', List.isEmpty_eq_false_iff, List.all_eq_true] at h
  exact h

theorem IsWord.append (hleft : IsWord left) (hright : IsWord right) : IsWord (left ++ right) :=
  ⟨List.append_ne_nil_of_left_ne_nil hleft.1 _, fun byte hmem =>
    (List.mem_append.mp hmem).elim (hleft.2 byte) (hright.2 byte)⟩

theorem IsWord.isEmpty (h : IsWord text) : text.isEmpty = false := List.isEmpty_eq_false_iff.mpr h.1

/-- A TAG term. -/
theorem phrase_tag (hfield : IsWord field) (hvalue : IsWord value) :
    Phrase (lit "@" ++ field ++ lit ":\x7b" ++ value ++ lit "\x7d") (.tag field value) := by
  refine ⟨rfl, fun {fuel rest} hfuel => ?_⟩
  obtain ⟨fuel, rfl⟩ : ∃ next, fuel = next + 1 := by
    refine ⟨fuel - 1, ?_⟩
    simp only [List.length_append, lit, List.length_map] at hfuel
    have : 0 < "@".toList.length := by decide
    omega
  have htext : lit "@" ++ field ++ lit ":\x7b" ++ value ++ lit "\x7d" ++ rest =
      0x40 :: (field ++ 0x3a :: (0x7b :: (value ++ 0x7d :: rest))) := by
    simp [lit, List.append_assoc]
  have hskip : skipBlanks (0x40 :: (field ++ 0x3a :: (0x7b :: (value ++ 0x7d :: rest)))) =
      0x40 :: (field ++ 0x3a :: (0x7b :: (value ++ 0x7d :: rest))) := rfl
  rw [htext, parseOperand, hskip]
  simp only [parseTerm, span_append hfield.2 (show isSafeIdentifierByte 0x3a = false by decide), hfield.isEmpty,
    parseTag, span_append hvalue.2 (show isSafeIdentifierByte 0x7d = false by decide), hvalue.isEmpty,
    Bool.false_eq_true, if_false]

/-- The text of a bound. -/
structure IsBound (text : Bytes) (bound : SearchBound) : Prop where
  parses : parseBound text = some bound
  plain : ∀ byte ∈ text, (byte != 0x20) = true ∧ (byte != 0x5d) = true

/-- A NUMERIC term. -/
theorem phrase_range (hfield : IsWord field) (hlow : IsBound low lowBound) (hhigh : IsBound high highBound) :
    Phrase (lit "@" ++ field ++ lit ":[" ++ low ++ lit " " ++ high ++ lit "]") (.range field lowBound highBound) := by
  refine ⟨rfl, fun {fuel rest} hfuel => ?_⟩
  obtain ⟨fuel, rfl⟩ : ∃ next, fuel = next + 1 := by
    refine ⟨fuel - 1, ?_⟩
    simp only [List.length_append, lit, List.length_map] at hfuel
    have : 0 < "@".toList.length := by decide
    omega
  have htext : lit "@" ++ field ++ lit ":[" ++ low ++ lit " " ++ high ++ lit "]" ++ rest =
      0x40 :: (field ++ 0x3a :: (0x5b :: ((low ++ 0x20 :: high) ++ 0x5d :: rest))) := by
    simp [lit, List.append_assoc]
  have hskip : skipBlanks (0x40 :: (field ++ 0x3a :: (0x5b :: ((low ++ 0x20 :: high) ++ 0x5d :: rest)))) =
      0x40 :: (field ++ 0x3a :: (0x5b :: ((low ++ 0x20 :: high) ++ 0x5d :: rest))) := rfl
  have hbounds : ∀ byte ∈ low ++ 0x20 :: high, (byte != 0x5d) = true := by
    intro byte hmem
    rcases List.mem_append.mp hmem with hmem | hmem
    · exact (hlow.plain byte hmem).2
    · rcases List.mem_cons.mp hmem with rfl | hmem
      · rfl
      · exact (hhigh.plain byte hmem).2
  rw [htext, parseOperand, hskip]
  simp only [parseTerm, span_append hfield.2 (show isSafeIdentifierByte 0x3a = false by decide), hfield.isEmpty,
    parseRange, span_append hbounds (show ((0x5d : UInt8) != 0x5d) = false by decide),
    span_append (fun byte hmem => (hlow.plain byte hmem).1) (show ((0x20 : UInt8) != 0x20) = false by decide),
    hlow.parses, hhigh.parses, Bool.false_eq_true, if_false, Option.bind_eq_bind, Option.bind_some]

/-! ## Bounds -/

theorem isBound_negInf : IsBound (lit "-inf") .negInf :=
  ⟨by decide, fun byte hmem => by
    have hmem : byte ∈ ([0x2d, 0x69, 0x6e, 0x66] : Bytes) := hmem
    have hbyte : byte = 0x2d ∨ byte = 0x69 ∨ byte = 0x6e ∨ byte = 0x66 := by simpa using hmem
    rcases hbyte with rfl | rfl | rfl | rfl <;> decide⟩

theorem isBound_posInf : IsBound (lit "+inf") .posInf :=
  ⟨by decide, fun byte hmem => by
    have hmem : byte ∈ ([0x2b, 0x69, 0x6e, 0x66] : Bytes) := hmem
    have hbyte : byte = 0x2b ∨ byte = 0x69 ∨ byte = 0x6e ∨ byte = 0x66 := by simpa using hmem
    rcases hbyte with rfl | rfl | rfl | rfl <;> decide⟩

theorem isNumberText_of_digits (hne : text ≠ []) (h : ∀ byte ∈ text, Http.isDigit byte = true) :
    isNumberText text = true := by
  have hhead : text.head? ≠ some 0x2d := by
    intro hhead
    exact absurd (h 0x2d (List.mem_of_mem_head? hhead)) (by decide)
  simp only [isNumberText, if_neg hhead, List.isEmpty_eq_false_iff.mpr hne, List.all_eq_true.mpr h, Bool.not_false,
    Bool.and_true]

theorem isNumberText_signedDecimal (i : Int) : isNumberText (signedDecimal i) = true := by
  rw [signedDecimal]
  split
  · simp only [isNumberText, List.head?_cons, List.tail_cons, if_true,
      List.isEmpty_eq_false_iff.mpr (decimal_ne_nil i.natAbs), List.all_eq_true.mpr Http.isDigit_of_mem_decimal,
      Bool.not_false, Bool.and_true]
  · exact isNumberText_of_digits (decimal_ne_nil _) Http.isDigit_of_mem_decimal

section

variable (h : isNumberText text = true)
include h

/-- Numbers are made of digits and minus signs. -/
theorem byte_of_isNumberText : ∀ byte ∈ text, Http.isDigit byte = true ∨ byte = 0x2d := by
  intro byte hmem
  simp only [isNumberText, Bool.and_eq_true] at h
  have hdigits := List.all_eq_true.mp h.2
  split at hdigits
  next hhead =>
    obtain ⟨rest, rfl⟩ := List.head?_eq_some_iff.mp hhead
    rcases List.mem_cons.mp hmem with rfl | hmem
    · exact .inr rfl
    · exact .inl (hdigits byte hmem)
  next => exact .inl (hdigits byte hmem)

theorem plain_of_isNumberText : ∀ byte ∈ text, (byte != 0x20) = true ∧ (byte != 0x5d) = true := by
  intro byte hmem
  rcases byte_of_isNumberText h byte hmem with hdigit | rfl
  · constructor <;> (rw [bne_iff_ne]; rintro rfl; exact absurd hdigit (by decide))
  · decide

theorem not_infinity : text ≠ lit "-inf" ∧ text ≠ lit "+inf" := by
  constructor <;> (rintro rfl; exact absurd h (by decide))

theorem isBound_inclusive : IsBound text (.inclusive text) := by
  refine ⟨?_, plain_of_isNumberText h⟩
  have hhead : text.head? ≠ some 0x28 := by
    intro hhead
    exact absurd (byte_of_isNumberText h 0x28 (List.mem_of_mem_head? hhead)) (by decide)
  rw [parseBound, if_neg (not_infinity h).1, if_neg (not_infinity h).2, if_neg hhead, if_pos h]

theorem isBound_exclusive : IsBound (lit "(" ++ text) (.exclusive text) := by
  have htext : lit "(" ++ text = 0x28 :: text := rfl
  refine ⟨?_, fun byte hmem => ?_⟩
  · have hneg : lit "-inf" = 0x2d :: [0x69, 0x6e, 0x66] := rfl
    have hpos : lit "+inf" = 0x2b :: [0x69, 0x6e, 0x66] := rfl
    have hne : (0x28 : UInt8) :: text ≠ lit "-inf" ∧ (0x28 : UInt8) :: text ≠ lit "+inf" := by
      rw [hneg, hpos]
      simp
    rw [htext, parseBound, if_neg hne.1, if_neg hne.2, List.head?_cons, if_pos rfl, List.tail_cons, if_pos h]
  · rcases List.mem_cons.mp hmem with rfl | hmem
    · decide
    · exact plain_of_isNumberText h byte hmem

end

/-! ## Lists and queries -/

theorem intercalate_bar (first second : Bytes) (texts : List Bytes) :
    (lit "|").intercalate (first :: second :: texts) =
      first ++ 0x7c :: (lit "|").intercalate (second :: texts) := by
  simp [List.intercalate, List.intersperse, lit]

/-- **A phrase is a query.** -/
theorem Phrase.parse (h : Phrase text query) : parseSearchQuery text = some query := by
  have hstar : text ≠ lit "*" := by
    rintro rfl
    exact absurd h.starts (by decide)
  have hread := h.group _ _ (.inl rfl) (Nat.le_refl (4 * text.length + 2))
  rw [List.append_nil] at hread
  rw [parseSearchQuery, if_neg hstar, hread]

end

end Ruvia.Web
