import Mathlib.Algebra.Order.Ring.Cast
import Ruvia.Library.PrefixCodec
import Ruvia.Web.RedisEntityStore

/-!
# `Web.RedisQueryContract` — compiled queries mean their predicates

What a query says of a stored hash (`SearchQuery.Holds`), what the terms of the compiler say of a stored entity, and
by induction on the predicate that the text it compiles to is read as a query that says the same
(`appendExpression_denotes`, `redis_query`).
-/

namespace Ruvia.Web

open Library
open RedisPredicate

/-! ## What a query says -/

/-- A number within a lower bound. -/
def SearchBound.AtMost (reader : NumberReader) (number : ℚ) : SearchBound → Prop
  | .negInf => True
  | .posInf => False
  | .inclusive text => ∃ bound, reader.read text = some bound ∧ bound ≤ number
  | .exclusive text => ∃ bound, reader.read text = some bound ∧ bound < number

/-- A number within an upper bound. -/
def SearchBound.AtLeast (reader : NumberReader) (number : ℚ) : SearchBound → Prop
  | .negInf => False
  | .posInf => True
  | .inclusive text => ∃ bound, reader.read text = some bound ∧ number ≤ bound
  | .exclusive text => ∃ bound, reader.read text = some bound ∧ number < bound

/-- Whether a hash matches a query of the index. A TAG field holds the tags between its commas. -/
def SearchQuery.Holds (reader : NumberReader) (mapping : RedisMapping) (hash : RedisHash) : SearchQuery → Prop
  | .everything => True
  | .tag name value => ∃ field text, mapping.findAttribute name = some field ∧ field.kind = .tag ∧
      field.noIndex = false ∧ hash field.source = some text ∧ value ∈ text.splitOn 0x2c
  | .range name low high => ∃ field text number, mapping.findAttribute name = some field ∧ field.kind = .numeric ∧
      field.noIndex = false ∧ hash field.source = some text ∧ reader.read text = some number ∧
      low.AtMost reader number ∧ high.AtLeast reader number
  | .neg operand => ¬ operand.Holds reader mapping hash
  | .conj left right => left.Holds reader mapping hash ∧ right.Holds reader mapping hash
  | .disj left right => left.Holds reader mapping hash ∨ right.Holds reader mapping hash

/-- The tag terms of a query. -/
def SearchQuery.tagTerms : SearchQuery → List (Bytes × Bytes)
  | .tag name value => [(name, value)]
  | .neg operand => operand.tagTerms
  | .conj left right => left.tagTerms ++ right.tagTerms
  | .disj left right => left.tagTerms ++ right.tagTerms
  | _ => []

/-! ## Encoded tags -/

/-- A digit of a lowercase hexadecimal number. -/
def IsLowerHexDigit (byte : UInt8) : Prop :=
  0x30 ≤ byte.toNat ∧ byte.toNat ≤ 0x39 ∨ 0x61 ≤ byte.toNat ∧ byte.toNat ≤ 0x66

theorem isLowerHexDigit_httpLowerHexDigit (value : Nat) : IsLowerHexDigit (Http.httpLowerHexDigit value) := by
  rw [IsLowerHexDigit, Http.httpLowerHexDigit]
  split
  all_goals
    rw [UInt8.toNat_ofNat']
    omega

theorem httpLowerHex_digits (value : Bytes) : ∀ byte ∈ httpLowerHex value, IsLowerHexDigit byte := by
  intro byte hmem
  obtain ⟨source, -, hmem⟩ := List.mem_flatMap.mp hmem
  rcases List.mem_cons.mp hmem with rfl | hmem
  · exact isLowerHexDigit_httpLowerHexDigit _
  · rw [List.mem_singleton.mp hmem]
    exact isLowerHexDigit_httpLowerHexDigit _

theorem IsLowerHexDigit.isSafe {byte : UInt8} (h : IsLowerHexDigit byte) : isSafeIdentifierByte byte = true := by
  simp only [isSafeIdentifierByte, Bool.or_eq_true, Bool.and_eq_true, decide_eq_true_eq, beq_iff_eq,
    UInt8.le_iff_toNat_le, UInt8.reduceToNat]
  rcases h with h | h
  · exact .inr h
  · exact .inl (.inl (.inr ⟨h.1, h.2.trans (by omega)⟩))

theorem isWord_encodeRedisTag (value : Bytes) : IsWord (encodeRedisTag value) := by
  refine ⟨List.cons_ne_nil _ _, fun byte hmem => ?_⟩
  rcases List.mem_cons.mp hmem with rfl | hmem
  · decide
  · exact (httpLowerHex_digits value byte hmem).isSafe

theorem httpLowerHexDigit_injective {left right : Nat}
    (h : Http.httpLowerHexDigit left = Http.httpLowerHexDigit right) : left % 16 = right % 16 := by
  have hleft := Http.httpDecodeHexNibble_lowerHexDigit left
  rw [h, Http.httpDecodeHexNibble_lowerHexDigit] at hleft
  exact (Option.some.inj hleft).symm

theorem httpLowerHex_injective {left right : Bytes} (h : httpLowerHex left = httpLowerHex right) : left = right := by
  induction left generalizing right with
  | nil =>
    cases right with
    | nil => rfl
    | cons byte right => cases h
  | cons first left ih =>
    cases right with
    | nil => cases h
    | cons second right =>
      simp only [httpLowerHex, List.flatMap_cons, List.cons_append, List.nil_append, List.cons.injEq] at h
      have hhigh := httpLowerHexDigit_injective h.1
      have hlow := httpLowerHexDigit_injective h.2.1
      have hfirst := first.toNat_lt
      have hsecond := second.toNat_lt
      rw [ih h.2.2, show first = second from UInt8.toNat_inj.mp (by omega)]

/-- Text without a comma is one tag. -/
theorem mem_splitOn_of_isWord {text value : Bytes} (h : IsWord text) : value ∈ text.splitOn 0x2c ↔ value = text := by
  have hcomma : ∀ byte ∈ text, (byte == (0x2c : UInt8)) = false := by
    intro byte hmem
    rw [beq_eq_false_iff_ne]
    rintro rfl
    exact absurd (h.2 _ hmem) (by decide)
  rw [List.splitOn, List.splitOnP_eq_singleton hcomma, List.mem_singleton]

/-! ## Terms of stored columns -/

theorem isWord_presentValue : IsWord presentValue := isWord_of_isSafeIdentifier (by decide)

section

variable {reader : NumberReader} {mapping : RedisMapping} {hash : RedisHash} {entity : RedisEntity} {name raw : Bytes}

section

variable (hmapping : mapping.Normalized)
include hmapping

theorem attribute_of_index {index : RedisIndexDefinition}
    (hindex : index ∈ mapping.indexes) {field : SchemaAttribute} (hfield : field ∈ index.attributes) :
    mapping.findAttribute field.name = some field :=
  hmapping.findAttribute_eq (List.mem_flatMap.mpr ⟨index, hindex, hfield⟩)

/-- The presence of an indexed column is an attribute. -/
theorem findAttribute_present (hkind : mapping.indexKind name ≠ .none) :
    mapping.findAttribute (presentShadow ++ name) =
      some ⟨presentShadow ++ name, presentShadow ++ name, .tag, false, false⟩ := by
  obtain ⟨index, hindex, rfl, -⟩ := hmapping.exists_index hkind
  exact attribute_of_index hmapping hindex (List.mem_cons_of_mem _ List.mem_cons_self)

theorem findAttribute_tag (hkind : mapping.indexKind name = .tag) :
    mapping.findAttribute name = some ⟨tagShadow ++ name, name, .tag, false, false⟩ := by
  obtain ⟨index, hindex, rfl, hindexKind⟩ := hmapping.exists_index (by rw [hkind]; decide)
  have hfield : (⟨tagShadow ++ index.column, index.column, .tag, false, false⟩ : SchemaAttribute) ∈
      index.attributes := by
    rw [RedisIndexDefinition.attributes, if_pos (hindexKind.trans hkind)]
    exact List.mem_cons_self
  exact attribute_of_index hmapping hindex hfield

theorem findAttribute_numeric (hkind : mapping.indexKind name = .numeric) :
    ∃ sortable, mapping.findAttribute name = some ⟨name, name, .numeric, sortable, false⟩ := by
  obtain ⟨index, hindex, rfl, hindexKind⟩ := hmapping.exists_index (by rw [hkind]; decide)
  rw [hkind] at hindexKind
  have hfield : (⟨index.column, index.column, .numeric, index.sortable, false⟩ : SchemaAttribute) ∈
      index.attributes := by
    rw [RedisIndexDefinition.attributes, if_neg (by rw [hindexKind]; decide), if_neg (by rw [hindexKind]; decide)]
    exact List.mem_cons_self
  exact ⟨index.sortable, attribute_of_index hmapping hindex hfield⟩

end

variable {column : RedisColumnInfo}

/-- **Presence** is asked of the presence shadow. -/
theorem holds_presence (hmapping : mapping.Normalized) (hstored : StoredEntity reader mapping hash entity)
    (hcolumn : column ∈ mapping.columns) (hkind : mapping.indexKind column.name ≠ .none) (value : Bytes) :
    (SearchQuery.tag (presentShadow ++ column.name) value).Holds reader mapping hash ↔
      value = presentValue ∧ entity column.name ≠ none := by
  have hpresent := (hstored.columns hmapping column hcolumn).present
  simp only [SearchQuery.Holds, findAttribute_present hmapping hkind]
  constructor
  · rintro ⟨field, text, hfield, -, -, htext, hmem⟩
    cases hfield
    rw [hpresent, Option.map_eq_some_iff] at htext
    obtain ⟨held, hheld, rfl⟩ := htext
    exact ⟨(mem_splitOn_of_isWord isWord_presentValue).mp hmem, by rw [hheld]; simp⟩
  · rintro ⟨rfl, hne⟩
    obtain ⟨held, hheld⟩ := Option.ne_none_iff_exists'.mp hne
    exact ⟨_, presentValue, rfl, rfl, rfl, by rw [hpresent, hheld]; rfl,
      (mem_splitOn_of_isWord isWord_presentValue).mpr rfl⟩

/-- **An encoded tag** is asked of the tag shadow. -/
theorem holds_tag (hmapping : mapping.Normalized) (hstored : StoredEntity reader mapping hash entity)
    (hcolumn : column ∈ mapping.columns) (hkind : mapping.indexKind column.name = .tag)
    (hshadow : isTagShadowKind column.kind = true) (raw : Bytes) :
    (SearchQuery.tag column.name (encodeRedisTag raw)).Holds reader mapping hash ↔
      ∃ held, entity column.name = some held ∧ encodeRedisScalar held = raw := by
  have htag := (hstored.columns hmapping column hcolumn).tag hshadow
  simp only [SearchQuery.Holds, findAttribute_tag hmapping hkind]
  constructor
  · rintro ⟨field, text, hfield, -, -, htext, hmem⟩
    cases hfield
    rw [htag, Option.map_eq_some_iff] at htext
    obtain ⟨held, hheld, rfl⟩ := htext
    have hsame := (mem_splitOn_of_isWord (isWord_encodeRedisTag _)).mp hmem
    exact ⟨held, hheld, (httpLowerHex_injective (List.cons.inj hsame).2).symm⟩
  · rintro ⟨held, hheld, rfl⟩
    exact ⟨_, encodeRedisTag (encodeRedisScalar held), rfl, rfl, rfl, by rw [htag, hheld]; rfl,
      (mem_splitOn_of_isWord (isWord_encodeRedisTag _)).mpr rfl⟩

/-- An integer whose double is in the exact range is that double. -/
theorem roundIntToDouble_of_abs_le {i : Int} (h : |(roundIntToDouble i : ℚ)| ≤ redisMaxExactInteger) :
    roundIntToDouble i = i := by
  refine roundIntToDouble_of_lt (roundToDouble_lt_iff.mp ?_)
  rw [← natAbs_roundIntToDouble]
  rw [redisMaxExactInteger, ← Int.cast_abs, Int.abs_eq_natAbs] at h
  have : (roundIntToDouble i).natAbs ≤ 9007199254740991 := by exact_mod_cast h
  omega

/-- A number in the exact range is read back as it is. -/
theorem read_encodeRedisScalar {kind : RedisColumnKind} {held : RedisScalar} {number : ℚ} (hfits : held.Fits kind)
    (hkind : isTagShadowKind kind = false) (hread : reader.read (encodeRedisScalar held) = some number)
    (hexact : |number| ≤ redisMaxExactInteger) : held.number reader = some number := by
  cases held with
  | text value => rw [show kind = .text from hfits] at hkind; cases hkind
  | bool value => rw [show kind = .boolValue from hfits] at hkind; cases hkind
  | signed value =>
    rw [encodeRedisScalar, reader.read_signedDecimal] at hread
    cases hread
    rw [RedisScalar.number, roundIntToDouble_of_abs_le hexact]
  | unsigned value =>
    rw [encodeRedisScalar, reader.read_signedDecimal] at hread
    cases hread
    rw [RedisScalar.number, roundIntToDouble_of_abs_le hexact]
    rfl
  | real written => exact hread

/-- **A range** is asked of the column. -/
theorem holds_range (hmapping : mapping.Normalized) (hstored : StoredEntity reader mapping hash entity)
    (hcolumn : column ∈ mapping.columns) (hkind : mapping.indexKind column.name = .numeric)
    (hnumeric : isTagShadowKind column.kind = false) (low high : SearchBound) :
    (SearchQuery.range column.name low high).Holds reader mapping hash ↔
      ∃ held number, entity column.name = some held ∧ held.number reader = some number ∧
        low.AtMost reader number ∧ high.AtLeast reader number := by
  have hkept := hstored.columns hmapping column hcolumn
  obtain ⟨sortable, hattribute⟩ := findAttribute_numeric hmapping hkind
  simp only [SearchQuery.Holds, hattribute]
  constructor
  · rintro ⟨field, text, number, hfield, -, -, htext, hread, hlow, hhigh⟩
    cases hfield
    rw [hkept.field, Option.map_eq_some_iff] at htext
    obtain ⟨held, hheld, rfl⟩ := htext
    obtain ⟨exactNumber, hexactRead, hexact⟩ := hkept.exactly hnumeric hkind held hheld
    rw [hread, Option.some.injEq] at hexactRead
    subst hexactRead
    exact ⟨held, number, hheld, read_encodeRedisScalar (hkept.fits held hheld) hnumeric hread hexact, hlow, hhigh⟩
  · rintro ⟨held, number, hheld, hnumber, hlow, hhigh⟩
    obtain ⟨exactNumber, hread, hexact⟩ := hkept.exactly hnumeric hkind held hheld
    have hsame := read_encodeRedisScalar (hkept.fits held hheld) hnumeric hread hexact
    rw [hnumber, Option.some.injEq] at hsame
    subst hsame
    exact ⟨_, encodeRedisScalar held, number, rfl, rfl, rfl, by rw [hkept.field, hheld]; rfl, hread, hlow, hhigh⟩

end

/-! ## Compiled predicates -/

/-- The text a TAG term encodes for a literal. -/
def RedisLiteral.tagText : RedisLiteral → Option Bytes
  | .string text => some text
  | .boolean value => some (if value then lit "1" else lit "0")
  | _ => none

/-- The literals of a predicate. -/
def RedisPredicate.literals : RedisPredicate → List RedisLiteral
  | .compare _ _ value => [value]
  | .inList _ values => values
  | .notInList _ values => values
  | .between _ lower upper => [lower, upper]
  | .logicalAnd left right => left.literals ++ right.literals
  | .logicalOr left right => left.literals ++ right.literals
  | .logicalNot operand => operand.literals

/-- A query that says `meaning` of every stored entity; its tags are presence markers or encoded literals. -/
structure Says (reader : NumberReader) (mapping : RedisMapping) (literals : List RedisLiteral)
    (meaning : RedisEntity → Prop) (query : SearchQuery) : Prop where
  holds : ∀ {hash entity}, StoredEntity reader mapping hash entity →
    (query.Holds reader mapping hash ↔ meaning entity)
  tags : ∀ term ∈ query.tagTerms, (∃ column, term.1 = presentShadow ++ column) ∨
    ∃ literal ∈ literals, ∃ raw, literal.tagText = some raw ∧ term.2 = encodeRedisTag raw

/-- Text that is read as such a query. -/
def Denotes (reader : NumberReader) (mapping : RedisMapping) (literals : List RedisLiteral)
    (meaning : RedisEntity → Prop) (text : Bytes) : Prop :=
  ∃ query, Phrase text query ∧ Says reader mapping literals meaning query

section

variable {reader : NumberReader} {mapping : RedisMapping} {literals others : List RedisLiteral}
  {meaning other : RedisEntity → Prop} {query second : SearchQuery} {text left right : Bytes}

section

variable (h : Says reader mapping literals meaning query)
include h

theorem Says.congr
    (hsame : ∀ {hash entity}, StoredEntity reader mapping hash entity → (meaning entity ↔ other entity)) :
    Says reader mapping literals other query :=
  ⟨fun hstored => (h.holds hstored).trans (hsame hstored), h.tags⟩

theorem Says.mono (hsub : literals ⊆ others) : Says reader mapping others meaning query := by
  refine ⟨h.holds, fun term hterm => (h.tags term hterm).imp_right ?_⟩
  rintro ⟨literal, hliteral, hraw⟩
  exact ⟨literal, hsub hliteral, hraw⟩

theorem Says.neg : Says reader mapping literals (fun entity => ¬ meaning entity) (.neg query) :=
  ⟨fun hstored => not_congr (h.holds hstored), h.tags⟩

theorem Says.conj (hsecond : Says reader mapping others other second) :
    Says reader mapping (literals ++ others) (fun entity => meaning entity ∧ other entity) (.conj query second) := by
  refine ⟨fun hstored => and_congr (h.holds hstored) (hsecond.holds hstored), fun term hterm => ?_⟩
  rcases List.mem_append.mp hterm with hterm | hterm
  · exact (h.mono (List.subset_append_left _ _)).tags term hterm
  · exact (hsecond.mono (List.subset_append_right _ _)).tags term hterm

theorem Says.disj (hsecond : Says reader mapping others other second) :
    Says reader mapping (literals ++ others) (fun entity => meaning entity ∨ other entity) (.disj query second) := by
  refine ⟨fun hstored => or_congr (h.holds hstored) (hsecond.holds hstored), fun term hterm => ?_⟩
  rcases List.mem_append.mp hterm with hterm | hterm
  · exact (h.mono (List.subset_append_left _ _)).tags term hterm
  · exact (hsecond.mono (List.subset_append_right _ _)).tags term hterm

end

section

variable (h : Denotes reader mapping literals meaning text)
include h

theorem Denotes.congr
    (hsame : ∀ {hash entity}, StoredEntity reader mapping hash entity → (meaning entity ↔ other entity)) :
    Denotes reader mapping literals other text := by
  obtain ⟨query, hphrase, hspec⟩ := h
  exact ⟨query, hphrase, hspec.congr hsame⟩

theorem Denotes.mono (hsub : literals ⊆ others) : Denotes reader mapping others meaning text := by
  obtain ⟨query, hphrase, hspec⟩ := h
  exact ⟨query, hphrase, hspec.mono hsub⟩

theorem Denotes.neg : Denotes reader mapping literals (fun entity => ¬ meaning entity) (lit "-" ++ text) := by
  obtain ⟨query, hphrase, hspec⟩ := h
  exact ⟨_, hphrase.neg, hspec.neg⟩

theorem Denotes.group : Denotes reader mapping literals meaning (lit "(" ++ text ++ lit ")") := by
  obtain ⟨query, hphrase, hspec⟩ := h
  exact ⟨_, hphrase.group.phrase, hspec⟩

end

section

variable (h : Denotes reader mapping literals meaning left)
include h

theorem Denotes.conj
    (hright : Denotes reader mapping others other right) :
    Denotes reader mapping (literals ++ others) (fun entity => meaning entity ∧ other entity)
      (lit "(" ++ left ++ lit " " ++ right ++ lit ")") := by
  obtain ⟨query, hphrase, hspec⟩ := h
  obtain ⟨second, hsecond, hsaysSecond⟩ := hright
  refine ⟨_, ?_, hspec.conj hsaysSecond⟩
  rw [List.append_assoc (lit "("), List.append_assoc (lit "("), List.append_assoc left]
  exact (hphrase.beside hsecond).phrase

theorem Denotes.disj
    (hright : Denotes reader mapping others other right) :
    Denotes reader mapping (literals ++ others) (fun entity => meaning entity ∨ other entity)
      (lit "(" ++ left ++ lit "|" ++ right ++ lit ")") := by
  obtain ⟨query, hphrase, hspec⟩ := h
  obtain ⟨second, hsecond, hsaysSecond⟩ := hright
  refine ⟨_, ?_, hspec.disj hsaysSecond⟩
  rw [List.append_assoc (lit "("), List.append_assoc (lit "("), List.append_assoc left]
  exact (hphrase.bar hsecond.group).phrase

end

end

/-! ## Terms of a column -/

section

variable {reader : NumberReader} {mapping : RedisMapping} {column : RedisColumnInfo} {value : RedisLiteral}
  {raw text low high : Bytes} {lowBound highBound : SearchBound}

theorem isWord_column (hmapping : mapping.Normalized) (hkind : mapping.indexKind column.name ≠ .none) :
    IsWord column.name := by
  obtain ⟨index, hindex, hname, -⟩ := hmapping.exists_index hkind
  exact hname ▸ isWord_of_isSafeIdentifier (hmapping.safe index hindex)

theorem denotes_shadow (hmapping : mapping.Normalized) (hcolumn : column ∈ mapping.columns)
    (hkind : mapping.indexKind column.name ≠ .none) {marker : Bytes} (hmarker : IsWord marker) :
    Denotes reader mapping [] (fun entity => marker = presentValue ∧ entity column.name ≠ none)
      (appendShadowTagTerm presentShadow column.name marker) := by
  refine ⟨_, phrase_tag ((isWord_of_isSafeIdentifier (by decide)).append (isWord_column hmapping hkind)) hmarker,
    fun hstored => holds_presence hmapping hstored hcolumn hkind marker, fun term hterm => .inl ⟨column.name, ?_⟩⟩
  rw [List.mem_singleton.mp hterm]

/-- The presence of a column. -/
theorem denotes_presence (hmapping : mapping.Normalized) (hcolumn : column ∈ mapping.columns)
    (hkind : mapping.indexKind column.name ≠ .none) :
    Denotes reader mapping [] (fun entity => entity column.name ≠ none) (appendPresence column.name) :=
  (denotes_shadow hmapping hcolumn hkind isWord_presentValue).congr fun _ => ⟨fun h => h.2, fun h => ⟨rfl, h⟩⟩

/-- No marker is `x00`. -/
theorem denotes_never (hmapping : mapping.Normalized) (hcolumn : column ∈ mapping.columns)
    (hkind : mapping.indexKind column.name ≠ .none) :
    Denotes reader mapping [] (fun _ => False) (appendShadowTagTerm presentShadow column.name (lit "x00")) :=
  (denotes_shadow hmapping hcolumn hkind (isWord_of_isSafeIdentifier (by decide))).congr fun _ =>
    ⟨fun h => absurd h.1 (by decide), False.elim⟩

theorem rawTagValue_ok (hraw : rawTagValue value column.kind = .ok raw) :
    value.tagText = some raw ∧
      ∀ held : RedisScalar, held.Fits column.kind → (encodeRedisScalar held = raw ↔ held.Equals reader value) := by
  unfold rawTagValue at hraw
  split at hraw
  next text hkind =>
    cases hraw
    refine ⟨rfl, fun held hfits => ?_⟩
    rw [hkind] at hfits
    cases held with
    | text value => exact Iff.rfl
    | real written => exact absurd hfits (by simp [RedisScalar.Fits])
    | _ => cases hfits
  next boolean hkind =>
    cases hraw
    refine ⟨rfl, fun held hfits => ?_⟩
    rw [hkind] at hfits
    cases held with
    | bool value => cases value <;> cases boolean <;> simp [encodeRedisScalar, RedisScalar.Equals, lit]
    | real written => exact absurd hfits (by simp [RedisScalar.Fits])
    | _ => cases hfits
  · cases hraw

/-- Equality with a string or Boolean. -/
theorem denotes_tag (hmapping : mapping.Normalized) (hcolumn : column ∈ mapping.columns)
    (hkind : mapping.indexKind column.name = .tag) (hraw : rawTagValue value column.kind = .ok raw) :
    Denotes reader mapping [value]
      (fun entity => ∃ held, entity column.name = some held ∧ held.Equals reader value)
      (appendEncodedTagTerm column.name raw) := by
  have hne : mapping.indexKind column.name ≠ .none := by rw [hkind]; decide
  obtain ⟨htext, hequals⟩ := @rawTagValue_ok reader column value raw hraw
  refine ⟨_, phrase_tag (isWord_column hmapping hne) (isWord_encodeRedisTag raw), fun hstored => ?_,
    fun term hterm => .inr ⟨value, List.mem_singleton_self _, raw, htext, ?_⟩⟩
  · rw [holds_tag hmapping hstored hcolumn hkind (hmapping.tag_column hcolumn hkind)]
    refine exists_congr fun held => and_congr_right fun hheld => hequals held ?_
    exact (hstored.columns hmapping column hcolumn).fits held hheld
  · rw [List.mem_singleton.mp hterm]

variable {held : RedisScalar}

/-- A numeric column holds a number. -/
theorem stored_number (hmapping : mapping.Normalized) (hcolumn : column ∈ mapping.columns)
    (hkind : mapping.indexKind column.name = .numeric) {hash : RedisHash} {entity : RedisEntity}
    (hstored : StoredEntity reader mapping hash entity) (hheld : entity column.name = some held) :
    ∃ number, held.number reader = some number := by
  have hnumeric := hmapping.numeric_column hcolumn hkind
  have hkept := hstored.columns hmapping column hcolumn
  obtain ⟨number, hread, hexact⟩ := hkept.exactly hnumeric hkind held hheld
  exact ⟨number, read_encodeRedisScalar (hkept.fits held hheld) hnumeric hread hexact⟩

/-- A range that says `relation` of the number of a value. -/
theorem denotes_range (hmapping : mapping.Normalized) (hcolumn : column ∈ mapping.columns)
    (hkind : mapping.indexKind column.name = .numeric) (hlow : IsBound low lowBound) (hhigh : IsBound high highBound)
    {relation : RedisScalar → Prop}
    (hrelation : ∀ {held number}, held.number reader = some number →
      (lowBound.AtMost reader number ∧ highBound.AtLeast reader number ↔ relation held)) :
    Denotes reader mapping [] (fun entity => ∃ held, entity column.name = some held ∧ relation held)
      (appendNumericRange column.name low high) := by
  have hne : mapping.indexKind column.name ≠ .none := by rw [hkind]; decide
  refine ⟨_, phrase_range (isWord_column hmapping hne) hlow hhigh, fun hstored => ?_,
    fun term hterm => (by cases hterm)⟩
  rw [holds_range hmapping hstored hcolumn hkind (hmapping.numeric_column hcolumn hkind)]
  constructor
  · rintro ⟨held, number, hheld, hnumber, hbounds⟩
    exact ⟨held, hheld, (hrelation hnumber).mp hbounds⟩
  · rintro ⟨held, hheld, hholds⟩
    obtain ⟨number, hnumber⟩ := stored_number hmapping hcolumn hkind hstored hheld
    exact ⟨held, number, hheld, hnumber, (hrelation hnumber).mpr hholds⟩

theorem exactInteger_ok {i : Int} (h : exactInteger i = .ok text) :
    reader.read (signedDecimal i) = some (i : ℚ) ∧ text = signedDecimal i := by
  obtain ⟨⟨⟩, hrequire, rfl⟩ := map_eq_ok_iff.mp h
  rw [requireRedisExactNumber] at hrequire
  split at hrequire
  · cases hrequire
  next hle =>
    rw [reader.read_signedDecimal, roundIntToDouble_of_abs_le (not_lt.mp hle)]
    exact ⟨rfl, rfl⟩

/-- **The text of a number** is read as the number. -/
theorem formatCanonicalNumeric_ok {exclusive : Bool} (h : formatCanonicalNumeric value exclusive = .ok text) :
    ∃ number bound, value.number = some bound ∧ isNumberText number = true ∧ reader.read number = some bound ∧
      text = if exclusive then lit "(" ++ number else number := by
  cases value with
  | signedInteger value | unsignedInteger value =>
    obtain ⟨number, hnumber, rfl⟩ := map_eq_ok_iff.mp h
    obtain ⟨hread, rfl⟩ := @exactInteger_ok reader _ _ hnumber
    exact ⟨_, _, rfl, isNumberText_signedDecimal _, hread, rfl⟩
  | null | string text | boolean value => cases h

theorem equals_iff {number bound : ℚ} (hnumber : held.number reader = some number)
    (hbound : value.number = some bound) : held.Equals reader value ↔ number = bound := by
  have hsame : (∃ third, held.number reader = some third ∧ value.number = some third) ↔ number = bound := by
    rw [hnumber, hbound]
    simp [eq_comm]
  rw [← hsame]
  cases held with
  | text held | bool held => cases hnumber
  | _ => rfl

theorem relates_iff {number bound : ℚ} {relation : ℚ → ℚ → Prop} (hnumber : held.number reader = some number)
    (hbound : value.number = some bound) :
    held.Relates reader relation value ↔ relation number bound := by
  rw [RedisScalar.Relates, hnumber, hbound]
  simp

/-- Equality with a number. -/
theorem denotes_number (hmapping : mapping.Normalized) (hcolumn : column ∈ mapping.columns)
    (hkind : mapping.indexKind column.name = .numeric) (h : formatCanonicalNumeric value false = .ok text) :
    Denotes reader mapping []
      (fun entity => ∃ held, entity column.name = some held ∧ held.Equals reader value)
      (appendNumericRange column.name text text) := by
  obtain ⟨number, bound, hbound, htext, hread, rfl⟩ := @formatCanonicalNumeric_ok reader _ _ _ h
  refine denotes_range hmapping hcolumn hkind (isBound_inclusive htext) (isBound_inclusive htext)
    fun {held held_number} hnumber => ?_
  rw [equals_iff hnumber hbound, SearchBound.AtMost, SearchBound.AtLeast, hread]
  simp only [Option.some.injEq, exists_eq_left']
  exact ⟨fun h => le_antisymm h.2 h.1, fun h => ⟨h.ge, h.le⟩⟩

variable {operation : RedisBinaryOperator}

/-- **A comparison with NULL** is one of presence. -/
theorem appendNullComparison_denotes (hmapping : mapping.Normalized) (hcolumn : column ∈ mapping.columns)
    (hkind : mapping.indexKind column.name ≠ .none) {unsupported : String}
    (h : appendNullComparison column.name operation unsupported = .ok text) (field : RedisField)
    (hfield : field.name = column.name) :
    Denotes reader mapping [.null] (fun entity => (compare field operation .null).Holds reader entity)
      text := by
  have hpresent := @denotes_presence reader mapping column hmapping hcolumn hkind
  cases operation with
  | equal =>
    cases h
    refine (hpresent.neg.congr fun {_ entity} _ => ?_).mono (List.nil_subset _)
    rw [RedisPredicate.Holds, hfield]
    exact not_not
  | notEqual =>
    cases h
    refine (hpresent.congr fun {_ entity} _ => ?_).mono (List.nil_subset _)
    rw [RedisPredicate.Holds, hfield]
  | _ => cases h

/-- Presence and not a value: what `<>` and NOT IN say. -/
theorem denotes_other {literals : List RedisLiteral} {same : RedisScalar → Prop} {present : Bytes}
    (hpresent : Denotes reader mapping [] (fun entity => entity column.name ≠ none) present)
    (h : Denotes reader mapping literals (fun entity => ∃ held, entity column.name = some held ∧ same held) text) :
    Denotes reader mapping literals (fun entity => ∃ held, entity column.name = some held ∧ ¬ same held)
      (lit "(" ++ present ++ lit " -" ++ text ++ lit ")") := by
  have hboth := hpresent.conj h.neg
  have htext : lit "(" ++ present ++ lit " " ++ (lit "-" ++ text) ++ lit ")" =
      lit "(" ++ present ++ lit " -" ++ text ++ lit ")" := by
    simp [lit]
  rw [htext] at hboth
  refine (hboth.congr fun {_ entity} _ => ?_).mono (by simp)
  constructor
  · rintro ⟨hne, hnot⟩
    obtain ⟨held, hheld⟩ := Option.ne_none_iff_exists'.mp hne
    exact ⟨held, hheld, fun hsame => hnot ⟨held, hheld, hsame⟩⟩
  · rintro ⟨held, hheld, hnot⟩
    refine ⟨by rw [hheld]; simp, ?_⟩
    rintro ⟨other, hother, hsame⟩
    rw [hheld, Option.some.injEq] at hother
    exact hnot (hother ▸ hsame)

/-- What is said of the value that is held is the comparison. -/
theorem Denotes.compare {literals : List RedisLiteral} {field : RedisField} {operation : RedisBinaryOperator}
    (h : Denotes reader mapping literals
      (fun entity => ∃ held, entity column.name = some held ∧ operation.Holds reader held value) text)
    (hvalue : value ≠ .null) (hfield : field.name = column.name) (hsub : literals ⊆ [value]) :
    Denotes reader mapping [value] (fun entity => (compare field operation value).Holds reader entity)
      text := by
  refine (h.congr fun {_ entity} _ => ?_).mono hsub
  rw [← hfield]
  cases value with
  | null => exact absurd rfl hvalue
  | _ => cases operation <;> rfl

/-- **A comparison of a TAG column.** -/
theorem appendTagComparison_denotes (hmapping : mapping.Normalized) (hcolumn : column ∈ mapping.columns)
    (hkind : mapping.indexKind column.name = .tag)
    (h : appendTagComparison column.name value column.kind operation = .ok text) (field : RedisField)
    (hfield : field.name = column.name) :
    Denotes reader mapping [value] (fun entity => (compare field operation value).Holds reader entity)
      text := by
  have hne : mapping.indexKind column.name ≠ .none := by rw [hkind]; decide
  by_cases hvalue : value = .null
  · subst hvalue
    exact appendNullComparison_denotes hmapping hcolumn hne h field hfield
  have hcompare : ∃ raw, rawTagValue value column.kind = .ok raw ∧
      (operation = .equal ∧ text = appendEncodedTagTerm column.name raw ∨
        operation = .notEqual ∧ text = lit "(" ++ appendPresence column.name ++ lit " -" ++
          appendEncodedTagTerm column.name raw ++ lit ")") := by
    unfold appendTagComparison at h
    cases value with
    | null => exact absurd rfl hvalue
    | _ =>
      obtain ⟨raw, hraw, h⟩ := bind_eq_ok_iff.mp h
      refine ⟨raw, hraw, ?_⟩
      cases operation <;> cases h <;> simp
  obtain ⟨raw, hraw, ⟨rfl, rfl⟩ | ⟨rfl, rfl⟩⟩ := hcompare
  · exact @Denotes.compare _ _ _ _ _ _ _ .equal (denotes_tag hmapping hcolumn hkind hraw) hvalue hfield
      (List.Subset.refl _)
  · exact @Denotes.compare _ _ _ _ _ _ _ .notEqual
      (denotes_other (denotes_presence hmapping hcolumn hne) (denotes_tag hmapping hcolumn hkind hraw)) hvalue hfield
      (List.Subset.refl _)

/-- **A comparison of a NUMERIC column.** -/
theorem appendNumericComparison_denotes (hmapping : mapping.Normalized) (hcolumn : column ∈ mapping.columns)
    (hkind : mapping.indexKind column.name = .numeric)
    (h : appendNumericComparison column.name value operation = .ok text) (field : RedisField)
    (hfield : field.name = column.name) :
    Denotes reader mapping [value] (fun entity => (compare field operation value).Holds reader entity)
      text := by
  have hne : mapping.indexKind column.name ≠ .none := by rw [hkind]; decide
  by_cases hvalue : value = .null
  · subst hvalue
    exact appendNullComparison_denotes hmapping hcolumn hne h field hfield
  have hrange : ∀ {low high : Bytes} {lowBound highBound : SearchBound}, IsBound low lowBound →
      IsBound high highBound → (∀ {held number}, held.number reader = some number →
        (lowBound.AtMost reader number ∧ highBound.AtLeast reader number ↔ operation.Holds reader held value)) →
      text = appendNumericRange column.name low high →
      Denotes reader mapping [value]
        (fun entity => (compare field operation value).Holds reader entity) text := by
    rintro low high lowBound highBound hlow hhigh hrelation rfl
    exact (denotes_range hmapping hcolumn hkind hlow hhigh hrelation).compare hvalue hfield (List.nil_subset _)
  have hcompare : ∃ exclusive number, formatCanonicalNumeric value exclusive = .ok number ∧
      (operation = .equal ∧ exclusive = false ∧ text = appendNumericRange column.name number number ∨
        operation = .notEqual ∧ exclusive = false ∧
          text = lit "(" ++ appendNumericRange column.name (lit "-inf") (lit "+inf") ++ lit " -" ++
            appendNumericRange column.name number number ++ lit ")" ∨
        operation = .less ∧ exclusive = true ∧ text = appendNumericRange column.name (lit "-inf") number ∨
        operation = .lessEqual ∧ exclusive = false ∧ text = appendNumericRange column.name (lit "-inf") number ∨
        operation = .greater ∧ exclusive = true ∧ text = appendNumericRange column.name number (lit "+inf") ∨
        operation = .greaterEqual ∧ exclusive = false ∧
          text = appendNumericRange column.name number (lit "+inf")) := by
    unfold appendNumericComparison at h
    cases value with
    | null => exact absurd rfl hvalue
    | _ =>
      cases operation <;> obtain ⟨number, hnumber, h⟩ := bind_eq_ok_iff.mp h <;> cases h <;>
        exact ⟨_, number, hnumber, by simp⟩
  obtain ⟨exclusive, numberText, hformat, hcases⟩ := hcompare
  obtain ⟨number, bound, hbound, htext, hread, hnumberText⟩ := @formatCanonicalNumeric_ok reader _ _ _ hformat
  rcases hcases with ⟨rfl, rfl, ht⟩ | ⟨rfl, rfl, ht⟩ | ⟨rfl, rfl, ht⟩ | ⟨rfl, rfl, ht⟩ | ⟨rfl, rfl, ht⟩ | ⟨rfl, rfl, ht⟩
  · rw [ht]
    exact @Denotes.compare _ _ _ _ _ _ _ .equal (denotes_number hmapping hcolumn hkind hformat) hvalue hfield
      (List.nil_subset _)
  · have hall : Denotes reader mapping [] (fun entity => entity column.name ≠ none)
        (appendNumericRange column.name (lit "-inf") (lit "+inf")) := by
      refine (@denotes_range reader mapping column _ _ _ _ hmapping hcolumn hkind isBound_negInf isBound_posInf
        (fun _ => True) fun _ => by simp [SearchBound.AtMost, SearchBound.AtLeast]).congr fun _ => ?_
      simp [Option.ne_none_iff_exists']
    rw [ht]
    exact @Denotes.compare _ _ _ _ _ _ _ .notEqual
      (denotes_other hall (denotes_number hmapping hcolumn hkind hformat)) hvalue hfield (List.nil_subset _)
  · refine hrange isBound_negInf (isBound_exclusive htext) (fun hnumber => ?_) (by rw [ht, hnumberText]; rfl)
    rw [RedisBinaryOperator.Holds, relates_iff hnumber hbound]
    simp [SearchBound.AtMost, SearchBound.AtLeast, hread]
  · refine hrange isBound_negInf (isBound_inclusive htext) (fun hnumber => ?_) (by rw [ht, hnumberText]; rfl)
    rw [RedisBinaryOperator.Holds, relates_iff hnumber hbound]
    simp [SearchBound.AtMost, SearchBound.AtLeast, hread]
  · refine hrange (isBound_exclusive htext) isBound_posInf (fun hnumber => ?_) (by rw [ht, hnumberText]; rfl)
    rw [RedisBinaryOperator.Holds, relates_iff hnumber hbound]
    simp [SearchBound.AtMost, SearchBound.AtLeast, hread]
  · refine hrange (isBound_inclusive htext) isBound_posInf (fun hnumber => ?_) (by rw [ht, hnumberText]; rfl)
    rw [RedisBinaryOperator.Holds, relates_iff hnumber hbound]
    simp [SearchBound.AtMost, SearchBound.AtLeast, hread]

end

/-! ## The tree -/

section

variable {reader : NumberReader} {mapping : RedisMapping} {column : RedisColumnInfo} {field : RedisField}
  {value lower upper : RedisLiteral} {values : List RedisLiteral} {kind : RedisIndexKind} {text : Bytes}

theorem columnComparison_ok (h : columnComparison mapping field = .ok column) :
    column ∈ mapping.columns ∧ field.name = column.name := by
  obtain ⟨-, -, h⟩ := bind_eq_ok_iff.mp h
  rw [findColumnInfo] at h
  split at h
  next found hfind =>
    cases h
    have hname := List.find?_some hfind
    exact ⟨List.mem_of_find?_eq_some hfind, (beq_iff_eq.mp hname).symm⟩
  · cases h

theorem requireIndexKind_ok {name : Bytes} (h : requireIndexKind mapping name = .ok kind) :
    mapping.indexKind name = kind ∧ mapping.indexKind name ≠ .none := by
  rw [requireIndexKind] at h
  split at h
  · cases h
  next hne =>
    cases h
    exact ⟨rfl, hne⟩

section

variable (hmapping : mapping.Normalized)
include hmapping

theorem appendComparison_denotes {operation : RedisBinaryOperator}
    (h : appendComparison mapping field operation value = .ok text) :
    Denotes reader mapping [value] (fun entity => (compare field operation value).Holds reader entity)
      text := by
  obtain ⟨column, hfound, h⟩ := bind_eq_ok_iff.mp h
  obtain ⟨-, -, h⟩ := bind_eq_ok_iff.mp h
  obtain ⟨kind, hkind, h⟩ := bind_eq_ok_iff.mp h
  obtain ⟨hcolumn, hfield⟩ := columnComparison_ok hfound
  obtain ⟨hkind, hne⟩ := requireIndexKind_ok hkind
  cases kind with
  | tag => exact appendTagComparison_denotes hmapping hcolumn hkind h field hfield
  | numeric => exact appendNumericComparison_denotes hmapping hcolumn hkind h field hfield
  | text =>
    cases value with
    | null =>
      cases operation with
      | equal | notEqual => exact appendNullComparison_denotes hmapping hcolumn hne h field hfield
      | _ => cases h
    | _ => cases h
  | none => exact absurd hkind hne

/-- **A value of an IN list.** -/
theorem inListTerm_denotes (hcolumn : column ∈ mapping.columns) (hkind : mapping.indexKind column.name = kind)
    (hne : kind ≠ .none) (htext : kind ≠ .text) (h : inListTerm column kind value = .ok text) :
    Denotes reader mapping [value] (fun entity => ∃ held, entity column.name = some held ∧ held.Equals reader value)
      text := by
  have hterm : if kind = .tag then ∃ raw, rawTagValue value column.kind = .ok raw ∧
        text = appendEncodedTagTerm column.name raw
      else ∃ number, formatCanonicalNumeric value false = .ok number ∧
        text = appendNumericRange column.name number number := by
    unfold inListTerm at h
    cases value with
    | null => cases h
    | _ =>
      obtain ⟨-, -, h⟩ := bind_eq_ok_iff.mp h
      split at h
      next htag =>
        obtain ⟨raw, hraw, h⟩ := bind_eq_ok_iff.mp h
        cases h
        rw [if_pos htag]
        exact ⟨raw, hraw, rfl⟩
      next htag =>
        obtain ⟨number, hnumber, h⟩ := bind_eq_ok_iff.mp h
        cases h
        rw [if_neg htag]
        exact ⟨number, hnumber, rfl⟩
  cases kind with
  | tag =>
    obtain ⟨raw, hraw, rfl⟩ := hterm
    exact denotes_tag hmapping hcolumn hkind hraw
  | numeric =>
    obtain ⟨number, hnumber, rfl⟩ := hterm
    exact (denotes_number hmapping hcolumn hkind hnumber).mono (List.nil_subset _)
  | text => exact absurd rfl htext
  | none => exact absurd rfl hne

/-- **The values of an IN list**, by induction on the list. -/
theorem inListTerms_denotes (hcolumn : column ∈ mapping.columns) (hkind : mapping.indexKind column.name = kind)
    (hne : kind ≠ .none) (htext : kind ≠ .text) {terms : List Bytes}
    (h : (value :: values).mapM (inListTerm column kind) = .ok terms) :
    ∃ query, Group ((lit "|").intercalate terms) query ∧
      Says reader mapping (value :: values) (fun entity => ∃ held, entity column.name = some held ∧
        ∃ other ∈ value :: values, held.Equals reader other) query := by
  induction values generalizing value terms with
  | nil =>
    obtain ⟨term, hterm, h⟩ := bind_eq_ok_iff.mp h
    cases h
    obtain ⟨query, hphrase, hspec⟩ := @inListTerm_denotes reader _ _ _ _ _ hmapping hcolumn hkind hne htext hterm
    have hone : (lit "|").intercalate [term] = term := by simp [List.intercalate]
    refine ⟨query, ?_, hspec.congr fun _ => by simp⟩
    show Group ((lit "|").intercalate [term]) query
    rw [hone]
    exact hphrase.group
  | cons second values ih =>
    rw [List.mapM_cons] at h
    obtain ⟨term, hterm, h⟩ := bind_eq_ok_iff.mp h
    obtain ⟨rest, hrest, h⟩ := bind_eq_ok_iff.mp h
    cases h
    obtain ⟨query, hphrase, hspec⟩ := @inListTerm_denotes reader _ _ _ _ _ hmapping hcolumn hkind hne htext hterm
    obtain ⟨others, hgroup, hsaysOthers⟩ := ih hrest
    cases rest with
    | nil =>
      rw [List.mapM_cons] at hrest
      obtain ⟨_, -, hrest⟩ := bind_eq_ok_iff.mp hrest
      obtain ⟨_, -, hrest⟩ := bind_eq_ok_iff.mp hrest
      cases hrest
    | cons next rest =>
      refine ⟨_, intercalate_bar _ _ _ ▸ hphrase.bar hgroup, (hspec.disj hsaysOthers).congr fun _ => ?_⟩
      simp only [List.mem_cons, exists_eq_or_imp, ← exists_or, and_or_left]

/-- **IN and NOT IN**, also of an empty list. -/
theorem appendInList_denotes {negated : Bool} (h : appendInList mapping negated field values = .ok text) :
    Denotes reader mapping values
      (fun entity => (if negated then notInList field values
        else inList field values).Holds reader entity) text := by
  obtain ⟨column, hfound, h⟩ := bind_eq_ok_iff.mp h
  obtain ⟨kind, hkind, h⟩ := bind_eq_ok_iff.mp h
  obtain ⟨hcolumn, hfield⟩ := columnComparison_ok hfound
  obtain ⟨hkind, hne⟩ := requireIndexKind_ok hkind
  have hpresent := @denotes_presence reader mapping column hmapping hcolumn hne
  split at h
  · cases h
  next htext =>
  cases values with
  | nil =>
    cases negated with
    | true =>
      cases h
      refine hpresent.congr fun _ => ?_
      simp [RedisPredicate.Holds, hfield, Option.ne_none_iff_exists']
    | false =>
      cases h
      refine (denotes_never hmapping hcolumn hne).congr fun _ => ?_
      simp [RedisPredicate.Holds]
  | cons value values =>
    obtain ⟨terms, hterms, h⟩ := bind_eq_ok_iff.mp h
    obtain ⟨query, hgroup, hspec⟩ :=
      @inListTerms_denotes reader _ _ _ _ _ hmapping hcolumn hkind (hkind ▸ hne) htext _ hterms
    have hlist : Denotes reader mapping (value :: values) _ (lit "(" ++ (lit "|").intercalate terms ++ lit ")") :=
      ⟨query, hgroup.phrase, hspec⟩
    cases negated with
    | false =>
      cases h
      refine hlist.congr fun _ => ?_
      simp [RedisPredicate.Holds, hfield]
    | true =>
      cases h
      refine (denotes_other hpresent hlist).congr fun _ => ?_
      simp [RedisPredicate.Holds, hfield]

theorem appendBetween_denotes (h : appendBetween mapping field lower upper = .ok text) :
    Denotes reader mapping [lower, upper]
      (fun entity => (between field lower upper).Holds reader entity) text := by
  obtain ⟨column, hfound, h⟩ := bind_eq_ok_iff.mp h
  obtain ⟨kind, hkind, h⟩ := bind_eq_ok_iff.mp h
  obtain ⟨hcolumn, hfield⟩ := columnComparison_ok hfound
  obtain ⟨hkind, hne⟩ := requireIndexKind_ok hkind
  split at h
  · cases h
  · cases h
  next =>
    obtain ⟨low, hlow, h⟩ := bind_eq_ok_iff.mp h
    obtain ⟨high, hhigh, h⟩ := bind_eq_ok_iff.mp h
    cases h
    obtain ⟨lowNumber, lowBound, hlowBound, hlowText, hlowRead, rfl⟩ := @formatCanonicalNumeric_ok reader _ _ _ hlow
    obtain ⟨highNumber, highBound, hhighBound, hhighText, hhighRead, rfl⟩ :=
      @formatCanonicalNumeric_ok reader _ _ _ hhigh
    refine ((@denotes_range reader mapping column _ _ _ _ hmapping hcolumn hkind (isBound_inclusive hlowText)
      (isBound_inclusive hhighText)
      (fun held => held.Relates reader (· ≥ ·) lower ∧ held.Relates reader (· ≤ ·) upper) fun hnumber => ?_).congr
      fun _ => ?_).mono (List.nil_subset _)
    · rw [relates_iff hnumber hlowBound, relates_iff hnumber hhighBound]
      simp [SearchBound.AtMost, SearchBound.AtLeast, hlowRead, hhighRead]
    · rw [RedisPredicate.Holds, hfield]
  · cases h

/-- **The text of a predicate says what it says**, by induction on the predicate. -/
theorem appendExpression_denotes {depth : Nat} {node : RedisPredicate}
    (h : appendExpression mapping depth node = .ok text) :
    Denotes reader mapping node.literals (fun entity => node.Holds reader entity) text := by
  induction node generalizing depth text with
  | between field lower upper =>
    exact appendBetween_denotes hmapping (of_ite_error h).2
  | inList field values | notInList field values =>
    exact appendInList_denotes hmapping (of_ite_error h).2
  | compare field operation value =>
    exact appendComparison_denotes hmapping (of_ite_error h).2
  | logicalNot operand ih =>
    obtain ⟨inner, hinner, h⟩ := bind_eq_ok_iff.mp (of_ite_error h).2
    cases h
    exact (ih hinner).group.neg
  | logicalAnd left right ihLeft ihRight =>
    obtain ⟨leftText, hleft, h⟩ := bind_eq_ok_iff.mp (of_ite_error h).2
    obtain ⟨rightText, hright, h⟩ := bind_eq_ok_iff.mp h
    cases h
    exact (ihLeft hleft).conj (ihRight hright)
  | logicalOr left right ihLeft ihRight =>
    obtain ⟨leftText, hleft, h⟩ := bind_eq_ok_iff.mp (of_ite_error h).2
    obtain ⟨rightText, hright, h⟩ := bind_eq_ok_iff.mp h
    cases h
    exact (ihLeft hleft).disj (ihRight hright)

end

theorem compileRedisFind_query {options : RedisFindOptions} {countOnly : Bool} {takeOverride : Option UInt64}
    {arguments : List Bytes} (h : compileRedisFind mapping options countOnly takeOverride = .ok arguments) :
    ∃ query, findQuery mapping options.predicate = .ok query ∧ arguments[2]? = some query := by
  obtain ⟨sort, -, h⟩ := bind_eq_ok_iff.mp h
  obtain ⟨query, hquery, h⟩ := bind_eq_ok_iff.mp h
  cases h
  exact ⟨query, hquery, rfl⟩

end

/-- **Search predicates mean what they say.** The query a search sends, read by the grammar of the search index,
matches exactly the stored entities of which the predicate holds, and each of its tags is a presence marker or `x` and
hexadecimal digits for a literal of the predicate. -/
theorem redis_query (reader : NumberReader) {columns : List RedisColumnInfo} {entityPrefix : Bytes}
    {config : RedisRepositoryConfig} {mapping : RedisMapping} (hnames : (columns.map (·.name)).Nodup)
    (hmapping : normalizeRedisMapping columns entityPrefix config = .ok mapping) {options : RedisFindOptions}
    {countOnly : Bool} {takeOverride : Option UInt64} {arguments : List Bytes}
    (h : compileRedisFind mapping options countOnly takeOverride = .ok arguments) :
    ∃ text query, arguments[2]? = some text ∧ parseSearchQuery text = some query ∧
      (∀ hash entity, StoredEntity reader mapping hash entity → (query.Holds reader mapping hash ↔
        ∀ predicate, options.predicate = some predicate → predicate.Holds reader entity)) ∧
      ∀ term ∈ query.tagTerms, (∃ column, term.1 = presentShadow ++ column) ∨
        ∃ predicate, options.predicate = some predicate ∧ ∃ literal ∈ predicate.literals,
          ∃ raw, literal.tagText = some raw ∧ term.2 = encodeRedisTag raw ∧
            ∃ digits, encodeRedisTag raw = 0x78 :: digits ∧ ∀ digit ∈ digits, IsLowerHexDigit digit := by
  obtain ⟨hnormalized, -, -⟩ := normalizeRedisMapping_ok hnames hmapping
  obtain ⟨text, hquery, harguments⟩ := compileRedisFind_query h
  cases hpredicate : options.predicate with
  | none =>
    rw [hpredicate] at hquery
    cases hquery
    refine ⟨lit "*", .everything, harguments, rfl, fun _ _ _ => ⟨nofun, fun _ => trivial⟩,
      fun term hterm => (by cases hterm)⟩
  | some predicate =>
    rw [hpredicate] at hquery
    obtain ⟨query, hphrase, hspec⟩ := @appendExpression_denotes reader _ _ hnormalized _ _ hquery
    refine ⟨text, query, harguments, hphrase.parse, fun hash entity hstored => ?_, fun term hterm => ?_⟩
    · rw [hspec.holds hstored]
      exact ⟨fun hholds _ heq => Option.some.inj heq ▸ hholds, fun hall => hall predicate rfl⟩
    · refine (hspec.tags term hterm).imp_right ?_
      rintro ⟨literal, hliteral, raw, hraw, hterm⟩
      exact ⟨predicate, rfl, literal, hliteral, raw, hraw, hterm, _, rfl, httpLowerHex_digits raw⟩

/-- The integer a decimal text stands for. -/
def integerOfText (text : Bytes) : Int :=
  if text.head? = some 0x2d then -(decimalNumber text.tail : Int) else decimalNumber text

theorem integerOfText_signedDecimal (i : Int) : integerOfText (signedDecimal i) = i := by
  rw [signedDecimal]
  split
  next hneg =>
    rw [integerOfText, List.head?_cons, if_pos rfl, List.tail_cons, decimalNumber_decimal]
    omega
  next hpos =>
    have hhead : (decimal i.natAbs).head? ≠ some 0x2d := fun hhead =>
      absurd (Http.isDigit_of_mem_decimal 0x2d (List.mem_of_mem_head? hhead)) (by decide)
    rw [integerOfText, if_neg hhead, decimalNumber_decimal]
    omega

/-- A reader of integers. -/
def integerReader : NumberReader where
  read text := some (roundIntToDouble (integerOfText text) : ℚ)
  read_signedDecimal i := by rw [integerOfText_signedDecimal]

/-- A repository of goods, with an index on the name and one on the price. -/
def goodsColumns : List RedisColumnInfo :=
  [⟨lit "id", .text, true⟩, ⟨lit "name", .text, false⟩, ⟨lit "price", .signedValue, false⟩]

def goodsConfig : RedisRepositoryConfig := ⟨[], [⟨lit "name", .tag, false⟩, ⟨lit "price", .numeric, true⟩]⟩

def goodsMapping : RedisMapping where
  columns := goodsColumns
  entityPrefix := lit "goods"
  keyPrefix := lit "goods"
  indexes := [⟨lit "name", .tag, false⟩, ⟨lit "price", .numeric, true⟩]
  columnIndexKinds := [.none, .tag, .numeric]

/-- A name that looks like a query, and not the price 3. -/
def goodsPredicate : RedisPredicate :=
  .logicalAnd (.compare ⟨lit "goods", lit "name"⟩ .equal (.string (lit "\x7d|*")))
    (.logicalNot (.compare ⟨lit "goods", lit "price"⟩ .equal (.signedInteger 3)))

theorem redis_query_goods :
    ∃ query, parseSearchQuery (lit "(@name:\x7bx7d7c2a\x7d -(@price:[3 3]))") = some query ∧
      ∀ hash entity, StoredEntity integerReader goodsMapping hash entity →
        (query.Holds integerReader goodsMapping hash ↔ goodsPredicate.Holds integerReader entity) := by
  obtain ⟨text, query, harguments, hparse, hholds, -⟩ := @redis_query integerReader goodsColumns (lit "goods")
    goodsConfig goodsMapping (by decide) (by rfl) ⟨some goodsPredicate, none, none, none⟩ false none
    [lit "FT.SEARCH", lit "goods:idx", lit "(@name:\x7bx7d7c2a\x7d -(@price:[3 3]))", lit "LIMIT", lit "0", lit "100",
      lit "DIALECT", lit "2"] (by decide +kernel)
  cases harguments
  refine ⟨query, hparse, fun hash entity hstored => (hholds hash entity hstored).trans ?_⟩
  simp

end Ruvia.Web
