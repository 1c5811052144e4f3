import Ruvia.Web.PatternPlan

/-!
# `Web.PatternGrammar` — what the compiler accepts

The grammar of patterns, stated apart from the compiler: an `Item` is what an atom of the text says, `Item.text` is how
it is written and `Item.bytes` is what it matches. The compiler's cursor agrees with it: it reads the text of a
well-formed item, and of nothing else (`of_consumePatternAtom`), and a text compiles if and only if it is `^`, the text
of well-formed items with their quantifiers, and `$` (`compiledPatternPlan_valid_iff`).
-/

namespace Ruvia.Web.Pattern

open Library

/-! ## Classes -/

/-- A byte of a class as it is written. -/
inductive ClassAtom where
  | plain (byte : UInt8)
  | escaped (byte : UInt8)
  deriving DecidableEq, Repr

/-- A member of a class: one byte or an escape class, or a range. -/
inductive ClassItem where
  | one (atom : ClassAtom)
  | range (first last : ClassAtom)
  deriving DecidableEq, Repr

/-- The letters of the escape classes. -/
def isEscapeClass (byte : UInt8) : Bool := (lit "dws").contains byte

/-- What may be escaped: the letters of the escape classes, and everything that is no letter or digit. -/
def isEscape (byte : UInt8) : Bool := isEscapeClass byte || byte == 0x5f || !isPatternWord byte

/-- The bytes an escape stands for. -/
def escapeBytes (escape : UInt8) : Set UInt8 :=
  if escape = 0x64 then {byte | isPatternDigit byte = true}
  else if escape = 0x77 then {byte | isPatternWord byte = true}
  else if escape = 0x73 then {byte | isPatternSpace byte = true}
  else {escape}

namespace ClassAtom

def text : ClassAtom → Bytes
  | .plain byte => [byte]
  | .escaped byte => [escapeByte, byte]

def WellFormed : ClassAtom → Prop
  | .plain byte => byte ≠ closeClass ∧ byte ≠ escapeByte
  | .escaped byte => isEscape byte = true

def bytes : ClassAtom → Set UInt8
  | .plain byte => {byte}
  | .escaped byte => escapeBytes byte

/-- The byte that the atom stands for, when it is no escape class. -/
def literal : ClassAtom → Option UInt8
  | .plain byte => some byte
  | .escaped byte => if isEscapeClass byte then none else some byte

end ClassAtom

namespace ClassItem

def text : ClassItem → Bytes
  | .one atom => atom.text
  | .range first last => first.text ++ hyphen :: last.text

/-- Only literals in order are endpoints. -/
def WellFormed : ClassItem → Prop
  | .one atom => atom.WellFormed
  | .range first last =>
    first.WellFormed ∧ last.WellFormed ∧ ∃ low ∈ first.literal, ∃ high ∈ last.literal, low ≤ high

def bytes : ClassItem → Set UInt8
  | .one atom => atom.bytes
  | .range first last => {byte | (∀ low ∈ first.literal, low ≤ byte) ∧ ∀ high ∈ last.literal, byte ≤ high}

end ClassItem

def classText (items : List ClassItem) : Bytes := items.flatMap ClassItem.text

/-- A `-` behind a single byte is a range sign, unless it is the last byte of the class. -/
def ClassItem.Separate (item : ClassItem) (behind : Bytes) : Prop :=
  ∀ atom, item = .one atom → behind.head? = some hyphen → behind = [hyphen]

/-- The members of a class, read from the left. -/
inductive ClassBody : List ClassItem → Prop where
  | nil : ClassBody []
  | cons {item : ClassItem} {items : List ClassItem} : item.WellFormed → item.Separate (classText items) →
      ClassBody items → ClassBody (item :: items)

/-! ## Items -/

/-- An atom of a pattern as it is written. -/
inductive Item where
  | literal (byte : UInt8)
  | any
  | escaped (byte : UInt8)
  | cls (negate : Bool) (items : List ClassItem)
  deriving DecidableEq, Repr

namespace Item

def text : Item → Bytes
  | .literal byte => [byte]
  | .any => [fullStop]
  | .escaped byte => [escapeByte, byte]
  | .cls negate items => openClass :: ((if negate then [caret] else []) ++ classText items ++ [closeClass])

/-- A class that is not negated does not begin with `^`. -/
def WellFormed : Item → Prop
  | .literal byte => isPatternMeta byte = false
  | .any => True
  | .escaped byte => isEscape byte = true
  | .cls negate items => items ≠ [] ∧ ClassBody items ∧ (negate = false → (classText items).head? ≠ some caret)

def bytes : Item → Set UInt8
  | .literal byte => {byte}
  | .any => {byte | byte ≠ lineFeed}
  | .escaped byte => escapeBytes byte
  | .cls negate items => {byte | (∃ item ∈ items, byte ∈ item.bytes) ↔ negate = false}

end Item

def quantifierText : Quantifier → Bytes
  | .one => []
  | .zeroOrOne => [0x3f]
  | .zeroOrMore => [0x2a]
  | .oneOrMore => [0x2b]

/-- The text between `^` and `$`. -/
def itemsText (items : List (Item × Quantifier)) : Bytes :=
  items.flatMap fun item => item.1.text ++ quantifierText item.2

/-- The text of a pattern. -/
def patternText (items : List (Item × Quantifier)) : Bytes := caret :: (itemsText items ++ [dollar])

def WellFormedItems (items : List (Item × Quantifier)) : Prop := ∀ item ∈ items, item.1.WellFormed

/-! ## Escapes -/

section

variable {escape byte : UInt8} {text rest : Bytes}

def escapeKind (escape : UInt8) : AtomKind :=
  if escape = 0x64 then .digit else if escape = 0x77 then .word else if escape = 0x73 then .space else .literal

theorem isEscapeClass_iff : isEscapeClass escape = true ↔ escape = 0x64 ∨ escape = 0x77 ∨ escape = 0x73 := by
  have htext : lit "dws" = [0x64, 0x77, 0x73] := rfl
  simp [isEscapeClass, htext]

theorem escapeKind_eq_literal : escapeKind escape = .literal ↔ isEscapeClass escape = false := by
  rw [← Bool.not_eq_true, isEscapeClass_iff, escapeKind]
  split_ifs <;> simp_all

/-- The code's escapes are those of the grammar. -/
theorem decodePatternEscape_eq (escape : UInt8) :
    decodePatternEscape escape = if isEscape escape = true then some (escapeKind escape) else none := by
  have hclass := @isEscapeClass_iff escape
  by_cases hsome : isEscapeClass escape = true
  · have hescape : isEscape escape = true := by simp [isEscape, hsome]
    rw [if_pos hescape, decodePatternEscape, escapeKind]
    rcases hclass.mp hsome with rfl | rfl | rfl <;> rfl
  · have hnot : ¬(escape = 0x64 ∨ escape = 0x77 ∨ escape = 0x73) := fun h => hsome (hclass.mpr h)
    simp only [not_or] at hnot
    obtain ⟨hdigit, hword, hspace⟩ := hnot
    have hescape : isEscape escape = true ↔ escape = 0x5f ∨ isPatternWord escape = false := by
      simp [isEscape, hsome]
    rw [decodePatternEscape, if_neg hdigit, if_neg hword, if_neg hspace, escapeKind, if_neg hdigit, if_neg hword,
      if_neg hspace]
    simp only [hescape]

theorem between_iff {value : UInt8} : (decide (value ≤ byte) && decide (byte ≤ value)) = true ↔ byte = value := by
  rw [Bool.and_eq_true, decide_eq_true_eq, decide_eq_true_eq]
  constructor
  · rintro ⟨hle, hge⟩
    exact UInt8.le_antisymm hge hle
  · rintro rfl
    exact ⟨UInt8.le_refl byte, UInt8.le_refl byte⟩

/-- The member of an escape covers what the escape stands for. -/
theorem covers_escape : (ClassMember.mk (escapeKind escape) escape escape).covers byte = true ↔
    byte ∈ escapeBytes escape := by
  rw [ClassMember.covers, escapeKind, escapeBytes]
  split_ifs
  · rfl
  · rfl
  · rfl
  · exact between_iff

end

/-! ## The bytes of a member -/

namespace ClassAtom

def kind : ClassAtom → AtomKind
  | .plain _ => .literal
  | .escaped byte => escapeKind byte

def byte : ClassAtom → UInt8
  | .plain byte => byte
  | .escaped byte => byte

/-- What the compiler makes of the atom. -/
def member (atom : ClassAtom) : ClassMember := ⟨atom.kind, atom.byte, atom.byte⟩

theorem covers_member (atom : ClassAtom) (byte : UInt8) : atom.member.covers byte = true ↔ byte ∈ atom.bytes := by
  cases atom with
  | plain value => exact between_iff
  | escaped escape => exact covers_escape

theorem literal_eq (atom : ClassAtom) : atom.literal = if atom.kind = .literal then some atom.byte else none := by
  cases atom with
  | plain value => rfl
  | escaped escape =>
    rw [literal, kind, ClassAtom.byte]
    by_cases hclass : isEscapeClass escape = true
    · rw [if_pos hclass, if_neg (fun h => by rw [escapeKind_eq_literal.mp h] at hclass; cases hclass)]
    · rw [if_neg hclass, if_pos (escapeKind_eq_literal.mpr (by simpa using hclass))]

end ClassAtom

/-- A text without a `]` that is not escaped. -/
inductive ClassText : Bytes → Prop where
  | nil : ClassText []
  | plain {byte : UInt8} {rest : Bytes} : byte ≠ closeClass → byte ≠ escapeByte → ClassText rest →
      ClassText (byte :: rest)
  | escaped {byte : UInt8} {rest : Bytes} : ClassText rest → ClassText (escapeByte :: byte :: rest)

theorem ClassText.of_escaped {byte : UInt8} {rest : Bytes} (h : ClassText (escapeByte :: byte :: rest)) :
    ClassText rest := by
  cases h with
  | plain _ hne => exact absurd rfl hne
  | escaped h => exact h

theorem ClassText.of_plain {byte : UInt8} {rest : Bytes} (h : ClassText (byte :: rest)) (hne : byte ≠ escapeByte) :
    byte ≠ closeClass ∧ ClassText rest := by
  cases h with
  | plain hclose _ h => exact ⟨hclose, h⟩
  | escaped => exact absurd rfl hne

theorem ClassText.append {text rest : Bytes} (htext : ClassText text) (hrest : ClassText rest) :
    ClassText (text ++ rest) := by
  induction htext with
  | nil => exact hrest
  | plain hclose hescape _ ih => exact .plain hclose hescape ih
  | escaped _ ih => exact .escaped ih

section

variable {text rest : Bytes} {found : ClassMember} {atom : ClassAtom} {item : ClassItem}

theorem ClassAtom.WellFormed.classText (h : atom.WellFormed) : ClassText atom.text := by
  cases atom with
  | plain byte => exact .plain h.1 h.2 .nil
  | escaped byte => exact .escaped .nil

theorem consumePatternEscape_cons {escape : UInt8} (h : isEscape escape = true) (rest : Bytes) :
    consumePatternEscape (escape :: rest) = some (⟨escapeKind escape, escape, escape⟩, rest) := by
  rw [consumePatternEscape, decodePatternEscape_eq, if_pos h]
  rfl

theorem of_consumePatternEscape (h : consumePatternEscape text = some (found, rest)) :
    ∃ escape, isEscape escape = true ∧ text = escape :: rest ∧ found = ⟨escapeKind escape, escape, escape⟩ := by
  cases text with
  | nil => cases h
  | cons escape behind =>
    rw [consumePatternEscape, decodePatternEscape_eq] at h
    split at h
    · rename_i hescape
      obtain ⟨rfl, rfl⟩ := Prod.mk.inj (Option.some.inj h)
      exact ⟨escape, hescape, rfl, rfl⟩
    · cases h

/-- An atom of a class is read as it is written. -/
theorem ClassAtom.WellFormed.consume (h : atom.WellFormed) (rest : Bytes) :
    consumePatternClassAtom (atom.text ++ rest) = some (atom.member, rest) := by
  cases atom with
  | plain value => exact if_neg h.2
  | escaped escape =>
    show consumePatternClassAtom (escapeByte :: escape :: rest) = _
    exact consumePatternEscape_cons h rest

theorem ClassText.of_consumeAtom (htext : ClassText text) (h : consumePatternClassAtom text = some (found, rest)) :
    ∃ atom : ClassAtom, atom.WellFormed ∧ text = atom.text ++ rest ∧ found = atom.member ∧ ClassText rest := by
  cases text with
  | nil => cases h
  | cons value behind =>
    rw [consumePatternClassAtom] at h
    split at h
    · rename_i hescape
      subst hescape
      obtain ⟨escape, hwf, rfl, rfl⟩ := of_consumePatternEscape h
      exact ⟨.escaped escape, hwf, rfl, rfl, htext.of_escaped⟩
    · rename_i hescape
      obtain ⟨rfl, rfl⟩ := Prod.mk.inj (Option.some.inj h)
      obtain ⟨hclose, hrest⟩ := htext.of_plain hescape
      exact ⟨.plain value, ⟨hclose, hescape⟩, rfl, rfl, hrest⟩

/-- What the compiler makes of a member. -/
def ClassItem.member : ClassItem → ClassMember
  | .one atom => atom.member
  | .range first last => ⟨first.kind, first.byte, last.byte⟩

theorem ClassAtom.text_ne_nil (atom : ClassAtom) : atom.text ≠ [] := by
  cases atom <;> exact List.cons_ne_nil _ _

theorem ClassAtom.mem_literal {low : UInt8} : low ∈ atom.literal ↔ atom.kind = .literal ∧ low = atom.byte := by
  rw [literal_eq, Option.mem_def]
  by_cases hkind : atom.kind = .literal
  · rw [if_pos hkind, Option.some.injEq]
    exact ⟨fun h => ⟨hkind, h.symm⟩, fun h => h.2.symm⟩
  · rw [if_neg hkind]
    exact ⟨fun h => absurd h (Option.some_ne_none low).symm, fun h => absurd h.1 hkind⟩

/-- **The compiler's member covers** the bytes of the member. -/
theorem ClassItem.WellFormed.covers_member (h : item.WellFormed) (byte : UInt8) :
    item.member.covers byte = true ↔ byte ∈ item.bytes := by
  cases item with
  | one atom => exact atom.covers_member byte
  | range first last =>
    obtain ⟨-, -, low, hlow, high, hhigh, -⟩ := h
    obtain ⟨hfirst, -⟩ := ClassAtom.mem_literal.mp hlow
    obtain ⟨hlast, -⟩ := ClassAtom.mem_literal.mp hhigh
    simp only [member, ClassMember.covers, hfirst, bytes, Set.mem_ofPred_eq, ClassAtom.mem_literal, hlast, true_and,
      forall_eq, Bool.and_eq_true, decide_eq_true_eq]

theorem ClassItem.text_ne_nil (item : ClassItem) : item.text ≠ [] := by
  cases item with
  | one atom => exact atom.text_ne_nil
  | range first last => exact List.append_ne_nil_of_left_ne_nil first.text_ne_nil _

theorem consumePatternRange_of_ne {byte : UInt8} (hne : byte ≠ hyphen) (rest : Bytes) :
    consumePatternRange found (byte :: rest) = some (found, byte :: rest) := by
  cases rest with
  | nil => rfl
  | cons next rest => exact if_neg hne

/-- **A member is read as it is written.** -/
theorem ClassItem.WellFormed.consume (h : item.WellFormed) (hseparate : item.Separate rest) :
    consumePatternClassMember (item.text ++ rest) = some (item.member, rest) := by
  cases item with
  | one atom =>
    have hatom := ClassAtom.WellFormed.consume h rest
    rw [consumePatternClassMember, ClassItem.text, hatom]
    cases rest with
    | nil => rfl
    | cons byte behind =>
      by_cases hbyte : byte = hyphen
      · subst hbyte
        rw [hseparate atom rfl rfl]
        rfl
      · exact consumePatternRange_of_ne hbyte behind
  | range first last =>
    obtain ⟨hfirst, hlast, low, hlow, high, hhigh, hle⟩ := h
    obtain ⟨hkind, rfl⟩ := ClassAtom.mem_literal.mp hlow
    obtain ⟨hkind', rfl⟩ := ClassAtom.mem_literal.mp hhigh
    obtain ⟨byte, behind, hcons⟩ := List.exists_cons_of_ne_nil last.text_ne_nil
    have hatom := hlast.consume rest
    rw [hcons] at hatom
    rw [consumePatternClassMember, ClassItem.text, List.append_assoc, hfirst.consume, hcons]
    show consumePatternRange first.member (hyphen :: byte :: (behind ++ rest)) = _
    rw [consumePatternRange, if_pos rfl]
    show (consumePatternClassAtom (byte :: behind ++ rest)).bind _ = _
    rw [hatom]
    show (if first.kind ≠ .literal ∨ last.kind ≠ .literal ∨ first.byte > last.byte then none
      else some (ClassMember.mk first.kind first.byte last.byte, rest)) = _
    rw [if_neg]
    · rfl
    · rintro (hne | hne | hgt)
      · exact hne hkind
      · exact hne hkind'
      · exact UInt8.not_lt.mpr hle hgt

theorem ClassText.of_consumeMember (htext : ClassText text)
    (h : consumePatternClassMember text = some (found, rest)) :
    ∃ item : ClassItem, item.WellFormed ∧ item.Separate rest ∧ text = item.text ++ rest ∧ found = item.member ∧
      ClassText rest := by
  obtain ⟨⟨found', rest'⟩, hatom, hrange⟩ := Option.bind_eq_some_iff.mp h
  obtain ⟨atom, hwf, rfl, rfl, hrest⟩ := htext.of_consumeAtom hatom
  have hrange : consumePatternRange atom.member rest' = some (found, rest) := hrange
  have hone : rest' = rest → found = atom.member → (rest.head? = some hyphen → rest = [hyphen]) →
      ∃ item : ClassItem, item.WellFormed ∧ item.Separate rest ∧ atom.text ++ rest' = item.text ++ rest ∧
        found = item.member ∧ ClassText rest := by
    rintro rfl rfl hseparate
    exact ⟨.one atom, hwf, fun _ _ => hseparate, rfl, rfl, hrest⟩
  rcases rest' with _ | ⟨byte, _ | ⟨next, behind⟩⟩
  · obtain ⟨hmember, hsame⟩ := Prod.mk.inj (Option.some.inj hrange)
    exact hone hsame hmember.symm (by rw [← hsame]; intro h; cases h)
  · obtain ⟨hmember, hsame⟩ := Prod.mk.inj (Option.some.inj hrange)
    exact hone hsame hmember.symm (by rw [← hsame]; intro h; rw [Option.some.inj h])
  · rw [consumePatternRange] at hrange
    split at hrange
    · rename_i hbyte
      subst hbyte
      obtain ⟨⟨last, rest''⟩, hlast, hmember⟩ := Option.bind_eq_some_iff.mp hrange
      obtain ⟨-, hbehind⟩ := hrest.of_plain (by decide)
      obtain ⟨high, hhigh, htext', rfl, hrest''⟩ := hbehind.of_consumeAtom hlast
      rw [Option.ite_none_left_eq_some] at hmember
      obtain ⟨hliterals, hmember⟩ := hmember
      obtain ⟨rfl, rfl⟩ := Prod.mk.inj (Option.some.inj hmember)
      simp only [not_or, not_not] at hliterals
      obtain ⟨hfirst, hlast', hle⟩ := hliterals
      refine ⟨.range atom high, ⟨hwf, hhigh, atom.byte, ClassAtom.mem_literal.mpr ⟨hfirst, rfl⟩, high.byte,
        ClassAtom.mem_literal.mpr ⟨hlast', rfl⟩, UInt8.not_lt.mp hle⟩, ?_, ?_, rfl, hrest''⟩
      · rintro _ heq
        cases heq
      · rw [htext', ClassItem.text, List.append_assoc]
        rfl
    · rename_i hbyte
      obtain ⟨hmember, hsame⟩ := Prod.mk.inj (Option.some.inj hrange)
      exact hone hsame hmember.symm (by rw [← hsame]; intro h; exact absurd (Option.some.inj h) hbyte)

/-! ### Class bodies -/

theorem ClassItem.WellFormed.classText (h : item.WellFormed) : ClassText item.text := by
  cases item with
  | one atom => exact ClassAtom.WellFormed.classText h
  | range first last => exact h.1.classText.append (.plain (by decide) (by decide) h.2.1.classText)

variable {items : List ClassItem}

theorem ClassBody.classText (h : ClassBody items) : ClassText (classText items) := by
  induction h with
  | nil => exact .nil
  | cons hwf _ _ ih => exact hwf.classText.append ih

/-- The set of a class. -/
def insertMembers (items : List ClassItem) (bytes : ByteSet) : ByteSet :=
  items.foldl (fun bytes item => insertPatternMember bytes item.member) bytes

theorem compileClassMembers_cons (hne : text ≠ []) (h : consumePatternClassMember text = some (found, rest))
    (bytes : ByteSet) :
    compileClassMembers text bytes = compileClassMembers rest (insertPatternMember bytes found) := by
  obtain ⟨byte, behind, rfl⟩ := List.exists_cons_of_ne_nil hne
  rw [compileClassMembers]
  split
  · rename_i hnone
    rw [hnone] at h
    cases h
  · rename_i member rest' hsome
    rw [hsome] at h
    obtain ⟨rfl, rfl⟩ := Prod.mk.inj (Option.some.inj h)
    rfl

/-- **The members of a class are read as they are written.** -/
theorem ClassBody.compile (h : ClassBody items) :
    ∀ bytes, compileClassMembers (Pattern.classText items) bytes = some (insertMembers items bytes) := by
  induction h with
  | nil =>
    intro bytes
    rw [Pattern.classText, List.flatMap_nil, compileClassMembers]
    rfl
  | @cons item items hwf hseparate _ ih =>
    intro bytes
    have hne : item.text ++ Pattern.classText items ≠ [] := List.append_ne_nil_of_left_ne_nil item.text_ne_nil _
    show compileClassMembers (item.text ++ Pattern.classText items) bytes = _
    rw [compileClassMembers_cons hne (hwf.consume hseparate)]
    exact ih _

theorem ClassText.of_compile (htext : ClassText text) {bytes bytes' : ByteSet}
    (h : compileClassMembers text bytes = some bytes') :
    ∃ items, ClassBody items ∧ text = Pattern.classText items ∧ bytes' = insertMembers items bytes := by
  fun_induction compileClassMembers text bytes with
  | case1 bytes => exact ⟨[], .nil, rfl, (Option.some.inj h).symm⟩
  | case2 => cases h
  | case3 bytes byte behind member rest hmember _ ih =>
    obtain ⟨item, hwf, hseparate, htext', rfl, hrest⟩ := htext.of_consumeMember hmember
    obtain ⟨items, hbody, rfl, rfl⟩ := ih hrest h
    exact ⟨item :: items, .cons hwf hseparate hbody, htext', rfl⟩

/-- **The compiler reads a class body** if and only if it is one. -/
theorem compilePatternClass_iff (htext : ClassText text) {bytes bytes' : ByteSet} :
    compilePatternClass text bytes = some bytes' ↔
      ∃ items, items ≠ [] ∧ ClassBody items ∧ text = Pattern.classText items ∧ bytes' = insertMembers items bytes := by
  rw [compilePatternClass, Option.ite_none_left_eq_some]
  constructor
  · rintro ⟨hne, hcompile⟩
    obtain ⟨items, hbody, rfl, rfl⟩ := htext.of_compile hcompile
    refine ⟨items, ?_, hbody, rfl, rfl⟩
    rintro rfl
    exact hne rfl
  · rintro ⟨items, hne, hbody, rfl, rfl⟩
    refine ⟨?_, hbody.compile bytes⟩
    obtain ⟨item, items, rfl⟩ := List.exists_cons_of_ne_nil hne
    exact List.append_ne_nil_of_left_ne_nil item.text_ne_nil _

theorem splitPatternClass_plain {byte : UInt8} (hclose : byte ≠ closeClass) (hescape : byte ≠ escapeByte)
    (rest : Bytes) : splitPatternClass (byte :: rest) =
      (splitPatternClass rest).map fun (body, behind) => (byte :: body, behind) := by
  cases rest <;> simp [splitPatternClass, hclose, hescape]

/-- The end of a class is its first `]` that is not escaped. -/
theorem splitPatternClass_iff {body : Bytes} :
    splitPatternClass text = some (body, rest) ↔ ClassText body ∧ text = body ++ closeClass :: rest := by
  constructor
  · intro h
    fun_induction splitPatternClass text generalizing body with
    | case1 | case2 => cases h
    | case3 escaped behind ih =>
      obtain ⟨⟨body', rest'⟩, hsplit, hpair⟩ := Option.map_eq_some_iff.mp h
      obtain ⟨rfl, rfl⟩ := Prod.mk.inj hpair
      obtain ⟨hbody, rfl⟩ := ih hsplit
      exact ⟨.escaped hbody, rfl⟩
    | case4 =>
      obtain ⟨rfl, rfl⟩ := Prod.mk.inj (Option.some.inj h)
      exact ⟨.nil, rfl⟩
    | case5 byte behind hescape hclose ih =>
      obtain ⟨⟨body', rest'⟩, hsplit, hpair⟩ := Option.map_eq_some_iff.mp h
      obtain ⟨rfl, rfl⟩ := Prod.mk.inj hpair
      obtain ⟨hbody, rfl⟩ := ih hsplit
      exact ⟨.plain hclose hescape hbody, rfl⟩
  · rintro ⟨hbody, rfl⟩
    induction hbody with
    | nil => cases rest <;> simp [splitPatternClass, show closeClass ≠ escapeByte by decide]
    | @plain byte body hclose hescape _ ih =>
      rw [List.cons_append, splitPatternClass_plain hclose hescape, ih]
      rfl
    | @escaped byte body _ ih =>
      simp [splitPatternClass, ih]

/-! ### Byte sets -/

theorem contains_insertPatternMember (bytes : ByteSet) (member : ClassMember) (byte : UInt8) :
    (insertPatternMember bytes member).contains byte = (bytes.contains byte || member.covers byte) := by
  have hfold : ∀ numbers : List Nat, (∀ number ∈ numbers, number < 256) → ∀ bytes : ByteSet,
      (numbers.foldl (fun bytes number => if member.covers (UInt8.ofNat number) then
          bytes.insert (UInt8.ofNat number) else bytes) bytes).contains byte =
        (bytes.contains byte || (decide (byte.toNat ∈ numbers) && member.covers byte)) := by
    intro numbers
    induction numbers with
    | nil =>
      intro _ bytes
      simp
    | cons number numbers ih =>
      intro hlt bytes
      rw [List.foldl_cons, ih fun n hn => hlt n (List.mem_cons_of_mem _ hn)]
      have hnumber : number < 256 := hlt number (List.mem_cons_self ..)
      have hsame : byte.toNat = number ↔ UInt8.ofNat number = byte := by
        rw [← UInt8.toNat_inj, UInt8.toNat_ofNat', Nat.mod_eq_of_lt hnumber, eq_comm]
      by_cases hbyte : UInt8.ofNat number = byte
      · rw [hbyte]
        cases hcovers : member.covers byte with
        | true =>
          rw [if_pos rfl, ByteSet.contains_insert]
          simp [hsame.mpr hbyte]
        | false => simp
      · have hne : (UInt8.ofNat number == byte) = false := beq_eq_false_iff_ne.mpr hbyte
        have hmem : byte.toNat ∈ number :: numbers ↔ byte.toNat ∈ numbers := by
          rw [List.mem_cons, hsame]
          exact or_iff_right hbyte
        simp only [hmem]
        split
        · rw [ByteSet.contains_insert, hne, Bool.or_false]
        · rfl
  rw [insertPatternMember, hfold _ fun number hnumber => List.mem_range.mp hnumber]
  simp [byte.toNat_lt]

theorem contains_insertMembers (h : ClassBody items) (byte : UInt8) :
    ∀ bytes : ByteSet, (insertMembers items bytes).contains byte = true ↔
      bytes.contains byte = true ∨ ∃ item ∈ items, byte ∈ item.bytes := by
  induction h with
  | nil =>
    intro bytes
    simp [insertMembers]
  | @cons item items hwf _ _ ih =>
    intro bytes
    have hstep : insertMembers (item :: items) bytes =
        insertMembers items (insertPatternMember bytes item.member) := rfl
    rw [hstep, ih, contains_insertPatternMember, Bool.or_eq_true, hwf.covers_member]
    simp only [List.mem_cons, exists_eq_or_imp, or_assoc]

end

/-! ## Atoms of a pattern -/

section

variable {text rest : Bytes} {set : ByteSet} {item : Item}

/-- The set that the compiler makes. -/
def Item.byteSet : Item → ByteSet
  | .literal byte => ByteSet.empty.insert byte
  | .any => (ByteSet.empty.insert lineFeed).invert
  | .escaped byte => insertPatternMember .empty ⟨escapeKind byte, byte, byte⟩
  | .cls negate items => if negate then (insertMembers items .empty).invert else insertMembers items .empty

/-- **The compiler's set** has the bytes of the item. -/
theorem Item.WellFormed.contains_byteSet (h : item.WellFormed) (byte : UInt8) :
    item.byteSet.contains byte = true ↔ byte ∈ item.bytes := by
  cases item with
  | literal value =>
    rw [Item.byteSet, ByteSet.contains_insert, ByteSet.contains_empty, Bool.false_or, beq_iff_eq]
    exact eq_comm
  | any =>
    rw [Item.byteSet, ByteSet.contains_invert, ByteSet.contains_insert, ByteSet.contains_empty, Bool.false_or,
      Bool.not_eq_true', beq_eq_false_iff_ne]
    exact ne_comm
  | escaped value =>
    rw [Item.byteSet, contains_insertPatternMember, ByteSet.contains_empty, Bool.false_or]
    exact covers_escape
  | cls negate items =>
    have hmembers : (insertMembers items .empty).contains byte = true ↔ ∃ item ∈ items, byte ∈ item.bytes := by
      rw [contains_insertMembers h.2.1, ByteSet.contains_empty]
      exact or_iff_right Bool.false_ne_true
    show (Item.cls negate items).byteSet.contains byte = true ↔ ((∃ item ∈ items, byte ∈ item.bytes) ↔ negate = false)
    rw [Item.byteSet, ← hmembers]
    cases negate with
    | true =>
      rw [if_pos rfl, ByteSet.contains_invert]
      simp
    | false => simp

theorem consumePatternClassBody_iff :
    consumePatternClassBody text = some (set, rest) ↔ ∃ items, items ≠ [] ∧ ClassBody items ∧
      text = classText items ++ closeClass :: rest ∧ set = insertMembers items .empty := by
  rw [consumePatternClassBody, Option.bind_eq_some_iff]
  constructor
  · rintro ⟨⟨body, rest'⟩, hsplit, hmap⟩
    obtain ⟨set', hcompile, hpair⟩ := Option.map_eq_some_iff.mp hmap
    obtain ⟨rfl, rfl⟩ := Prod.mk.inj hpair
    obtain ⟨hbody, rfl⟩ := splitPatternClass_iff.mp hsplit
    obtain ⟨items, hne, hitems, rfl, rfl⟩ := (compilePatternClass_iff hbody).mp hcompile
    exact ⟨items, hne, hitems, rfl, rfl⟩
  · rintro ⟨items, hne, hitems, rfl, rfl⟩
    refine ⟨(classText items, rest), splitPatternClass_iff.mpr ⟨hitems.classText, rfl⟩, ?_⟩
    have hcompile := (@compilePatternClass_iff (classText items) hitems.classText .empty _).mpr
      ⟨items, hne, hitems, rfl, rfl⟩
    show (compilePatternClass (classText items) .empty).map _ = _
    rw [hcompile]
    rfl

/-- **An atom is read as it is written.** -/
theorem Item.WellFormed.consume (h : item.WellFormed) (rest : Bytes) :
    consumePatternAtom (item.text ++ rest) = some (item.byteSet, rest) := by
  cases item with
  | literal byte =>
    have hmeta : isPatternMeta byte = false := h
    have hne : ∀ special, isPatternMeta special = true → byte ≠ special := by
      rintro special hspecial rfl
      rw [hspecial] at hmeta
      cases hmeta
    show consumePatternAtom (byte :: rest) = _
    rw [consumePatternAtom, if_neg (hne _ (by decide)), if_neg (hne _ (by decide)), if_neg (hne _ (by decide)), hmeta]
    rfl
  | any => rfl
  | escaped escape =>
    show consumePatternAtom (escapeByte :: escape :: rest) = _
    rw [consumePatternAtom, if_neg (by decide), if_pos rfl, consumePatternEscape_cons h]
    rfl
  | cls negate items =>
    obtain ⟨hne, hbody, hcaret⟩ := h
    have hclass : consumePatternClassBody (classText items ++ closeClass :: rest) =
        some (insertMembers items .empty, rest) :=
      consumePatternClassBody_iff.mpr ⟨items, hne, hbody, rfl, rfl⟩
    cases negate with
    | true =>
      have htext : (Item.cls true items).text ++ rest =
          openClass :: caret :: (classText items ++ closeClass :: rest) := by
        simp [Item.text]
      have hhead : (caret :: (classText items ++ closeClass :: rest)).head? = some caret := rfl
      rw [htext, consumePatternAtom, if_pos rfl, consumePatternClass, if_pos hhead, List.tail_cons, hclass]
      rfl
    | false =>
      have htext : (Item.cls false items).text ++ rest = openClass :: (classText items ++ closeClass :: rest) := by
        simp [Item.text]
      have hhead : (classText items ++ closeClass :: rest).head? ≠ some caret := by
        cases hitems : classText items with
        | nil =>
          intro heq
          exact absurd (Option.some.inj heq) (by decide)
        | cons byte behind =>
          have := hcaret rfl
          rwa [hitems] at this
      rw [htext, consumePatternAtom, if_pos rfl, consumePatternClass, if_neg hhead, hclass]
      rfl

/-- **What is read is an atom** as it is written. -/
theorem of_consumePatternAtom (h : consumePatternAtom text = some (set, rest)) :
    ∃ item : Item, item.WellFormed ∧ text = item.text ++ rest ∧ set = item.byteSet := by
  cases text with
  | nil => cases h
  | cons byte behind =>
    rw [consumePatternAtom] at h
    split_ifs at h with hopen hescape hany hmeta
    · subst hopen
      rw [consumePatternClass] at h
      split at h
      · rename_i hcaret
        obtain ⟨⟨set', rest'⟩, hclass, hpair⟩ := Option.map_eq_some_iff.mp h
        obtain ⟨rfl, rfl⟩ := Prod.mk.inj hpair
        obtain ⟨items, hne, hbody, htext, rfl⟩ := consumePatternClassBody_iff.mp hclass
        refine ⟨.cls true items, ⟨hne, hbody, by simp⟩, ?_, rfl⟩
        obtain ⟨tail, rfl⟩ : ∃ tail, behind = caret :: tail := by
          cases behind with
          | nil => cases hcaret
          | cons first tail => exact ⟨tail, by rw [Option.some.inj hcaret]⟩
        rw [List.tail_cons] at htext
        simp [Item.text, htext]
      · rename_i hcaret
        obtain ⟨items, hne, hbody, rfl, rfl⟩ := consumePatternClassBody_iff.mp h
        refine ⟨.cls false items, ⟨hne, hbody, ?_⟩, by simp [Item.text], rfl⟩
        intro _ heq
        apply hcaret
        rw [List.head?_append, heq]
        rfl
    · subst hescape
      obtain ⟨⟨member, rest'⟩, hmember, hpair⟩ := Option.map_eq_some_iff.mp h
      obtain ⟨rfl, rfl⟩ := Prod.mk.inj hpair
      obtain ⟨escape, hwf, rfl, rfl⟩ := of_consumePatternEscape hmember
      exact ⟨.escaped escape, hwf, rfl, rfl⟩
    · subst hany
      obtain ⟨rfl, rfl⟩ := Prod.mk.inj (Option.some.inj h)
      exact ⟨.any, trivial, rfl, rfl⟩
    · obtain ⟨rfl, rfl⟩ := Prod.mk.inj (Option.some.inj h)
      exact ⟨.literal byte, (Bool.not_eq_true _).mp hmeta, rfl, rfl⟩

/-! ## Quantifiers and the loop -/

/-- An item does not begin with a quantifier. -/
theorem Item.WellFormed.head_text (h : item.WellFormed) :
    ∃ byte behind, item.text = byte :: behind ∧ quantifierOf byte = none := by
  cases item with
  | literal byte =>
    refine ⟨byte, [], rfl, ?_⟩
    have hmeta : isPatternMeta byte = false := h
    have hne : ∀ special, isPatternMeta special = true → byte ≠ special := by
      rintro special hspecial rfl
      rw [hspecial] at hmeta
      cases hmeta
    rw [quantifierOf, if_neg (hne _ (by decide)), if_neg (hne _ (by decide)), if_neg (hne _ (by decide))]
  | any => exact ⟨fullStop, [], rfl, rfl⟩
  | escaped byte => exact ⟨escapeByte, [byte], rfl, rfl⟩
  | cls negate items => exact ⟨openClass, _, rfl, rfl⟩

theorem consumePatternQuantifier_text (quantifier : Quantifier)
    (hrest : ∀ byte ∈ rest.head?, quantifierOf byte = none) :
    consumePatternQuantifier (quantifierText quantifier ++ rest) = (quantifier, rest) := by
  cases quantifier with
  | one =>
    cases rest with
    | nil => rfl
    | cons byte rest =>
      show consumePatternQuantifier (byte :: rest) = _
      rw [consumePatternQuantifier, hrest byte rfl]
  | zeroOrOne | zeroOrMore | oneOrMore => rfl

theorem text_consumePatternQuantifier (text : Bytes) :
    text = quantifierText (consumePatternQuantifier text).1 ++ (consumePatternQuantifier text).2 := by
  cases text with
  | nil => rfl
  | cons byte rest =>
    rw [consumePatternQuantifier]
    cases hquantifier : quantifierOf byte with
    | none => rfl
    | some quantifier =>
      rw [quantifierOf] at hquantifier
      split_ifs at hquantifier with hmore hplus hoptional
      · obtain rfl := Option.some.inj hquantifier
        rw [hmore]
        rfl
      · obtain rfl := Option.some.inj hquantifier
        rw [hplus]
        rfl
      · obtain rfl := Option.some.inj hquantifier
        rw [hoptional]
        rfl

/-- The atom of an item. -/
def atomOf (item : Item × Quantifier) : Atom := ⟨item.1.byteSet, item.2⟩

theorem setQuantifier_append (atoms : List Atom) (bytes : ByteSet) (quantifier : Quantifier) :
    setQuantifier (atoms ++ [{ bytes := bytes }]) atoms.length quantifier = atoms ++ [⟨bytes, quantifier⟩] := by
  induction atoms with
  | nil => rfl
  | cons atom atoms ih => exact congrArg (atom :: ·) ih

variable {capacity : Nat} {atoms : List Atom}

theorem compilePatternLoop_cons (hne : text ≠ []) (hroom : atoms.length < capacity)
    (h : consumePatternAtom text = some (set, rest)) :
    compilePatternLoop capacity text atoms =
      compilePatternLoop capacity (consumePatternQuantifier rest).2
        (atoms ++ [⟨set, (consumePatternQuantifier rest).1⟩]) := by
  have happend : appendPatternAtom capacity text atoms = some (atoms ++ [{ bytes := set }], rest) := by
    rw [appendPatternAtom, if_neg (Nat.not_le.mpr hroom), h]
    rfl
  obtain ⟨byte, behind, rfl⟩ := List.exists_cons_of_ne_nil hne
  rw [compilePatternLoop]
  split
  · rename_i hnone
    rw [hnone] at happend
    cases happend
  · rename_i atoms' rest' hsome
    rw [hsome] at happend
    obtain ⟨rfl, rfl⟩ := Prod.mk.inj (Option.some.inj happend)
    rw [setQuantifier_append]

variable {items : List (Item × Quantifier)}

theorem head_itemsText (h : WellFormedItems items) : ∀ byte ∈ (itemsText items).head?, quantifierOf byte = none := by
  cases items with
  | nil => exact fun byte hbyte => absurd hbyte (Option.not_mem_none byte)
  | cons item items =>
    obtain ⟨first, behind, htext, hfirst⟩ := (h item (List.mem_cons_self ..)).head_text
    intro byte hbyte
    rw [itemsText, List.flatMap_cons, htext] at hbyte
    obtain rfl : first = byte := Option.some.inj hbyte
    exact hfirst

/-- **The loop reads items as they are written**; the capacity is never reached. -/
theorem compilePatternLoop_text {capacity : Nat} {items : List (Item × Quantifier)} (h : WellFormedItems items) :
    ∀ atoms : List Atom, atoms.length + (itemsText items).length ≤ capacity →
      compilePatternLoop capacity (itemsText items) atoms = some (atoms ++ items.map atomOf) := by
  induction items with
  | nil =>
    intro atoms _
    rw [itemsText, List.flatMap_nil, compilePatternLoop, List.map_nil, List.append_nil]
  | cons item items ih =>
    intro atoms hroom
    have hwf := h item (List.mem_cons_self ..)
    have hrest : WellFormedItems items := fun item hitem => h item (List.mem_cons_of_mem _ hitem)
    obtain ⟨byte, behind, htext, -⟩ := hwf.head_text
    have hitems : itemsText (item :: items) =
        item.1.text ++ (quantifierText item.2 ++ itemsText items) := List.append_assoc _ _ _
    have hlength : 1 ≤ item.1.text.length := by
      rw [htext, List.length_cons]
      omega
    rw [hitems, List.length_append, List.length_append] at hroom
    rw [hitems, compilePatternLoop_cons (by simp [htext]) (by omega) (hwf.consume _),
      consumePatternQuantifier_text _ (head_itemsText hrest), ih hrest _ (by simp; omega), List.append_assoc]
    rfl

theorem of_compilePatternLoop {atoms' : List Atom} (h : compilePatternLoop capacity text atoms = some atoms') :
    ∃ items, WellFormedItems items ∧ text = itemsText items := by
  fun_induction compilePatternLoop capacity text atoms with
  | case1 => exact ⟨[], fun item hitem => absurd hitem List.not_mem_nil, rfl⟩
  | case2 => cases h
  | case3 atoms byte behind atoms' rest happend _ ih =>
    obtain ⟨items, hitems, htext⟩ := ih h
    rw [appendPatternAtom, Option.ite_none_left_eq_some] at happend
    obtain ⟨⟨set', rest'⟩, hatom, hpair⟩ := Option.map_eq_some_iff.mp happend.2
    obtain rfl : rest' = rest := (Prod.mk.inj hpair).2
    obtain ⟨item, hwf, hbytes, rfl⟩ := of_consumePatternAtom hatom
    refine ⟨(item, (consumePatternQuantifier rest').1) :: items, ?_, ?_⟩
    · intro item' hitem
      rcases List.mem_cons.mp hitem with rfl | hitem
      · exact hwf
      · exact hitems item' hitem
    · have hrest := text_consumePatternQuantifier rest'
      rw [htext] at hrest
      rw [hbytes]
      conv_lhs => rw [hrest]
      exact (List.append_assoc _ _ _).symm

/-- The plan of a pattern has the atoms of its items. -/
theorem compiledPatternPlan_text (h : WellFormedItems items)
    (hlength : (patternText items).length ≤ maxPatternBytes) :
    compiledPatternPlan (patternText items) = { valid := true, atoms := items.map atomOf } := by
  have hlong : (patternText items).length = (itemsText items).length + 2 := by
    simp [patternText]
  have hinner : (patternText items).tail.dropLast = itemsText items := by
    simp [patternText]
  have hlast : (patternText items).getLast? = some dollar := by
    rw [patternText, ← List.cons_append, List.getLast?_concat]
  have hloop := @compilePatternLoop_text (min (patternText items).length maxPatternBytes) items h [] (by
    rw [List.length_nil]
    omega)
  rw [compiledPatternPlan, compilePatternPlan, if_neg, hinner, hloop]
  · rfl
  · rintro (hlt | hlt | hhead | hne)
    · omega
    · omega
    · exact hhead rfl
    · exact hne hlast

/-- **A text compiles** if and only if it is the text of a pattern of at most 256 bytes. -/
theorem compiledPatternPlan_valid_iff :
    (compiledPatternPlan text).valid = true ↔
      text.length ≤ maxPatternBytes ∧ ∃ items, WellFormedItems items ∧ text = patternText items := by
  constructor
  · intro h
    rw [compiledPatternPlan, compilePatternPlan] at h
    split at h
    · cases h
    · rename_i hshape
      simp only [not_or, not_not, Nat.not_lt] at hshape
      obtain ⟨hlong, hshort, hhead, hlast⟩ := hshape
      refine ⟨hlong, ?_⟩
      split at h
      · cases h
      · rename_i atoms hloop
        obtain ⟨items, hitems, htext⟩ := of_compilePatternLoop hloop
        refine ⟨items, hitems, ?_⟩
        obtain ⟨first, rest, rfl⟩ := List.exists_cons_of_length_pos (Nat.lt_of_lt_of_le Nat.zero_lt_two hshort)
        obtain rfl := Option.some.inj hhead
        have hne : rest ≠ [] := by
          rintro rfl
          exact absurd hshort (by simp)
        have hend : rest.getLast hne = dollar := by
          rw [List.getLast?_cons, Option.some.injEq, List.getLast?_eq_some_getLast hne, Option.getD_some] at hlast
          exact hlast
        rw [patternText, ← htext, List.tail_cons, ← hend, List.dropLast_append_getLast]
  · rintro ⟨hlong, items, hitems, rfl⟩
    rw [compiledPatternPlan_text hitems hlong]

end

end Ruvia.Web.Pattern
