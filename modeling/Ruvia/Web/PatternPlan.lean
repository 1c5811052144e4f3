import Ruvia.Library.ByteString
import Mathlib.Computability.Language

/-!
# `Web.PatternPlan` — compiling a pattern

`compile_pattern_plan` and what it is made of. An atom of a plan is the set of the bytes it matches and a quantifier. A
cursor is the text behind it: up to the final `$`, or up to the end of a class.
-/

namespace Ruvia.Web.Pattern

open Library

/-! ## Byte sets -/

/-- `pattern_byte_set`: 256 bits in four words. -/
structure ByteSet where
  words : Vector (BitVec 64) 4
  deriving DecidableEq, Repr

namespace ByteSet

def empty : ByteSet := ⟨Vector.replicate 4 0#64⟩

/-- The word of a byte. -/
def wordOf (byte : UInt8) : Fin 4 := ⟨byte.toNat / 64, by have := byte.toNat_lt; omega⟩

def insert (set : ByteSet) (byte : UInt8) : ByteSet :=
  ⟨set.words.set (wordOf byte) (set.words[wordOf byte] ||| 1#64 <<< (byte.toNat % 64))⟩

def invert (set : ByteSet) : ByteSet := ⟨set.words.map (~~~·)⟩

def contains (set : ByteSet) (byte : UInt8) : Bool :=
  (set.words[wordOf byte] >>> (byte.toNat % 64)) &&& 1#64 != 0#64

theorem contains_eq (set : ByteSet) (byte : UInt8) :
    set.contains byte = set.words[wordOf byte].getLsbD (byte.toNat % 64) := by
  rw [contains, BitVec.and_one_eq_setWidth_ofBool_getLsbD, BitVec.getLsbD_ushiftRight, Nat.add_zero]
  cases set.words[wordOf byte].getLsbD (byte.toNat % 64) <;> rfl

theorem contains_empty (byte : UInt8) : empty.contains byte = false := by
  rw [contains_eq]
  simp [empty]

theorem contains_invert (set : ByteSet) (byte : UInt8) : set.invert.contains byte = !set.contains byte := by
  rw [contains_eq, contains_eq]
  have hlt : byte.toNat % 64 < 64 := Nat.mod_lt _ (by decide)
  simp [invert, hlt]

theorem contains_insert (set : ByteSet) (byte other : UInt8) :
    (set.insert byte).contains other = (set.contains other || byte == other) := by
  have hlt : other.toNat % 64 < 64 := Nat.mod_lt _ (by decide)
  rw [contains_eq, contains_eq, Bool.eq_iff_iff, Bool.or_eq_true, beq_iff_eq, ← UInt8.toNat_inj]
  by_cases hword : wordOf byte = wordOf other
  · have hdiv : byte.toNat / 64 = other.toNat / 64 := congrArg Fin.val hword
    have hbit : (1#64 <<< (byte.toNat % 64)).getLsbD (other.toNat % 64) = true ↔
        byte.toNat % 64 = other.toNat % 64 := by
      rw [BitVec.getLsbD_shiftLeft, BitVec.getLsbD_one]
      simp only [hlt, decide_true, Bool.true_and, Bool.and_eq_true, Bool.not_eq_true', decide_eq_false_iff_not,
        decide_eq_true_eq]
      omega
    have hget : (set.insert byte).words[wordOf other] = set.words[wordOf other] ||| 1#64 <<< (byte.toNat % 64) := by
      simp [insert, hword]
    rw [hget, BitVec.getLsbD_or, Bool.or_eq_true, hbit]
    constructor
    · rintro (h | h)
      · exact Or.inl h
      · exact Or.inr (by omega)
    · rintro (h | h)
      · exact Or.inl h
      · exact Or.inr (by rw [h])
  · have hget : (set.insert byte).words[wordOf other] = set.words[wordOf other] := by
      have hne : (wordOf byte).val ≠ (wordOf other).val := fun h => hword (Fin.ext h)
      simp [insert, Vector.getElem_set_ne, hne]
    have hne : byte.toNat ≠ other.toNat := by
      intro h
      exact hword (Fin.ext (congrArg (· / 64) h))
    rw [hget]
    exact ⟨Or.inl, fun h => h.resolve_right hne⟩

end ByteSet

/-! ## Plans -/

inductive AtomKind where
  | literal
  | digit
  | word
  | space
  deriving DecidableEq, Repr

inductive Quantifier where
  | one
  | zeroOrOne
  | zeroOrMore
  | oneOrMore
  deriving DecidableEq, Repr

structure Atom where
  bytes : ByteSet := .empty
  quantifier : Quantifier := .one
  deriving DecidableEq, Repr

/-- `pattern_plan` with the atoms in use. -/
structure Plan where
  valid : Bool := false
  atoms : List Atom := []
  deriving DecidableEq, Repr

abbrev caret : UInt8 := 0x5e

abbrev dollar : UInt8 := 0x24

abbrev openClass : UInt8 := 0x5b

abbrev closeClass : UInt8 := 0x5d

abbrev escapeByte : UInt8 := 0x5c

abbrev hyphen : UInt8 := 0x2d

abbrev fullStop : UInt8 := 0x2e

abbrev lineFeed : UInt8 := 0x0a

def isPatternMeta (byte : UInt8) : Bool := (lit "^$[]()\x7b\x7d|+*?.\\").contains byte

def isPatternDigit (byte : UInt8) : Bool := 0x30 ≤ byte && byte ≤ 0x39

def isPatternWord (byte : UInt8) : Bool :=
  (0x61 ≤ byte && byte ≤ 0x7a) || (0x41 ≤ byte && byte ≤ 0x5a) || (0x30 ≤ byte && byte ≤ 0x39) || byte == 0x5f

def isPatternSpace (byte : UInt8) : Bool :=
  byte == 0x20 || byte == 0x09 || byte == 0x0d || byte == 0x0a || byte == 0x0c || byte == 0x0b

/-! ## Classes -/

structure ClassMember where
  kind : AtomKind := .literal
  first : UInt8 := 0
  last : UInt8 := 0
  deriving DecidableEq, Repr

/-- The kind of an escape; no value for a letter or a digit that is none. -/
def decodePatternEscape (escape : UInt8) : Option AtomKind :=
  if escape = 0x64 then some .digit
  else if escape = 0x77 then some .word
  else if escape = 0x73 then some .space
  else if escape = 0x5f ∨ isPatternWord escape = false then some .literal
  else none

/-- What is behind a backslash. -/
def consumePatternEscape : Bytes → Option (ClassMember × Bytes)
  | [] => none
  | escape :: rest => (decodePatternEscape escape).map fun kind => (⟨kind, escape, escape⟩, rest)

def consumePatternClassAtom : Bytes → Option (ClassMember × Bytes)
  | [] => none
  | value :: rest =>
    if value = escapeByte then consumePatternEscape rest else some (⟨.literal, value, value⟩, rest)

/-- A range, when a `-` and another byte follow; a final `-` is a literal. -/
def consumePatternRange (member : ClassMember) : Bytes → Option (ClassMember × Bytes)
  | byte :: next :: behind =>
    if byte = hyphen then
      (consumePatternClassAtom (next :: behind)).bind fun (last, rest) =>
        if member.kind ≠ .literal ∨ last.kind ≠ .literal ∨ member.first > last.first then none
        else some (⟨member.kind, member.first, last.first⟩, rest)
    else some (member, byte :: next :: behind)
  | rest => some (member, rest)

def consumePatternClassMember (text : Bytes) : Option (ClassMember × Bytes) :=
  (consumePatternClassAtom text).bind fun (member, rest) => consumePatternRange member rest

def ClassMember.covers (member : ClassMember) (byte : UInt8) : Bool :=
  match member.kind with
  | .literal => member.first ≤ byte && byte ≤ member.last
  | .digit => isPatternDigit byte
  | .word => isPatternWord byte
  | .space => isPatternSpace byte

/-- The loop over all bytes. -/
def insertPatternMember (bytes : ByteSet) (member : ClassMember) : ByteSet :=
  (List.range 256).foldl
    (fun bytes byte => if member.covers (UInt8.ofNat byte) then bytes.insert (UInt8.ofNat byte) else bytes) bytes

variable {text rest : Bytes} {member : ClassMember}

theorem length_consumePatternEscape (h : consumePatternEscape text = some (member, rest)) :
    rest.length < text.length := by
  cases text with
  | nil => cases h
  | cons escape behind =>
    obtain ⟨kind, -, hpair⟩ := Option.map_eq_some_iff.mp h
    rw [← (Prod.mk.inj hpair).2]
    exact Nat.lt_succ_self _

theorem length_consumePatternClassAtom (h : consumePatternClassAtom text = some (member, rest)) :
    rest.length < text.length := by
  cases text with
  | nil => cases h
  | cons value behind =>
    rw [consumePatternClassAtom] at h
    split at h
    · exact Nat.lt_succ_of_lt (length_consumePatternEscape h)
    · rw [← (Prod.mk.inj (Option.some.inj h)).2]
      exact Nat.lt_succ_self _

theorem length_consumePatternRange {member' : ClassMember}
    (h : consumePatternRange member text = some (member', rest)) : rest.length ≤ text.length := by
  match text, h with
  | [], h | [_], h => exact (congrArg List.length (Prod.mk.inj (Option.some.inj h)).2).ge
  | byte :: next :: behind, h =>
    rw [consumePatternRange] at h
    split at h
    · obtain ⟨⟨last, rest'⟩, hatom, hrange⟩ := Option.bind_eq_some_iff.mp h
      have hlt := length_consumePatternClassAtom hatom
      rw [Option.ite_none_left_eq_some] at hrange
      rw [← (Prod.mk.inj (Option.some.inj hrange.2)).2, List.length_cons]
      omega
    · exact (congrArg List.length (Prod.mk.inj (Option.some.inj h)).2).ge

theorem length_consumePatternClassMember (h : consumePatternClassMember text = some (member, rest)) :
    rest.length < text.length := by
  obtain ⟨⟨member', rest'⟩, hatom, hrange⟩ := Option.bind_eq_some_iff.mp h
  exact Nat.lt_of_le_of_lt (length_consumePatternRange hrange) (length_consumePatternClassAtom hatom)

/-- The loop of `compile_pattern_class`. -/
def compileClassMembers (text : Bytes) (bytes : ByteSet) : Option ByteSet :=
  match text with
  | [] => some bytes
  | byte :: behind =>
    match h : consumePatternClassMember (byte :: behind) with
    | none => none
    | some (member, rest) =>
      have : rest.length < (byte :: behind).length := length_consumePatternClassMember h
      compileClassMembers rest (insertPatternMember bytes member)
termination_by text.length
decreasing_by exact length_consumePatternClassMember h

def compilePatternClass (text : Bytes) (bytes : ByteSet) : Option ByteSet :=
  if text = [] then none else compileClassMembers text bytes

/-- The text of a class and what is behind its `]`, the first that is not escaped. -/
def splitPatternClass : Bytes → Option (Bytes × Bytes)
  | [] => none
  | byte :: rest =>
    if byte = escapeByte then
      match rest with
      | [] => none
      | escaped :: rest => (splitPatternClass rest).map fun (body, behind) => (byte :: escaped :: body, behind)
    else if byte = closeClass then some ([], rest)
    else (splitPatternClass rest).map fun (body, behind) => (byte :: body, behind)

/-! ## Atoms -/

def consumePatternClassBody (text : Bytes) : Option (ByteSet × Bytes) :=
  (splitPatternClass text).bind fun (body, rest) => (compilePatternClass body .empty).map (·, rest)

/-- A class behind its `[`. -/
def consumePatternClass (text : Bytes) : Option (ByteSet × Bytes) :=
  if text.head? = some caret then
    (consumePatternClassBody text.tail).map fun (bytes, rest) => (bytes.invert, rest)
  else consumePatternClassBody text

/-- The bytes of the atom that `append_pattern_atom` appends. -/
def consumePatternAtom : Bytes → Option (ByteSet × Bytes)
  | [] => none
  | byte :: rest =>
    if byte = openClass then consumePatternClass rest
    else if byte = escapeByte then
      (consumePatternEscape rest).map fun (member, rest) => (insertPatternMember .empty member, rest)
    else if byte = fullStop then some ((ByteSet.empty.insert lineFeed).invert, rest)
    else if isPatternMeta byte then none
    else some (ByteSet.empty.insert byte, rest)

def appendPatternAtom (capacity : Nat) (text : Bytes) (atoms : List Atom) : Option (List Atom × Bytes) :=
  if atoms.length ≥ capacity then none
  else (consumePatternAtom text).map fun (bytes, rest) => (atoms ++ [{ bytes := bytes }], rest)

def quantifierOf (byte : UInt8) : Option Quantifier :=
  if byte = 0x2a then some .zeroOrMore
  else if byte = 0x2b then some .oneOrMore
  else if byte = 0x3f then some .zeroOrOne
  else none

/-- The quantifier behind an atom; without one the atom keeps its own. -/
def consumePatternQuantifier : Bytes → Quantifier × Bytes
  | [] => (.one, [])
  | byte :: rest =>
    match quantifierOf byte with
    | some quantifier => (quantifier, rest)
    | none => (.one, byte :: rest)

def setQuantifier (atoms : List Atom) (index : Nat) (quantifier : Quantifier) : List Atom :=
  atoms.modify index fun atom => { atom with quantifier := quantifier }

/-! ### The cursor moves on -/

theorem length_splitPatternClass {body : Bytes} (h : splitPatternClass text = some (body, rest)) :
    rest.length < text.length := by
  fun_induction splitPatternClass text generalizing body with
  | case1 | case2 => cases h
  | case3 escaped behind ih =>
    obtain ⟨⟨body', rest'⟩, hsplit, hpair⟩ := Option.map_eq_some_iff.mp h
    obtain rfl : rest' = rest := (Prod.mk.inj hpair).2
    have := ih hsplit
    simp only [List.length_cons]
    omega
  | case4 =>
    rw [← (Prod.mk.inj (Option.some.inj h)).2]
    exact Nat.lt_succ_self _
  | case5 byte behind hescape hclose ih =>
    obtain ⟨⟨body', rest'⟩, hsplit, hpair⟩ := Option.map_eq_some_iff.mp h
    obtain rfl : rest' = rest := (Prod.mk.inj hpair).2
    exact Nat.lt_succ_of_lt (ih hsplit)

theorem length_consumePatternClass {bytes : ByteSet} (h : consumePatternClass text = some (bytes, rest)) :
    rest.length < text.length := by
  have hbody : ∀ {text bytes}, consumePatternClassBody text = some (bytes, rest) → rest.length < text.length := by
    intro text bytes h
    obtain ⟨⟨body, rest'⟩, hsplit, hmap⟩ := Option.bind_eq_some_iff.mp h
    obtain ⟨bytes', -, hpair⟩ := Option.map_eq_some_iff.mp hmap
    obtain rfl : rest' = rest := (Prod.mk.inj hpair).2
    exact length_splitPatternClass hsplit
  rw [consumePatternClass] at h
  split at h
  · obtain ⟨⟨bytes', rest'⟩, hclass, hpair⟩ := Option.map_eq_some_iff.mp h
    obtain rfl : rest' = rest := (Prod.mk.inj hpair).2
    exact Nat.lt_of_lt_of_le (hbody hclass) (by rw [List.length_tail]; exact Nat.sub_le _ _)
  · exact hbody h

theorem length_consumePatternAtom {bytes : ByteSet} (h : consumePatternAtom text = some (bytes, rest)) :
    rest.length < text.length := by
  cases text with
  | nil => cases h
  | cons byte behind =>
    have hstay : ∀ {bytes'}, some (bytes', behind) = some (bytes, rest) → rest.length < (byte :: behind).length := by
      intro bytes' heq
      rw [← (Prod.mk.inj (Option.some.inj heq)).2]
      exact Nat.lt_succ_self _
    rw [consumePatternAtom] at h
    split_ifs at h
    · exact Nat.lt_succ_of_lt (length_consumePatternClass h)
    · obtain ⟨⟨member, rest'⟩, hescape, hpair⟩ := Option.map_eq_some_iff.mp h
      obtain rfl : rest' = rest := (Prod.mk.inj hpair).2
      exact Nat.lt_succ_of_lt (length_consumePatternEscape hescape)
    · exact hstay h
    · exact hstay h

theorem length_appendPatternAtom {capacity : Nat} {atoms atoms' : List Atom}
    (h : appendPatternAtom capacity text atoms = some (atoms', rest)) : rest.length < text.length := by
  rw [appendPatternAtom, Option.ite_none_left_eq_some] at h
  obtain ⟨⟨bytes, rest'⟩, hatom, hpair⟩ := Option.map_eq_some_iff.mp h.2
  obtain rfl : rest' = rest := (Prod.mk.inj hpair).2
  exact length_consumePatternAtom hatom

theorem length_consumePatternQuantifier (text : Bytes) : (consumePatternQuantifier text).2.length ≤ text.length := by
  cases text with
  | nil => exact Nat.le_refl _
  | cons byte rest =>
    rw [consumePatternQuantifier]
    split
    · exact Nat.le_succ _
    · exact Nat.le_refl _

/-! ## The compiler -/

/-- The loop of `compile_pattern_plan`. -/
def compilePatternLoop (capacity : Nat) (text : Bytes) (atoms : List Atom) : Option (List Atom) :=
  match text with
  | [] => some atoms
  | byte :: behind =>
    match h : appendPatternAtom capacity (byte :: behind) atoms with
    | none => none
    | some (atoms', rest) =>
      have : (consumePatternQuantifier rest).2.length < (byte :: behind).length :=
        Nat.lt_of_le_of_lt (length_consumePatternQuantifier rest) (length_appendPatternAtom h)
      compilePatternLoop capacity (consumePatternQuantifier rest).2
        (setQuantifier atoms' atoms.length (consumePatternQuantifier rest).1)
termination_by text.length
decreasing_by exact Nat.lt_of_le_of_lt (length_consumePatternQuantifier rest) (length_appendPatternAtom h)

def maxPatternBytes : Nat := 256

def compilePatternPlan (capacity : Nat) (pattern : Bytes) : Plan :=
  if pattern.length > maxPatternBytes ∨ pattern.length < 2 ∨ pattern.head? ≠ some caret ∨
      pattern.getLast? ≠ some dollar then {}
  else
    match compilePatternLoop capacity pattern.tail.dropLast [] with
    | none => {}
    | some atoms => { valid := true, atoms := atoms }

/-- `compiled_pattern_plan`. -/
def compiledPatternPlan (pattern : Bytes) : Plan :=
  compilePatternPlan (min pattern.length maxPatternBytes) pattern

end Ruvia.Web.Pattern
