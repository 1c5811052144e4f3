import Ruvia.Http.Syntax
import Ruvia.Library.Coalescing
import Ruvia.Library.DecimalFraction

/-!
# `Http.ByteRange` — the ranges that a Range field asks for

`resolve_http_byte_range_set` of `http_byte_range.h`: reads a byte-range set, clamps its members to the representation
and merges those that touch. The arithmetic is that of 64-bit unsigned integers: a sum or a difference has no value here
where the program's would wrap, and an array has no element beyond its size.
-/

namespace Ruvia.Http

open Library

abbrev hyphen : UInt8 := 0x2d

/-- `a + b` in 64 bits. -/
def checkedAdd (a b : Nat) : Option Nat := if a + b < 2 ^ 64 then some (a + b) else none

/-- `a - b` in 64 bits. -/
def checkedSub (a b : Nat) : Option Nat := if b ≤ a then some (a - b) else none

theorem checkedAdd_of_lt {a b : Nat} (h : a + b < 2 ^ 64) : checkedAdd a b = some (a + b) := if_pos h

theorem checkedSub_of_le {a b : Nat} (h : b ≤ a) : checkedSub a b = some (a - b) := if_pos h

/-- `http_byte_range`. -/
structure HttpByteRange where
  offset : Nat
  length : Nat
  deriving DecidableEq, Repr

/-- `http_byte_range_set`; the ranges are the first `count_` elements of the array. -/
structure HttpByteRangeSet where
  ranges : List HttpByteRange := []
  ignored : Bool := true
  deriving DecidableEq, Repr

namespace HttpByteRangeSet

def capacity : Nat := 16

def unsatisfiable (set : HttpByteRangeSet) : Bool := !set.ignored && set.ranges.isEmpty

end HttpByteRangeSet

/-! ## Numbers -/

/-- How `std::from_chars` ends. -/
inductive FromCharsOutcome where
  | value (n : Nat)
  | invalidArgument
  | resultOutOfRange
  deriving DecidableEq, Repr

/-- `std::from_chars` for 64 unsigned bits: the outcome and the text it leaves. -/
def fromCharsUint64 (text : Bytes) : FromCharsOutcome × Bytes :=
  let digits := text.takeWhile isDigit
  if digits = [] then (.invalidArgument, text)
  else if decimalNumber digits < 2 ^ 64 then (.value (decimalNumber digits), text.dropWhile isDigit)
  else (.resultOutOfRange, text.dropWhile isDigit)

/-- `parse_number`; a number that does not fit becomes the greatest one. -/
def parseNumber (digits : Bytes) : Option Nat :=
  if digits = [] then none
  else
    match fromCharsUint64 digits with
    | (outcome, rest) =>
      if rest ≠ [] then none
      else
        match outcome with
        | .resultOutOfRange => some (2 ^ 64 - 1)
        | .value n => some n
        | .invalidArgument => none

/-- The loops that strip leading zeros, up to the last digit. -/
def normalizedDigits : Bytes → Bytes
  | [] => []
  | [digit] => [digit]
  | digit :: next :: rest => if digit = 0x30 then normalizedDigits (next :: rest) else digit :: next :: rest

/-- The comparison of the two digit texts of a spec. -/
def digitsExceed (first last : Bytes) : Bool :=
  let first := normalizedDigits first
  let last := normalizedDigits last
  decide (last.length < first.length) || (first.length == last.length && decide (last < first))

/-! ## Merging -/

/-- What the loop of `add_range` holds: the growing union, the slot kept for it and the elements kept so far. -/
structure AddRange where
  start : Nat
  stop : Nat
  target : Option Nat := none
  kept : List HttpByteRange := []

/-- One round of the loop of `add_range`. -/
def addRangeStep (state : AddRange) (current : HttpByteRange) : Option AddRange := do
  let currentEnd ← checkedAdd current.offset current.length
  if current.offset ≤ state.stop ∧ state.start ≤ currentEnd then
    some {
      start := min state.start current.offset
      stop := max state.stop currentEnd
      target := some (state.target.getD state.kept.length)
      -- the slot is filled behind the loop
      kept := if state.target.isNone then state.kept ++ [current] else state.kept }
  else some { state with kept := state.kept ++ [current] }

/-- What `add_range` does behind its loop. -/
def addRangeFinish (state : AddRange) : Option (List HttpByteRange) := do
  let target := state.target.getD state.kept.length
  let kept := if state.target.isNone then state.kept ++ [⟨0, 0⟩] else state.kept
  let length ← checkedSub state.stop state.start
  if target < HttpByteRangeSet.capacity then some (kept.set target ⟨state.start, length⟩) else none

/-- `add_range`. -/
def addRange (ranges : List HttpByteRange) (offset length : Nat) : Option (List HttpByteRange) := do
  let stop ← checkedAdd offset length
  let state ← ranges.foldlM addRangeStep { start := offset, stop := stop }
  addRangeFinish state

/-! ## Specs -/

/-- What the loop body makes of a spec that is not empty. -/
inductive SpecOutcome where
  | malformed
  | unsatisfiable
  | range (offset length : Nat)
  deriving DecidableEq, Repr

/-- A spec without a first position. -/
def resolveSuffix (representationLength : Nat) (last : Bytes) : Option SpecOutcome :=
  match parseNumber last with
  | none => some .malformed
  | some suffix =>
    if suffix = 0 then some .unsatisfiable
    else do
      let length := min suffix representationLength
      let offset ← checkedSub representationLength length
      some (.range offset length)

/-- A spec with a first position; the last one may be missing. -/
def resolveInterval (representationLength : Nat) (first last : Bytes) : Option SpecOutcome :=
  match parseNumber first, if last = [] then some 0 else parseNumber last with
  | some start, some stop =>
    if last ≠ [] ∧ digitsExceed first last then some .malformed
    else if representationLength ≤ start then some .unsatisfiable
    else do
      let lastByte ← checkedSub representationLength 1
      let clampedEnd := if last = [] then lastByte else min stop lastByte
      let distance ← checkedSub clampedEnd start
      let length ← checkedAdd distance 1
      some (.range start length)
  | _, _ => some .malformed

def resolveSpec (representationLength : Nat) (spec : Bytes) : Option SpecOutcome :=
  let first := spec.takeWhile (· != hyphen)
  match spec.dropWhile (· != hyphen) with
  | [] => some .malformed
  | _ :: last =>
    if hyphen ∈ last then some .malformed
    else if first = [] then resolveSuffix representationLength last
    else resolveInterval representationLength first last

/-- The loop over the members of the set. -/
def resolveMembers (representationLength : Nat) (ranges : List HttpByteRange) (emptyMembers : Nat)
    (sawRangeSpec : Bool) : List Bytes → Option HttpByteRangeSet
  | [] => some (if ranges = [] ∧ sawRangeSpec = false then {} else { ranges, ignored := false })
  | member :: members =>
    let spec := httpTrimOws member
    if spec = [] then
      if 32 < emptyMembers + 1 then some {}
      else resolveMembers representationLength ranges (emptyMembers + 1) sawRangeSpec members
    else if ranges.length = HttpByteRangeSet.capacity then some {}
    else
      match resolveSpec representationLength spec with
      | none => none
      | some .malformed => some {}
      | some .unsatisfiable => resolveMembers representationLength ranges emptyMembers true members
      | some (.range offset length) =>
        match addRange ranges offset length with
        | none => none
        | some ranges => resolveMembers representationLength ranges emptyMembers true members

/-- `resolve_http_byte_range_set`. -/
def resolveHttpByteRangeSet (fieldValue : Bytes) (representationLength : Nat) : Option HttpByteRangeSet :=
  let fieldValue := httpTrimOws fieldValue
  let unit := lit "bytes"
  if fieldValue.length ≤ unit.length ∨ fieldValue[unit.length]? ≠ some 0x3d ∨
      httpAsciiEqualsIgnoreCase (fieldValue.take unit.length) unit = false then some {}
  else if representationLength = 0 then some {}
  else
    let specs := httpTrimOws (fieldValue.drop (unit.length + 1))
    if specs = [] then some {}
    else resolveMembers representationLength [] 0 false (specs.splitOn comma)

end Ruvia.Http
