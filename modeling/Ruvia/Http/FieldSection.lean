import Ruvia.Http.Syntax

/-!
# `Http.FieldSection` — byte ceilings and the field-section budget

`protocol_byte_limit.h` and `http_field_section.h`. A configured limit is positive and representable; the
structure carries that as a field, as the throwing factory of the source guarantees it.
-/

namespace Ruvia.Http

/-- The number of values of `std::size_t`. -/
def sizeTypeCount : Nat := 2 ^ 64

/-- A byte ceiling; unlimited, or a positive representable bound. -/
structure ProtocolByteLimit where
  maximum : Option Nat
  valid : ∀ m ∈ maximum, 0 < m ∧ m < sizeTypeCount

namespace ProtocolByteLimit

def unlimited : ProtocolByteLimit := ⟨none, by simp⟩

def limited (bytes : Nat) (h : 0 < bytes ∧ bytes < sizeTypeCount) : ProtocolByteLimit :=
  ⟨some bytes, by simpa using h⟩

def exceeds (limit : ProtocolByteLimit) (bytes : Nat) : Bool :=
  match limit.maximum with
  | none => false
  | some m => m < bytes

/-- `addition_exceeds`: the sum is not representable, or passes the maximum. -/
def additionExceeds (limit : ProtocolByteLimit) (current added : Nat) : Bool :=
  if sizeTypeCount - 1 - current < added then true
  else
    match limit.maximum with
    | none => false
    | some m => m < current || m - current < added

end ProtocolByteLimit

/-- Bytes a field costs beyond its name and value. -/
def httpFieldLineOverhead : Nat := 4

structure HttpFieldSectionBudget where
  bytes : Nat := 0
  fields : Nat := 0
  deriving DecidableEq, Repr

namespace HttpFieldSectionBudget

def add (budget : HttpFieldSectionBudget) (bytes : Nat) : Option HttpFieldSectionBudget :=
  if maxHttpHeaderBytes - budget.bytes < bytes then none
  else some { budget with bytes := budget.bytes + bytes }

def addField (budget : HttpFieldSectionBudget) (nameBytes valueBytes : Nat) :
    Option HttpFieldSectionBudget :=
  let remaining := maxHttpHeaderBytes - budget.bytes
  if budget.fields = maxHttpHeaderFields ∨ remaining < httpFieldLineOverhead ∨
      remaining - httpFieldLineOverhead < nameBytes ∨
      remaining - httpFieldLineOverhead - nameBytes < valueBytes then none
  else some ⟨budget.bytes + (nameBytes + valueBytes + httpFieldLineOverhead), budget.fields + 1⟩

end HttpFieldSectionBudget

/-- A trailer section is charged its terminating empty line. -/
def httpTrailerSectionBudget : HttpFieldSectionBudget := ((HttpFieldSectionBudget.add {} 2).getD {})

end Ruvia.Http
