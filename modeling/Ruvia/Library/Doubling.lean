import Ruvia.Library.ByteString

/-!
# `Library.Doubling` — quoted tokens whose delimiter is doubled inside

A quoted token ends at the first delimiter that is not doubled. A rule may have an escape byte too, which takes the
byte behind it along (`QuoteRule`). A text with every delimiter and every escape byte doubled is read back as itself,
whatever it is and whatever follows it (`QuoteRule.read_double`). Writers find the next such byte, copy up to it and
write it once more; that is doubling (`doubleLoop_eq`).
-/

namespace Library

/-- How a quoted token is read. `escaped` is what a byte stands for behind the escape byte. -/
structure QuoteRule where
  quote : UInt8
  escape : Option UInt8
  escaped : UInt8 → Option UInt8

/-- The text with each special byte written twice. -/
def double (special : UInt8 → Bool) (value : Bytes) : Bytes :=
  value.flatMap fun byte => if special byte then [byte, byte] else [byte]

/-- Finds the next special byte, copies up to it and writes it once more. -/
def doubleLoop (special : UInt8 → Bool) (output value : Bytes) : Bytes :=
  match h : findFrom special value 0 with
  | none => output ++ value
  | some position =>
    doubleLoop special (output ++ value.take (position + 1) ++ [value.getD position 0]) (value.drop (position + 1))
termination_by value.length
decreasing_by
  obtain ⟨-, ⟨byte, hbyte, -⟩, -⟩ := findFrom_eq_some_iff.mp h
  have hlt := (List.getElem?_eq_some_iff.mp hbyte).1
  rw [List.length_drop]
  omega

section

variable {special : UInt8 → Bool} {byte : UInt8} {value tail : Bytes}

theorem double_cons (byte : UInt8) (value : Bytes) :
    double special (byte :: value) = (if special byte then [byte, byte] else [byte]) ++ double special value := rfl

theorem double_append (value tail : Bytes) :
    double special (value ++ tail) = double special value ++ double special tail := List.flatMap_append

theorem double_of_not_special (h : ∀ byte ∈ value, special byte = false) : double special value = value := by
  induction value with
  | nil => rfl
  | cons byte value ih =>
    rw [double_cons, h byte List.mem_cons_self, ih fun b hmem => h b (List.mem_cons_of_mem _ hmem)]
    rfl

/-- **The loop doubles.** -/
theorem doubleLoop_eq (output value : Bytes) : doubleLoop special output value = output ++ double special value := by
  fun_induction doubleLoop special output value with
  | case1 output value hnone =>
    rw [double_of_not_special]
    exact findFrom_eq_none.mp hnone
  | case2 output value position hfound ih =>
    obtain ⟨-, ⟨byte, hbyte, hspecial⟩, hfirst⟩ := findFrom_eq_some_iff.mp hfound
    have hlt := (List.getElem?_eq_some_iff.mp hbyte).1
    have hfront : double special (value.take position) = value.take position := by
      apply double_of_not_special
      intro b hmem
      obtain ⟨i, hi⟩ := List.getElem?_of_mem hmem
      rw [List.getElem?_take] at hi
      split at hi
      · exact hfirst i (Nat.zero_le _) ‹_› b hi
      · cases hi
    have hsplit : value = value.take position ++ byte :: value.drop (position + 1) := by
      conv_lhs => rw [← List.take_append_drop position value, List.drop_eq_getElem_cons hlt]
      rw [List.getElem?_eq_getElem hlt, Option.some.injEq] at hbyte
      rw [hbyte]
    have htake : value.take (position + 1) = value.take position ++ [byte] := by
      rw [List.take_add_one, hbyte]
      rfl
    have hget : value.getD position 0 = byte := by rw [List.getD_eq_getElem?_getD, hbyte, Option.getD_some]
    rw [ih, htake, hget]
    conv_rhs => rw [hsplit, double_append, hfront, double_cons, if_pos hspecial]
    simp only [List.append_assoc, List.cons_append, List.nil_append]

end

namespace QuoteRule

variable (rule : QuoteRule)

/-- The bytes that are written twice. -/
def special (byte : UInt8) : Bool := byte == rule.quote || rule.escape == some byte

/-- The rest of a token behind its opening delimiter: what it stands for, and the text behind it. -/
def read : Bytes → Option (Bytes × Bytes)
  | [] => none
  | [byte] => if byte = rule.quote ∧ rule.escape ≠ some byte then some ([], []) else none
  | byte :: next :: rest =>
    if rule.escape = some byte then
      match rule.escaped next with
      | none => none
      | some stands => (read rest).map fun (value, behind) => (stands :: value, behind)
    else if byte = rule.quote then
      if next = rule.quote then (read rest).map fun (value, behind) => (byte :: value, behind)
      else some ([], next :: rest)
    else (read (next :: rest)).map fun (value, behind) => (byte :: value, behind)

/-- The escape byte is not the delimiter, and stands for itself behind itself. -/
def Doubles : Prop := ∀ byte, rule.escape = some byte → byte ≠ rule.quote ∧ rule.escaped byte = some byte

variable {rule}

/-- **A doubled text is read back**, and nothing in it ends the token. -/
theorem read_double (hrule : rule.Doubles) (value : Bytes) {tail : Bytes} (htail : tail.head? ≠ some rule.quote) :
    rule.read (double rule.special value ++ rule.quote :: tail) = some (value, tail) := by
  have hquote : rule.escape ≠ some rule.quote := fun h => (hrule _ h).1 rfl
  induction value with
  | nil =>
    show rule.read (rule.quote :: tail) = _
    cases tail with
    | nil => rw [read, if_pos ⟨rfl, hquote⟩]
    | cons next tail =>
      have hnext : next ≠ rule.quote := by simpa using htail
      rw [read, if_neg hquote, if_pos rfl, if_neg hnext]
  | cons byte value ih =>
    rw [double_cons]
    by_cases hspecial : rule.special byte = true
    · rw [if_pos hspecial]
      simp only [List.cons_append, List.nil_append, read, ih, Option.map_some]
      by_cases hescape : rule.escape = some byte
      · rw [if_pos hescape, (hrule byte hescape).2]
      · have hbyte : byte = rule.quote := by
          rcases Bool.or_eq_true_iff.mp hspecial with h | h
          · exact eq_of_beq h
          · exact absurd (eq_of_beq h) hescape
        rw [if_neg hescape, if_pos hbyte, if_pos hbyte]
    · rw [if_neg hspecial, List.singleton_append]
      have hne : byte ≠ rule.quote ∧ rule.escape ≠ some byte := by simpa [special] using hspecial
      obtain ⟨next, rest, hrest⟩ := List.exists_cons_of_ne_nil
        (show double rule.special value ++ rule.quote :: tail ≠ [] by simp)
      rw [hrest] at ih
      rw [List.cons_append, hrest, read, if_neg hne.2, if_neg hne.1, ih, Option.map_some]

end QuoteRule

end Library
