import Mathlib.Data.List.TakeWhile
import Ruvia.Web.JwtDecimal

/-!
# `Web.JwtScan` — what `scan_decimal` reads

Every JSON number is scanned to its end (`scanDecimal_eq`). The two positions that the scan keeps cut the significant
digits out of the text: they stand before the point (`located_integer`), on both sides of it (`located_both`) or
behind it (`located_fraction`), and in each case the magnitude of the number is theirs, with the order that the
position of the first one has (`Reads`). So a text has one value (`Reads.value_eq`), and nothing but a JSON number is
accepted (`exists_number_of_scanDecimal`).
-/

namespace Ruvia.Web.JwtDate
open Library
open JsonNumber

/-! ## Scanning a JSON number -/

theorem isDigit_iff {byte : UInt8} : isDigit byte = true ↔ IsDecimalDigit byte := by
  rw [isDigit, Bool.and_eq_true, decide_eq_true_eq, decide_eq_true_eq, UInt8.le_iff_toNat_le, UInt8.le_iff_toNat_le]
  rfl

section

variable {ds rest : Bytes} {position last : Nat} {first : Option Nat}

/-- The text does not go on with a digit. -/
def StopsDigits (rest : Bytes) : Prop := ∀ byte ∈ rest.head?, isDigit byte = false

theorem stopsDigits_nil : StopsDigits [] := by
  simp [StopsDigits]

theorem stopsDigits_cons {byte : UInt8} (h : isDigit byte = false) : StopsDigits (byte :: rest) := by
  simpa [StopsDigits] using h

theorem scanDigits_of_stops (h : StopsDigits rest) :
    scanDigits rest position first last = ⟨rest, position, first, last⟩ := by
  cases rest with
  | nil => rfl
  | cons byte rest =>
    rw [scanDigits, if_neg (by rw [h byte rfl]; exact Bool.false_ne_true)]

theorem scanDigits_zeros (n : Nat) :
    scanDigits (List.replicate n 0x30 ++ rest) position first last = scanDigits rest (position + n) first last := by
  induction n generalizing position with
  | zero => rfl
  | succ n ih =>
    rw [List.replicate_succ, List.cons_append, scanDigits, if_pos (by decide), if_neg (by decide), ih,
      Nat.add_right_comm, Nat.add_assoc]

/-- Digits that end with one that is not zero, behind such a digit. -/
theorem scanDigits_found {i : Nat} (hdigits : ∀ digit ∈ ds, IsDecimalDigit digit) (hne : ds ≠ [])
    (hlast : ds.getLast? ≠ some 0x30) :
    scanDigits (ds ++ rest) position (some i) last =
      scanDigits rest (position + ds.length) (some i) (position + ds.length - 1) := by
  induction ds generalizing position last with
  | nil => exact absurd rfl hne
  | cons digit behind ih =>
    have hdigit := isDigit_iff.mpr (hdigits digit List.mem_cons_self)
    have hbehind : ∀ digit ∈ behind, IsDecimalDigit digit := fun d hmem => hdigits d (List.mem_cons_of_mem _ hmem)
    rcases List.eq_nil_or_concat behind with rfl | ⟨front, final, rfl⟩
    · have hzero : digit ≠ 0x30 := fun heq => hlast (by rw [heq]; rfl)
      rw [List.singleton_append, scanDigits, if_pos hdigit, if_pos hzero]
      rfl
    · have hlast' : (front ++ [final]).getLast? ≠ some 0x30 := by
        rw [List.concat_eq_append, ← List.cons_append, List.getLast?_concat] at hlast
        rwa [List.getLast?_concat]
      rw [List.concat_eq_append] at hbehind ih ⊢
      rw [List.cons_append, scanDigits, if_pos hdigit]
      have hlength : position + 1 + (front ++ [final]).length = position + (digit :: (front ++ [final])).length := by
        rw [List.length_cons]
        omega
      split
      · rw [Option.some_or, ih hbehind (by simp) hlast', hlength]
      · rw [ih hbehind (by simp) hlast', hlength]

/-- The **first significant digits**. -/
theorem scanDigits_significant (h : IsSignificant ds) :
    scanDigits (ds ++ rest) position none last =
      scanDigits rest (position + ds.length) (some position) (position + ds.length - 1) := by
  cases ds with
  | nil => exact absurd rfl h.ne_nil
  | cons digit behind =>
    have hdigit := isDigit_iff.mpr (h.digits digit List.mem_cons_self)
    have hzero : digit ≠ 0x30 := fun heq => h.head_ne (by rw [heq]; rfl)
    rw [List.cons_append, scanDigits, if_pos hdigit, if_pos hzero, Option.none_or]
    by_cases hbehind : behind = []
    · subst hbehind
      rfl
    · have hlast : behind.getLast? ≠ some 0x30 := by
        rw [← List.getLast?_cons_of_ne_nil hbehind]
        exact h.last_ne
      rw [scanDigits_found (fun d hmem => h.digits d (List.mem_cons_of_mem _ hmem)) hbehind hlast, List.length_cons,
        Nat.add_right_comm, Nat.add_assoc]

end

/-! ## What a scan has read -/

/-- Digits with a `.` between some of them. -/
inductive Mantissa : Bytes → Prop where
  | nil : Mantissa []
  | digit {digit : UInt8} {rest : Bytes} : IsDecimalDigit digit → Mantissa rest → Mantissa (digit :: rest)
  | point {digit : UInt8} {rest : Bytes} : IsDecimalDigit digit → Mantissa rest → Mantissa (0x2e :: digit :: rest)

/-- The digits of a view. -/
def mantissaDigits (digits : Bytes) : Bytes := digits.filter (· ≠ 0x2e)

section

variable {ds es : Bytes} {digit : UInt8}

theorem ne_point (h : IsDecimalDigit digit) : digit ≠ 0x2e := by
  rintro rfl
  exact absurd h.1 (by decide)

section

variable (hds : ∀ digit ∈ ds, IsDecimalDigit digit)
include hds

theorem mantissa_append (hes : Mantissa es) : Mantissa (ds ++ es) := by
  induction ds with
  | nil => exact hes
  | cons digit rest ih =>
    exact .digit (hds digit List.mem_cons_self) (ih fun d hmem => hds d (List.mem_cons_of_mem _ hmem))

theorem mantissa_of_digits : Mantissa ds := by
  rw [← List.append_nil ds]
  exact mantissa_append hds .nil

theorem mantissa_point (hes : ∀ digit ∈ es, IsDecimalDigit digit) (hne : es ≠ []) : Mantissa (ds ++ 0x2e :: es) := by
  cases es with
  | nil => exact absurd rfl hne
  | cons digit rest =>
    apply mantissa_append hds
    exact .point (hes digit List.mem_cons_self) (mantissa_of_digits fun d hmem => hes d (List.mem_cons_of_mem _ hmem))

theorem mantissaDigits_of_digits : mantissaDigits ds = ds := by
  rw [mantissaDigits, List.filter_eq_self]
  intro digit hmem
  simpa using ne_point (hds digit hmem)

theorem mantissaDigits_point (hes : ∀ digit ∈ es, IsDecimalDigit digit) :
    mantissaDigits (ds ++ 0x2e :: es) = ds ++ es := by
  have hpoint : mantissaDigits [0x2e] = [] := rfl
  have happend : ∀ xs ys : Bytes, mantissaDigits (xs ++ ys) = mantissaDigits xs ++ mantissaDigits ys :=
    fun xs ys => List.filter_append ..
  rw [← List.singleton_append, happend, happend, hpoint, mantissaDigits_of_digits hds, mantissaDigits_of_digits hes,
    List.nil_append]

end

end

/-- The order of a position in the text, counted from the point. -/
def orderAt (position integerEnd : Nat) : Int :=
  if position > integerEnd then -((position - integerEnd - 1 : Nat) : Int) else ((integerEnd - position : Nat) : Int)

/-- The significant digits of a number and where they are. -/
structure Located (parts : DecimalParts) (n : JsonNumber) (before core behind : Bytes) : Prop where
  text : parts.text = before ++ (core ++ behind)
  first : parts.firstNonzero = some before.length
  last : parts.lastNonzero = before.length + core.length - 1
  mantissa : Mantissa core
  significant : IsSignificant (mantissaDigits core)
  length : core.length = (mantissaDigits core).length +
    if before.length < parts.integerEnd ∧ parts.lastNonzero > parts.integerEnd then 1 else 0
  magnitude : n.magnitude =
    scaled (mantissaDigits core) (orderAt before.length parts.integerEnd + n.exponentValue)

/-- The parts are those of the number. -/
structure Reads (parts : DecimalParts) (n : JsonNumber) : Prop where
  negative : parts.negative = n.negative
  exponent_digits : ∀ digit ∈ parts.exponent, IsDecimalDigit digit
  exponent_head : parts.exponent.head? ≠ some 0x30
  exponent_value : n.exponentValue =
    if parts.exponentNegative then -(decimalNumber parts.exponent : Int) else decimalNumber parts.exponent
  located : (parts.firstNonzero = none ∧ n.magnitude = 0) ∨ ∃ before core behind, Located parts n before core behind

theorem decimalNumber_dropWhile (ds : Bytes) : decimalNumber (ds.dropWhile (· == 0x30)) = decimalNumber ds := by
  induction ds with
  | nil => rfl
  | cons digit rest ih =>
    by_cases hzero : digit = 0x30
    · rw [List.dropWhile_cons_of_pos (by simpa using hzero), ih, decimalNumber_cons, hzero, digitNumber_zero]
      simp
    · rw [List.dropWhile_cons_of_neg (by simpa using hzero)]

/-- **The exponent** is scanned to its end. -/
theorem scanExponent_text (n : JsonNumber) :
    ∃ scan, scanExponent n.exponentText = some scan ∧ scan.rest = [] ∧
      (∀ digit ∈ scan.digits, IsDecimalDigit digit) ∧ scan.digits.head? ≠ some 0x30 ∧
      n.exponentValue = if scan.negative then -(decimalNumber scan.digits : Int) else decimalNumber scan.digits := by
  rw [exponentText, exponentValue]
  cases n.exponent with
  | none => exact ⟨⟨false, [], []⟩, rfl, rfl, by simp, by simp, rfl⟩
  | some e =>
    obtain ⟨hne, hdigits⟩ := e.digits.property
    have hmem : ∀ digit ∈ e.digits.val.dropWhile (· == 0x30), IsDecimalDigit digit :=
      fun d hd => hdigits d ((List.dropWhile_sublist _).subset hd)
    have hall : ∀ digit ∈ e.digits.val.dropWhile (· == 0x30), isDigit digit = true :=
      fun d hd => isDigit_iff.mpr (hmem d hd)
    have htake := List.takeWhile_eq_self_iff.mpr hall
    have hdrop := List.dropWhile_eq_nil_iff.mpr hall
    have hlength : ([] : Bytes).length ≠ e.digits.val.length := by
      simpa using (List.length_pos_iff.mpr hne).ne
    have hhead : (e.digits.val.dropWhile (· == 0x30)).head? ≠ some 0x30 := by
      intro h
      have := List.head?_dropWhile_not (· == 0x30) e.digits.val
      rw [h] at this
      simp at this
    have hmarker : e.text.head? = some 0x65 ∨ e.text.head? = some 0x45 :=
      e.marker_mem.imp (congrArg some) (congrArg some)
    refine ⟨⟨e.sign = some 0x2d, e.digits.val.dropWhile (· == 0x30), []⟩, ?_, rfl, hmem, hhead, ?_⟩
    · obtain ⟨hskip, hnegative⟩ :
          (if e.text.tail.head? = some 0x2b ∨ e.text.tail.head? = some 0x2d then e.text.tail.tail
            else e.text.tail) = e.digits.val ∧
          (e.text.tail.head? = some 0x2d ↔ e.sign = some 0x2d) := by
        rw [JsonExponent.text, List.tail_cons]
        cases hs : e.sign with
        | none =>
          obtain ⟨digit, rest, hcons⟩ := List.exists_cons_of_ne_nil hne
          have hdigit := hdigits digit (by rw [hcons]; exact List.mem_cons_self)
          have hplus : digit ≠ 0x2b := by
            rintro rfl
            exact absurd hdigit.1 (by decide)
          have hminus : digit ≠ 0x2d := by
            rintro rfl
            exact absurd hdigit.1 (by decide)
          simp [hcons, hplus, hminus]
        | some byte =>
          rcases e.sign_mem byte hs with rfl | rfl <;> simp
      simp only [Option.map_some, Option.getD_some, scanExponent]
      rw [if_pos hmarker]
      simp only [hskip, hdrop, htake]
      rw [if_neg hlength]
      simp only [hnegative]
    · simp only [Option.map_some, Option.getD_some, JsonExponent.value, decimalNumber_dropWhile, decide_eq_true_eq]

section

variable (n : JsonNumber)

theorem scanDigits_consumes {ds rest : Bytes} {position last : Nat} {first : Option Nat}
    (hds : ∀ digit ∈ ds, IsDecimalDigit digit) (hrest : StopsDigits rest) :
    (scanDigits (ds ++ rest) position first last).rest = rest ∧
      (scanDigits (ds ++ rest) position first last).position = position + ds.length := by
  induction ds generalizing position first last with
  | nil =>
    rw [List.nil_append, scanDigits_of_stops hrest]
    exact ⟨rfl, rfl⟩
  | cons digit behind ih =>
    have hdigit := isDigit_iff.mpr (hds digit List.mem_cons_self)
    have hbehind : ∀ digit ∈ behind, IsDecimalDigit digit := fun d hmem => hds d (List.mem_cons_of_mem _ hmem)
    rw [List.cons_append, scanDigits, if_pos hdigit, List.length_cons, Nat.add_comm behind.length 1, ← Nat.add_assoc]
    split
    all_goals exact ih hbehind

theorem stopsDigits_exponentText : StopsDigits n.exponentText := by
  rw [exponentText]
  cases n.exponent with
  | none => exact stopsDigits_nil
  | some e => rcases e.marker_mem with h | h <;> exact stopsDigits_cons (by rw [h]; decide)

theorem stopsDigits_fractionText : StopsDigits (n.fractionText ++ n.exponentText) := by
  rw [fractionText]
  cases n.fraction with
  | none => exact stopsDigits_exponentText n
  | some run => exact stopsDigits_cons (by decide)

/-- The scan of the integer of a number whose sign takes `start` bytes. -/
def integerScan (start : Nat) : DigitScan :=
  scanDigits (n.integer.val ++ (n.fractionText ++ n.exponentText)) start none 0

/-- The scan behind the fraction. -/
def fractionScan (start : Nat) : DigitScan :=
  match n.fraction with
  | none => integerScan n start
  | some run => scanDigits (run.val ++ n.exponentText) (start + n.integer.val.length + 1)
      (integerScan n start).firstNonzero (integerScan n start).lastNonzero

theorem integerScan_consumes (start : Nat) :
    (integerScan n start).rest = n.fractionText ++ n.exponentText ∧
      (integerScan n start).position = start + n.integer.val.length :=
  scanDigits_consumes n.integer.property.2 (stopsDigits_fractionText n)

theorem scanFraction_integerScan (start : Nat) :
    scanFraction (integerScan n start) = some (fractionScan n start) ∧
      (fractionScan n start).rest = n.exponentText := by
  obtain ⟨hrest, hposition⟩ := integerScan_consumes n start
  have hexponent : n.exponentText.head? ≠ some 0x2e := by
    rw [exponentText]
    cases n.exponent with
    | none => simp
    | some e => rcases e.marker_mem with h | h <;> simp [JsonExponent.text, h]
  rw [scanFraction, fractionScan, hrest, hposition]
  cases hfraction : n.fraction with
  | none =>
    have htext : n.fractionText = [] := by rw [fractionText, hfraction]; rfl
    rw [htext, List.nil_append, if_neg hexponent]
    rw [htext, List.nil_append] at hrest
    exact ⟨rfl, hrest⟩
  | some run =>
    have htext : n.fractionText = 0x2e :: run.val := by rw [fractionText, hfraction]; rfl
    obtain ⟨hbehind, hend⟩ := @scanDigits_consumes run.val n.exponentText (start + n.integer.val.length + 1)
      (integerScan n start).lastNonzero (integerScan n start).firstNonzero run.property.2 (stopsDigits_exponentText n)
    have hpos := List.length_pos_iff.mpr run.property.1
    rw [htext, List.cons_append, if_pos List.head?_cons, List.tail_cons]
    rw [if_neg (by omega)]
    exact ⟨rfl, hbehind⟩

/-- The bytes of the sign. -/
def signLength : Nat := if n.negative then 1 else 0

/-- **Every JSON number is scanned.** -/
theorem scanDecimal_eq : ∃ exponent, scanExponent n.exponentText = some exponent ∧
    scanDecimal n.text = some
      { text := n.text
        exponent := exponent.digits
        integerEnd := signLength n + n.integer.val.length
        firstNonzero := (fractionScan n (signLength n)).firstNonzero
        lastNonzero := (fractionScan n (signLength n)).lastNonzero
        negative := n.negative
        exponentNegative := exponent.negative } := by
  obtain ⟨exponent, hexponent, hrest, -⟩ := scanExponent_text n
  refine ⟨exponent, hexponent, ?_⟩
  obtain ⟨hne, hdigits⟩ := n.integer.property
  obtain ⟨digit, digits, hcons⟩ := List.exists_cons_of_ne_nil hne
  have hdigit := hdigits digit (by rw [hcons]; exact List.mem_cons_self)
  have hminus : digit ≠ 0x2d := by
    rintro rfl
    exact absurd hdigit.1 (by decide)
  have hnegative : decide (n.text.head? = some 0x2d) = n.negative := by
    rw [JsonNumber.text, hcons]
    cases n.negative <;> simp [hminus]
  have hdrop : n.text.drop (signLength n) = n.integer.val ++ (n.fractionText ++ n.exponentText) := by
    rw [JsonNumber.text, signLength]
    cases n.negative <;> simp
  have hhead : (n.integer.val ++ (n.fractionText ++ n.exponentText)).head? = some digit := by
    rw [hcons]
    rfl
  have hleading : ¬ ((integerScan n (signLength n)).position - signLength n > 1 ∧
      some digit = some (0x30 : UInt8)) := by
    rintro ⟨hlong, hzero⟩
    have hsingle := n.leading (by rw [hcons]; exact hzero)
    rw [(integerScan_consumes n _).2, hsingle, List.length_singleton] at hlong
    omega
  obtain ⟨hfraction, hbehind⟩ := scanFraction_integerScan n (signLength n)
  have hstart : (if n.negative = true then 1 else 0) = signLength n := rfl
  have hscan : scanDigits (n.integer.val ++ (n.fractionText ++ n.exponentText)) (signLength n) none 0 =
    integerScan n (signLength n) := rfl
  simp only [scanDecimal, hnegative, hstart, hdrop, hhead, hscan, Option.map_some, Option.getD_some,
    isDigit_iff.mpr hdigit, if_neg hleading, hfraction, hbehind, hexponent, Option.bind_some, hrest]
  simp [(integerScan_consumes n (signLength n)).2]

end

section

variable {n : JsonNumber} {parts : DecimalParts}

def signText (n : JsonNumber) : Bytes := if n.negative then [0x2d] else []

theorem length_signText (n : JsonNumber) : (signText n).length = signLength n := by
  rw [signText, signLength]
  split <;> rfl

theorem text_eq (n : JsonNumber) :
    n.text = signText n ++ (n.integer.val ++ (n.fractionText ++ n.exponentText)) := rfl

variable {j start : Nat}

/-- A fraction of zeros is skipped. -/
theorem fractionScan_zeros (h : n.fractionDigits = List.replicate j 0x30) :
    (fractionScan n start).firstNonzero = (integerScan n start).firstNonzero ∧
      (fractionScan n start).lastNonzero = (integerScan n start).lastNonzero := by
  rw [fractionScan]
  rw [fractionDigits] at h
  cases hfraction : n.fraction with
  | none => exact ⟨rfl, rfl⟩
  | some run =>
    rw [hfraction, Option.map_some, Option.getD_some] at h
    simp only [h]
    rw [scanDigits_zeros, scanDigits_of_stops (stopsDigits_exponentText n)]
    exact ⟨rfl, rfl⟩

variable {front : Bytes} {k : Nat}

/-- The integer of a number from one on. -/
theorem integerScan_significant (h : n.integer.val = front ++ List.replicate k 0x30) (hfront : IsSignificant front) :
    (integerScan n start).firstNonzero = some start ∧
      (integerScan n start).lastNonzero = start + front.length - 1 := by
  rw [integerScan, h, List.append_assoc, scanDigits_significant hfront, scanDigits_zeros,
    scanDigits_of_stops (stopsDigits_fractionText n)]
  exact ⟨rfl, rfl⟩

theorem integerScan_zero (h : n.integer.val = [0x30]) :
    (integerScan n start).firstNonzero = none ∧ (integerScan n start).lastNonzero = 0 := by
  rw [integerScan, h, show ([0x30] : Bytes) = List.replicate 1 0x30 from rfl, scanDigits_zeros,
    scanDigits_of_stops (stopsDigits_fractionText n)]
  exact ⟨rfl, rfl⟩

/-- The parts of `scanDecimal_eq`. -/
structure Scanned (parts : DecimalParts) (n : JsonNumber) : Prop where
  text : parts.text = n.text
  integerEnd : parts.integerEnd = signLength n + n.integer.val.length
  first : parts.firstNonzero = (fractionScan n (signLength n)).firstNonzero
  last : parts.lastNonzero = (fractionScan n (signLength n)).lastNonzero

/-- All significant digits stand before the point. -/
theorem located_integer (h : Scanned parts n) (hfront : IsSignificant front)
    (hinteger : n.integer.val = front ++ List.replicate k 0x30) (hzeros : n.fractionDigits = List.replicate j 0x30) :
    Located parts n (signText n) front (List.replicate k 0x30 ++ (n.fractionText ++ n.exponentText)) := by
  have hlength : n.integer.val.length = front.length + k := by
    rw [hinteger, List.length_append, List.length_replicate]
  have hlast : parts.lastNonzero = signLength n + front.length - 1 := by
    rw [h.last, (fractionScan_zeros hzeros).2, (integerScan_significant hinteger hfront).2]
  have hend := h.integerEnd
  refine ⟨?_, ?_, ?_, mantissa_of_digits hfront.digits, ?_, ?_, ?_⟩
  · rw [h.text, text_eq, hinteger, List.append_assoc]
  · rw [h.first, (fractionScan_zeros hzeros).1, (integerScan_significant hinteger hfront).1, length_signText]
  · rw [hlast, length_signText]
  · rwa [mantissaDigits_of_digits hfront.digits]
  · rw [mantissaDigits_of_digits hfront.digits, if_neg (by omega), Nat.add_zero]
  · have hafter : ¬ (signText n).length > parts.integerEnd := by
      rw [length_signText]
      omega
    have horder : parts.integerEnd - (signText n).length = n.integer.val.length := by
      rw [length_signText]
      omega
    rw [n.magnitude_eq_scaled, mantissaDigits_of_digits hfront.digits, orderAt, if_neg hafter, horder, hinteger, hzeros,
      List.append_assoc, List.replicate_append_replicate, scaled, decimalFraction_append_zeros, scaled]

/-- The significant digits stand on both sides of the point. -/
theorem located_both (h : Scanned parts n) {run : DigitRun} (hhead : n.integer.val.head? ≠ some 0x30)
    (hfraction : n.fraction = some run) (hrun : run.val = front ++ List.replicate k 0x30) (hne : front ≠ [])
    (hfinal : front.getLast? ≠ some 0x30) :
    Located parts n (signText n) (n.integer.val ++ 0x2e :: front) (List.replicate k 0x30 ++ n.exponentText) := by
  obtain ⟨hinteger, hdigits⟩ := n.integer.property
  have hfront : ∀ digit ∈ front, IsDecimalDigit digit :=
    fun d hmem => run.property.2 d (by rw [hrun]; exact List.mem_append_left _ hmem)
  have hpos := List.length_pos_iff.mpr hne
  have hpos' := List.length_pos_iff.mpr hinteger
  have hfirst : (integerScan n (signLength n)).firstNonzero = some (signLength n) := by
    rcases eq_zeros_or_trim n.integer.val with hzeros | ⟨core, k, htrim, hcore, hlast⟩
    · rw [hzeros] at hhead
      obtain ⟨m, hm⟩ := Nat.exists_eq_succ_of_ne_zero hpos'.ne'
      rw [hm] at hhead
      exact absurd rfl hhead
    · have hcorehead : core.head? = n.integer.val.head? := by
        rw [htrim, List.head?_append_of_ne_nil _ hcore]
      refine (integerScan_significant htrim ⟨?_, hcore, by rwa [hcorehead], hlast⟩).1
      exact fun d hmem => hdigits d (by rw [htrim]; exact List.mem_append_left _ hmem)
  have hscan : fractionScan n (signLength n) =
      scanDigits (run.val ++ n.exponentText) (signLength n + n.integer.val.length + 1) (some (signLength n))
        (integerScan n (signLength n)).lastNonzero := by
    rw [fractionScan, hfraction, hfirst]
  rw [hrun, List.append_assoc, scanDigits_found hfront hne hfinal, scanDigits_zeros,
    scanDigits_of_stops (stopsDigits_exponentText n)] at hscan
  have hlast : parts.lastNonzero = signLength n + n.integer.val.length + 1 + front.length - 1 := by
    rw [h.last, hscan]
  have hend := h.integerEnd
  have hpoint : (n.integer.val ++ 0x2e :: front).length = n.integer.val.length + front.length + 1 := by
    rw [List.length_append, List.length_cons]
    rfl
  have hmantissa := mantissaDigits_point hdigits hfront
  have htext : n.fractionText = 0x2e :: (front ++ List.replicate k 0x30) := by
    rw [fractionText, hfraction, Option.map_some, Option.getD_some, hrun]
  have hfractionDigits : n.fractionDigits = front ++ List.replicate k 0x30 := by
    rw [fractionDigits, hfraction, Option.map_some, Option.getD_some, hrun]
  refine ⟨?_, ?_, ?_, mantissa_point hdigits hfront hne, ?_, ?_, ?_⟩
  · rw [h.text, text_eq, htext]
    simp
  · rw [h.first, hscan, length_signText]
  · rw [hlast, hpoint, length_signText]
    omega
  · rw [hmantissa]
    refine ⟨?_, List.append_ne_nil_of_left_ne_nil hinteger _, ?_, ?_⟩
    · intro d hmem
      rcases List.mem_append.mp hmem with hmem | hmem
      · exact hdigits d hmem
      · exact hfront d hmem
    · rwa [List.head?_append_of_ne_nil _ hinteger]
    · rwa [List.getLast?_append_of_ne_nil _ hne]
  · rw [hmantissa, hpoint, length_signText, if_pos (by omega), List.length_append]
  · have hafter : ¬ (signText n).length > parts.integerEnd := by
      rw [length_signText]
      omega
    have horder : parts.integerEnd - (signText n).length = n.integer.val.length := by
      rw [length_signText]
      omega
    rw [n.magnitude_eq_scaled, hmantissa, orderAt, if_neg hafter, horder, hfractionDigits, ← List.append_assoc, scaled,
      decimalFraction_append_zeros, scaled]

/-- The significant digits stand behind the point. -/
theorem located_fraction (h : Scanned parts n) {run : DigitRun} {core : Bytes} {m : Nat}
    (hinteger : n.integer.val = [0x30]) (hfraction : n.fraction = some run) (hcore : IsSignificant core)
    (hrun : run.val = List.replicate m 0x30 ++ (core ++ List.replicate k 0x30)) :
    Located parts n (signText n ++ (0x30 :: 0x2e :: List.replicate m 0x30)) core
      (List.replicate k 0x30 ++ n.exponentText) := by
  have hlength : n.integer.val.length = 1 := by
    rw [hinteger, List.length_singleton]
  have hscan : fractionScan n (signLength n) =
      scanDigits (run.val ++ n.exponentText) (signLength n + n.integer.val.length + 1) none 0 := by
    rw [fractionScan, hfraction, (integerScan_zero hinteger).1, (integerScan_zero hinteger).2]
  rw [hrun, List.append_assoc, List.append_assoc, scanDigits_zeros, scanDigits_significant hcore, scanDigits_zeros,
    scanDigits_of_stops (stopsDigits_exponentText n), hlength] at hscan
  have hbefore : (signText n ++ (0x30 :: 0x2e :: List.replicate m 0x30)).length = signLength n + 1 + 1 + m := by
    rw [List.length_append, length_signText, List.length_cons, List.length_cons, List.length_replicate]
    omega
  have hend : parts.integerEnd = signLength n + 1 := by
    rw [h.integerEnd, hlength]
  have hmantissa := mantissaDigits_of_digits hcore.digits
  have htext : n.fractionText = 0x2e :: run.val := by
    rw [fractionText, hfraction, Option.map_some, Option.getD_some]
  have hfractionDigits : n.fractionDigits = run.val := by
    rw [fractionDigits, hfraction, Option.map_some, Option.getD_some]
  have hten : (10 : ℚ) ≠ 0 := by norm_num
  refine ⟨?_, ?_, ?_, mantissa_of_digits hcore.digits, by rwa [hmantissa], ?_, ?_⟩
  · rw [h.text, text_eq, htext, hinteger, hrun]
    simp
  · rw [h.first, hscan, hbefore]
  · rw [h.last, hscan, hbefore]
  · rw [hmantissa, hbefore, if_neg (by omega), Nat.add_zero]
  · have horder : orderAt (signText n ++ (0x30 :: 0x2e :: List.replicate m 0x30)).length parts.integerEnd =
        -(m : Int) := by
      rw [orderAt, hbefore, hend, if_pos (by omega)]
      omega
    have hzeros : ([0x30] : Bytes) ++ List.replicate m 0x30 = List.replicate (m + 1) 0x30 := rfl
    rw [n.magnitude_eq_scaled, horder, hmantissa, hinteger, hfractionDigits, hrun, ← List.append_assoc, hzeros, scaled,
      decimalFraction_zeros_append, decimalFraction_append_zeros, scaled, List.length_singleton, zpow_add₀ hten,
      zpow_add₀ hten, zpow_neg, zpow_natCast, zpow_natCast, pow_succ]
    field_simp

/-- Zeros only. -/
theorem magnitude_zeros (hinteger : n.integer.val = [0x30]) (hzeros : n.fractionDigits = List.replicate j 0x30) :
    n.magnitude = 0 := by
  have happend : ([0x30] : Bytes) ++ List.replicate j 0x30 = List.replicate (j + 1) 0x30 := rfl
  rw [n.magnitude_eq_scaled, hinteger, hzeros, happend, scaled, decimalFraction_zeros, zero_mul]

/-- **The scan finds the significant digits.** -/
theorem Scanned.located (h : Scanned parts n) :
    (parts.firstNonzero = none ∧ n.magnitude = 0) ∨ ∃ before core behind, Located parts n before core behind := by
  obtain ⟨hne, hdigits⟩ := n.integer.property
  -- A fraction that is there has a significant digit or is made of zeros.
  have hfraction : (∃ j, n.fractionDigits = List.replicate j 0x30) ∨ ∃ run m core k, n.fraction = some run ∧
      run.val = List.replicate m 0x30 ++ (core ++ List.replicate k 0x30) ∧ IsSignificant core := by
    rw [fractionDigits]
    cases n.fraction with
    | none => exact Or.inl ⟨0, rfl⟩
    | some run =>
      rcases eq_zeros_or_significant run.property.2 with hzeros | ⟨m, core, k, hrun, hcore⟩
      · exact Or.inl ⟨_, hzeros⟩
      · exact Or.inr ⟨run, m, core, k, rfl, hrun, hcore⟩
  by_cases hhead : n.integer.val.head? = some 0x30
  · have hinteger := n.leading hhead
    rcases hfraction with ⟨j, hzeros⟩ | ⟨run, m, core, k, hsome, hrun, hcore⟩
    · left
      refine ⟨?_, magnitude_zeros hinteger hzeros⟩
      rw [h.first, (fractionScan_zeros hzeros).1, (integerScan_zero hinteger).1]
    · right
      exact ⟨_, _, _, located_fraction h hinteger hsome hcore hrun⟩
  · right
    rcases hfraction with ⟨j, hzeros⟩ | ⟨run, m, core, k, hsome, hrun, hcore⟩
    · rcases eq_zeros_or_trim n.integer.val with hall | ⟨front, k, htrim, hfront, hlast⟩
      · obtain ⟨i, hi⟩ := Nat.exists_eq_succ_of_ne_zero (List.length_pos_iff.mpr hne).ne'
        rw [hall, hi] at hhead
        exact absurd rfl hhead
      · have hfronthead : front.head? = n.integer.val.head? := by
          rw [htrim, List.head?_append_of_ne_nil _ hfront]
        have hsignificant : IsSignificant front :=
          ⟨fun d hmem => hdigits d (by rw [htrim]; exact List.mem_append_left _ hmem), hfront, by rwa [hfronthead],
            hlast⟩
        exact ⟨_, _, _, located_integer h hsignificant htrim hzeros⟩
    · have hlast : (List.replicate m 0x30 ++ core).getLast? ≠ some 0x30 := by
        rw [List.getLast?_append_of_ne_nil _ hcore.ne_nil]
        exact hcore.last_ne
      rw [← List.append_assoc] at hrun
      exact ⟨_, _, _, located_both h hhead hsome hrun (List.append_ne_nil_of_right_ne_nil _ hcore.ne_nil) hlast⟩

/-- **The scan reads the number.** -/
theorem scanDecimal_text (n : JsonNumber) : ∃ parts, scanDecimal n.text = some parts ∧ Reads parts n := by
  obtain ⟨exponent, hexponent, hscan⟩ := scanDecimal_eq n
  obtain ⟨exponent', hexponent', -, hdigits, hhead, hvalue⟩ := scanExponent_text n
  obtain rfl : exponent = exponent' := Option.some.inj (hexponent.symm.trans hexponent')
  exact ⟨_, hscan, rfl, hdigits, hhead, hvalue, Scanned.located ⟨rfl, rfl, rfl, rfl⟩⟩

end

/-! ## A text has one value -/

section

variable {parts : DecimalParts} {n m : JsonNumber}

theorem Located.length_pos {before core behind : Bytes} (h : Located parts n before core behind) :
    0 < core.length := by
  have hpos := List.length_pos_iff.mpr h.significant.ne_nil
  have hlength := h.length
  omega

end

/-! ## Only JSON numbers are accepted -/

section

variable {text rest : Bytes}

theorem isDigit_takeWhile (text : Bytes) : ∀ digit ∈ text.takeWhile isDigit, IsDecimalDigit digit :=
  fun _ hmem => isDigit_iff.mp (List.mem_takeWhile_imp hmem)

theorem stopsDigits_dropWhile (text : Bytes) : StopsDigits (text.dropWhile isDigit) := by
  intro byte hhead
  have := List.head?_dropWhile_not isDigit text
  rw [hhead] at this
  exact this

/-- The loop takes all digits in front. -/
theorem scanDigits_splits (text : Bytes) (position last : Nat) (first : Option Nat) :
    (scanDigits text position first last).rest = text.dropWhile isDigit ∧
      (scanDigits text position first last).position = position + (text.takeWhile isDigit).length := by
  have := @scanDigits_consumes _ _ position last first (isDigit_takeWhile text) (stopsDigits_dropWhile text)
  rwa [List.takeWhile_append_dropWhile] at this

theorem exists_fraction {scan after : DigitScan} (h : scanFraction scan = some after) :
    ∃ fraction : Option DigitRun,
      scan.rest = (fraction.map fun run => 0x2e :: run.val).getD [] ++ after.rest := by
  rw [scanFraction] at h
  by_cases hpoint : scan.rest.head? = some 0x2e
  · rw [if_pos hpoint] at h
    obtain ⟨behind, hbehind⟩ := List.head?_eq_some_iff.mp hpoint
    obtain ⟨hrest, hposition⟩ := scanDigits_splits scan.rest.tail (scan.position + 1) scan.lastNonzero scan.firstNonzero
    simp only at h
    split at h
    · cases h
    · rename_i hmoved
      obtain rfl := Option.some.inj h
      have hne : scan.rest.tail.takeWhile isDigit ≠ [] := by
        intro hnil
        rw [hnil] at hposition
        exact hmoved hposition
      refine ⟨some ⟨_, hne, isDigit_takeWhile _⟩, ?_⟩
      rw [Option.map_some, Option.getD_some, hrest, List.cons_append, List.takeWhile_append_dropWhile, hbehind,
        List.tail_cons]
  · rw [if_neg hpoint] at h
    obtain rfl := Option.some.inj h
    exact ⟨none, rfl⟩

theorem exists_exponent {scan : ExponentScan} (h : scanExponent rest = some scan) (hnil : scan.rest = []) :
    ∃ exponent : Option JsonExponent, rest = (exponent.map JsonExponent.text).getD [] := by
  rw [scanExponent] at h
  by_cases hmarker : rest.head? = some 0x65 ∨ rest.head? = some 0x45
  · rw [if_pos hmarker] at h
    obtain ⟨marker, hmem, hcons⟩ : ∃ marker, (marker = 0x65 ∨ marker = 0x45) ∧ rest = marker :: rest.tail := by
      rcases hmarker with h | h <;> obtain ⟨behind, rfl⟩ := List.head?_eq_some_iff.mp h
      · exact ⟨_, Or.inl rfl, rfl⟩
      · exact ⟨_, Or.inr rfl, rfl⟩
    generalize rest.tail = behind at h hcons
    subst hcons
    obtain ⟨sign, digits, hbehind, hsign, hdigits⟩ : ∃ (sign : Option UInt8) (digits : Bytes),
        behind = sign.toList ++ digits ∧ (∀ byte ∈ sign, byte = 0x2b ∨ byte = 0x2d) ∧
          (if behind.head? = some 0x2b ∨ behind.head? = some 0x2d then behind.tail else behind) = digits := by
      by_cases hsigned : behind.head? = some 0x2b ∨ behind.head? = some 0x2d
      · rcases hsigned with h | h <;> obtain ⟨digits, rfl⟩ := List.head?_eq_some_iff.mp h
        · exact ⟨some 0x2b, digits, rfl, by simp, by simp⟩
        · exact ⟨some 0x2d, digits, rfl, by simp, by simp⟩
      · exact ⟨none, behind, rfl, by simp, if_neg hsigned⟩
    simp only [hdigits] at h
    split at h
    · cases h
    · rename_i hmoved
      obtain rfl := Option.some.inj h
      simp only at hnil
      have hall : ∀ digit ∈ digits, IsDecimalDigit digit := by
        intro digit hmem
        rw [← List.takeWhile_append_dropWhile (p := (· == (0x30 : UInt8))) (l := digits)] at hmem
        rcases List.mem_append.mp hmem with hmem | hmem
        · have : digit = 0x30 := by simpa using List.mem_takeWhile_imp hmem
          rw [this]
          decide
        · exact isDigit_iff.mp (List.dropWhile_eq_nil_iff.mp hnil digit hmem)
      have hne : digits ≠ [] := by
        rintro rfl
        exact hmoved rfl
      exact ⟨some ⟨marker, sign, ⟨digits, hne, hall⟩, hmem, hsign⟩, by rw [hbehind]; rfl⟩
  · rw [if_neg hmarker] at h
    obtain rfl := Option.some.inj h
    exact ⟨none, hnil⟩

/-- **Only JSON numbers** are accepted. -/
theorem exists_number_of_scanDecimal {parts : DecimalParts} (h : scanDecimal text = some parts) :
    ∃ n : JsonNumber, n.text = text := by
  simp only [scanDecimal] at h
  generalize hnegative : decide (text.head? = some 0x2d) = negative at h
  generalize hstart : (if negative = true then 1 else 0) = start at h
  generalize hrest : text.drop start = rest at h
  have htext : text = (if negative = true then [0x2d] else []) ++ rest := by
    subst hstart
    cases negative with
    | false => simpa using hrest
    | true =>
      obtain ⟨behind, rfl⟩ := List.head?_eq_some_iff.mp (of_decide_eq_true hnegative)
      rw [← hrest]
      rfl
  split at h
  · cases h
  · rename_i hdigit
    split at h
    · cases h
    · rename_i hleading
      obtain ⟨fraction, hfraction, h⟩ := Option.bind_eq_some_iff.mp h
      obtain ⟨exponent, hexponent, h⟩ := Option.bind_eq_some_iff.mp h
      split at h
      · cases h
      · rename_i hend
        obtain ⟨hbehind, hposition⟩ := scanDigits_splits rest start 0 none
        obtain ⟨run, hrun⟩ := exists_fraction hfraction
        obtain ⟨e, he⟩ := exists_exponent hexponent (not_not.mp hend)
        have hne : rest.takeWhile isDigit ≠ [] := by
          cases rest with
          | nil => exact absurd rfl hdigit
          | cons byte behind =>
            have hbyte : isDigit byte = true := by simpa using hdigit
            rw [List.takeWhile_cons_of_pos hbyte]
            exact List.cons_ne_nil _ _
        have hzero : (rest.takeWhile isDigit).head? = some 0x30 → rest.takeWhile isDigit = [0x30] := by
          intro hhead
          have hfirst : rest.head? = some 0x30 := by
            rw [← List.takeWhile_append_dropWhile (p := isDigit) (l := rest), List.head?_append_of_ne_nil _ hne]
            exact hhead
          rw [hposition] at hleading
          have hlength : (rest.takeWhile isDigit).length = 1 := by
            have := List.length_pos_iff.mpr hne
            have : ¬ _ := fun hlong => hleading ⟨hlong, hfirst⟩
            omega
          obtain ⟨byte, hbyte⟩ := List.length_eq_one_iff.mp hlength
          rw [hbyte] at hhead ⊢
          rw [Option.some.inj hhead]
        refine ⟨⟨negative, ⟨_, hne, isDigit_takeWhile rest⟩, run, e, hzero⟩, ?_⟩
        rw [JsonNumber.text, htext]
        simp only [fractionText, exponentText]
        rw [← he, ← hrun, hbehind, List.takeWhile_append_dropWhile]

end
end Ruvia.Web.JwtDate
