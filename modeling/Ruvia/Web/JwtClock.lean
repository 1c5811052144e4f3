import Mathlib.Data.List.DropRight
import Ruvia.Web.JwtOrder

/-!
# `Web.JwtClock` — instants of the host clock as decimal numbers

`jwt_date.cpp` never adds an offset to an instant in the clock's own representation: `offsetClock` takes the instant
apart into seconds and a fraction, adds the offset to the seconds, and keeps the sum exact (`offsetClock_spec`).
`formatClockDecimal` writes that sum as a view of digits (`formatClockDecimal_denotes`).
-/

namespace Ruvia.Web.JwtDate

open Library

/-! ## The clock -/

/-- The loop of `tick_decimal_places`. -/
def decimalPlacesLoop (ticks places : Nat) : Nat × Nat :=
  if ticks > 1 ∧ ticks % 10 = 0 then decimalPlacesLoop (ticks / 10) (places + 1) else (ticks, places)
termination_by ticks

def tickDecimalPlaces (ticksPerSecond : Nat) : Int :=
  let result := decimalPlacesLoop ticksPerSecond 0
  if result.1 = 1 then result.2 else -1

/-- The values of a signed integer type. -/
abbrev SignedRep (digits : Nat) :=
  { value : Int // -((2 ^ digits : Nat) : Int) ≤ value ∧ value < ((2 ^ digits : Nat) : Int) }

/-- `clock_type` and `std::chrono::seconds`, with what the static assertions require of them. -/
structure Clock where
  ticksPerSecond : Nat
  digits : Nat
  secondsDigits : Nat
  places_pos : 0 < tickDecimalPlaces ticksPerSecond
  places_le : tickDecimalPlaces ticksPerSecond ≤ 18
  digits_le : digits ≤ 63
  secondsDigits_le : secondsDigits ≤ 63

/-- `clock_type::time_point`, as its count of ticks. -/
abbrev Clock.TimePoint (clock : Clock) := SignedRep clock.digits

/-- `std::chrono::seconds`. -/
abbrev Clock.Seconds (clock : Clock) := SignedRep clock.secondsDigits

def unsignedMagnitude (value : Int) : Nat :=
  if value < 0 then (-(value + 1)).toNat + 1 else value.toNat

structure ClockParts where
  seconds : Nat := 0
  fraction : Nat := 0
  negative : Bool := false

variable (clock : Clock)

/-- The three branches of `offset_clock`. -/
def addOffset (parts : ClockParts) (offsetMagnitude : Nat) (offsetNegative : Bool) : ClockParts :=
  if parts.negative = offsetNegative then
    { parts with seconds := (parts.seconds + offsetMagnitude) % 2 ^ 64 }
  else if parts.seconds ≥ offsetMagnitude then
    { parts with seconds := parts.seconds - offsetMagnitude }
  else if parts.fraction ≠ 0 then
    { seconds := offsetMagnitude - parts.seconds - 1
      fraction := clock.ticksPerSecond - parts.fraction
      negative := !parts.negative }
  else { parts with seconds := offsetMagnitude - parts.seconds, negative := !parts.negative }

def offsetClock (now : clock.TimePoint) (offset : clock.Seconds) : ClockParts :=
  let ticks := now.val
  let magnitude := unsignedMagnitude ticks
  let parts := addOffset clock ⟨magnitude / clock.ticksPerSecond, magnitude % clock.ticksPerSecond, ticks < 0⟩
    (unsignedMagnitude offset.val) (offset.val < 0)
  if parts.seconds = 0 ∧ parts.fraction = 0 then { parts with negative := false } else parts

/-! ## Writing an instant -/

def formatSeconds (seconds : Nat) (negative : Bool) : Bytes :=
  (if negative then [0x2d] else []) ++ decimal seconds

/-- The loop that looks for the first digit of a fraction. -/
def fractionOrder (fraction divisor : Nat) (order : Int) : Int × Nat :=
  if fraction < divisor then fractionOrder fraction (divisor / 10) (order - 1) else (order, divisor)
termination_by divisor
decreasing_by omega

/-- The loop that writes the digits of a fraction. It ends before the divisor is zero. -/
def writeFraction (fraction divisor : Nat) : Bytes :=
  if fraction = 0 ∨ divisor = 0 then []
  else digitByte (fraction / divisor) :: writeFraction (fraction % divisor) (divisor / 10)
termination_by divisor
decreasing_by omega

def formatClockDecimal (parts : ClockParts) : DecimalView :=
  if parts.seconds = 0 ∧ parts.fraction = 0 then {}
  else if parts.seconds = 0 then
    let start := fractionOrder parts.fraction (clock.ticksPerSecond / 10) 0
    let digits := writeFraction parts.fraction start.2
    ⟨digits, digits.length, start.1, parts.negative⟩
  else
    let secondsDigits := decimal parts.seconds
    if parts.fraction = 0 then
      let digits := secondsDigits.rdropWhile (· == 0x30)
      ⟨digits, digits.length, secondsDigits.length, parts.negative⟩
    else
      let digits := secondsDigits ++ 0x2e :: writeFraction parts.fraction (clock.ticksPerSecond / 10)
      ⟨digits, digits.length - 1, secondsDigits.length, parts.negative⟩

/-! ## The sum is exact -/

theorem decimalPlacesLoop_pow (ticks places : Nat) :
    (decimalPlacesLoop ticks places).1 = 1 → ticks * 10 ^ places = 10 ^ (decimalPlacesLoop ticks places).2 := by
  fun_induction decimalPlacesLoop ticks places with
  | case1 ticks places h ih =>
    intro hone
    rw [← ih hone, pow_succ, Nat.mul_comm (10 ^ places) 10, ← Nat.mul_assoc,
      Nat.div_mul_cancel (Nat.dvd_of_mod_eq_zero h.2)]
  | case2 ticks places h =>
    intro hone
    simp only at hone ⊢
    rw [hone, Nat.one_mul]

/-- The decimal places of a second. -/
def Clock.places : Nat := (tickDecimalPlaces clock.ticksPerSecond).toNat

theorem Clock.ticksPerSecond_eq : clock.ticksPerSecond = 10 ^ clock.places := by
  have hpos := clock.places_pos
  rw [places, tickDecimalPlaces] at *
  have hone : (decimalPlacesLoop clock.ticksPerSecond 0).1 = 1 := by
    by_contra hne
    omega
  have := decimalPlacesLoop_pow clock.ticksPerSecond 0 hone
  simpa [hone] using this

theorem Clock.places_bounds : 0 < clock.places ∧ clock.places ≤ 18 := by
  have := clock.places_pos
  have := clock.places_le
  rw [places]
  omega

theorem Clock.ten_le : 10 ≤ clock.ticksPerSecond := by
  have := Nat.pow_le_pow_right (show 0 < 10 by omega) (show 1 ≤ clock.places from clock.places_bounds.1)
  rw [clock.ticksPerSecond_eq]
  omega

theorem unsignedMagnitude_eq (value : Int) : unsignedMagnitude value = value.natAbs := by
  rw [unsignedMagnitude]
  split <;> omega

theorem unsignedMagnitude_le {digits : Nat} (h : digits ≤ 63) (value : SignedRep digits) :
    unsignedMagnitude value.val ≤ 2 ^ 63 := by
  have hmono := Nat.pow_le_pow_right (show 0 < 2 by omega) h
  obtain ⟨hlow, hhigh⟩ := value.property
  rw [unsignedMagnitude_eq]
  omega

/-- The ticks that the parts stand for. -/
def ClockParts.ticks (parts : ClockParts) : Int :=
  (if parts.negative then -1 else 1) * ((parts.seconds * clock.ticksPerSecond + parts.fraction : Nat) : Int)

/-- What holds of every sum. -/
structure ClockParts.Proper (parts : ClockParts) : Prop where
  fraction_lt : parts.fraction < clock.ticksPerSecond
  /-- There is room for one more second. -/
  seconds_lt : parts.seconds + 1 < 2 ^ 64
  zero_sign : parts.seconds = 0 → parts.fraction = 0 → parts.negative = false

section

variable {clock}

/-- The factor of a sign. -/
def signFactor (negative : Bool) : Int := if negative then -1 else 1

theorem signFactor_not (negative : Bool) : signFactor (!negative) = -signFactor negative := by
  cases negative <;> rfl

theorem ticks_eq (parts : ClockParts) : parts.ticks clock =
    signFactor parts.negative * (parts.seconds * clock.ticksPerSecond + parts.fraction) := by
  push_cast
  rfl

theorem eq_signFactor_mul (value : Int) : value = signFactor (value < 0) * value.natAbs := by
  rw [signFactor]
  split <;> simp only [decide_eq_true_eq] at * <;> omega

theorem addOffset_ticks {parts : ClockParts} {offset : Int} (hfraction : parts.fraction < clock.ticksPerSecond)
    (hseconds : parts.seconds ≤ 2 ^ 63 / 10) (hoffset : unsignedMagnitude offset ≤ 2 ^ 63) :
    (addOffset clock parts (unsignedMagnitude offset) (offset < 0)).ticks clock =
      parts.ticks clock + offset * clock.ticksPerSecond ∧
    (addOffset clock parts (unsignedMagnitude offset) (offset < 0)).fraction < clock.ticksPerSecond ∧
    (addOffset clock parts (unsignedMagnitude offset) (offset < 0)).seconds + 1 < 2 ^ 64 := by
  have hsigned := eq_signFactor_mul offset
  rw [unsignedMagnitude_eq] at hoffset ⊢
  generalize offset.natAbs = magnitude at hoffset hsigned ⊢
  generalize decide (offset < 0) = offsetNegative at hsigned ⊢
  rw [hsigned, addOffset]
  split_ifs with hsame hle hne
  · have hwrap : (parts.seconds + magnitude) % 2 ^ 64 = parts.seconds + magnitude := Nat.mod_eq_of_lt (by omega)
    simp only [hwrap, ticks_eq, hsame]
    refine ⟨?_, hfraction, by omega⟩
    push_cast
    ring
  all_goals
    have hopposite : signFactor offsetNegative = -signFactor parts.negative := by
      rw [← signFactor_not, Bool.eq_not_of_ne (Ne.symm hsame)]
  · simp only [ticks_eq, hopposite]
    refine ⟨?_, hfraction, by omega⟩
    rw [Nat.cast_sub hle]
    ring
  · -- A second is taken from the difference and the fraction from that second.
    simp only [ticks_eq, hopposite, signFactor_not]
    refine ⟨?_, by omega, by omega⟩
    rw [Nat.cast_sub hfraction.le, Nat.cast_sub (show 1 ≤ magnitude - parts.seconds by omega),
      Nat.cast_sub (by omega), Nat.cast_one]
    ring
  · have hzero : parts.fraction = 0 := not_not.mp hne
    simp only [ticks_eq, hopposite, signFactor_not, hzero]
    refine ⟨?_, by omega, by omega⟩
    rw [Nat.cast_sub (by omega), Nat.cast_zero]
    ring

theorem offsetClock_spec (now : clock.TimePoint) (offset : clock.Seconds) :
    (offsetClock clock now offset).ticks clock = now.val + offset.val * clock.ticksPerSecond ∧
      (offsetClock clock now offset).Proper clock := by
  have hten := clock.ten_le
  have hnow := unsignedMagnitude_le clock.digits_le now
  have hoffset := unsignedMagnitude_le clock.secondsDigits_le offset
  have hseconds : unsignedMagnitude now.val / clock.ticksPerSecond ≤ 2 ^ 63 / 10 :=
    Nat.div_le_div hnow hten (by omega)
  have hfraction := Nat.mod_lt (unsignedMagnitude now.val) (show 0 < clock.ticksPerSecond by omega)
  have hticks : (⟨unsignedMagnitude now.val / clock.ticksPerSecond,
      unsignedMagnitude now.val % clock.ticksPerSecond, now.val < 0⟩ : ClockParts).ticks clock = now.val := by
    rw [ClockParts.ticks, Nat.div_add_mod', unsignedMagnitude_eq]
    exact (eq_signFactor_mul now.val).symm
  obtain ⟨hsum, hproper, hroom⟩ := @addOffset_ticks clock ⟨unsignedMagnitude now.val / clock.ticksPerSecond,
    unsignedMagnitude now.val % clock.ticksPerSecond, now.val < 0⟩ offset.val hfraction hseconds hoffset
  rw [hticks] at hsum
  simp only [offsetClock]
  split_ifs with hzero
  · rw [ClockParts.ticks, hzero.1, hzero.2] at hsum
    refine ⟨?_, ?_, ?_, ?_⟩
    · rw [ClockParts.ticks]
      simp only [hzero.1, hzero.2]
      rw [← hsum]
      simp
    · exact hproper
    · exact hroom
    · intro _ _
      rfl
  · exact ⟨hsum, hproper, hroom, fun h h' => absurd ⟨h, h'⟩ hzero⟩

end

/-! ## The view of an instant -/

theorem writeFraction_zero (divisor : Nat) : writeFraction 0 divisor = [] := by
  rw [writeFraction, if_pos (Or.inl rfl)]

theorem writeFraction_pos {fraction divisor : Nat} (hfraction : fraction ≠ 0) (hdivisor : divisor ≠ 0) :
    writeFraction fraction divisor =
      digitByte (fraction / divisor) :: writeFraction (fraction % divisor) (divisor / 10) := by
  rw [writeFraction, if_neg (not_or.mpr ⟨hfraction, hdivisor⟩)]

/-- What the digits of a fraction are. -/
structure WritesFraction (text : Bytes) (fraction k : Nat) : Prop where
  digits : ∀ digit ∈ text, IsDecimalDigit digit
  value : decimalFraction text = fraction / 10 ^ (k + 1)
  ne_nil : fraction ≠ 0 → text ≠ []
  last_ne : fraction ≠ 0 → text.getLast? ≠ some 0x30
  head_ne : 10 ^ k ≤ fraction → text.head? ≠ some 0x30

theorem writesFraction_zero (k : Nat) : WritesFraction [] 0 k :=
  ⟨by simp, by simp [decimalFraction], fun h => absurd rfl h, fun h => absurd rfl h, by simp⟩

/-- One turn of the loop. -/
theorem WritesFraction.cons {rest : Bytes} {fraction k : Nat} (hfraction : fraction ≠ 0)
    (hlt : fraction < 10 ^ (k + 1)) (hrest : ∀ digit ∈ rest, IsDecimalDigit digit)
    (hvalue : decimalFraction rest = (fraction % 10 ^ k : Nat) / 10 ^ k)
    (hne : fraction % 10 ^ k ≠ 0 → rest ≠ [] ∧ rest.getLast? ≠ some 0x30) (hnil : fraction % 10 ^ k = 0 → rest = []) :
    WritesFraction (digitByte (fraction / 10 ^ k) :: rest) fraction k := by
  have hpow : 0 < 10 ^ k := Nat.pow_pos (by omega)
  have hdigit : fraction / 10 ^ k < 10 := by
    rw [Nat.pow_succ, Nat.mul_comm] at hlt
    exact Nat.div_lt_of_lt_mul (by rwa [Nat.mul_comm])
  have hnonzero : fraction / 10 ^ k ≠ 0 → digitByte (fraction / 10 ^ k) ≠ 0x30 := by
    intro hne heq
    have := digitNumber_digitByte hdigit
    rw [heq, digitNumber_zero] at this
    exact hne this.symm
  refine ⟨?_, ?_, fun _ => List.cons_ne_nil _ _, fun _ => ?_, fun hle => ?_⟩
  · intro d hmem
    rcases List.mem_cons.mp hmem with rfl | hmem
    · exact isDecimalDigit_digitByte hdigit
    · exact hrest d hmem
  · have hsplit : (fraction : ℚ) = (fraction / 10 ^ k : Nat) * 10 ^ k + (fraction % 10 ^ k : Nat) := by
      exact_mod_cast (Nat.div_add_mod' fraction (10 ^ k)).symm
    rw [decimalFraction, hvalue, digitNumber_digitByte hdigit, pow_succ, hsplit]
    field_simp
  · by_cases hzero : fraction % 10 ^ k = 0
    · rw [hnil hzero]
      have hquotient : fraction / 10 ^ k ≠ 0 := by
        intro heq
        have := Nat.div_add_mod fraction (10 ^ k)
        rw [heq, hzero] at this
        exact hfraction (by omega)
      exact fun h => hnonzero hquotient (Option.some.inj h)
    · rw [List.getLast?_cons_of_ne_nil (hne hzero).1]
      exact (hne hzero).2
  · have hquotient : fraction / 10 ^ k ≠ 0 := (Nat.div_pos hle hpow).ne'
    exact fun h => hnonzero hquotient (Option.some.inj h)

/-- **The digits of a fraction** of a second. -/
theorem writeFraction_spec {fraction k : Nat} (h : fraction < 10 ^ (k + 1)) :
    WritesFraction (writeFraction fraction (10 ^ k)) fraction k := by
  induction k generalizing fraction with
  | zero =>
    by_cases hzero : fraction = 0
    · rw [hzero, writeFraction_zero]
      exact writesFraction_zero 0
    · have hmod : fraction % 10 ^ 0 = 0 := Nat.mod_one _
      rw [writeFraction_pos hzero (show 10 ^ 0 ≠ 0 by simp), hmod, writeFraction_zero]
      refine WritesFraction.cons hzero h (by simp) ?_ (fun hne => absurd hmod hne) (fun _ => rfl)
      rw [hmod]
      simp [decimalFraction]
  | succ k ih =>
    by_cases hzero : fraction = 0
    · rw [hzero, writeFraction_zero]
      exact writesFraction_zero _
    · have hdiv : 10 ^ (k + 1) / 10 = 10 ^ k := by
        rw [Nat.pow_succ, Nat.mul_div_cancel _ (by omega)]
      have hrest := ih (Nat.mod_lt fraction (Nat.pow_pos (show 0 < 10 by omega)))
      rw [writeFraction_pos hzero (Nat.pow_pos (show 0 < 10 by omega)).ne', hdiv]
      refine WritesFraction.cons hzero h hrest.digits hrest.value (fun hne => ⟨hrest.ne_nil hne, hrest.last_ne hne⟩) ?_
      intro hmod
      rw [hmod, writeFraction_zero]

/-- **The first digit** of a fraction is found. -/
theorem fractionOrder_spec {fraction k : Nat} (order : Int) (hpos : 0 < fraction) (h : fraction < 10 ^ (k + 1)) :
    ∃ j ≤ k, fractionOrder fraction (10 ^ k) order = (order - j, 10 ^ (k - j)) ∧ 10 ^ (k - j) ≤ fraction ∧
      fraction < 10 ^ (k - j + 1) := by
  induction k generalizing order with
  | zero =>
    refine ⟨0, le_rfl, ?_, hpos, h⟩
    rw [fractionOrder, if_neg (by simpa using hpos.ne')]
    simp
  | succ k ih =>
    by_cases hlt : fraction < 10 ^ (k + 1)
    · obtain ⟨j, hj, heq, hle, hlt'⟩ := ih (order - 1) hlt
      have hdiv : 10 ^ (k + 1) / 10 = 10 ^ k := by
        rw [Nat.pow_succ, Nat.mul_div_cancel _ (by omega)]
      refine ⟨j + 1, by omega, ?_, by rwa [Nat.add_sub_add_right], by rwa [Nat.add_sub_add_right]⟩
      rw [fractionOrder, if_pos hlt, hdiv, heq, Nat.add_sub_add_right]
      congr 1
      omega
    · refine ⟨0, by omega, ?_, not_lt.mp hlt, h⟩
      rw [fractionOrder, if_neg hlt]
      simp

/-- The digits in front of the zeros that end a number. -/
theorem rdropWhile_zeros {front : Bytes} (n : Nat) (hlast : front.getLast? ≠ some 0x30) :
    (front ++ List.replicate n 0x30).rdropWhile (· == 0x30) = front := by
  induction n with
  | zero =>
    rw [List.replicate_zero, List.append_nil, List.rdropWhile_eq_self_iff]
    intro hne hzero
    rw [List.getLast?_eq_some_getLast hne] at hlast
    exact hlast (congrArg some (by simpa using hzero))
  | succ n ih => rw [List.replicate_succ', ← List.append_assoc, List.rdropWhile_concat_pos _ _ _ rfl, ih]

/-- A number without the zeros it ends with. -/
theorem rdropWhile_decimal {seconds : Nat} (h : seconds ≠ 0) :
    IsSignificant ((decimal seconds).rdropWhile (· == 0x30)) ∧
      scaled ((decimal seconds).rdropWhile (· == 0x30)) (decimal seconds).length = seconds := by
  obtain ⟨digit, rest, hcons, hdigit⟩ := exists_decimal_eq_cons (Nat.pos_of_ne_zero h)
  have hhead : (decimal seconds).head? ≠ some 0x30 := by
    rw [hcons]
    exact fun heq => hdigit (Option.some.inj heq)
  have hvalue : scaled (decimal seconds) (decimal seconds).length = seconds := by
    rw [scaled, decimalFraction_eq, decimalNumber_decimal, zpow_natCast]
    field_simp
  rcases eq_zeros_or_trim (decimal seconds) with hzeros | ⟨front, n, htrim, hne, hlast⟩
  · rw [hcons, List.length_cons, List.replicate_succ, List.cons.injEq] at hzeros
    exact absurd hzeros.1 hdigit
  · have hdrop : (decimal seconds).rdropWhile (· == 0x30) = front := by
      rw [htrim, rdropWhile_zeros n hlast]
    rw [hdrop]
    refine ⟨⟨fun d hmem => ?_, hne, ?_, hlast⟩, ?_⟩
    · apply isDecimalDigit_of_mem_decimal
      rw [htrim]
      exact List.mem_append_left _ hmem
    · rwa [htrim, List.head?_append_of_ne_nil _ hne] at hhead
    · rw [← hvalue, scaled, scaled]
      congr 1
      conv_rhs => rw [htrim, decimalFraction_append_zeros]

section

variable {clock}

theorem ticks_div_eq (parts : ClockParts) : (parts.ticks clock : ℚ) / clock.ticksPerSecond =
    signed parts.negative (parts.seconds + parts.fraction / clock.ticksPerSecond) := by
  have hpos : (clock.ticksPerSecond : ℚ) ≠ 0 := by
    have := clock.ten_le
    exact_mod_cast (by omega : clock.ticksPerSecond ≠ 0)
  rw [ClockParts.ticks, signed]
  split
  all_goals
    push_cast
    field_simp

theorem clip_of_bounds {order : Int} (hlow : -64 < order) (hhigh : order < 64) : clip order = order := by
  rw [clip]
  omega

/-- **The view of an instant** stands for it, with an order that is not clipped. -/
theorem formatClockDecimal_denotes {parts : ClockParts} (h : parts.Proper clock) :
    DenotesZero (formatClockDecimal clock parts) (parts.ticks clock / clock.ticksPerSecond) ∨
      ∃ order, (-64 < order ∧ order < 64) ∧
        Denotes (formatClockDecimal clock parts) order (parts.ticks clock / clock.ticksPerSecond) := by
  obtain ⟨hplaces, hplaces'⟩ := clock.places_bounds
  obtain ⟨k, hk⟩ : ∃ k, clock.places = k + 1 := ⟨clock.places - 1, by omega⟩
  have hticks : clock.ticksPerSecond = 10 ^ (k + 1) := by
    rw [clock.ticksPerSecond_eq, hk]
  have htenth : clock.ticksPerSecond / 10 = 10 ^ k := by
    rw [hticks, Nat.pow_succ, Nat.mul_div_cancel _ (by omega)]
  have hfraction : parts.fraction < 10 ^ (k + 1) := hticks ▸ h.fraction_lt
  have hlength : (decimal parts.seconds).length ≤ 20 := by
    apply length_decimal_le (by omega)
    have := h.seconds_lt
    omega
  rw [ticks_div_eq, formatClockDecimal]
  by_cases hseconds : parts.seconds = 0
  · by_cases hzero : parts.fraction = 0
    · left
      rw [if_pos ⟨hseconds, hzero⟩]
      refine ⟨rfl, rfl, ?_⟩
      rw [hseconds, hzero, signed]
      simp
    · right
      obtain ⟨j, hj, hstart, hle, hlt⟩ := fractionOrder_spec 0 (Nat.pos_of_ne_zero hzero) hfraction
      have hwrites := writeFraction_spec hlt
      have hmantissa := mantissaDigits_of_digits hwrites.digits
      rw [if_neg (fun hboth => hzero hboth.2), if_pos hseconds, htenth, hstart]
      have horder := (clip_of_bounds (show -64 < (0 : Int) - j by omega) (by omega)).symm
      refine ⟨0 - j, by omega, ?_⟩
      refine ⟨horder, mantissa_of_digits hwrites.digits, ?_, ?_, ?_⟩
      · rw [hmantissa]
        exact ⟨hwrites.digits, hwrites.ne_nil hzero, hwrites.head_ne hle, hwrites.last_ne hzero⟩
      · rw [hmantissa]
      · have hten : (10 : ℚ) ≠ 0 := by norm_num
        have hsplit : (10 : ℚ) ^ (k + 1) = 10 ^ (k - j + 1) * 10 ^ j := by
          rw [← pow_add]
          congr 1
          omega
        rw [hmantissa, scaled, hwrites.value, hseconds, hticks, zero_sub, zpow_neg, zpow_natCast]
        push_cast
        rw [hsplit]
        congr 1
        field_simp
        ring
  · right
    rw [if_neg (fun hboth => hseconds hboth.1), if_neg hseconds]
    refine ⟨(decimal parts.seconds).length, by omega, ?_⟩
    have horder := (clip_of_bounds (show -64 < ((decimal parts.seconds).length : Int) by omega) (by omega)).symm
    by_cases hzero : parts.fraction = 0
    · obtain ⟨hsignificant, hvalue⟩ := rdropWhile_decimal hseconds
      have hmantissa := mantissaDigits_of_digits hsignificant.digits
      rw [if_pos hzero]
      refine ⟨horder, mantissa_of_digits hsignificant.digits, by rwa [hmantissa], by rw [hmantissa], ?_⟩
      rw [hmantissa, hvalue, hzero]
      simp
    · have hwrites := writeFraction_spec hfraction
      have hdigits : ∀ digit ∈ decimal parts.seconds, IsDecimalDigit digit := fun _ => isDecimalDigit_of_mem_decimal
      have hmantissa := mantissaDigits_point hdigits hwrites.digits
      have hne := decimal_ne_nil parts.seconds
      rw [if_neg hzero, htenth]
      refine ⟨horder, mantissa_point hdigits hwrites.digits (hwrites.ne_nil hzero), ?_, ?_, ?_⟩
      · rw [hmantissa]
        refine ⟨?_, List.append_ne_nil_of_left_ne_nil hne _, ?_, ?_⟩
        · intro d hmem
          rcases List.mem_append.mp hmem with hmem | hmem
          · exact hdigits d hmem
          · exact hwrites.digits d hmem
        · obtain ⟨digit, rest, hcons, hdigit⟩ := exists_decimal_eq_cons (Nat.pos_of_ne_zero hseconds)
          rw [hcons]
          exact fun heq => hdigit (Option.some.inj heq)
        · rw [List.getLast?_append_of_ne_nil _ (hwrites.ne_nil hzero)]
          exact hwrites.last_ne hzero
      · rw [hmantissa]
        simp only [List.length_append, List.length_cons]
        omega
      · rw [hmantissa, scaled, decimalFraction_append, hwrites.value, decimalFraction_eq, decimalNumber_decimal, hticks,
          zpow_natCast]
        push_cast
        congr 1
        field_simp

end

/-- The sum of an instant and an offset, in seconds. -/
def Clock.instant (now : clock.TimePoint) (offset : clock.Seconds) : ℚ :=
  (now.val : ℚ) / clock.ticksPerSecond + offset.val

end Ruvia.Web.JwtDate
