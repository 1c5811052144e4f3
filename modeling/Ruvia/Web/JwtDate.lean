import Mathlib.Data.Rat.Floor
import Ruvia.Web.JwtClock

/-!
# `Web.JwtDate` — the dates of a token

`jwt_date.cpp` compares and converts the numeric dates of a token and writes those of a new one, always exactly: no
sum is brought back to the clock's own representation and no number to a machine one.

* `jwtCompareNumericDate` orders the exact value of a date and the exact sum of an instant and an offset
  (`jwtCompareNumericDate_compares`);
* `jwtSigningDate` rounds down without an offset and up with one, so that a fresh token passes the verifier
  (`Signed.accepted`);
* `NumericDate.toTimePoint` gives an instant for the values that are one (`toTimePoint_eq_some_iff`).

The dates of `jwt_sign` and `jwt_verify` are those of `jwt.cpp`, without the other claims of a token.
-/

namespace Ruvia.Web.JwtDate

open Library

/-! ## Dates -/

def jwtIsNumericDate (text : Bytes) : Bool := (scanDecimal text).isSome

/-- A `jwt_numeric_date`: its text has passed `jwt_is_numeric_date`, or was moved out. -/
structure NumericDate where
  storage : Bytes
  valid : storage = [] ∨ jwtIsNumericDate storage = true

def NumericDate.text (date : NumericDate) : Bytes := if date.storage = [] then [0x30] else date.storage

theorem NumericDate.text_valid (date : NumericDate) : jwtIsNumericDate date.text = true := by
  rw [text]
  split
  · decide
  · rename_i h
    exact date.valid.resolve_left h

/-- The check of `jwt_parse_json_numeric_date`. -/
def parseNumericDate (number : Bytes) : Option NumericDate :=
  if h : jwtIsNumericDate number = true then some ⟨number, Or.inr h⟩ else none

variable (clock : Clock)

def jwtCompareNumericDate (date : Bytes) (valid : jwtIsNumericDate date = true) (now : clock.TimePoint)
    (offset : clock.Seconds) : Ordering :=
  compareDecimal (normalizeDecimal ((scanDecimal date).get valid))
    (formatClockDecimal clock (offsetClock clock now offset))

def jwtSigningDate (now : clock.TimePoint) (offset : clock.Seconds) : Bytes :=
  let parts := offsetClock clock now offset
  let seconds :=
    if parts.fraction ≠ 0 ∧ (if offset.val = 0 then parts.negative else !parts.negative) then
      (parts.seconds + 1) % 2 ^ 64
    else parts.seconds
  formatSeconds seconds (parts.negative && seconds ≠ 0)

/-- The loop over the digits of a tick count. -/
def readTicks : Nat → Bytes → Nat → Nat
  | 0, _, ticks => ticks
  | position + 1, digits, ticks =>
    readTicks position (nextDigit digits).2 ((ticks * 10 + ((nextDigit digits).1.toNat - 0x30)) % 2 ^ 64)

def NumericDate.toTimePoint (date : NumericDate) : Option Int :=
  let view := normalizeDecimal ((scanDecimal date.text).get date.text_valid)
  if view.digits = [] then some 0
  else
    let tickOrder := view.order + tickDecimalPlaces clock.ticksPerSecond
    if tickOrder ≤ 0 ∨ tickOrder > 19 ∨ (view.digitCount : Int) > tickOrder then none
    else
      let ticks := readTicks tickOrder.toNat view.digits 0
      let minimum : Int := -((2 ^ clock.digits : Nat) : Int)
      let maximum : Nat := 2 ^ clock.digits - 1
      let limit := if view.negative then unsignedMagnitude minimum else maximum
      if ticks > limit then none
      else if view.negative then
        if ticks = unsignedMagnitude minimum then some minimum else some (-ticks)
      else some ticks

/-! ## Signing and verifying -/

/-- `std::chrono::seconds{0}`. -/
def Clock.zeroSeconds : clock.Seconds := ⟨0, by
  have : 0 < 2 ^ clock.secondsDigits := Nat.pow_pos (by omega)
  omega⟩

/-- The dates of a token, as its payload spells them. -/
structure JwtDates where
  issuedAt : Bytes
  expiresAt : Option Bytes
  notBefore : Option Bytes
  deriving DecidableEq

inductive DateFault where
  | invalidArgument (message : String)
  | malformed
  | expired (message : String)
  | notYetValid (message : String)
  deriving DecidableEq, Repr

/-- The dates that `jwt_sign` writes. -/
def jwtSignDates (now : clock.TimePoint) (expiresIn notBeforeDelay : Option clock.Seconds) :
    Except DateFault JwtDates :=
  if (∃ offset ∈ expiresIn, offset.val < 0) ∨ (∃ offset ∈ notBeforeDelay, offset.val < 0) then
    .error (.invalidArgument "JWT signing time offsets must not be negative")
  else
    .ok
      { issuedAt := jwtSigningDate clock now clock.zeroSeconds
        expiresAt := expiresIn.map (jwtSigningDate clock now)
        notBefore := notBeforeDelay.map (jwtSigningDate clock now) }

/-- A date of the payload that may be absent. -/
def decodeDate : Option Bytes → Except DateFault (Option NumericDate)
  | none => .ok none
  | some number =>
    match parseNumericDate number with
    | none => .error .malformed
    | some date => .ok (some date)

/-- A leeway that is not negative, taken with the other sign. -/
def negate (leeway : clock.Seconds) (h : ¬ leeway.val < 0) : clock.Seconds := ⟨-leeway.val, by
  omega⟩

/-- The checks of `jwt_verify` on the dates. -/
def jwtVerifyDates (now : clock.TimePoint) (leeway : clock.Seconds) (dates : JwtDates) : Except DateFault Unit :=
  if h : leeway.val < 0 then .error (.invalidArgument "JWT verification leeway must not be negative")
  else
    (decodeDate (some dates.issuedAt)).bind fun _ =>
    (decodeDate dates.expiresAt).bind fun expiresAt =>
    (decodeDate dates.notBefore).bind fun notBefore =>
      if expiresAt.any fun date =>
          jwtCompareNumericDate clock date.text date.text_valid now (negate clock leeway h) ≠ .gt then
        .error (.expired "JWT token is expired")
      else if notBefore.any fun date => jwtCompareNumericDate clock date.text date.text_valid now leeway = .gt then
        .error (.notYetValid "JWT token is not yet valid")
      else .ok ()

/-! ## Comparison -/

section

variable {clock}

theorem instant_eq_ticks (now : clock.TimePoint) (offset : clock.Seconds) :
    clock.instant now offset = (offsetClock clock now offset).ticks clock / clock.ticksPerSecond := by
  have hpos : (clock.ticksPerSecond : ℚ) ≠ 0 := by
    have := clock.ten_le
    exact_mod_cast (by omega : clock.ticksPerSecond ≠ 0)
  rw [(offsetClock_spec now offset).1, Clock.instant]
  push_cast
  field_simp

theorem jwtIsNumericDate_text (n : JsonNumber) : jwtIsNumericDate n.text = true := by
  obtain ⟨parts, hscan, -⟩ := scanDecimal_text n
  rw [jwtIsNumericDate, hscan]
  rfl

variable {date : Bytes} {q : ℚ}

/-- The view of a date. -/
theorem denotes_of_spells (h : Spells date q) (valid : (scanDecimal date).isSome = true) :
    DenotesZero (normalizeDecimal ((scanDecimal date).get valid)) q ∨
      ∃ order, Denotes (normalizeDecimal ((scanDecimal date).get valid)) order q := by
  obtain ⟨n, rfl, rfl⟩ := h
  obtain ⟨parts, hscan, hreads⟩ := scanDecimal_text n
  have hget : (scanDecimal n.text).get valid = parts := by
    simp [hscan]
  rw [hget]
  exact normalizeDecimal_represents hreads

/-- **The comparison is exact.** -/
theorem jwtCompareNumericDate_compares (h : Spells date q) (valid : jwtIsNumericDate date = true)
    (now : clock.TimePoint) (offset : clock.Seconds) :
    (jwtCompareNumericDate clock date valid now offset).Compares q (clock.instant now offset) := by
  rw [instant_eq_ticks]
  exact compareDecimal_compares (denotes_of_spells h valid)
    (formatClockDecimal_denotes (offsetClock_spec now offset).2)

/-- **JWT date comparison is exact**, for the JSON numbers, which are the texts that are accepted. -/
theorem jwt_date_comparison (clock : Clock) (now : clock.TimePoint) (offset : clock.Seconds) :
    (∀ date, jwtIsNumericDate date = true ↔ ∃ n : JsonNumber, n.text = date) ∧
      ∀ (n : JsonNumber) (valid : jwtIsNumericDate n.text = true),
        (jwtCompareNumericDate clock n.text valid now offset).Compares n.value (clock.instant now offset) := by
  refine ⟨fun date => ⟨fun valid => ?_, ?_⟩, fun n valid => ?_⟩
  · exact exists_number_of_scanDecimal (Option.some_get valid).symm
  · rintro ⟨n, rfl⟩
    exact jwtIsNumericDate_text n
  · exact jwtCompareNumericDate_compares ⟨n, rfl, rfl⟩ valid now offset

end

/-! ## Signing -/

section

variable {clock : Clock}

theorem spells_formatSeconds (seconds : Nat) (negative : Bool) :
    Spells (formatSeconds seconds negative) (if negative then -(seconds : ℚ) else seconds) := by
  refine ⟨JsonNumber.ofDecimal negative seconds, ?_, JsonNumber.value_ofDecimal negative seconds⟩
  cases negative <;>
    simp [JsonNumber.text, JsonNumber.ofDecimal, JsonNumber.fractionText, JsonNumber.exponentText, formatSeconds]

/-- The sign of a zero is dropped, and no other. -/
theorem spells_signed (seconds : Nat) (negative : Bool) :
    Spells (formatSeconds seconds (negative && seconds ≠ 0)) (signed negative seconds) := by
  have h := spells_formatSeconds seconds (negative && decide (seconds ≠ 0))
  have hvalue : (if (negative && decide (seconds ≠ 0)) = true then -(seconds : ℚ) else seconds) =
      signed negative seconds := by
    rw [signed]
    rcases Nat.eq_zero_or_pos seconds with rfl | hpos
    · simp
    · simp [hpos.ne']
  rwa [hvalue] at h

/-- The fraction of a second, as a number. -/
theorem fraction_bounds {parts : ClockParts} (h : parts.Proper clock) :
    (0 : ℚ) ≤ parts.fraction / clock.ticksPerSecond ∧ (parts.fraction : ℚ) / clock.ticksPerSecond < 1 := by
  have hpos : (0 : ℚ) < clock.ticksPerSecond := by
    have := clock.ten_le
    exact_mod_cast (by omega : 0 < clock.ticksPerSecond)
  have hlt : (parts.fraction : ℚ) < clock.ticksPerSecond := by
    exact_mod_cast h.fraction_lt
  exact ⟨by positivity, (div_lt_one hpos).mpr hlt⟩

theorem fraction_pos {parts : ClockParts} (hfraction : parts.fraction ≠ 0) :
    (0 : ℚ) < parts.fraction / clock.ticksPerSecond := by
  have hpos : (0 : ℚ) < clock.ticksPerSecond := by
    have := clock.ten_le
    exact_mod_cast (by omega : 0 < clock.ticksPerSecond)
  have : (0 : ℚ) < parts.fraction := by
    exact_mod_cast Nat.pos_of_ne_zero hfraction
  positivity

/-- The seconds that the signer writes for a sum that is rounded up or down. -/
def roundedSeconds (parts : ClockParts) (down : Bool) : Nat :=
  if parts.fraction ≠ 0 ∧ (if down then parts.negative else !parts.negative) then parts.seconds + 1 else parts.seconds

theorem signed_natCast (negative : Bool) (m : Nat) : signed negative m = ((signFactor negative * m : Int) : ℚ) := by
  rw [signed, signFactor]
  split <;> simp

/-- The seconds of a sum are rounded in the direction asked for. -/
theorem roundedSeconds_eq {parts : ClockParts} (h : parts.Proper clock) :
    ⌊signed parts.negative (parts.seconds + parts.fraction / clock.ticksPerSecond)⌋ =
        signFactor parts.negative * roundedSeconds parts true ∧
      ⌈signed parts.negative (parts.seconds + parts.fraction / clock.ticksPerSecond)⌉ =
        signFactor parts.negative * roundedSeconds parts false := by
  obtain ⟨hlow, hhigh⟩ := fraction_bounds h
  rw [Int.floor_eq_iff, Int.ceil_eq_iff, ← signed_natCast, ← signed_natCast, signed, signed, signed, roundedSeconds,
    roundedSeconds]
  by_cases hfraction : parts.fraction = 0
  · cases parts.negative <;> simp [hfraction]
  · have hpos := @fraction_pos clock parts hfraction
    cases parts.negative
    · simp only [hfraction, ne_eq, not_false_eq_true, Bool.not_false, Bool.false_eq_true, if_true, if_false, and_true,
        and_false]
      push_cast
      refine ⟨⟨?_, ?_⟩, ?_, ?_⟩ <;> linarith
    · simp only [hfraction, ne_eq, not_false_eq_true, Bool.not_true, Bool.false_eq_true, if_true, if_false, and_true,
        and_false]
      push_cast
      refine ⟨⟨?_, ?_⟩, ?_, ?_⟩ <;> linarith

theorem instant_eq (now : clock.TimePoint) (offset : clock.Seconds) : clock.instant now offset =
    signed (offsetClock clock now offset).negative ((offsetClock clock now offset).seconds +
      (offsetClock clock now offset).fraction / clock.ticksPerSecond) := by
  rw [instant_eq_ticks, ticks_div_eq]

theorem jwtSigningDate_eq (now : clock.TimePoint) (offset : clock.Seconds) :
    jwtSigningDate clock now offset =
      formatSeconds (roundedSeconds (offsetClock clock now offset) (offset.val = 0))
        ((offsetClock clock now offset).negative &&
          roundedSeconds (offsetClock clock now offset) (offset.val = 0) ≠ 0) := by
  have hroom := Nat.mod_eq_of_lt (offsetClock_spec now offset).2.seconds_lt
  simp only [jwtSigningDate, roundedSeconds, hroom, decide_eq_true_eq]

/-- **The signing date without an offset** is the instant rounded down. -/
theorem spells_jwtSigningDate_zero {now : clock.TimePoint} {offset : clock.Seconds} (h : offset.val = 0) :
    Spells (jwtSigningDate clock now offset) ⌊clock.instant now offset⌋ := by
  have hround := (roundedSeconds_eq (offsetClock_spec now offset).2).1
  rw [jwtSigningDate_eq, instant_eq, hround, ← signed_natCast, decide_eq_true h]
  exact spells_signed _ _

/-- **The signing date with an offset** is the sum rounded up. -/
theorem spells_jwtSigningDate {now : clock.TimePoint} {offset : clock.Seconds} (h : offset.val ≠ 0) :
    Spells (jwtSigningDate clock now offset) ⌈clock.instant now offset⌉ := by
  have hround := (roundedSeconds_eq (offsetClock_spec now offset).2).2
  rw [jwtSigningDate_eq, instant_eq, hround, ← signed_natCast, decide_eq_false h]
  exact spells_signed _ _

theorem ne_nil_of_valid {text : Bytes} (h : jwtIsNumericDate text = true) : text ≠ [] := by
  rintro rfl
  exact absurd h (by decide)

/-- A date that the signer has written is read back. -/
theorem decodeDate_spells {text : Bytes} {q : ℚ} (h : Spells text q) :
    ∃ date, decodeDate (some text) = .ok (some date) ∧ Spells date.text q := by
  obtain ⟨n, rfl, rfl⟩ := h
  have hvalid := jwtIsNumericDate_text n
  refine ⟨⟨n.text, Or.inr hvalid⟩, ?_, n, ?_, rfl⟩
  · rw [decodeDate, parseNumericDate, dif_pos hvalid]
  · rw [NumericDate.text, if_neg (ne_nil_of_valid hvalid)]

/-- A date behind the instant has not expired, with any leeway. -/
theorem compare_expires {date : Bytes} {q : ℚ} {now : clock.TimePoint} {leeway : clock.Seconds} (h : Spells date q)
    (valid : jwtIsNumericDate date = true) (hleeway : ¬ leeway.val < 0)
    (hlt : clock.instant now clock.zeroSeconds < q) :
    jwtCompareNumericDate clock date valid now (negate clock leeway hleeway) = .gt := by
  rw [(jwtCompareNumericDate_compares h valid now _).eq_gt]
  refine lt_of_le_of_lt ?_ hlt
  have hpos : (0 : ℚ) ≤ leeway.val := by
    exact_mod_cast not_lt.mp hleeway
  simp only [Clock.instant, negate, Clock.zeroSeconds]
  push_cast
  linarith

/-- A date that is not behind the instant is valid already, with any leeway. -/
theorem compare_notBefore {date : Bytes} {q : ℚ} {now : clock.TimePoint} {leeway : clock.Seconds} (h : Spells date q)
    (valid : jwtIsNumericDate date = true) (hleeway : ¬ leeway.val < 0)
    (hle : q ≤ clock.instant now clock.zeroSeconds) :
    jwtCompareNumericDate clock date valid now leeway ≠ .gt := by
  rw [(jwtCompareNumericDate_compares h valid now _).ne_gt]
  refine le_trans hle ?_
  have hpos : (0 : ℚ) ≤ leeway.val := by
    exact_mod_cast not_lt.mp hleeway
  simp only [Clock.instant, Clock.zeroSeconds]
  push_cast
  linarith

/-- The dates that the signer writes for a token that is valid at once and expires with the offset. -/
theorem jwtSignDates_eq_ok {now : clock.TimePoint} {offset : clock.Seconds} {delay : Option clock.Seconds}
    {dates : JwtDates} (h : jwtSignDates clock now (some offset) delay = .ok dates) :
    0 ≤ offset.val ∧ dates = ⟨jwtSigningDate clock now clock.zeroSeconds, some (jwtSigningDate clock now offset),
      delay.map (jwtSigningDate clock now)⟩ := by
  rw [jwtSignDates] at h
  split at h
  · cases h
  · rename_i hoffsets
    refine ⟨?_, (Except.ok.inj h).symm⟩
    by_contra hneg
    exact hoffsets (Or.inl ⟨offset, rfl, not_le.mp hneg⟩)

/-- **The verifier reads what the signer wrote**, and finds it expired only from the exact expiration on. -/
theorem jwtVerifyDates_signed {now later : clock.TimePoint} {offset leeway : clock.Seconds}
    {delay : Option clock.Seconds} {dates : JwtDates} (hsign : jwtSignDates clock now (some offset) delay = .ok dates)
    (hoffset : offset.val ≠ 0) (hdelay : ∀ d ∈ delay, d.val = 0) (hleeway : ¬ leeway.val < 0)
    (hlater : clock.instant later clock.zeroSeconds < clock.instant now offset) :
    (jwtVerifyDates clock later leeway dates = .ok () ∨
        jwtVerifyDates clock later leeway dates = .error (.notYetValid "JWT token is not yet valid")) ∧
      (clock.instant now clock.zeroSeconds ≤ clock.instant later clock.zeroSeconds →
        jwtVerifyDates clock later leeway dates = .ok ()) := by
  obtain ⟨-, rfl⟩ := jwtSignDates_eq_ok hsign
  obtain ⟨issuedAt, hissued, -⟩ := decodeDate_spells (@spells_jwtSigningDate_zero clock now clock.zeroSeconds rfl)
  obtain ⟨expiresAt, hexpires, hspells⟩ := decodeDate_spells (@spells_jwtSigningDate clock now offset hoffset)
  have hnotExpired := compare_expires hspells expiresAt.text_valid hleeway
    (lt_of_lt_of_le hlater (Int.le_ceil (clock.instant now offset)))
  obtain ⟨notBefore, hbefore, hvalid⟩ : ∃ notBefore,
      decodeDate (delay.map (jwtSigningDate clock now)) = .ok notBefore ∧
        (clock.instant now clock.zeroSeconds ≤ clock.instant later clock.zeroSeconds →
          ∀ date ∈ notBefore, jwtCompareNumericDate clock date.text date.text_valid later leeway ≠ .gt) := by
    cases delay with
    | none => exact ⟨none, rfl, by simp⟩
    | some d =>
      have hzero : d.val = 0 := hdelay d rfl
      obtain ⟨date, hdate, hspells⟩ := decodeDate_spells (@spells_jwtSigningDate_zero clock now d hzero)
      refine ⟨some date, hdate, fun hle date' hmem => ?_⟩
      obtain rfl : date = date' := Option.some.inj hmem
      have hsame : clock.instant now d = clock.instant now clock.zeroSeconds := by
        rw [Clock.instant, hzero]
        rfl
      rw [hsame] at hspells
      exact compare_notBefore hspells date.text_valid hleeway ((Int.floor_le _).trans hle)
  simp only [jwtVerifyDates, dif_neg hleeway, hissued, hexpires, hbefore, Except.bind]
  have hexpired : (some expiresAt).any (fun date => decide
      (jwtCompareNumericDate clock date.text date.text_valid later (negate clock leeway hleeway) ≠ .gt)) = false := by
    simp [hnotExpired]
  rw [hexpired, if_neg Bool.false_ne_true]
  constructor
  · split
    · exact Or.inr rfl
    · exact Or.inl rfl
  · intro hle
    have hearly : notBefore.any (fun date => decide
        (jwtCompareNumericDate clock date.text date.text_valid later leeway = .gt)) = false := by
      cases notBefore with
      | none => rfl
      | some date => simpa using hvalid hle date rfl
    rw [hearly, if_neg Bool.false_ne_true]

/-- **Signing dates never invalidate a fresh token.** -/
theorem jwt_signing_dates (clock : Clock) (now : clock.TimePoint) (offset : clock.Seconds) :
    Spells (jwtSigningDate clock now clock.zeroSeconds) ⌊clock.instant now clock.zeroSeconds⌋ ∧
      (offset.val ≠ 0 → Spells (jwtSigningDate clock now offset) ⌈clock.instant now offset⌉) ∧
      ∀ (delay : Option clock.Seconds) (dates : JwtDates), (∀ d ∈ delay, d.val = 0) → offset.val ≠ 0 →
        jwtSignDates clock now (some offset) delay = .ok dates → ∀ leeway : clock.Seconds, 0 ≤ leeway.val →
          jwtVerifyDates clock now leeway dates = .ok () ∧
          ∀ later : clock.TimePoint, clock.instant later clock.zeroSeconds < clock.instant now offset →
            jwtVerifyDates clock later leeway dates ≠ .error (.expired "JWT token is expired") := by
  refine ⟨spells_jwtSigningDate_zero rfl, spells_jwtSigningDate, ?_⟩
  intro delay dates hdelay hoffset hsign leeway hleeway
  have hnonneg : 0 < offset.val := lt_of_le_of_ne (jwtSignDates_eq_ok hsign).1 (Ne.symm hoffset)
  have hnow : clock.instant now clock.zeroSeconds < clock.instant now offset := by
    have hpos : (0 : ℚ) < offset.val := by
      exact_mod_cast hnonneg
    simp only [Clock.instant, Clock.zeroSeconds]
    push_cast
    linarith
  refine ⟨(jwtVerifyDates_signed hsign hoffset hdelay (not_lt.mpr hleeway) hnow).2 le_rfl, fun later hlater => ?_⟩
  rcases (jwtVerifyDates_signed hsign hoffset hdelay (not_lt.mpr hleeway) hlater).1 with h | h
  · rw [h]
    simp
  · rw [h]
    simp

/-- A clock that counts nanoseconds. -/
def nanosecondClock : Clock where
  ticksPerSecond := 1000000000
  digits := 63
  secondsDigits := 63
  places_pos := by decide +kernel
  places_le := by decide +kernel
  digits_le := le_rfl
  secondsDigits_le := le_rfl

/-- A token issued in the middle of a second, for one second. -/
theorem jwt_signing_dates_fresh :
    jwtVerifyDates nanosecondClock ⟨1500000000, by decide⟩ nanosecondClock.zeroSeconds
      ⟨lit "1", some (lit "3"), some (lit "1")⟩ = .ok () :=
  ((jwt_signing_dates nanosecondClock ⟨1500000000, by decide⟩ ⟨1, by decide⟩).2.2 (some nanosecondClock.zeroSeconds) _
    (by simp [Clock.zeroSeconds]) (by decide) (by decide +kernel) _ le_rfl).1

end
/-! ## Conversion -/

section

variable {clock : Clock}

theorem length_mantissaDigits_nextDigit {digits : Bytes} (h : Mantissa digits) :
    (mantissaDigits (nextDigit digits).2).length = (mantissaDigits digits).length - 1 := by
  cases h with
  | nil => rfl
  | @digit digit rest hdigit hrest | @point digit rest hdigit hrest =>
    have hpoint := ne_point hdigit
    simp [nextDigit, mantissaDigits, hpoint]

/-- **The loop reads the fraction** as a tick count, without a wrap. -/
theorem readTicks_eq {k ticks : Nat} {digits : Bytes} (h : Mantissa digits)
    (hlength : (mantissaDigits digits).length ≤ k) (hroom : (ticks + 1) * 10 ^ k ≤ 2 ^ 64) :
    (readTicks k digits ticks : ℚ) = (ticks + decimalFraction (mantissaDigits digits)) * 10 ^ k := by
  induction k generalizing digits ticks with
  | zero =>
    rw [readTicks, List.length_eq_zero_iff.mp (Nat.le_zero.mp hlength)]
    simp [decimalFraction]
  | succ k ih =>
    obtain ⟨hdigit, hrest, hfraction⟩ := nextDigit_spec h
    have hnine := digitNumber_le hdigit
    have hpow : 0 < 10 ^ k := Nat.pow_pos (by omega)
    rw [digitNumber] at hnine
    generalize hnext : (nextDigit digits).1.toNat - 0x30 = digit at hnine
    have hroom' : (ticks * 10 + digit + 1) * 10 ^ k ≤ 2 ^ 64 := by
      rw [Nat.pow_succ, Nat.mul_comm (10 ^ k) 10, ← Nat.mul_assoc] at hroom
      exact (Nat.mul_le_mul_right _ (by omega)).trans hroom
    have hwrap : (ticks * 10 + digit) % 2 ^ 64 = ticks * 10 + digit := by
      apply Nat.mod_eq_of_lt
      have := Nat.le_mul_of_pos_right (ticks * 10 + digit + 1) hpow
      omega
    have hlength' : (mantissaDigits (nextDigit digits).2).length ≤ k := by
      rw [length_mantissaDigits_nextDigit h]
      omega
    rw [readTicks, hnext, hwrap, ih hrest hlength' hroom', hfraction, decimalFraction, digitNumber, hnext, pow_succ]
    push_cast
    ring

/-- Digits that end with one that is not zero are not those of a multiple of ten. -/
theorem decimalNumber_mod_ten {core : Bytes} (h : IsSignificant core) : decimalNumber core % 10 ≠ 0 := by
  rcases List.eq_nil_or_concat core with rfl | ⟨front, digit, rfl⟩
  · exact absurd rfl h.ne_nil
  · rw [List.concat_eq_append] at h ⊢
    have hdigit := h.digits digit (List.mem_append_right _ List.mem_cons_self)
    have hne : digit ≠ 0x30 := fun heq => h.last_ne (by rw [heq, List.getLast?_concat])
    have hpos := digitNumber_pos hdigit hne
    have hnine := digitNumber_le hdigit
    rw [decimalNumber_append_singleton]
    omega

/-- **The magnitudes that are tick counts**: those whose digits end before the point. -/
theorem order_of_natural {core : Bytes} {order : Int} {m : Nat} (h : IsSignificant core) (hm : m < 10 ^ 19)
    (heq : (m : ℚ) = scaled core order) : 0 < order ∧ order ≤ 19 ∧ (core.length : Int) ≤ order := by
  have hone := decimalFraction_lt_one h.digits
  have hpos := @scaled_pos core order h.one_tenth_le
  have hmpos : 0 < m := by
    rw [← heq] at hpos
    exact_mod_cast hpos
  have hlow : 0 < order := by
    by_contra hle
    have hlt : scaled core order < 1 :=
      calc scaled core order < 10 ^ order := scaled_lt hone
        _ ≤ 10 ^ (0 : ℤ) := zpow_le_zpow_right₀ (by norm_num) (by omega)
        _ = 1 := zpow_zero _
    rw [← heq] at hlt
    have : m < 1 := by exact_mod_cast hlt
    omega
  have hhigh : order ≤ 19 := by
    by_contra hgt
    have hle : (10 : ℚ) ^ (19 : ℤ) ≤ scaled core order :=
      calc (10 : ℚ) ^ (19 : ℤ) ≤ 10 ^ (order - 1) := zpow_le_zpow_right₀ (by norm_num) (by omega)
        _ ≤ scaled core order := le_scaled h.one_tenth_le
    rw [← heq, show (19 : ℤ) = ((19 : ℕ) : ℤ) from rfl, zpow_natCast] at hle
    have : 10 ^ 19 ≤ m := by exact_mod_cast hle
    omega
  refine ⟨hlow, hhigh, ?_⟩
  obtain ⟨k, rfl⟩ := Int.eq_ofNat_of_zero_le hlow.le
  by_contra hlong
  obtain ⟨j, hj⟩ : ∃ j, core.length = k + (j + 1) := ⟨core.length - k - 1, by omega⟩
  -- Multiplied up to its last digit the number would end with a zero.
  have hnumber : m * 10 ^ (j + 1) = decimalNumber core := by
    rw [scaled, decimalFraction_eq, hj, zpow_natCast, pow_add] at heq
    have hcast : (m : ℚ) * 10 ^ (j + 1) = decimalNumber core := by
      rw [heq]
      field_simp
    exact_mod_cast hcast
  apply decimalNumber_mod_ten h
  rw [← hnumber, Nat.pow_succ, ← Nat.mul_assoc]
  exact Nat.mul_mod_left _ _

/-- The order of a tick count. -/
theorem scaled_mul_ticks (core : Bytes) (order : Int) :
    scaled core order * clock.ticksPerSecond = scaled core (order + clock.places) := by
  rw [scaled, scaled, clock.ticksPerSecond_eq, zpow_add₀ (by norm_num), zpow_natCast]
  push_cast
  ring

theorem tickDecimalPlaces_eq : tickDecimalPlaces clock.ticksPerSecond = clock.places := by
  have := clock.places_pos
  rw [Clock.places]
  omega

variable {date : NumericDate} {q : ℚ}

/-- The branches of the conversion, once the view is known. -/
theorem toTimePoint_eq {view : DecimalView} {order : Int}
    (hview : normalizeDecimal ((scanDecimal date.text).get date.text_valid) = view) (h : Denotes view order q) :
    date.toTimePoint clock =
      if view.order + clock.places ≤ 0 ∨ view.order + clock.places > 19 ∨
          (view.digitCount : Int) > view.order + clock.places then none
      else if readTicks (view.order + clock.places).toNat view.digits 0 >
          (if view.negative then 2 ^ clock.digits else 2 ^ clock.digits - 1) then none
      else some (signFactor view.negative * readTicks (view.order + clock.places).toNat view.digits 0) := by
  have hminimum : unsignedMagnitude (-((2 ^ clock.digits : Nat) : Int)) = 2 ^ clock.digits := by
    rw [unsignedMagnitude_eq, Int.natAbs_neg, Int.natAbs_natCast]
  simp only [NumericDate.toTimePoint, hview, if_neg (digits_ne_nil h), tickDecimalPlaces_eq, hminimum]
  generalize readTicks (view.order + clock.places).toNat view.digits 0 = ticks
  cases view.negative with
  | false => simp [signFactor]
  | true =>
    have hboth : (if ticks = 2 ^ clock.digits then some (-((2 ^ clock.digits : Nat) : Int))
        else some (-(ticks : Int))) = some (-(ticks : Int)) := by
      split
      · rename_i heq
        rw [heq]
      · rfl
    simp only [if_true, hboth, signFactor, neg_one_mul]

/-- The magnitude of a signed number. -/
theorem natAbs_eq_of_signed {negative : Bool} {magnitude : ℚ} {t : Int} (hpos : 0 < magnitude)
    (h : signed negative magnitude = t) : (t.natAbs : ℚ) = magnitude ∧ t = signFactor negative * t.natAbs := by
  rw [signed] at h
  have hcast : (t.natAbs : ℚ) = |(t : ℚ)| := by
    rw [Nat.cast_natAbs, Int.cast_abs]
  cases negative with
  | false =>
    simp only [Bool.false_eq_true, if_false] at h
    have ht : 0 < t := by
      rw [h] at hpos
      exact_mod_cast hpos
    rw [hcast, ← h, abs_of_pos hpos]
    refine ⟨rfl, ?_⟩
    simp only [signFactor, Bool.false_eq_true, if_false]
    omega
  | true =>
    simp only [if_true] at h
    have ht : t < 0 := by
      have : (t : ℚ) < 0 := by
        rw [← h]
        linarith
      exact_mod_cast this
    rw [hcast, ← h, abs_neg, abs_of_pos hpos]
    refine ⟨rfl, ?_⟩
    simp only [signFactor, if_true]
    omega

/-- **Exactly the representable values** are converted. -/
theorem toTimePoint_eq_some_iff (h : Spells date.text q) (t : Int) :
    date.toTimePoint clock = some t ↔
      q * clock.ticksPerSecond = t ∧ -((2 ^ clock.digits : Nat) : Int) ≤ t ∧ t < ((2 ^ clock.digits : Nat) : Int) := by
  have hpow : 0 < 2 ^ clock.digits := Nat.pow_pos (by omega)
  have hdigits : 2 ^ clock.digits ≤ 2 ^ 63 := Nat.pow_le_pow_right (by omega) clock.digits_le
  generalize hview : normalizeDecimal ((scanDecimal date.text).get date.text_valid) = view
  have hdenotes := denotes_of_spells h date.text_valid
  rw [hview] at hdenotes
  rcases hdenotes with ⟨hnil, -, rfl⟩ | ⟨order, hdenotes⟩
  · simp only [NumericDate.toTimePoint, hview, if_pos hnil, zero_mul, Option.some.injEq]
    constructor
    · rintro rfl
      exact ⟨by simp, by omega, by omega⟩
    · rintro ⟨hzero, -⟩
      exact_mod_cast hzero
  · obtain ⟨hplaces, hplaces'⟩ := clock.places_bounds
    have hpos := @scaled_pos (mantissaDigits view.digits) (order + clock.places) hdenotes.significant.one_tenth_le
    have horder := hdenotes.order_eq
    have hvalue : q * clock.ticksPerSecond =
        signed view.negative (scaled (mantissaDigits view.digits) (order + clock.places)) := by
      rw [hdenotes.value_eq, ← scaled_mul_ticks, signed, signed]
      split
      · rw [neg_mul]
      · rfl
    -- Inside the bounds of the code nothing is clipped, and the loop reads the magnitude.
    have hread : 0 < view.order + clock.places → view.order + clock.places ≤ 19 →
        (view.digitCount : Int) ≤ view.order + clock.places →
        (readTicks (view.order + clock.places).toNat view.digits 0 : ℚ) =
          scaled (mantissaDigits view.digits) (order + clock.places) := by
      intro hlow hhigh hcount
      have hsame : view.order = order := by
        rw [clip] at horder
        omega
      rw [hsame] at hlow hhigh hcount ⊢
      obtain ⟨k, hk⟩ := Int.eq_ofNat_of_zero_le hlow.le
      rw [hk] at hhigh hcount ⊢
      rw [Int.toNat_natCast, readTicks_eq hdenotes.mantissa]
      · rw [Nat.cast_zero, zero_add, scaled, zpow_natCast]
      · rw [← hdenotes.count]
        omega
      · have hmono : 10 ^ k ≤ 10 ^ 19 := Nat.pow_le_pow_right (by omega) (by omega)
        omega
    rw [toTimePoint_eq hview hdenotes, hvalue]
    constructor
    · intro hsome
      split at hsome
      · cases hsome
      · rename_i hbounds
        have hticks := hread (by omega) (by omega) (by omega)
        generalize readTicks (view.order + clock.places).toNat view.digits 0 = ticks at hsome hticks
        by_cases hlimit : ticks > (if view.negative then 2 ^ clock.digits else 2 ^ clock.digits - 1)
        · rw [if_pos hlimit] at hsome
          cases hsome
        · rw [if_neg hlimit] at hsome
          obtain rfl := Option.some.inj hsome
          rw [← hticks, signed_natCast]
          refine ⟨rfl, ?_⟩
          rw [signFactor]
          cases hneg : view.negative with
          | false =>
            simp only [hneg, Bool.false_eq_true, if_false] at hlimit ⊢
            omega
          | true =>
            simp only [hneg, if_true] at hlimit ⊢
            omega
    · rintro ⟨hinteger, hlow, hhigh⟩
      obtain ⟨hmagnitude, hsigned⟩ := natAbs_eq_of_signed hpos hinteger
      obtain ⟨horderpos, horderle, hlength⟩ := order_of_natural hdenotes.significant (by omega) hmagnitude
      have hsame : view.order = order := by
        rw [clip] at horder
        omega
      have hcount := hdenotes.count
      have hticks := hread (by omega) (by omega) (by omega)
      rw [← hmagnitude] at hticks
      have hticks : readTicks (view.order + clock.places).toNat view.digits 0 = t.natAbs := by exact_mod_cast hticks
      rw [if_neg (by omega), hticks, if_neg ?_, ← hsigned]
      rw [signFactor] at hsigned
      split
      · omega
      · rename_i hneg
        rw [if_neg hneg] at hsigned
        omega

/-- **Conversion is exact.** -/
theorem jwt_to_time_point (clock : Clock) (n : JsonNumber) (t : Int) :
    NumericDate.toTimePoint clock ⟨n.text, Or.inr (jwtIsNumericDate_text n)⟩ = some t ↔
      n.value * clock.ticksPerSecond = t ∧ -((2 ^ clock.digits : Nat) : Int) ≤ t ∧
        t < ((2 ^ clock.digits : Nat) : Int) := by
  apply toTimePoint_eq_some_iff
  refine ⟨n, ?_, rfl⟩
  rw [NumericDate.text, if_neg (ne_nil_of_valid (jwtIsNumericDate_text n))]

end
end Ruvia.Web.JwtDate
