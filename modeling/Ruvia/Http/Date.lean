import Ruvia.Http.Syntax
import Ruvia.Library.FixedColumns
import Ruvia.Library.Gregorian
import Ruvia.Library.TextSearch

/-!
# `Http.Date` — HTTP dates

`format_http_date` and `parse_http_date`. The three forms of a date have fixed columns, so that each parser accepts the
texts of its form and no others, with the instant of the date they denote (`parseImfFixdate_iff`,
`parseAsctimeDate_iff`, `parseRfc850Date_iff`).
-/

namespace Ruvia.Http

open Library Gregorian

/-- `http_month_names`. -/
def httpMonthNames : List Bytes :=
  [lit "Jan", lit "Feb", lit "Mar", lit "Apr", lit "May", lit "Jun", lit "Jul", lit "Aug", lit "Sep", lit "Oct",
    lit "Nov", lit "Dec"]

/-- `std::tm`. -/
structure Tm where
  year : Int
  mon : Nat
  mday : Nat
  wday : Nat
  hour : Nat
  min : Nat
  sec : Nat
  deriving DecidableEq, Repr

def january1 (year : Int) : Date := ⟨year, 1, 1, one_le_month, ⟨Nat.le_refl 1, daysInMonth_pos _ _⟩⟩

/-- `http_utc_tm`. -/
def httpUtcTm (time : Int) : Option Tm :=
  let first := (january1 0).dayNumber * 86400
  let last := (january1 10000).dayNumber * 86400
  if time < first ∨ last ≤ time then none
  else
    let date := time / 86400
    let calendar := ofDayNumber date
    let clock := (time - date * 86400).toNat
    some {
      year := calendar.year - 1900
      mon := calendar.month - 1
      mday := calendar.day
      wday := weekday date
      hour := clock / 3600
      min := clock / 60 % 60
      sec := clock % 60 }

/-- `std::chrono::year_month_day`, if it is `ok`. -/
def yearMonthDay (year : Int) (month day : Nat) : Option Date :=
  if h : (1 ≤ month ∧ month ≤ 12) ∧ 1 ≤ day ∧ day ≤ daysInMonth (isLeap year) month then
    some ⟨year, month, day, h.1, h.2⟩
  else none

/-- `http_civil_to_time_t`. -/
def httpCivilToTimeT (year month day hour minute second : Int) : Option Int :=
  if year < -32767 ∨ 32767 < year ∨ month < 1 ∨ 12 < month ∨ day < 1 ∨ 31 < day ∨ hour < 0 ∨ 23 < hour ∨ minute < 0 ∨
      59 < minute ∨ second < 0 ∨ 60 < second then none
  else
    match yearMonthDay year month.toNat day.toNat with
    | none => none
    | some date =>
      let total := date.dayNumber * 86400 + hour * 3600 + minute * 60 + second
      if -2 ^ 63 ≤ total ∧ total < 2 ^ 63 then some total else none

/-! ## Parsing -/

/-- `month_index`. -/
def monthIndex (value : Bytes) : Nat :=
  match httpMonthNames.findIdx? (· == value) with
  | some i => i + 1
  | none => 0

def shortWeekdays : List Bytes := [lit "Mon", lit "Tue", lit "Wed", lit "Thu", lit "Fri", lit "Sat", lit "Sun"]

def longWeekdays : List Bytes :=
  [lit "Monday", lit "Tuesday", lit "Wednesday", lit "Thursday", lit "Friday", lit "Saturday", lit "Sunday"]

def isShortWeekday (value : Bytes) : Bool := shortWeekdays.contains value

def isLongWeekday (value : Bytes) : Bool := longWeekdays.contains value

/-- `parse_fixed_digits`. -/
def parseFixedDigits (value : Bytes) : Option Nat :=
  if value = [] then none
  else value.foldlM (fun parsed c => if c < 0x30 ∨ 0x39 < c then none else some (parsed * 10 + (c.toNat - 0x30))) 0

/-- `parse_imf_fixdate`. -/
def parseImfFixdate (value : Bytes) : Option Int :=
  if value.length ≠ 29 ∨ isShortWeekday (sub value 0 3) = false ∨ value[3]? ≠ some comma ∨ value[4]? ≠ some sp ∨
      value[7]? ≠ some sp ∨ value[11]? ≠ some sp ∨ value[16]? ≠ some sp ∨ value[19]? ≠ some colon ∨
      value[22]? ≠ some colon ∨ value[25]? ≠ some sp ∨ sub value 26 3 ≠ lit "GMT" then none
  else do
    let day ← parseFixedDigits (sub value 5 2)
    let month := monthIndex (sub value 8 3)
    let year ← parseFixedDigits (sub value 12 4)
    let hour ← parseFixedDigits (sub value 17 2)
    let minute ← parseFixedDigits (sub value 20 2)
    let second ← parseFixedDigits (sub value 23 2)
    if month = 0 then none else httpCivilToTimeT year month day hour minute second

/-- `parse_asctime_date`. -/
def parseAsctimeDate (value : Bytes) : Option Int :=
  if value.length ≠ 24 ∨ value[3]? ≠ some sp ∨ value[7]? ≠ some sp ∨ value[10]? ≠ some sp ∨ value[13]? ≠ some colon ∨
      value[16]? ≠ some colon ∨ value[19]? ≠ some sp ∨ isShortWeekday (sub value 0 3) = false then none
  else do
    let month := monthIndex (sub value 4 3)
    let dayField := sub value 8 2
    let day ← parseFixedDigits (if dayField.head? = some sp then dayField.drop 1 else dayField)
    let hour ← parseFixedDigits (sub value 11 2)
    let minute ← parseFixedDigits (sub value 14 2)
    let second ← parseFixedDigits (sub value 17 2)
    let year ← parseFixedDigits (sub value 20 4)
    if month = 0 then none else httpCivilToTimeT year month day hour minute second

/-- `resolve_rfc850_year`. -/
def resolveRfc850Year (shortYear currentYear : Int) : Int :=
  let year := currentYear - currentYear % 100 + shortYear
  if currentYear + 50 < year then year - 100 else year

/-- The pivot of `parse_rfc850_date` on the full timestamp. -/
def rfc850Year (currentUtc : Tm) (shortYear : Nat) (dateFields : List Nat) : Int :=
  let currentYear := currentUtc.year + 1900
  let year := resolveRfc850Year shortYear currentYear
  let referenceFields := [currentUtc.mon + 1, currentUtc.mday, currentUtc.hour, currentUtc.min, currentUtc.sec]
  if year = currentYear + 50 ∧ List.lex referenceFields dateFields then year - 100 else year

/-- What `parse_rfc850_date` does behind the day of the week. -/
def parseRfc850Body (now : Int) (body : Bytes) : Option Int :=
  if body.length ≠ 22 ∨ body[2]? ≠ some 0x2d ∨ body[6]? ≠ some 0x2d ∨ body[9]? ≠ some sp ∨ body[12]? ≠ some colon ∨
      body[15]? ≠ some colon ∨ body[18]? ≠ some sp ∨ sub body 19 3 ≠ lit "GMT" then none
  else do
    let day ← parseFixedDigits (sub body 0 2)
    let month := monthIndex (sub body 3 3)
    let shortYear ← parseFixedDigits (sub body 7 2)
    let hour ← parseFixedDigits (sub body 10 2)
    let minute ← parseFixedDigits (sub body 13 2)
    let second ← parseFixedDigits (sub body 16 2)
    if month = 0 then none
    else if now = -1 then none
    else
      let currentUtc ← httpUtcTm now
      let year := rfc850Year currentUtc shortYear [month, day, hour, minute, second]
      httpCivilToTimeT year month day hour minute second

/-- `parse_rfc850_date` at a time of the clock, -1 for one that cannot be read. -/
def parseRfc850Date (now : Int) (value : Bytes) : Option Int :=
  match findText (lit ", ") value with
  | none => none
  | some comma =>
    if isLongWeekday (value.take comma) = false then none else parseRfc850Body now (value.drop (comma + 2))

/-- `parse_http_date`. -/
def parseHttpDate (now : Int) (value : Bytes) : Option Int :=
  let value := httpTrimOws value
  (parseImfFixdate value).or ((parseRfc850Date now value).or (parseAsctimeDate value))

/-! ## Formatting -/

def dayNames : List Bytes := [lit "Sun", lit "Mon", lit "Tue", lit "Wed", lit "Thu", lit "Fri", lit "Sat"]

def put2 (field : Nat) : Bytes := [digitByte (field / 10 % 10), digitByte (field % 10)]

def put3 (name : Bytes) : Bytes := name.take 3

/-- `format_http_date`. -/
def formatHttpDate (value : Int) : Option Bytes := do
  let utc ← httpUtcTm value
  let year := (utc.year + 1900).toNat
  some (put3 (dayNames.getD utc.wday []) ++ [comma, sp] ++ put2 utc.mday ++ [sp] ++
    put3 (httpMonthNames.getD utc.mon []) ++ [sp] ++
    [digitByte (year / 1000 % 10), digitByte (year / 100 % 10), digitByte (year / 10 % 10), digitByte (year % 10)] ++
    [sp] ++ put2 utc.hour ++ [colon] ++ put2 utc.min ++ [colon] ++ put2 utc.sec ++ [sp] ++ lit "GMT")

/-! ## Fields -/

section

variable {value : Bytes}

theorem sub_one_iff {i : Nat} {byte : UInt8} : sub value i 1 = [byte] ↔ value[i]? = some byte := by
  unfold sub
  rw [← List.head?_drop]
  rcases value.drop i with _ | ⟨first, rest⟩
  · simp
  · simp

theorem parseFixedDigits_foldlM (value : Bytes) (start n : Nat) :
    value.foldlM (fun parsed c => if c < 0x30 ∨ 0x39 < c then none else some (parsed * 10 + (c.toNat - 0x30))) start =
        some n ↔
      (∀ byte ∈ value, 0x30 ≤ byte.toNat ∧ byte.toNat ≤ 0x39) ∧
        n = value.foldl (fun n digit => 10 * n + (digit.toNat - 0x30)) start := by
  induction value generalizing start with
  | nil => simp [eq_comm]
  | cons byte rest ih =>
    rw [List.foldlM_cons, List.foldl_cons, List.forall_mem_cons]
    by_cases hbyte : byte < 0x30 ∨ 0x39 < byte
    · rw [if_pos hbyte]
      rw [UInt8.lt_iff_toNat_lt, UInt8.lt_iff_toNat_lt] at hbyte
      constructor
      · intro h
        cases h
      · rintro ⟨⟨hdigit, -⟩, -⟩
        simp only [UInt8.reduceToNat] at hbyte
        omega
    · rw [if_neg hbyte, Option.bind_eq_bind, Option.bind_some, ih, Nat.mul_comm start 10]
      rw [UInt8.lt_iff_toNat_lt, UInt8.lt_iff_toNat_lt] at hbyte
      have hdigit : 0x30 ≤ byte.toNat ∧ byte.toNat ≤ 0x39 := by
        simp only [UInt8.reduceToNat] at hbyte
        omega
      simp only [hdigit, and_self, true_and]

/-- A column of digits is a number of its width. -/
theorem parseFixedDigits_iff {width n : Nat} (hpos : 0 < width) (hwidth : value.length = width) :
    parseFixedDigits value = some n ↔ n < 10 ^ width ∧ value = fixedDecimal width n := by
  have hne : value ≠ [] := List.ne_nil_of_length_pos (by omega)
  unfold parseFixedDigits
  rw [if_neg hne, parseFixedDigits_foldlM]
  constructor
  · rintro ⟨hdigits, hn⟩
    obtain ⟨hfixed, hlt⟩ := fixedDecimal_decimalNumber hdigits
    rw [hwidth] at hfixed hlt
    subst hn
    exact ⟨hlt, hfixed.symm⟩
  · rintro ⟨hlt, rfl⟩
    exact ⟨fixedDecimal_digits width n, (decimalNumber_fixedDecimal hlt).symm⟩

def monthName (month : Nat) : Bytes := httpMonthNames.getD (month - 1) []

variable {month : Nat}

theorem monthIndex_iff (hpos : month ≠ 0) :
    monthIndex value = month ↔ (1 ≤ month ∧ month ≤ 12) ∧ value = monthName month := by
  constructor
  · intro h
    unfold monthIndex at h
    split at h
    · rename_i i hfind
      subst h
      obtain ⟨hlt, hname, -⟩ := List.findIdx?_eq_some_iff_getElem.mp hfind
      refine ⟨⟨Nat.succ_pos i, hlt⟩, ?_⟩
      unfold monthName
      rw [Nat.add_sub_cancel, List.getD_eq_getElem?_getD, List.getElem?_eq_getElem hlt, Option.getD_some]
      exact (beq_iff_eq.mp hname).symm
    · exact absurd h.symm hpos
  · rintro ⟨⟨hone, hle⟩, rfl⟩
    interval_cases month <;> decide

theorem length_monthName (h : 1 ≤ month ∧ month ≤ 12) : (monthName month).length = 3 := by
  obtain ⟨hone, hle⟩ := h
  interval_cases month <;> decide

theorem isShortWeekday_iff : ¬isShortWeekday value = false ↔ value ∈ shortWeekdays := by
  rw [Bool.not_eq_false]
  exact List.contains_iff_mem

theorem isLongWeekday_iff : ¬isLongWeekday value = false ↔ value ∈ longWeekdays := by
  rw [Bool.not_eq_false]
  exact List.contains_iff_mem

theorem length_shortWeekday {weekday : Bytes} (h : weekday ∈ shortWeekdays) : weekday.length = 3 := by
  have hall : shortWeekdays.all (fun weekday => weekday.length == 3) = true := by decide
  exact beq_iff_eq.mp (List.all_eq_true.mp hall weekday h)

/-- The fields of a time. -/
def HasFields (time : CivilTime) (year : Int) (month day hour minute second : Nat) : Prop :=
  time.date.year = year ∧ time.date.month = month ∧ time.date.day = day ∧ time.hour = hour ∧ time.minute = minute ∧
    time.second = second

theorem yearMonthDay_eq_some {year : Int} {day : Nat} {date : Date} :
    yearMonthDay year month day = some date ↔ date.year = year ∧ date.month = month ∧ date.day = day := by
  unfold yearMonthDay
  constructor
  · intro h
    split_ifs at h
    cases h
    exact ⟨rfl, rfl, rfl⟩
  · rintro ⟨rfl, rfl, rfl⟩
    rw [dif_pos ⟨date.month_range, date.day_range⟩]

/-- **A time of the calendar**, if the fields are those of one. -/
theorem httpCivilToTimeT_iff {year : Int} {day hour minute second : Nat} {t : Int}
    (hyear : -32767 ≤ year ∧ year ≤ 32767) :
    httpCivilToTimeT year month day hour minute second = some t ↔
      ∃ time : CivilTime, HasFields time year month day hour minute second ∧ time.instant = t := by
  unfold httpCivilToTimeT
  constructor
  · intro h
    split_ifs at h with hrange
    split at h
    · cases h
    · rename_i date hdate
      obtain ⟨hy, hm, hd⟩ := yearMonthDay_eq_some.mp hdate
      dsimp only at h
      split_ifs at h
      refine ⟨⟨date, hour, minute, second, by omega, by omega, by omega⟩, ⟨hy, ?_, ?_, rfl, rfl, rfl⟩, ?_⟩
      · rw [hm, Int.toNat_natCast]
      · rw [hd, Int.toNat_natCast]
      · exact Option.some.inj h
  · rintro ⟨time, ⟨rfl, rfl, rfl, rfl, rfl, rfl⟩, rfl⟩
    have hmonth := time.date.month_range
    have hday := time.date.day_range
    have hdays := daysInMonth_le (isLeap time.date.year) time.date.month
    have hhour := time.hour_le
    have hminute := time.minute_le
    have hsecond := time.second_le
    have hdate : yearMonthDay time.date.year ((time.date.month : Int).toNat) ((time.date.day : Int).toNat) =
        some time.date := yearMonthDay_eq_some.mpr ⟨rfl, rfl, rfl⟩
    obtain ⟨hle, hlt⟩ := time.instant_range
    rw [if_neg (by omega), hdate]
    show (if -2 ^ 63 ≤ time.instant ∧ time.instant < 2 ^ 63 then some time.instant else none) = _
    rw [if_pos]
    unfold daysBeforeYear at hle hlt
    omega

end

/-! ## The current time -/

section

/-- The calendar fields of an instant. -/
def tmOf (t : Int) : Tm :=
  let time := ofInstant t
  ⟨time.date.year - 1900, time.date.month - 1, time.date.day, weekday (t / 86400), time.hour, time.minute, time.second⟩

theorem httpUtcTm_eq (t : Int) :
    httpUtcTm t =
      if 0 ≤ (ofInstant t).date.year ∧ (ofInstant t).date.year ≤ 9999 then some (tmOf t) else none := by
  have hfirst := year_ofInstant_le_iff t 0
  have hlast := year_ofInstant_le_iff t 10000
  have hjanuary : ∀ year, (january1 year).dayNumber = daysBeforeYear year := by
    intro year
    show daysBeforeYear year + ((daysBeforeMonth (isLeap year) 1 : Nat) : Int) + (((1 : Nat) : Int) - 1) = _
    rw [show daysBeforeMonth (isLeap year) 1 = 0 from rfl]
    omega
  have hclock : t - t / 86400 * 86400 = t % 86400 := by omega
  unfold httpUtcTm
  dsimp only
  rw [hjanuary, hjanuary, hclock]
  by_cases hrange : t < daysBeforeYear 0 * 86400 ∨ daysBeforeYear 10000 * 86400 ≤ t
  · rw [if_pos hrange, if_neg]
    omega
  · rw [if_neg hrange, if_pos (by omega)]
    rfl

/-- The fields of a time that are compared. -/
def clockFields (time : CivilTime) : List Nat := [time.date.month, time.date.day, time.hour, time.minute, time.second]

/-- The date of a year, with the other fields of a time, is more than fifty years ahead. -/
def IsFarAhead (current time : CivilTime) (year : Int) : Prop :=
  current.date.year + 50 < year ∨
    current.date.year + 50 = year ∧ List.lex (clockFields current) (clockFields time) = true

/-- The year of a two-digit year of a time. -/
structure IsRfc850Year (current : CivilTime) (shortYear : Nat) (time : CivilTime) : Prop where
  digits : time.date.year % 100 = shortYear
  century : ¬IsFarAhead current time (current.date.year / 100 * 100 + shortYear) →
    time.date.year / 100 = current.date.year / 100
  past : IsFarAhead current time (current.date.year / 100 * 100 + shortYear) →
    IsGreatest {year : Int | year % 100 = shortYear ∧ year < current.date.year} time.date.year

theorem rfc850Year_tmOf (now : Int) (shortYear : Nat) (fields : List Nat) :
    rfc850Year (tmOf now) shortYear fields =
      if resolveRfc850Year shortYear (ofInstant now).date.year = (ofInstant now).date.year + 50 ∧
          List.lex (clockFields (ofInstant now)) fields then
        resolveRfc850Year shortYear (ofInstant now).date.year - 100
      else resolveRfc850Year shortYear (ofInstant now).date.year := by
  have hmonth := (ofInstant now).date.month_range
  have hyear : (tmOf now).year + 1900 = (ofInstant now).date.year := Int.sub_add_cancel _ _
  have hmon : (tmOf now).mon + 1 = (ofInstant now).date.month := Nat.sub_add_cancel hmonth.1
  unfold rfc850Year
  rw [hyear, hmon]
  rfl

variable {now : Int} {time : CivilTime} {shortYear : Nat}

/-- The year is that of the current century, or the one a century before it. -/
theorem rfc850Year_cases (hshort : shortYear < 100) :
    (IsFarAhead (ofInstant now) time ((ofInstant now).date.year / 100 * 100 + shortYear) ∧
      (ofInstant now).date.year ≤ (ofInstant now).date.year / 100 * 100 + shortYear ∧
      rfc850Year (tmOf now) shortYear (clockFields time) =
        (ofInstant now).date.year / 100 * 100 + shortYear - 100) ∨
    (¬IsFarAhead (ofInstant now) time ((ofInstant now).date.year / 100 * 100 + shortYear) ∧
      rfc850Year (tmOf now) shortYear (clockFields time) = (ofInstant now).date.year / 100 * 100 + shortYear) := by
  rw [rfc850Year_tmOf]
  generalize ofInstant now = current
  unfold IsFarAhead resolveRfc850Year
  rw [show current.date.year - current.date.year % 100 + (shortYear : Int) =
    current.date.year / 100 * 100 + shortYear by omega]
  by_cases hfar : current.date.year + 50 < current.date.year / 100 * 100 + shortYear
  · left
    rw [if_pos hfar, if_neg (by omega)]
    exact ⟨.inl hfar, by omega, rfl⟩
  · rw [if_neg hfar]
    by_cases hsame : current.date.year / 100 * 100 + (shortYear : Int) = current.date.year + 50 ∧
        List.lex (clockFields current) (clockFields time) = true
    · left
      rw [if_pos hsame]
      exact ⟨.inr ⟨hsame.1.symm, hsame.2⟩, by omega, rfl⟩
    · right
      rw [if_neg hsame]
      refine ⟨?_, rfl⟩
      rintro (hlt | ⟨heq, hlex⟩)
      · exact hfar hlt
      · exact hsame ⟨heq.symm, hlex⟩

/-- **The year of an RFC 850 date** is the one that is chosen. -/
theorem isRfc850Year_iff (hshort : shortYear < 100) :
    IsRfc850Year (ofInstant now) shortYear time ↔
      time.date.year = rfc850Year (tmOf now) shortYear (clockFields time) := by
  rcases @rfc850Year_cases now time shortYear hshort with ⟨hfar, hle, hyear⟩ | ⟨hnear, hyear⟩
  · constructor
    · intro h
      obtain ⟨⟨hdigits, hlt⟩, hgreatest⟩ := h.past hfar
      have hupper : (ofInstant now).date.year / 100 * 100 + shortYear - 100 ≤ time.date.year := by
        apply hgreatest
        constructor <;> omega
      omega
    · intro h
      refine ⟨by omega, fun hnear => absurd hfar hnear, fun _ => ⟨⟨by omega, by omega⟩, ?_⟩⟩
      rintro year ⟨hdigits, hlt⟩
      omega
  · constructor
    · intro h
      have hcentury := h.century hnear
      have hdigits := h.digits
      omega
    · intro h
      exact ⟨by omega, fun _ => by omega, fun hfar => absurd hfar hnear⟩

theorem rfc850Year_bound (hshort : shortYear < 100)
    (hnow : 0 ≤ (ofInstant now).date.year ∧ (ofInstant now).date.year ≤ 9999) (fields : List Nat) :
    -32767 ≤ rfc850Year (tmOf now) shortYear fields ∧ rfc850Year (tmOf now) shortYear fields ≤ 32767 := by
  rw [rfc850Year_tmOf]
  unfold resolveRfc850Year
  dsimp only
  split_ifs <;> omega

end

/-! ## Forms -/

section

variable {value : Bytes} {t : Int}

/-- The columns of an IMF-fixdate. -/
def imfColumns (weekday : Bytes) (time : CivilTime) : List Bytes :=
  [weekday, [comma], [sp], fixedDecimal 2 time.date.day, [sp], monthName time.date.month, [sp],
    fixedDecimal 4 time.date.year.toNat, [sp], fixedDecimal 2 time.hour, [colon], fixedDecimal 2 time.minute, [colon],
    fixedDecimal 2 time.second, [sp], lit "GMT"]

/-- An IMF-fixdate of a time. -/
def IsImfFixdate (value : Bytes) (time : CivilTime) : Prop :=
  (0 ≤ time.date.year ∧ time.date.year ≤ 9999) ∧
    ∃ weekday ∈ shortWeekdays, value = (imfColumns weekday time).flatten

theorem digits_two {value : Bytes} {position n : Nat} (h : position + 2 ≤ value.length) :
    parseFixedDigits (sub value position 2) = some n ↔ n < 100 ∧ sub value position 2 = fixedDecimal 2 n := by
  have hlength : (sub value position 2).length = 2 := by
    rw [length_sub]
    omega
  exact parseFixedDigits_iff (by decide) hlength

theorem digits_four {value : Bytes} {position n : Nat} (h : position + 4 ≤ value.length) :
    parseFixedDigits (sub value position 4) = some n ↔ n < 10000 ∧ sub value position 4 = fixedDecimal 4 n := by
  have hlength : (sub value position 4).length = 4 := by
    rw [length_sub]
    omega
  exact parseFixedDigits_iff (by decide) hlength

variable {weekday : Bytes}

theorem imfColumns_widths (hweekday : weekday ∈ shortWeekdays) (time : CivilTime) :
    (imfColumns weekday time).map List.length = [3, 1, 1, 2, 1, 3, 1, 4, 1, 2, 1, 2, 1, 2, 1, 3] := by
  unfold imfColumns
  simp [length_shortWeekday hweekday, length_monthName time.date.month_range, lit]

theorem two_digits (time : CivilTime) :
    time.date.day < 100 ∧ time.hour < 100 ∧ time.minute < 100 ∧ time.second < 100 := by
  have hday := time.date.day_range
  have hdays := daysInMonth_le (isLeap time.date.year) time.date.month
  have hhour := time.hour_le
  have hminute := time.minute_le
  have hsecond := time.second_le
  omega

/-- **IMF-fixdates**: the parser accepts them, with the instant of their time. -/
theorem parseImfFixdate_iff :
    parseImfFixdate value = some t ↔ ∃ time, IsImfFixdate value time ∧ time.instant = t := by
  have hcolumns : columns value 0 [3, 1, 1, 2, 1, 3, 1, 4, 1, 2, 1, 2, 1, 2, 1, 3] = [sub value 0 3, sub value 3 1,
      sub value 4 1, sub value 5 2, sub value 7 1, sub value 8 3, sub value 11 1, sub value 12 4, sub value 16 1,
      sub value 17 2, sub value 19 1, sub value 20 2, sub value 22 1, sub value 23 2, sub value 25 1,
      sub value 26 3] := rfl
  unfold parseImfFixdate
  simp only [Option.bind_eq_bind]
  constructor
  · intro h
    split at h
    · cases h
    · rename_i hshape
      simp only [not_or, not_not, ne_eq, isShortWeekday_iff] at hshape
      obtain ⟨hlength, hweekday, h3, h4, h7, h11, h16, h19, h22, h25, hgmt⟩ := hshape
      simp only [Option.bind_eq_some_iff] at h
      obtain ⟨day, hday, year, hyear, hour, hhour, minute, hminute, second, hsecond, h⟩ := h
      rw [digits_two (by omega)] at hday hhour hminute hsecond
      rw [digits_four (by omega)] at hyear
      split_ifs at h with hmonth
      obtain ⟨hrange, hname⟩ := (monthIndex_iff hmonth).mp rfl
      obtain ⟨time, ⟨hy, hm, rfl, rfl, rfl, rfl⟩, hinstant⟩ := (httpCivilToTimeT_iff (by omega)).mp h
      refine ⟨time, ⟨by omega, _, hweekday, ?_⟩, hinstant⟩
      rw [eq_flatten_iff (imfColumns_widths hweekday time), hcolumns, imfColumns]
      refine ⟨hlength, ?_⟩
      rw [← sub_one_iff] at h3 h4 h7 h11 h16 h19 h22 h25
      rw [h3, h4, h7, h11, h16, h19, h22, h25, hgmt, hday.2, hhour.2, hminute.2, hsecond.2, hyear.2, hname, hm, hy,
        Int.toNat_natCast]
  · rintro ⟨time, ⟨hyear, weekday, hweekday, hvalue⟩, rfl⟩
    rw [eq_flatten_iff (imfColumns_widths hweekday time), hcolumns, imfColumns] at hvalue
    obtain ⟨hlength, hvalue⟩ := hvalue
    replace hlength : value.length = 29 := hlength
    simp only [List.cons.injEq, and_true] at hvalue
    obtain ⟨rfl, h3, h4, hday, h7, hmonth, h11, hy, h16, hhour, h19, hminute, h22, hsecond, h25, hgmt⟩ := hvalue
    rw [sub_one_iff] at h3 h4 h7 h11 h16 h19 h22 h25
    obtain ⟨hd, hh, hm, hs⟩ := two_digits time
    have hpos : time.date.month ≠ 0 := Nat.ne_of_gt time.date.month_range.1
    have hmonth' := (monthIndex_iff hpos).mpr ⟨time.date.month_range, hmonth⟩
    rw [if_neg, (digits_two (by omega)).mpr ⟨hd, hday⟩, (digits_two (by omega)).mpr ⟨hh, hhour⟩,
      (digits_two (by omega)).mpr ⟨hm, hminute⟩, (digits_two (by omega)).mpr ⟨hs, hsecond⟩,
      (digits_four (by omega)).mpr ⟨by omega, hy⟩, hmonth']
    · simp only [Option.bind_some]
      rw [if_neg hpos, Int.toNat_of_nonneg hyear.1]
      exact (httpCivilToTimeT_iff (by omega)).mpr ⟨time, ⟨rfl, rfl, rfl, rfl, rfl, rfl⟩, rfl⟩
    · simp only [not_or, not_not, ne_eq, isShortWeekday_iff]
      exact ⟨hlength, hweekday, h3, h4, h7, h11, h16, h19, h22, h25, hgmt⟩

/-- The day column of an asctime date. -/
def IsAsctimeDay (field : Bytes) (day : Nat) : Prop :=
  field = fixedDecimal 2 day ∨ day < 10 ∧ field = [sp, digitByte day]

def asctimeColumns (weekday dayField : Bytes) (time : CivilTime) : List Bytes :=
  [weekday, [sp], monthName time.date.month, [sp], dayField, [sp], fixedDecimal 2 time.hour, [colon],
    fixedDecimal 2 time.minute, [colon], fixedDecimal 2 time.second, [sp], fixedDecimal 4 time.date.year.toNat]

/-- An asctime date of a time. -/
def IsAsctimeDate (value : Bytes) (time : CivilTime) : Prop :=
  (0 ≤ time.date.year ∧ time.date.year ≤ 9999) ∧
    ∃ weekday ∈ shortWeekdays, ∃ dayField, IsAsctimeDay dayField time.date.day ∧
      value = (asctimeColumns weekday dayField time).flatten

variable {field : Bytes} {day : Nat}

theorem IsAsctimeDay.length (h : IsAsctimeDay field day) : field.length = 2 := by
  rcases h with rfl | ⟨-, rfl⟩
  · exact length_fixedDecimal 2 day
  · rfl

theorem asctimeDay_iff (h : field.length = 2) :
    parseFixedDigits (if field.head? = some sp then field.drop 1 else field) = some day ↔
      day < 100 ∧ IsAsctimeDay field day := by
  obtain ⟨first, second, rfl⟩ := List.length_eq_two.mp h
  have htwo : ∀ {n}, [first, second] = fixedDecimal 2 n → first ≠ sp := by
    rintro n heq rfl
    have hdigit := fixedDecimal_digits 2 n sp (by rw [← heq]; exact List.mem_cons_self)
    exact absurd hdigit.1 (by decide)
  by_cases hfirst : first = sp
  · rw [if_pos (by rw [hfirst]; rfl)]
    rw [List.drop_succ_cons, List.drop_zero, @parseFixedDigits_iff [second] 1 day (by decide) rfl, hfirst]
    constructor
    · rintro ⟨hlt, heq⟩
      refine ⟨by omega, .inr ⟨hlt, ?_⟩⟩
      rw [heq]
      show sp :: [digitByte (day % 10)] = _
      rw [Nat.mod_eq_of_lt (show day < 10 from hlt)]
    · rintro ⟨-, heq | ⟨hlt, heq⟩⟩
      · exact absurd hfirst (htwo (by rw [hfirst, heq]))
      · refine ⟨hlt, ?_⟩
        show _ = [digitByte (day % 10)]
        rw [Nat.mod_eq_of_lt hlt]
        exact (List.cons.inj heq).2
  · rw [if_neg (by simpa using hfirst), @parseFixedDigits_iff [first, second] 2 day (by decide) rfl]
    refine and_congr_right fun _ => ⟨.inl, ?_⟩
    rintro (heq | ⟨-, heq⟩)
    · exact heq
    · exact absurd (List.cons.inj heq).1 hfirst

theorem asctimeColumns_widths {dayField : Bytes} {time : CivilTime} (hweekday : weekday ∈ shortWeekdays)
    (hday : IsAsctimeDay dayField time.date.day) :
    (asctimeColumns weekday dayField time).map List.length = [3, 1, 3, 1, 2, 1, 2, 1, 2, 1, 2, 1, 4] := by
  unfold asctimeColumns
  simp [length_shortWeekday hweekday, length_monthName time.date.month_range, hday.length]

/-- **Asctime dates**: the parser accepts them, with the instant of their time. -/
theorem parseAsctimeDate_iff :
    parseAsctimeDate value = some t ↔ ∃ time, IsAsctimeDate value time ∧ time.instant = t := by
  have hcolumns : columns value 0 [3, 1, 3, 1, 2, 1, 2, 1, 2, 1, 2, 1, 4] = [sub value 0 3, sub value 3 1,
      sub value 4 3, sub value 7 1, sub value 8 2, sub value 10 1, sub value 11 2, sub value 13 1, sub value 14 2,
      sub value 16 1, sub value 17 2, sub value 19 1, sub value 20 4] := rfl
  unfold parseAsctimeDate
  simp only [Option.bind_eq_bind]
  constructor
  · intro h
    split at h
    · cases h
    · rename_i hshape
      simp only [not_or, not_not, ne_eq, isShortWeekday_iff] at hshape
      obtain ⟨hlength, h3, h7, h10, h13, h16, h19, hweekday⟩ := hshape
      simp only [Option.bind_eq_some_iff] at h
      obtain ⟨day, hday, hour, hhour, minute, hminute, second, hsecond, year, hyear, h⟩ := h
      rw [asctimeDay_iff (by rw [length_sub]; omega)] at hday
      rw [digits_two (by omega)] at hhour hminute hsecond
      rw [digits_four (by omega)] at hyear
      split_ifs at h with hmonth
      obtain ⟨hrange, hname⟩ := (monthIndex_iff hmonth).mp rfl
      obtain ⟨time, ⟨hy, hm, rfl, rfl, rfl, rfl⟩, hinstant⟩ := (httpCivilToTimeT_iff (by omega)).mp h
      refine ⟨time, ⟨by omega, _, hweekday, _, hday.2, ?_⟩, hinstant⟩
      rw [eq_flatten_iff (asctimeColumns_widths hweekday hday.2), hcolumns, asctimeColumns]
      refine ⟨hlength, ?_⟩
      rw [← sub_one_iff] at h3 h7 h10 h13 h16 h19
      rw [h3, h7, h10, h13, h16, h19, hhour.2, hminute.2, hsecond.2, hyear.2, hname, hm, hy, Int.toNat_natCast]
  · rintro ⟨time, ⟨hyear, weekday, hweekday, dayField, hday, hvalue⟩, rfl⟩
    rw [eq_flatten_iff (asctimeColumns_widths hweekday hday), hcolumns, asctimeColumns] at hvalue
    obtain ⟨hlength, hvalue⟩ := hvalue
    replace hlength : value.length = 24 := hlength
    simp only [List.cons.injEq, and_true] at hvalue
    obtain ⟨rfl, h3, hmonth, h7, rfl, h10, hhour, h13, hminute, h16, hsecond, h19, hy⟩ := hvalue
    rw [sub_one_iff] at h3 h7 h10 h13 h16 h19
    obtain ⟨hd, hh, hm, hs⟩ := two_digits time
    have hpos : time.date.month ≠ 0 := Nat.ne_of_gt time.date.month_range.1
    have hmonth' := (monthIndex_iff hpos).mpr ⟨time.date.month_range, hmonth⟩
    rw [if_neg, (asctimeDay_iff hday.length).mpr ⟨hd, hday⟩, (digits_two (by omega)).mpr ⟨hh, hhour⟩,
      (digits_two (by omega)).mpr ⟨hm, hminute⟩, (digits_two (by omega)).mpr ⟨hs, hsecond⟩,
      (digits_four (by omega)).mpr ⟨by omega, hy⟩, hmonth']
    · simp only [Option.bind_some]
      rw [if_neg hpos, Int.toNat_of_nonneg hyear.1]
      exact (httpCivilToTimeT_iff (by omega)).mpr ⟨time, ⟨rfl, rfl, rfl, rfl, rfl, rfl⟩, rfl⟩
    · simp only [not_or, not_not, ne_eq, isShortWeekday_iff]
      exact ⟨hlength, h3, h7, h10, h13, h16, h19, hweekday⟩

def rfc850Columns (shortYear : Nat) (time : CivilTime) : List Bytes :=
  [fixedDecimal 2 time.date.day, [0x2d], monthName time.date.month, [0x2d], fixedDecimal 2 shortYear, [sp],
    fixedDecimal 2 time.hour, [colon], fixedDecimal 2 time.minute, [colon], fixedDecimal 2 time.second, [sp], lit "GMT"]

/-- An RFC 850 date of a time, with two digits for its year. -/
def IsRfc850Date (value : Bytes) (shortYear : Nat) (time : CivilTime) : Prop :=
  shortYear < 100 ∧ ∃ weekday ∈ longWeekdays, value = weekday ++ (lit ", " ++ (rfc850Columns shortYear time).flatten)

theorem rfc850Columns_widths (shortYear : Nat) (time : CivilTime) :
    (rfc850Columns shortYear time).map List.length = [2, 1, 3, 1, 2, 1, 2, 1, 2, 1, 2, 1, 3] := by
  unfold rfc850Columns
  simp [length_monthName time.date.month_range, lit]

theorem findText_longWeekday (h : weekday ∈ longWeekdays) (body : Bytes) :
    findText (lit ", ") (weekday ++ (lit ", " ++ body)) = some weekday.length := by
  simp only [longWeekdays, List.mem_cons, List.not_mem_nil, or_false] at h
  rcases h with rfl | rfl | rfl | rfl | rfl | rfl | rfl <;> rfl

/-- What stands behind the day of the week. -/
theorem parseRfc850Body_iff {now : Int} {body : Bytes} :
    parseRfc850Body now body = some t ↔
      (now ≠ -1 ∧ 0 ≤ (ofInstant now).date.year ∧ (ofInstant now).date.year ≤ 9999) ∧
        ∃ time shortYear, (shortYear < 100 ∧ body = (rfc850Columns shortYear time).flatten) ∧
          IsRfc850Year (ofInstant now) shortYear time ∧ time.instant = t := by
  have hcolumns : columns body 0 [2, 1, 3, 1, 2, 1, 2, 1, 2, 1, 2, 1, 3] = [sub body 0 2, sub body 2 1, sub body 3 3,
      sub body 6 1, sub body 7 2, sub body 9 1, sub body 10 2, sub body 12 1, sub body 13 2, sub body 15 1,
      sub body 16 2, sub body 18 1, sub body 19 3] := rfl
  unfold parseRfc850Body
  simp only [Option.bind_eq_bind]
  constructor
  · intro h
    split at h
    · cases h
    · rename_i hshape
      simp only [not_or, not_not, ne_eq] at hshape
      obtain ⟨hlength, h2, h6, h9, h12, h15, h18, hgmt⟩ := hshape
      simp only [Option.bind_eq_some_iff] at h
      obtain ⟨day, hday, shortYear, hshort, hour, hhour, minute, hminute, second, hsecond, h⟩ := h
      rw [digits_two (by omega)] at hday hshort hhour hminute hsecond
      split_ifs at h with hmonth hclock
      obtain ⟨hrange, hname⟩ := (monthIndex_iff hmonth).mp rfl
      obtain ⟨current, hcurrent, h⟩ := Option.bind_eq_some_iff.mp h
      rw [httpUtcTm_eq] at hcurrent
      split_ifs at hcurrent with hnow
      cases hcurrent
      obtain ⟨time, ⟨hy, hm, rfl, rfl, rfl, rfl⟩, hinstant⟩ :=
        (httpCivilToTimeT_iff (rfc850Year_bound hshort.1 hnow _)).mp h
      refine ⟨⟨hclock, hnow⟩, time, shortYear, ⟨hshort.1, ?_⟩, ?_, hinstant⟩
      · rw [eq_flatten_iff (rfc850Columns_widths shortYear time), hcolumns, rfc850Columns]
        refine ⟨hlength, ?_⟩
        rw [← sub_one_iff] at h2 h6 h9 h12 h15 h18
        rw [h2, h6, h9, h12, h15, h18, hgmt, hday.2, hshort.2, hhour.2, hminute.2, hsecond.2, hname, hm]
      · rw [isRfc850Year_iff hshort.1, hy, clockFields, hm]
  · rintro ⟨⟨hclock, hnow⟩, time, shortYear, ⟨hshort, hbody⟩, hyear, rfl⟩
    rw [eq_flatten_iff (rfc850Columns_widths shortYear time), hcolumns, rfc850Columns] at hbody
    obtain ⟨hlength, hbody⟩ := hbody
    replace hlength : body.length = 22 := hlength
    simp only [List.cons.injEq, and_true] at hbody
    obtain ⟨hday, h2, hmonth, h6, hy, h9, hhour, h12, hminute, h15, hsecond, h18, hgmt⟩ := hbody
    rw [sub_one_iff] at h2 h6 h9 h12 h15 h18
    obtain ⟨hd, hh, hm, hs⟩ := two_digits time
    have hpos : time.date.month ≠ 0 := Nat.ne_of_gt time.date.month_range.1
    have hmonth' := (monthIndex_iff hpos).mpr ⟨time.date.month_range, hmonth⟩
    rw [if_neg, (digits_two (by omega)).mpr ⟨hd, hday⟩, (digits_two (by omega)).mpr ⟨hshort, hy⟩,
      (digits_two (by omega)).mpr ⟨hh, hhour⟩, (digits_two (by omega)).mpr ⟨hm, hminute⟩,
      (digits_two (by omega)).mpr ⟨hs, hsecond⟩, hmonth']
    · simp only [Option.bind_some]
      rw [if_neg hpos, if_neg hclock, httpUtcTm_eq, if_pos hnow, Option.bind_some]
      rw [isRfc850Year_iff hshort, clockFields] at hyear
      exact (httpCivilToTimeT_iff (rfc850Year_bound hshort hnow _)).mpr ⟨time, ⟨hyear, rfl, rfl, rfl, rfl, rfl⟩, rfl⟩
    · simp only [not_or, not_not, ne_eq]
      exact ⟨hlength, h2, h6, h9, h12, h15, h18, hgmt⟩

/-- **RFC 850 dates**: the parser accepts them where the current year has four digits, with the instant of their time in
    the year that is chosen for it. -/
theorem parseRfc850Date_iff {now : Int} :
    parseRfc850Date now value = some t ↔
      (now ≠ -1 ∧ 0 ≤ (ofInstant now).date.year ∧ (ofInstant now).date.year ≤ 9999) ∧
        ∃ time shortYear, IsRfc850Date value shortYear time ∧ IsRfc850Year (ofInstant now) shortYear time ∧
          time.instant = t := by
  unfold parseRfc850Date
  constructor
  · intro h
    split at h
    · cases h
    · rename_i position hfind
      split at h
      · cases h
      · rename_i hweekday
        obtain ⟨hnow, time, shortYear, ⟨hshort, hbody⟩, hyear, hinstant⟩ := parseRfc850Body_iff.mp h
        refine ⟨hnow, time, shortYear, ⟨hshort, _, isLongWeekday_iff.mp hweekday, ?_⟩, hyear, hinstant⟩
        obtain ⟨⟨rest, hrest⟩, -⟩ := (findText_eq_some_iff (by decide)).mp hfind
        have hdrop : value.drop (position + 2) = rest := by
          rw [← List.drop_drop, ← hrest]
          rfl
        rw [← hbody, hdrop, hrest, List.take_append_drop]
  · rintro ⟨hnow, time, shortYear, ⟨hshort, weekday, hweekday, rfl⟩, hyear, hinstant⟩
    rw [findText_longWeekday hweekday]
    dsimp only
    rw [List.take_left, if_neg (isLongWeekday_iff.mpr hweekday), ← List.drop_drop, List.drop_left]
    exact parseRfc850Body_iff.mpr ⟨hnow, time, shortYear, ⟨hshort, rfl⟩, hyear, hinstant⟩

end

/-! ## Results -/

section

variable {value : Bytes} {t : Int}

/-- The forms differ in their fourth byte. -/
theorem fourth_of_imf (h : parseImfFixdate value = some t) : value[3]? = some comma := by
  unfold parseImfFixdate at h
  split at h
  · cases h
  · rename_i hshape
    simp only [not_or, not_not, ne_eq] at hshape
    exact hshape.2.2.1

theorem fourth_of_asctime (h : parseAsctimeDate value = some t) : value[3]? = some sp := by
  unfold parseAsctimeDate at h
  split at h
  · cases h
  · rename_i hshape
    simp only [not_or, not_not, ne_eq] at hshape
    exact hshape.2.1

theorem fourth_of_rfc850 {now : Int} (h : parseRfc850Date now value = some t) :
    value[3]? ≠ some comma ∧ value[3]? ≠ some sp := by
  obtain ⟨-, time, shortYear, ⟨-, weekday, hweekday, rfl⟩, -⟩ := parseRfc850Date_iff.mp h
  simp only [longWeekdays, List.mem_cons, List.not_mem_nil, or_false] at hweekday
  constructor
  all_goals rcases hweekday with rfl | rfl | rfl | rfl | rfl | rfl | rfl <;> intro heq <;> cases heq

theorem dayName_mem (t : Int) : dayNames.getD (weekday (t / 86400)) [] ∈ shortWeekdays := by
  have hlt : weekday (t / 86400) < 7 := by
    unfold weekday
    omega
  generalize weekday (t / 86400) = day at hlt
  interval_cases day <;> decide

/-- What is written is an IMF-fixdate. -/
theorem formatHttpDate_eq (t : Int) :
    formatHttpDate t =
      if 0 ≤ (ofInstant t).date.year ∧ (ofInstant t).date.year ≤ 9999 then
        some (imfColumns (dayNames.getD (weekday (t / 86400)) []) (ofInstant t)).flatten
      else none := by
  unfold formatHttpDate
  rw [httpUtcTm_eq]
  by_cases hyear : 0 ≤ (ofInstant t).date.year ∧ (ofInstant t).date.year ≤ 9999
  · have hfour : ∀ n, fixedDecimal 4 n =
        [digitByte (n / 1000 % 10), digitByte (n / 100 % 10), digitByte (n / 10 % 10), digitByte (n % 10)] := by
      intro n
      show [digitByte (n / 10 / 10 / 10 % 10), digitByte (n / 10 / 10 % 10), digitByte (n / 10 % 10),
        digitByte (n % 10)] = _
      rw [show n / 10 / 10 / 10 = n / 1000 by omega, show n / 10 / 10 = n / 100 by omega]
    have htwo : ∀ n, put2 n = fixedDecimal 2 n := fun _ => rfl
    have hname : put3 (dayNames.getD (weekday (t / 86400)) []) = dayNames.getD (weekday (t / 86400)) [] :=
      List.take_of_length_le (length_shortWeekday (dayName_mem t)).le
    have hmonth : put3 (monthName (ofInstant t).date.month) = monthName (ofInstant t).date.month :=
      List.take_of_length_le (length_monthName (ofInstant t).date.month_range).le
    have hsum : (ofInstant t).date.year - 1900 + 1900 = (ofInstant t).date.year := Int.sub_add_cancel _ _
    rw [if_pos hyear, if_pos hyear, Option.bind_eq_bind, Option.bind_some]
    show some (put3 (dayNames.getD (weekday (t / 86400)) []) ++ [comma, sp] ++ put2 (ofInstant t).date.day ++ [sp] ++
      put3 (monthName (ofInstant t).date.month) ++ [sp] ++ _ ++ [sp] ++ _ ++ _ ++ _ ++ _ ++ _ ++ _ ++ _) = _
    rw [hname, hmonth, ← hfour, htwo, imfColumns]
    show _ = some ([_, _, _, _, _, _, _, fixedDecimal 4 (ofInstant t).date.year.toNat, _, _, _, _, _, _, _, _] :
      List Bytes).flatten
    rw [← hsum]
    simp [htwo, tmOf]
  · rw [if_neg hyear, if_neg hyear]
    rfl

/-- Whitespace around a text that neither begins nor ends with it. -/
theorem httpTrimOws_enclosed {front back text : Bytes} {first last : UInt8}
    (hfront : ∀ byte ∈ front, isHttpOwsChar byte = true) (hback : ∀ byte ∈ back, isHttpOwsChar byte = true)
    (hfirst : text.head? = some first) (hfirst' : isHttpOwsChar first = false) (hlast : text.getLast? = some last)
    (hlast' : isHttpOwsChar last = false) : httpTrimOws (front ++ text ++ back) = text := by
  have hdrop : (text ++ back).dropWhile isHttpOwsChar = text ++ back := by
    obtain ⟨rest, rfl⟩ := List.head?_eq_some_iff.mp hfirst
    rw [List.cons_append, List.dropWhile_cons_of_neg (by rw [hfirst']; decide)]
  have hback' : ∀ byte ∈ back.reverse, isHttpOwsChar byte = true := by
    intro byte hbyte
    exact hback byte (List.mem_reverse.mp hbyte)
  have hreverse : text.reverse.dropWhile isHttpOwsChar = text.reverse := by
    rw [← List.head?_reverse] at hlast
    obtain ⟨rest, hrest⟩ := List.head?_eq_some_iff.mp hlast
    rw [hrest, List.dropWhile_cons_of_neg (by rw [hlast']; decide)]
  unfold httpTrimOws List.rdropWhile
  rw [List.append_assoc, List.dropWhile_append_of_pos hfront, hdrop, List.reverse_append,
    List.dropWhile_append_of_pos hback', hreverse, List.reverse_reverse]

theorem IsImfFixdate.head {time : CivilTime} (h : IsImfFixdate value time) :
    ∃ first, value.head? = some first ∧ isHttpOwsChar first = false := by
  obtain ⟨-, weekday, hweekday, rfl⟩ := h
  simp only [shortWeekdays, List.mem_cons, List.not_mem_nil, or_false] at hweekday
  rcases hweekday with rfl | rfl | rfl | rfl | rfl | rfl | rfl <;> exact ⟨_, rfl, rfl⟩

theorem IsImfFixdate.getLast {time : CivilTime} (h : IsImfFixdate value time) : value.getLast? = some 0x54 := by
  obtain ⟨-, weekday, -, rfl⟩ := h
  have hcut : imfColumns weekday time = (imfColumns weekday time).dropLast ++ [lit "GMT"] := rfl
  rw [hcut, List.flatten_append, List.getLast?_append]
  rfl

theorem parseHttpDate_eq_some {now : Int} :
    parseHttpDate now value = some t ↔ parseImfFixdate (httpTrimOws value) = some t ∨
      parseRfc850Date now (httpTrimOws value) = some t ∨ parseAsctimeDate (httpTrimOws value) = some t := by
  unfold parseHttpDate
  dsimp only
  cases himf : parseImfFixdate (httpTrimOws value) with
  | some t' =>
    have hrfc850 : parseRfc850Date now (httpTrimOws value) ≠ some t := fun h =>
      (fourth_of_rfc850 h).1 (fourth_of_imf himf)
    have hasctime : parseAsctimeDate (httpTrimOws value) ≠ some t := by
      intro h
      have hbyte := (fourth_of_asctime h).symm.trans (fourth_of_imf himf)
      cases hbyte
    simp [hrfc850, hasctime]
  | none =>
    cases hrfc850 : parseRfc850Date now (httpTrimOws value) with
    | some t' =>
      have hasctime : parseAsctimeDate (httpTrimOws value) ≠ some t := fun h =>
        (fourth_of_rfc850 hrfc850).2 (fourth_of_asctime h)
      simp [hasctime]
    | none => simp

/-- **HTTP dates.** An instant has a text if its year has four digits, and the text is read back as that instant,
    whitespace around it or not. Each form is accepted with the instant of the time that it denotes, where the year of
    an RFC 850 date is that of the current century unless the timestamp is more than fifty years ahead, and then the
    most recent past one; and no text is of two forms. -/
theorem http_dates (now : Int) :
    (∀ t, (formatHttpDate t).isSome = true ↔ 0 ≤ (ofInstant t).date.year ∧ (ofInstant t).date.year ≤ 9999) ∧
      (∀ t text front back, formatHttpDate t = some text → (∀ byte ∈ front, isHttpOwsChar byte = true) →
        (∀ byte ∈ back, isHttpOwsChar byte = true) → parseHttpDate now (front ++ text ++ back) = some t) ∧
      (∀ value t, (parseImfFixdate value = some t ↔ ∃ time, IsImfFixdate value time ∧ time.instant = t) ∧
        (parseAsctimeDate value = some t ↔ ∃ time, IsAsctimeDate value time ∧ time.instant = t) ∧
        (parseRfc850Date now value = some t ↔
          (now ≠ -1 ∧ 0 ≤ (ofInstant now).date.year ∧ (ofInstant now).date.year ≤ 9999) ∧
            ∃ time shortYear, IsRfc850Date value shortYear time ∧ IsRfc850Year (ofInstant now) shortYear time ∧
              time.instant = t) ∧
        (parseHttpDate now value = some t ↔ parseImfFixdate (httpTrimOws value) = some t ∨
          parseRfc850Date now (httpTrimOws value) = some t ∨ parseAsctimeDate (httpTrimOws value) = some t)) ∧
      ∀ value t t', ¬(parseImfFixdate value = some t ∧ parseRfc850Date now value = some t') ∧
        ¬(parseImfFixdate value = some t ∧ parseAsctimeDate value = some t') ∧
        ¬(parseRfc850Date now value = some t ∧ parseAsctimeDate value = some t') := by
  refine ⟨fun t => ?_, fun t text front back htext hfront hback => ?_, fun value t => ?_,
    fun value t t' => ⟨?_, ?_, ?_⟩⟩
  · rw [formatHttpDate_eq]
    split <;> simp [*]
  · rw [formatHttpDate_eq] at htext
    split_ifs at htext with hyear
    have htext' := Option.some.inj htext
    have hform : IsImfFixdate text (ofInstant t) := ⟨hyear, _, dayName_mem t, htext'.symm⟩
    obtain ⟨first, hfirst, hfirst'⟩ := hform.head
    rw [parseHttpDate_eq_some, httpTrimOws_enclosed hfront hback hfirst hfirst' hform.getLast (by decide)]
    exact .inl (parseImfFixdate_iff.mpr ⟨ofInstant t, hform, instant_ofInstant t⟩)
  · exact ⟨parseImfFixdate_iff, parseAsctimeDate_iff, parseRfc850Date_iff, parseHttpDate_eq_some⟩
  · rintro ⟨himf, hrfc850⟩
    exact (fourth_of_rfc850 hrfc850).1 (fourth_of_imf himf)
  · rintro ⟨himf, hasctime⟩
    have hbyte := (fourth_of_asctime hasctime).symm.trans (fourth_of_imf himf)
    cases hbyte
  · rintro ⟨hrfc850, hasctime⟩
    exact (fourth_of_rfc850 hrfc850).2 (fourth_of_asctime hasctime)

/-- The text of a leap day, with whitespace around it, and a leap second in an RFC 850 date less than fifty years
    ahead. -/
theorem http_dates_leap_day :
    parseHttpDate 0 (lit " Tue, 29 Feb 2000 23:59:59 GMT\t") = some 951868799 ∧
      parseHttpDate 951868799 (lit "Monday, 01-Jan-49 00:00:60 GMT") = some 2493072060 := by
  have htext : formatHttpDate 951868799 = some (lit "Tue, 29 Feb 2000 23:59:59 GMT") := by decide +kernel
  have hows : ∀ byte : UInt8, isHttpOwsChar byte = true → ∀ other ∈ [byte], isHttpOwsChar other = true := by
    intro byte hbyte other hother
    rw [List.mem_singleton.mp hother]
    exact hbyte
  refine ⟨(http_dates 0).2.1 951868799 _ [sp] [htab] htext (hows sp rfl) (hows htab rfl), ?_⟩
  rw [((http_dates 951868799).2.2.1 _ _).2.2.2]
  exact .inr (.inl (by decide +kernel))

end

end Ruvia.Http
