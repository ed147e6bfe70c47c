import ServerCore.GregorianCalendar
import ServerCore.NginxHttpDate

/-!
# The seconds of a date of HTTP

The code accepts a day zero as well, and takes a January or February of the year
zero to the year before, which its unsigned numbers do not have.
-/

namespace ServerCore.NginxParseHttpTimeExact

open GregorianCalendar
open NginxNumbers (Bytes ngxError)
open NginxParseHttpTime NginxHttpDate

variable {value : Bytes}
variable {fields : Fields}

def epoch : Date where
  year := 1970
  month := 0
  day := 1
  month_bound := by decide
  day_positive := by decide
  day_bound := by decide

def secondsOf (date : Date) (hour min sec : Nat) : Int :=
  ((date.number : Int) - epoch.number) * 86400 + hour * 3600 + min * 60 + sec

/-- The run stays inside, and what is accepted is a real date with its seconds. -/
def ReadsRealDate (value : Bytes) : Prop :=
  ∃ result, ngxParseHttpTime value = some result ∧
    (result ≠ ngxError → ∃ fields more, readFields.run value = .ok (fields, more) ∧
      ∃ date : Date, date.year = fields.year ∧ date.month = fields.month ∧ date.day = fields.day ∧
        fields.hour < 24 ∧ fields.min < 60 ∧ fields.sec < 60 ∧
          result = secondsOf date fields.hour fields.min fields.sec)

def IsZero (fields : Fields) : Prop := fields.day = 0 ∨ (fields.year = 0 ∧ fields.month < 2)

/-- The day before the epoch, written as a day zero, in its last second: -1 is returned for it. -/
def beforeEpoch : Fields := ⟨0, 0, 1970, 23, 59, 59⟩

theorem epoch_number : epoch.number = 719528 := by
  rw [number_before_march epoch 1969 rfl (by decide)]
  decide

theorem http_date_bounds (isDate : HttpDate fields value) :
    fields.month < 12 ∧ fields.year < 10000 := by
  obtain ⟨weekday, sep, spaces, fmt, text, more, plain, isFmt, isSpaces, isText⟩ := isDate
  cases isText with
  | rfc822 name isName isDay isYear isTime => exact ⟨month_name_bound isName, isYear⟩
  | rfc850 name short isName isDay isShort isYear isTime =>
    refine ⟨month_name_bound isName, ?_⟩
    rw [isYear, fullYear]
    split_ifs <;> omega
  | isoc name c space day isName isSpace isDay isYear isTime => exact ⟨month_name_bound isName, isYear⟩

theorem month_length_other : ∀ leap, ∀ month < 12, month ≠ 1 →
    mday.getD month 0 = monthLength leap month := by
  decide

theorem in_range_iff (isMonth : fields.month < 12) :
    inRange fields = true ↔ fields.hour < 24 ∧ fields.min < 60 ∧ fields.sec < 60 ∧
      fields.day ≤ monthLength (isLeap fields.year) fields.month := by
  have isTime : (!(fields.hour > 23 || fields.min > 59 || fields.sec > 59)) = true ↔
      fields.hour < 24 ∧ fields.min < 60 ∧ fields.sec < 60 := by
    simp
    omega
  rw [inRange, Bool.and_eq_true, isTime, and_assoc, and_assoc]
  apply and_congr_right'
  apply and_congr_right'
  apply and_congr_right'
  by_cases isLast : fields.day = 29 ∧ fields.month = 1
  · rw [if_pos isLast, isLast.1, isLast.2]
    cases leap : isLeap fields.year with
    | true =>
      have isYear := (is_leap_iff fields.year).mp leap
      simp [monthLength]
      omega
    | false =>
      have notYear := mt (is_leap_iff fields.year).mpr (by simp [leap])
      simp [monthLength]
      omega
  · rw [if_neg isLast]
    by_cases isFebruary : fields.month = 1
    · have other : fields.day ≠ 29 := fun same => isLast ⟨same, isFebruary⟩
      rw [isFebruary]
      cases isLeap fields.year with
      | true =>
        simp [monthLength, mday]
        omega
      | false => simp [monthLength, mday]
    · rw [month_length_other (isLeap fields.year) fields.month isMonth isFebruary]
      simp

theorem returned_small {value : Int} (least : -2 ^ 63 ≤ value) (most : value < 2 ^ 63) :
    (wrapped value).bmod (2 ^ 64) = value := by
  have same : (wrapped value).bmod (2 ^ 64) = value.bmod (2 ^ 64) := Int.emod_bmod value (2 ^ 64)
  rw [same]
  apply Int.bmod_eq_of_le
  · omega
  · omega

def marchSum (year month : Nat) (fields : Fields) : Int :=
  ((marchDays year : Int) + marchMonthDays month + fields.day - 1 - 719468) * 86400 +
    fields.hour * 3600 + fields.min * 60 + fields.sec

theorem march_month_days_cast {month : Nat} (pos : 1 ≤ month) :
    (marchMonthDays month : Int) = 367 * (month : Int) / 12 - 30 := by
  rw [marchMonthDays]
  omega

section

variable {fields : Fields} {year month : Nat} (small : fields.year < 10000)
include small

theorem time_of_shifted (isShift : Shifted fields.year fields.month year month) :
    timeOf fields = wrapped (marchSum year month fields) := by
  obtain ⟨pos, shape⟩ := isShift
  have days := march_days_add year
  have months := march_month_days_cast pos
  rw [timeOf, marchSum]
  rcases shape with ⟨isMonth, isYear⟩ | ⟨isMonth, early, isYear⟩
  · have late : ¬ ((fields.month : Int) - 1 ≤ 0) := by omega
    have shifted : (fields.month : Int) - 1 = month := by omega
    rw [if_neg late, if_neg late, shifted, months, isYear]
    congr 1
    omega
  · have first : (fields.month : Int) - 1 ≤ 0 := by omega
    have shifted : (fields.month : Int) - 1 + 12 = month := by omega
    have before : wrapped ((fields.year : Int) - 1) = year := by
      rw [wrapped]
      omega
    rw [if_pos first, if_pos first, shifted, before, months]
    congr 1
    omega

section

variable (isMonth : fields.month < 12) (isRange : inRange fields = true)
  (isShift : Shifted fields.year fields.month year month)
include isMonth isRange isShift

theorem march_sum_small :
    -2 ^ 63 ≤ marchSum year month fields ∧ marchSum year month fields < 2 ^ 63 := by
  have ranges := (in_range_iff isMonth).mp isRange
  have dayBound : fields.day ≤ 366 := by
    have months := days_before_month_le (isLeap fields.year) fields.month isMonth
    have year : yearLength (isLeap fields.year) ≤ 366 := by
      cases isLeap fields.year <;> decide
    omega
  have days := march_days_add year
  have months : marchMonthDays month ≤ 337 := by
    have bound : month ≤ 12 := by
      rw [Shifted] at isShift
      omega
    rw [marchMonthDays]
    omega
  have bound : year < 10000 := by
    rw [Shifted] at isShift
    omega
  rw [marchSum]
  omega

theorem returned_shifted : (timeOf fields).bmod (2 ^ 64) = marchSum year month fields := by
  have bounds := march_sum_small small isMonth isRange isShift
  rw [time_of_shifted small isShift, returned_small bounds.1 bounds.2]

end

end

theorem wrapped_year_days :
    (365 * 18446744073709551615 + 18446744073709551615 / 4 - 18446744073709551615 / 100 +
    18446744073709551615 / 400 : Int) = 6737534922341860905741 := by
  decide

theorem early_day_bound (isMonth : fields.month < 2) (isRange : inRange fields = true) :
    fields.day ≤ 31 := by
  have ranges := (in_range_iff (lt_of_lt_of_le isMonth (by decide))).mp isRange
  have lengths : ∀ leap, ∀ month < 2, monthLength leap month ≤ 31 := by decide
  exact le_trans ranges.2.2.2 (lengths _ _ isMonth)

theorem returned_zero_year (isYear : fields.year = 0) (isMonth : fields.month < 2)
    (isRange : inRange fields = true) :
    (timeOf fields).bmod (2 ^ 64) = -62167208832 + ((31 * fields.month : Int) + fields.day - 1) * 86400 +
      fields.hour * 3600 + fields.min * 60 + fields.sec := by
  have ranges := (in_range_iff (lt_of_lt_of_le isMonth (by decide))).mp isRange
  have days := early_day_bound isMonth isRange
  have first : (fields.month : Int) - 1 ≤ 0 := by omega
  have year : wrapped ((fields.year : Int) - 1) = 18446744073709551615 := by
    rw [isYear]
    rfl
  have month : 367 * ((fields.month : Int) - 1 + 12) / 12 - 30 = 306 + 31 * fields.month := by omega
  have same : timeOf fields = wrapped (-62167208832 + ((31 * fields.month : Int) + fields.day - 1) * 86400 +
      fields.hour * 3600 + fields.min * 60 + fields.sec) := by
    rw [timeOf, if_pos first, if_pos first, year, month, wrapped_year_days, wrapped, wrapped]
    omega
  rw [same]
  apply returned_small
  · omega
  · omega

theorem inside_and_time (isDate : HttpDate fields value)
    (isRange : inRange fields = true) : ngxParseHttpTime value = some ((timeOf fields).bmod (2 ^ 64)) := by
  obtain ⟨more, taken⟩ := read_fields_date isDate isRange
  rw [ngxParseHttpTime, taken]

theorem returned_date (date : Date) (isYear : date.year = fields.year)
    (isMonth : date.month = fields.month) (isDay : date.day = fields.day) (small : fields.year < 10000)
    (regular : ¬ (fields.year = 0 ∧ fields.month < 2)) (isRange : inRange fields = true) :
    (timeOf fields).bmod (2 ^ 64) = secondsOf date fields.hour fields.min fields.sec := by
  obtain ⟨year, month, isShift⟩ := exists_shifted regular
  have pos := date.day_positive
  have number := @number_shifted year month date (by rw [isYear, isMonth]; exact isShift)
  rw [returned_shifted small (isMonth ▸ date.month_bound) isRange isShift, marchSum,
    secondsOf, number, epoch_number,
    ← isDay]
  omega

theorem real_date (isDate : HttpDate fields value)
    (isRange : inRange fields = true) (regular : ¬ IsZero fields) : ReadsRealDate value := by
  have bounds := http_date_bounds isDate
  have ranges := (in_range_iff bounds.1).mp isRange
  have pos : 1 ≤ fields.day := Nat.pos_of_ne_zero (fun isZero => regular (.inl isZero))
  obtain ⟨more, taken⟩ := read_fields_date isDate isRange
  let date : Date := ⟨fields.year, fields.month, fields.day, bounds.1, pos, ranges.2.2.2⟩
  have result := returned_date date rfl rfl rfl bounds.2 (fun isZero => regular (.inr isZero)) isRange
  exact ⟨_, inside_and_time isDate isRange,
    fun _ => ⟨fields, more, taken, date, rfl, rfl, rfl, ranges.1, ranges.2.1,
    ranges.2.2.1, result⟩⟩

theorem zero_year_number {date : Date} (isYear : date.year = 0) (early : date.month < 2) :
    date.number = 31 * date.month + (date.day - 1) := by
  have months : ∀ leap, ∀ month < 2, daysBeforeMonth leap month = 31 * month := by decide
  rw [Date.number, isYear, months _ _ early, daysBeforeYear, zero_add]

theorem zero_minus_one (small : fields.year < 10000) (isMonth : fields.month < 12)
    (isRange : inRange fields = true) (isZero : IsZero fields)
    (minusOne : (timeOf fields).bmod (2 ^ 64) = -1) : fields = beforeEpoch := by
  have ranges := (in_range_iff isMonth).mp isRange
  by_cases isZeroYear : fields.year = 0 ∧ fields.month < 2
  · have days := early_day_bound isZeroYear.2 isRange
    rw [returned_zero_year isZeroYear.1 isZeroYear.2 isRange] at minusOne
    omega
  · have isZeroDay : fields.day = 0 := isZero.resolve_right isZeroYear
    obtain ⟨year, month, isShift⟩ := exists_shifted isZeroYear
    rw [returned_shifted small isMonth isRange isShift, marchSum] at minusOne
    -- the day behind the zeroth one is the epoch
    have pos : 1 ≤ monthLength (isLeap fields.year) fields.month := by
      have lengths : ∀ leap, ∀ month < 12, 1 ≤ monthLength leap month := by decide
      exact lengths _ _ isMonth
    let next : Date := ⟨fields.year, fields.month, 1, isMonth, le_refl 1, pos⟩
    have number := @number_shifted year month next isShift
    change next.number = marchDays year + 60 + marchMonthDays month + 0 at number
    have isEpoch : next = epoch := by
      apply number_injective
      rw [number, epoch_number]
      omega
    have isYear : fields.year = 1970 := congrArg Date.year isEpoch
    have isJanuary : fields.month = 0 := congrArg Date.month isEpoch
    have isTime : fields.hour = 23 ∧ fields.min = 59 ∧ fields.sec = 59 := by omega
    obtain ⟨day, month, year, hour, min, sec⟩ := fields
    simp only at isZeroDay isYear isJanuary isTime
    rw [isZeroDay, isYear, isJanuary, isTime.1, isTime.2.1, isTime.2.2]
    rfl

theorem fields_unique {other : Fields} {value more : Bytes} (isDate : HttpDate fields value)
    (isRange : inRange fields = true) (taken : readFields.run value = .ok (other, more)) :
    other = fields := by
  obtain ⟨rest, isTaken⟩ := read_fields_date isDate isRange
  rw [isTaken] at taken
  injection taken with same
  injection same with sameFields
  exact sameFields.symm

theorem zero_date_wrong (isDate : HttpDate fields value)
    (isRange : inRange fields = true) (isZero : IsZero fields) (other : fields ≠ beforeEpoch) :
    ¬ ReadsRealDate value := by
  intro right
  have bounds := http_date_bounds isDate
  obtain ⟨result, isResult, real⟩ := right
  rw [inside_and_time isDate isRange, Option.some.injEq] at isResult
  by_cases minusOne : result = ngxError
  · exact other (zero_minus_one bounds.2 bounds.1 isRange isZero (isResult.trans minusOne))
  · obtain ⟨read, more, taken, date, isYear, isMonth, isDay, isHour, isMin, isSec, isSeconds⟩ :=
      real minusOne
    rw [fields_unique isDate isRange taken] at isYear isMonth isDay isSeconds
    have pos := date.day_positive
    rcases isZero with isZeroDay | ⟨isZeroYear, early⟩
    · omega
    · have number := zero_year_number (isYear.trans isZeroYear) (isMonth ▸ early)
      rw [← isResult, returned_zero_year isZeroYear early isRange, secondsOf,
        epoch_number, number] at isSeconds
      omega

theorem before_epoch_error (isDate : HttpDate beforeEpoch value) : ReadsRealDate value := by
  have isRange : inRange beforeEpoch = true := by decide
  have result := inside_and_time isDate isRange
  exact ⟨ngxError, result, fun other => absurd rfl other⟩

/-- A value is read as a real date or refused, if and only if it is not an accepted date with a
zero, but for the one that is returned as an error. -/
theorem reads_real_iff (value : Bytes) :
    ReadsRealDate value ↔ ¬ ∃ fields, HttpDate fields value ∧ inRange fields = true ∧ IsZero fields ∧
      fields ≠ beforeEpoch := by
  constructor
  · intro right
    rintro ⟨fields, isDate, isRange, isZero, other⟩
    exact zero_date_wrong isDate isRange isZero other right
  · intro regular
    rcases read_fields_cases value with refused | ⟨fields, more, isDate, isRange, taken⟩
    · have result : ngxParseHttpTime value = some ngxError := by
        rw [ngxParseHttpTime, refused]
      exact ⟨ngxError, result, fun other => absurd rfl other⟩
    · by_cases isZero : IsZero fields
      · by_cases isBefore : fields = beforeEpoch
        · exact before_epoch_error (isBefore ▸ isDate)
        · exact absurd ⟨fields, isDate, isRange, isZero, isBefore⟩ regular
      · exact real_date isDate isRange isZero

def zeroDay : Bytes := "Sun, 00 Nov 1994 08:49:37 GMT".toList.map Char.toUInt8

theorem zero_day_wrong : ¬ ReadsRealDate zeroDay := by
  rintro ⟨result, isResult, real⟩
  have isTime : ngxParseHttpTime zeroDay = some 783593377 := by decide
  rw [isTime, Option.some.injEq] at isResult
  obtain ⟨fields, more, taken, date, isYear, isMonth, isDay, rest⟩ := real (by rw [← isResult]; decide)
  have isZero : (readFields.run zeroDay).map (fun read => read.1.day) = .ok 0 := by decide
  rw [taken] at isZero
  injection isZero with isZeroDay
  change fields.day = 0 at isZeroDay
  have pos := date.day_positive
  omega

end ServerCore.NginxParseHttpTimeExact
