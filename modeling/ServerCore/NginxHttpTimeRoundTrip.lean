import Mathlib.Data.List.GetD
import ServerCore.NginxParseHttpTimeExact
import ServerCore.NginxSprintfBound
import ServerCore.NginxTimes

/-!
# Dates that are written and read

The year that begins with March is estimated by a division and corrected where
the last days of February have been taken to the next one. The month and its day
depend on the day of that year only, which leaves a table of 366 days.
-/

namespace ServerCore.NginxHttpTimeRoundTrip

open GregorianCalendar
open NginxNumbers (Bytes)
open NginxParseHttpTime NginxParseHttpTimeExact NginxHttpDate NginxSprintf NginxSprintfBound NginxTimes List

variable {value seconds hour min sec : Nat} {day month : Bytes}

theorem estimate_bounds (days : Nat) :
    marchDays ((days + 2) * 400 / 146097) ≤ days + 2 ∧
    days ≤ marchDays ((days + 2) * 400 / 146097) + 364 := by
  have add := march_days_add ((days + 2) * 400 / 146097)
  constructor
  · omega
  · omega

theorem march_days_cast (year : Nat) :
    365 * (year : Int) + (year : Int) / 4 - (year : Int) / 100 + (year : Int) / 400 = marchDays year := by
  have add := march_days_add year
  omega

theorem leap_cast (year : Nat) :
    (365 + if (year : Int) % 4 = 0 ∧ ((year : Int) % 100 ≠ 0 ∨ (year : Int) % 400 = 0) then 1 else 0 : Int) =
      yearLength (isLeap year) := by
  have same : ((year : Int) % 4 = 0 ∧ ((year : Int) % 100 ≠ 0 ∨ (year : Int) % 400 = 0)) ↔
      (year % 4 = 0 ∧ (year % 100 ≠ 0 ∨ year % 400 = 0)) := by omega
  rw [year_length_eq, if_congr same rfl rfl]
  split_ifs <;> rfl

theorem year_length_bounds (leap : Bool) : 365 ≤ yearLength leap ∧ yearLength leap ≤ 366 := by
  revert leap
  decide

theorem march_year_eq (days : Nat) : ∃ year yday : Nat, marchYear days = ((year : Int), (yday : Int)) ∧
    days = marchDays year + yday ∧ yday < yearLength (isLeap (year + 1)) := by
  have bounds := estimate_bounds days
  have estimate : ((days : Int) + 2) * 400 / (365 * 400 + 100 - 4 + 1) =
      ((days + 2) * 400 / 146097 : Nat) := by
    omega
  generalize (days + 2) * 400 / 146097 = year at bounds estimate
  rw [marchYear, estimate, march_days_cast]
  by_cases early : days < marchDays year
  · -- the last days of February
    have negative : (days : Int) - marchDays year < 0 := by omega
    cases year with
    | zero => cases early
    | succ year =>
      have step := march_days_step year
      have lengths := year_length_bounds (isLeap (year + 1))
      rw [if_pos negative]
      refine ⟨year, yearLength (isLeap (year + 1)) + days - marchDays (year + 1), ?_, by omega, by omega⟩
      dsimp only
      rw [leap_cast, Prod.mk.injEq]
      constructor
      · omega
      · omega
  · have lengths := year_length_bounds (isLeap (year + 1))
    have natural : ¬ (days : Int) - marchDays year < 0 := by omega
    rw [if_neg natural]
    refine ⟨year, days - marchDays year, ?_, by omega, by omega⟩
    rw [Int.ofNat_sub (Nat.le_of_not_lt early)]

theorem month_table_early : ∀ leap, ∀ yday < 306, let mon := (yday + 31) * 10 / 306
    let mday := yday - marchMonthDays mon + 1
    1 ≤ mon ∧ mon + 1 < 12 ∧ marchMonthDays mon ≤ yday ∧ mday ≤ monthLength leap (mon + 1) := by
  decide +kernel

theorem month_table_late : ∀ leap, ∀ yday < yearLength leap, 306 ≤ yday →
    let mon := (yday + 31) * 10 / 306
    let mday := yday - marchMonthDays mon + 1
    11 ≤ mon ∧ mon < 13 ∧ marchMonthDays mon ≤ yday ∧ mday ≤ monthLength leap (mon - 11) := by
  decide +kernel

theorem month_of_date (year yday : Nat) (inYear : yday < yearLength (isLeap (year + 1))) :
    ∃ date : Date, monthOf year yday = ((date.year : Int), (date.month + 1 : Int), (date.day : Int)) ∧
      date.number = marchDays year + 60 + yday := by
  have mon : ((yday : Int) + 31) * 10 / 306 = ((yday + 31) * 10 / 306 : Nat) := by omega
  by_cases late : 306 ≤ yday
  · have table := month_table_late (isLeap (year + 1)) yday inYear late
    generalize (yday + 31) * 10 / 306 = month at mon table
    obtain ⟨least, most, begins, inside⟩ := table
    let date : Date := ⟨year + 1, month - 11, yday - marchMonthDays month + 1, by omega, by omega, inside⟩
    have isShift : Shifted date.year date.month year month := ⟨by omega, .inr ⟨Nat.sub_add_cancel least, by
      change month - 11 < 2
      omega, rfl⟩⟩
    have number := number_shifted isShift
    have cast := march_month_days_cast (le_trans (by decide) least)
    refine ⟨date, ?_, ?_⟩
    · rw [monthOf, mon, ← cast, if_pos (by omega)]
      simp only [Prod.mk.injEq]
      refine ⟨rfl, ?_, ?_⟩
      · change _ = ((month - 11 : Nat) : Int) + 1
        omega
      · change _ = ((yday - marchMonthDays month + 1 : Nat) : Int)
        omega
    · rw [number]
      change marchDays year + 60 + marchMonthDays month + (yday - marchMonthDays month + 1 - 1) = _
      omega
  · have early : yday < 306 := Nat.lt_of_not_le late
    have table := month_table_early (isLeap year) yday early
    generalize (yday + 31) * 10 / 306 = month at mon table
    obtain ⟨least, most, begins, inside⟩ := table
    let date : Date := ⟨year, month + 1, yday - marchMonthDays month + 1, most, by omega, inside⟩
    have isShift : Shifted date.year date.month year month := ⟨least, .inl ⟨rfl, rfl⟩⟩
    have number := number_shifted isShift
    have cast := march_month_days_cast least
    refine ⟨date, ?_, ?_⟩
    · rw [monthOf, mon, ← cast, if_neg (by omega)]
      simp only [Prod.mk.injEq]
      refine ⟨rfl, ?_, ?_⟩
      · change _ = ((month + 1 : Nat) : Int) + 1
        omega
      · change _ = ((yday - marchMonthDays month + 1 : Nat) : Int)
        omega
    · rw [number]
      change marchDays year + 60 + marchMonthDays month + (yday - marchMonthDays month + 1 - 1) = _
      omega

theorem signed_small (small : value < 2 ^ 31) : signedType 32 (value : Int) = value := by
  rw [signedType]
  apply Int.bmod_eq_of_le
  · omega
  · omega

theorem unsigned_small (small : value < 2 ^ 64) : unsignedType 64 (value : Int) = value := by
  rw [unsignedType]
  omega

def DayOf (date : Date) (seconds : Nat) : Prop := date.number = epoch.number + seconds / 86400

variable {date : Date}

theorem day_of_year (isDay : DayOf date seconds) (small : seconds < 253402300800) :
    1970 ≤ date.year ∧ date.year < 10000 := by
  rw [DayOf, epoch_number] at isDay
  constructor
  · by_contra early
    have before := @number_year_lt epoch date (Nat.lt_of_not_le early)
    rw [epoch_number] at before
    omega
  · by_contra late
    have eq := days_before_year_eq date.year
    rw [Date.number] at isDay
    omega

theorem weekday_eq (isDay : DayOf date seconds) :
    date.weekday = (4 + seconds / 86400) % 7 := by
  rw [DayOf, epoch_number] at isDay
  rw [Date.weekday, isDay]
  omega

def tmOf (date : Date) (hour min sec : Nat) : Tm where
  sec := sec
  min := min
  hour := hour
  mday := date.day
  mon := date.month + 1
  year := date.year
  wday := date.weekday

theorem gmtime_date (seconds : Nat) (small : seconds < 253402300800) : ∃ date : Date, DayOf date seconds ∧
    ngxGmtime seconds = tmOf date (seconds % 86400 / 3600) (seconds % 86400 % 3600 / 60)
      (seconds % 86400 % 3600 % 60) := by
  obtain ⟨year, yday, isYear, split, inYear⟩ := march_year_eq (seconds / 86400 + 719468)
  obtain ⟨date, isMonth, number⟩ := month_of_date year yday inYear
  have isDay : DayOf date seconds := by
    rw [DayOf, number, epoch_number]
    omega
  have years := day_of_year isDay small
  have dayBound : date.day ≤ 31 := by
    have lengths : ∀ leap, ∀ month < 12, monthLength leap month ≤ 31 := by decide
    exact le_trans date.day_bound (lengths _ _ date.month_bound)
  have monthBound := date.month_bound
  have weekday := weekday_eq isDay
  have days : ((seconds : Int) / 86400 - (31 + 28) + 719527) = (seconds / 86400 + 719468 : Nat) := by omega
  refine ⟨date, isDay, ?_⟩
  rw [ngxGmtime, unsigned_small (by omega)]
  dsimp only
  rw [days, isYear]
  rw [isMonth]
  have sec : (seconds : Int) % 86400 % 3600 % 60 = (seconds % 86400 % 3600 % 60 : Nat) := by omega
  have min : (seconds : Int) % 86400 % 3600 / 60 = (seconds % 86400 % 3600 / 60 : Nat) := by omega
  have hour : (seconds : Int) % 86400 / 3600 = (seconds % 86400 / 3600 : Nat) := by omega
  have mon : (date.month : Int) + 1 = (date.month + 1 : Nat) := by omega
  have wday : (4 + (seconds : Int) / 86400) % 7 = (date.weekday : Nat) := by omega
  rw [sec, min, hour, mon, wday]
  iterate 7 rw [signed_small (by omega)]
  rw [tmOf]
  rfl

/-- `%s`. -/
def stringConversion : Conversion where
  digits := []
  flags := []
  point := none
  letter := 's'.toUInt8
  digits_plain := NginxSprintfBound.nothing_plain
  point_plain := NginxSprintfBound.nothing_plain
  letter_ends := by decide
  letter_inside := by decide

/-- `%4d`. -/
def fourConversion : Conversion where
  digits := ['4'.toUInt8]
  flags := []
  point := none
  letter := 'd'.toUInt8
  digits_plain := by decide +kernel
  point_plain := NginxSprintfBound.nothing_plain
  letter_ends := NginxSprintfBound.twoDigits.letter_ends
  letter_inside := NginxSprintfBound.twoDigits.letter_inside

theorem converts_string {text : Bytes} (noNul : 0 ∉ text) :
    Converts stringConversion.spec stringConversion.letter [.chars (text ++ [0])] text :=
  .terminated text [] rfl noNul

theorem two_number_text : ∀ value < 100,
    numberText (NginxSprintfBound.twoDigits.spec.eitherNumber 32 (value : Nat)) = twoText value := by
  decide

theorem converts_two (small : value < 100) :
    Converts NginxSprintfBound.twoDigits.spec NginxSprintfBound.twoDigits.letter
      [.integer value] (twoText value) := by
  have isNumber := Converts.number NginxSprintfBound.twoDigits.letter
    (NginxSprintfBound.twoDigits.spec.eitherNumber 32) value (by decide) rfl
  rw [two_number_text value small] at isNumber
  exact isNumber

section

variable {value : Nat} (least : 1000 ≤ value) (small : value < 10000)
include least small

theorem digits_of_four : digitsOf value 0 = fourText value := by
  have first : ¬ value / 10 = 0 := by omega
  have second : ¬ value / 10 / 10 = 0 := by omega
  have third : ¬ value / 10 / 10 / 10 = 0 := by omega
  have fourth : value / 10 / 10 / 10 / 10 = 0 := by omega
  have hundreds : value / 10 / 10 = value / 100 := by omega
  have thousands : value / 10 / 10 / 10 % 10 = value / 1000 := by omega
  change PositionalText.numeral 10 decimalDigit (16 + 4) value = _
  rw [PositionalText.numeral, if_neg first, PositionalText.numeral, if_neg second, PositionalText.numeral,
    if_neg third, PositionalText.numeral, if_pos fourth, thousands, hundreds]
  rfl

theorem four_number_text :
    numberText (fourConversion.spec.eitherNumber 32 (value : Nat)) = fourText value := by
  have isSigned : fourConversion.spec.sign = true := rfl
  have isNumber : fourConversion.spec.eitherNumber 32 (value : Nat) = ⟨fourConversion.spec, value, 0⟩ := by
    rw [Spec.eitherNumber, if_pos isSigned, signed_small (by omega)]
  have natural : ¬ (value : Int) < 0 := by omega
  have text : numText value ' '.toUInt8 0 4 = fourText value := by
    rw [numText, digits_of_four least small]
    rfl
  rw [isNumber, numberText, if_pos isSigned, if_neg natural, Int.toNat_natCast]
  exact text

theorem converts_four :
    Converts fourConversion.spec fourConversion.letter [.integer value] (fourText value) := by
  have isNumber := Converts.number fourConversion.letter (fourConversion.spec.eitherNumber 32) value
    (by decide) rfl
  rw [four_number_text least small] at isNumber
  exact isNumber

end

/-- What stands between the day of the week and the day of the month. -/
def comma : Bytes := [','.toUInt8, ' '.toUInt8]

def space : Bytes := [' '.toUInt8]

def colon : Bytes := [':'.toUInt8]

def zone : Bytes := [' '.toUInt8, 'G'.toUInt8, 'M'.toUInt8, 'T'.toUInt8]

def httpTimeText (day month : Bytes) (mday year hour min sec : Nat) : Bytes :=
  day ++ (comma ++ (twoText mday ++ (space ++ (month ++ (space ++ (fourText year ++ (space ++
    (twoText hour ++ (colon ++ (twoText min ++ (colon ++ (twoText sec ++ (zone ++ [])))))))))))))

theorem http_time_format : httpTimeFormat = '%'.toUInt8 :: (stringConversion.bytes ++ (comma ++
    '%'.toUInt8 :: (NginxSprintfBound.twoDigits.bytes ++ (space ++
    '%'.toUInt8 :: (stringConversion.bytes ++ (space ++ '%'.toUInt8 :: (fourConversion.bytes ++ (space ++
    '%'.toUInt8 :: (NginxSprintfBound.twoDigits.bytes ++ (colon ++
    '%'.toUInt8 :: (NginxSprintfBound.twoDigits.bytes ++ (colon ++
    '%'.toUInt8 :: (NginxSprintfBound.twoDigits.bytes ++ (zone ++ [0])))))))))))))) := by
  decide

theorem formats_http_time {mday year : Nat} (noNulDay : 0 ∉ day)
    (noNulMonth : 0 ∉ month) (isDay : mday < 100) (least : 1000 ≤ year)
    (isYear : year < 10000) (isHour : hour < 100)
    (isMin : min < 100) (isSec : sec < 100) :
    Formats httpTimeFormat [.chars (day ++ [0]), .integer mday, .chars (month ++ [0]),
      .integer year, .integer hour,
      .integer min, .integer sec] (httpTimeText day month mday year hour min sec) := by
  have plainComma : ∀ c ∈ comma, c ≠ 0 ∧ c ≠ '%'.toUInt8 := by decide +kernel
  have plainSpace : ∀ c ∈ space, c ≠ 0 ∧ c ≠ '%'.toUInt8 := by decide +kernel
  have plainColon : ∀ c ∈ colon, c ≠ 0 ∧ c ≠ '%'.toUInt8 := by decide +kernel
  have plainZone : ∀ c ∈ zone, c ≠ 0 ∧ c ≠ '%'.toUInt8 := by decide +kernel
  rw [http_time_format]
  apply Formats.conversion stringConversion (converts_string noNulDay)
  apply formats_plain plainComma
  apply Formats.conversion NginxSprintfBound.twoDigits (converts_two isDay)
  apply formats_plain plainSpace
  apply Formats.conversion stringConversion (converts_string noNulMonth)
  apply formats_plain plainSpace
  apply Formats.conversion fourConversion (converts_four least isYear)
  apply formats_plain plainSpace
  apply Formats.conversion NginxSprintfBound.twoDigits (converts_two isHour)
  apply formats_plain plainColon
  apply Formats.conversion NginxSprintfBound.twoDigits (converts_two isMin)
  apply formats_plain plainColon
  apply Formats.conversion NginxSprintfBound.twoDigits (converts_two isSec)
  apply formats_plain plainZone
  exact Formats.stop [] []

/-- The names in the tables of the days and the months, without their NUL. -/
def dayNames : List Bytes :=
  [['S', 'u', 'n'], ['M', 'o', 'n'], ['T', 'u', 'e'], ['W', 'e', 'd'], ['T', 'h', 'u'], ['F', 'r', 'i'],
    ['S', 'a', 't']].map (List.map Char.toUInt8)

def monthNames : List Bytes :=
  [['J', 'a', 'n'], ['F', 'e', 'b'], ['M', 'a', 'r'], ['A', 'p', 'r'], ['M', 'a', 'y'],
    ['J', 'u', 'n'], ['J', 'u', 'l'],
    ['A', 'u', 'g'], ['S', 'e', 'p'], ['O', 'c', 't'], ['N', 'o', 'v'], ['D', 'e', 'c']].map
      (List.map Char.toUInt8)

theorem week_eq : week = dayNames.map (· ++ [0]) := by decide

theorem months_eq : months = monthNames.map (· ++ [0]) := by decide

def dayNameOf (wday : Nat) : Bytes := dayNames.getD wday []

def monthNameOf (month : Nat) : Bytes := monthNames.getD month []

theorem table_name {names : List Bytes} {index : Nat} (bound : index < names.length) :
    tableAt (names.map (· ++ [0])) (index : Nat) = some (names.getD index [] ++ [0]) := by
  rw [tableAt, if_pos (Int.natCast_nonneg index), Int.toNat_natCast, getElem?_map, getElem?_eq_getElem bound,
    getD_eq_getElem _ _ bound]
  rfl

theorem names_plain : ∀ name ∈ dayNames ++ monthNames, name.length = 3 ∧
    ∀ c ∈ name, c ≠ 0 ∧ c ≠ ','.toUInt8 ∧
    c ≠ ' '.toUInt8 := by
  decide +kernel

theorem day_name_mem {wday : Nat} (bound : wday < 7) : dayNameOf wday ∈ dayNames ++ monthNames := by
  have inside : wday < dayNames.length := bound
  rw [dayNameOf, getD_eq_getElem _ _ inside]
  exact mem_append_left _ (getElem_mem inside)

theorem month_name_mem {month : Nat} (bound : month < 12) : monthNameOf month ∈ dayNames ++ monthNames := by
  have inside : month < monthNames.length := bound
  rw [monthNameOf, getD_eq_getElem _ _ inside]
  exact mem_append_right _ (getElem_mem inside)

theorem name_without_nul {name : Bytes} (isName : name ∈ dayNames ++ monthNames) : 0 ∉ name :=
  fun mem => ((names_plain name isName).2 0 mem).1 rfl

theorem month_name (month : Nat) (bound : month < 12) : MonthName month (monthNameOf month) := by
  match month, bound with
  | 0, _ => exact .january 'n'.toUInt8
  | 1, _ => exact .february 'e'.toUInt8 'b'.toUInt8
  | 2, _ => exact .march 'a'.toUInt8
  | 3, _ => exact .april 'r'.toUInt8
  | 4, _ => exact .may 'a'.toUInt8 'y'.toUInt8 (by decide)
  | 5, _ => exact .june 'u'.toUInt8 (by decide)
  | 6, _ => exact .july 'u'.toUInt8 'l'.toUInt8 (by decide) (by decide)
  | 7, _ => exact .august 'u'.toUInt8 'g'.toUInt8 (by decide)
  | 8, _ => exact .september 'e'.toUInt8 'p'.toUInt8
  | 9, _ => exact .october 'c'.toUInt8 't'.toUInt8
  | 10, _ => exact .november 'o'.toUInt8 'v'.toUInt8
  | 11, _ => exact .december 'e'.toUInt8 'c'.toUInt8

theorem http_time_text_date {fields : Fields} {wday : Nat} (isDay : wday < 7) (isMonth : fields.month < 12)
    (isMday : fields.day < 100) (isYear : fields.year < 10000) (isTime : TwoPlaces fields) :
    HttpDate fields (httpTimeText (dayNameOf wday)
      (monthNameOf fields.month) fields.day fields.year fields.hour
      fields.min fields.sec) := by
  have split : httpTimeText (dayNameOf wday) (monthNameOf fields.month) fields.day fields.year fields.hour
      fields.min fields.sec = dayNameOf wday ++ ','.toUInt8 :: ([' '.toUInt8] ++ ((twoText fields.day ++
        ' '.toUInt8 :: (monthNameOf fields.month ++ ' '.toUInt8 ::
          (fourText fields.year ++ timeText fields))) ++
          zone)) := by
    simp [httpTimeText, comma, space, colon, timeText, clockText]
  rw [split]
  have plain := (names_plain _ (day_name_mem isDay)).2
  exact .intro _ _ _ .rfc822 _ _ (fun c mem => (plain c mem).2) (.inl ⟨rfl, by decide⟩) (by simp)
    (.rfc822 _ (month_name _ isMonth) isMday isYear isTime)

theorem http_time_text_length (isDay : day.length = 3) (isMonth : month.length = 3)
    (mday year hour min sec : Nat) : (httpTimeText day month mday year hour min sec).length = 29 := by
  simp [httpTimeText, isDay, isMonth, comma, space, colon, zone, twoText, fourText]

theorem http_time_written {t : Int} (isTm : ngxGmtime t = tmOf date hour min sec)
    (years : 1970 ≤ date.year ∧ date.year < 10000) (isDay : date.day < 100)
    (isHour : hour < 24) (isMin : min < 60)
    (isSec : sec < 60) {buf : Nat} (room : buf + 29 ≤ sizeMax) :
    ngxHttpTime buf t = some
      (httpTimeText (dayNameOf date.weekday) (monthNameOf date.month) date.day date.year hour
      min sec, buf + 29) := by
  have weekdayBound : date.weekday < 7 := Nat.mod_lt _ (by decide)
  have monthBound := date.month_bound
  have dayName := day_name_mem weekdayBound
  have monthName := month_name_mem monthBound
  have formats := formats_http_time (name_without_nul dayName) (name_without_nul monthName) isDay
    (le_trans (by decide) years.1) years.2 (lt_trans isHour (by decide)) (lt_trans isMin (by decide))
    (lt_trans isSec (by decide))
  have length := http_time_text_length (names_plain _ dayName).1 (names_plain _ monthName).1
    date.day date.year hour min sec
  have written := @sprintf_text _ _ _ formats buf (by rw [length]; exact room)
  have dayEntry : tableAt week (date.weekday : Nat) = some (dayNameOf date.weekday ++ [0]) := by
    rw [week_eq]
    exact table_name weekdayBound
  have monthEntry : tableAt months (date.month : Nat) = some (monthNameOf date.month ++ [0]) := by
    rw [months_eq]
    exact table_name monthBound
  have index : ((date.month : Int) + 1 - 1) = (date.month : Nat) := by omega
  rw [length] at written
  rw [ngxHttpTime, isTm, tmOf]
  rw [dayEntry, index, monthEntry]
  exact written

/-- The broken-down time is that of the calendar, and the text is read back. -/
theorem http_time_round_trip (t : Int) (least : 0 ≤ t) (small : t < 253402300800) (buf : Nat)
    (room : buf + 29 ≤ sizeMax) :
    (∃ date : Date, ∃ hour < 24, ∃ min < 60, ∃ sec < 60, t = secondsOf date hour min sec ∧
      ngxGmtime t = tmOf date hour min sec) ∧
      ∃ text, ngxHttpTime buf t = some (text, buf + 29) ∧ ngxParseHttpTime text = some t := by
  obtain ⟨seconds, isSeconds⟩ := Int.eq_ofNat_of_zero_le least
  rw [isSeconds] at small ⊢
  have bound : seconds < 253402300800 := by omega
  obtain ⟨date, isDay, isTm⟩ := gmtime_date seconds bound
  have years := day_of_year isDay bound
  have isHour : seconds % 86400 / 3600 < 24 := by omega
  have isMin : seconds % 86400 % 3600 / 60 < 60 := by omega
  have isSec : seconds % 86400 % 3600 % 60 < 60 := by omega
  have isTime : (seconds : Int) = secondsOf date (seconds % 86400 / 3600) (seconds % 86400 % 3600 / 60)
      (seconds % 86400 % 3600 % 60) := by
    rw [secondsOf, isDay]
    omega
  generalize seconds % 86400 / 3600 = hour at isTm isHour isTime
  generalize seconds % 86400 % 3600 / 60 = min at isTm isMin isTime
  generalize seconds % 86400 % 3600 % 60 = sec at isTm isSec isTime
  have lengths : ∀ leap, ∀ month < 12, monthLength leap month < 100 := by decide
  have dayBound : date.day < 100 := lt_of_le_of_lt date.day_bound (lengths _ _ date.month_bound)
  refine ⟨⟨date, hour, isHour, min, isMin, sec, isSec, isTime, isTm⟩, _,
    http_time_written isTm years dayBound isHour isMin isSec room, ?_⟩
  let fields : Fields := ⟨date.day, date.month, date.year, hour, min, sec⟩
  have isDate := @http_time_text_date fields _ (Nat.mod_lt _ (by decide) : date.weekday < 7) date.month_bound
    dayBound years.2 ⟨lt_trans isHour (by decide), lt_trans isMin (by decide), lt_trans isSec (by decide)⟩
  have isRange : inRange fields = true :=
    (in_range_iff date.month_bound).mpr ⟨isHour, isMin, isSec, date.day_bound⟩
  have regular : ¬ (fields.year = 0 ∧ fields.month < 2) := by
    intro both
    have isZero : date.year = 0 := both.1
    omega
  have result := inside_and_time isDate isRange
  rw [returned_date date rfl rfl rfl years.2 regular isRange] at result
  exact result.trans (congrArg some isTime.symm)

theorem http_time_billion :
    (∃ date : Date, ∃ hour < 24, ∃ min < 60, ∃ sec < 60, 1000000000 = secondsOf date hour min sec ∧
      ngxGmtime 1000000000 = tmOf date hour min sec) ∧
      ∃ text, ngxHttpTime 4096 1000000000 = some (text, 4125) ∧ ngxParseHttpTime text = some 1000000000 :=
  http_time_round_trip 1000000000 (by decide) (by decide) 4096 (by decide)

end ServerCore.NginxHttpTimeRoundTrip
