import Mathlib.Algebra.Order.Group.Nat
import Mathlib.Data.Int.Basic

/-!
# The Gregorian calendar

The days are counted from the first of January of the year zero, by the lengths
of the years and of the months. In a year that begins with March the leap day
comes last, and the number of a day has a closed form.
-/

namespace ServerCore.GregorianCalendar

variable {year month : Nat} {later date : Date}

def isLeap (year : Nat) : Bool := year % 4 == 0 && (year % 100 != 0 || year % 400 == 0)

def yearLength (leap : Bool) : Nat := if leap then 366 else 365

def monthLength (leap : Bool) (month : Nat) : Nat :=
  if month = 1 then if leap then 29 else 28
  else [31, 28, 31, 30, 31, 30, 31, 31, 30, 31, 30, 31].getD month 0

def daysBeforeYear : Nat → Nat
  | 0 => 0
  | year + 1 => daysBeforeYear year + yearLength (isLeap year)

def daysBeforeMonth (leap : Bool) : Nat → Nat
  | 0 => 0
  | month + 1 => daysBeforeMonth leap month + monthLength leap month

@[ext]
structure Date where
  year : Nat
  month : Nat
  day : Nat
  month_bound : month < 12
  day_positive : 1 ≤ day
  day_bound : day ≤ monthLength (isLeap year) month

def Date.number (date : Date) : Nat :=
  daysBeforeYear date.year + daysBeforeMonth (isLeap date.year) date.month + (date.day - 1)

/-- The days of the week from Sunday on. The first of January of the year zero was a Saturday. -/
def Date.weekday (date : Date) : Nat := (date.number + 6) % 7

theorem is_leap_iff (year : Nat) : isLeap year = true ↔ year % 4 = 0 ∧
    (year % 100 ≠ 0 ∨ year % 400 = 0) := by
  simp [isLeap]

theorem year_length_eq (year : Nat) :
    yearLength (isLeap year) = 365 + if year % 4 = 0 ∧ (year % 100 ≠ 0 ∨ year % 400 = 0) then 1 else 0 := by
  rw [yearLength, if_congr (is_leap_iff year) rfl rfl]
  split_ifs <;> rfl

theorem days_before_year_mono {later : Nat} (earlier : year < later) :
    daysBeforeYear year + yearLength (isLeap year) ≤ daysBeforeYear later := by
  induction earlier with
  | refl => exact le_rfl
  | step earlier ih => exact le_trans ih (Nat.le_add_right _ _)

theorem days_before_month_le : ∀ leap, ∀ month < 12,
    daysBeforeMonth leap month + monthLength leap month ≤ yearLength leap := by
  decide

theorem days_before_month_mono : ∀ leap, ∀ later < 12, ∀ month < later,
    daysBeforeMonth leap month + monthLength leap month ≤ daysBeforeMonth leap later := by
  decide

theorem number_lt (date : Date) :
    date.number < daysBeforeYear date.year + daysBeforeMonth (isLeap date.year) date.month +
      monthLength (isLeap date.year) date.month := by
  have pos := date.day_positive
  have bound := date.day_bound
  rw [Date.number]
  omega

theorem number_year_lt (earlier : date.year < later.year) : date.number < later.number := by
  have upper := number_lt date
  have inside := days_before_month_le (isLeap date.year) date.month date.month_bound
  have lower := days_before_year_mono earlier
  rw [Date.number.eq_def later]
  omega

theorem number_month_lt (sameYear : date.year = later.year) (earlier : date.month < later.month) :
    date.number < later.number := by
  have upper := number_lt date
  have inside := days_before_month_mono (isLeap date.year) later.month later.month_bound date.month earlier
  rw [sameYear] at upper inside
  rw [Date.number.eq_def later]
  omega

theorem number_injective {first second : Date} (same : first.number = second.number) : first = second := by
  have sameYear : first.year = second.year := by
    rcases lt_trichotomy first.year second.year with earlier | equal | later
    · exact absurd same (ne_of_lt (number_year_lt earlier))
    · exact equal
    · exact absurd same.symm (ne_of_lt (number_year_lt later))
  have sameMonth : first.month = second.month := by
    rcases lt_trichotomy first.month second.month with earlier | equal | later
    · exact absurd same (ne_of_lt (number_month_lt sameYear earlier))
    · exact equal
    · exact absurd same.symm (ne_of_lt (number_month_lt sameYear.symm later))
  have pos := first.day_positive
  have positive' := second.day_positive
  rw [Date.number, Date.number, sameYear, sameMonth] at same
  exact Date.ext sameYear sameMonth (by omega)

/-- The days between the first of March of the year zero and of this year. -/
def marchDays (year : Nat) : Nat := 365 * year + year / 4 + year / 400 - year / 100

/-- The days before a month in a year that begins with March, which has the number one. -/
def marchMonthDays (month : Nat) : Nat := 367 * month / 12 - 30

theorem days_before_year_eq (year : Nat) :
    daysBeforeYear year + (year + 99) / 100 = 365 * year + (year + 3) / 4 + (year + 399) / 400 := by
  induction year with
  | zero => rfl
  | succ year ih =>
    rw [daysBeforeYear, year_length_eq]
    split_ifs with leap
    · omega
    · omega

theorem march_days_add (year : Nat) : marchDays year + year / 100 = 365 * year + year / 4 + year / 400 := by
  have small : year / 100 ≤ year := Nat.div_le_self year 100
  rw [marchDays]
  omega

theorem february_end : ∀ leap, daysBeforeMonth leap 2 + 306 = yearLength leap := by
  decide

theorem round_up : (year + 3) / 4 = year / 4 + (if year % 4 = 0 then 0 else 1) ∧
    (year + 99) / 100 = year / 100 + (if year % 100 = 0 then 0 else 1) ∧
      (year + 399) / 400 = year / 400 + (if year % 400 = 0 then 0 else 1) := by
  refine ⟨?_, ?_, ?_⟩
  · split_ifs <;> omega
  · split_ifs <;> omega
  · split_ifs <;> omega

theorem days_before_march (year : Nat) :
    daysBeforeYear year + daysBeforeMonth (isLeap year) 2 = marchDays year + 60 := by
  have before := days_before_year_eq year
  have march := march_days_add year
  have february := february_end (isLeap year)
  have centuries : year % 400 = 0 → year % 100 = 0 := by omega
  have fourth : year % 100 = 0 → year % 4 = 0 := by omega
  rw [year_length_eq] at february
  rw [(round_up).1, (round_up).2.1, (round_up).2.2] at before
  generalize daysBeforeMonth (isLeap year) 2 = days at february ⊢
  by_cases by4 : year % 4 = 0
  · by_cases by100 : year % 100 = 0
    · by_cases by400 : year % 400 = 0
      · simp [by4, by100, by400] at before february
        omega
      · simp [by4, by100, by400] at before february
        omega
    · have by400 : year % 400 ≠ 0 := fun whole => by100 (centuries whole)
      simp [by4, by100, by400] at before february
      omega
  · have by100 : year % 100 ≠ 0 := fun whole => by4 (fourth whole)
    have by400 : year % 400 ≠ 0 := fun whole => by100 (centuries whole)
    simp [by4, by100, by400] at before february
    omega

theorem months_from_march : ∀ leap, ∀ month < 12, 2 ≤ month →
    daysBeforeMonth leap month = daysBeforeMonth leap 2 + marchMonthDays (month - 1) := by
  decide

theorem march_days_succ (year : Nat) : daysBeforeYear (year + 1) = marchDays year + 366 := by
  have before := days_before_year_eq (year + 1)
  have march := march_days_add year
  omega

theorem months_before_march : ∀ leap, ∀ month < 2,
    daysBeforeMonth leap month + 306 = marchMonthDays (month + 11) := by
  decide

theorem number_from_march (late : 2 ≤ date.month) :
    date.number = marchDays date.year + 60 + marchMonthDays (date.month - 1) + (date.day - 1) := by
  rw [Date.number, months_from_march _ _ date.month_bound late, ← days_before_march]
  omega

theorem number_before_march (date : Date) (year : Nat) (isYear : date.year = year + 1)
    (early : date.month < 2) :
    date.number = marchDays year + 60 + marchMonthDays (date.month + 11) + (date.day - 1) := by
  have months := months_before_march (isLeap date.year) date.month early
  rw [Date.number, ← months, isYear, march_days_succ]
  omega

def Shifted (year month marchYear marchMonth : Nat) : Prop :=
  1 ≤ marchMonth ∧ ((month = marchMonth + 1 ∧ year = marchYear) ∨
    (month + 11 = marchMonth ∧ month < 2 ∧ year = marchYear + 1))

theorem exists_shifted (regular : ¬ (year = 0 ∧ month < 2)) :
    ∃ marchYear marchMonth, Shifted year month marchYear marchMonth := by
  by_cases early : month < 2
  · exact ⟨year - 1, month + 11, by omega, .inr ⟨rfl, early, by omega⟩⟩
  · exact ⟨year, month - 1, by omega, .inl ⟨by omega, rfl⟩⟩

theorem number_shifted (isShift : Shifted date.year date.month year month) :
    date.number = marchDays year + 60 + marchMonthDays month + (date.day - 1) := by
  obtain ⟨pos, ⟨isMonth, isYear⟩ | ⟨isMonth, early, isYear⟩⟩ := isShift
  · rw [number_from_march (by omega), isYear, isMonth, Nat.add_sub_cancel]
  · rw [number_before_march date year isYear early, isMonth]

theorem march_days_step (year : Nat) :
    marchDays (year + 1) = marchDays year + yearLength (isLeap (year + 1)) := by
  have before := days_before_march (year + 1)
  have february := february_end (isLeap (year + 1))
  rw [march_days_succ] at before
  omega

end ServerCore.GregorianCalendar
