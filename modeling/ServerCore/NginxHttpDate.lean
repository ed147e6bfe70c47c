import Mathlib.Data.List.TakeWhile
import ServerCore.ByteTable
import ServerCore.NginxParseHttpTime

/-!
# The texts that are read as a date of HTTP

The three formats are described by the texts of their numbers and of the names
of the months. These are exactly the texts that the code does not refuse for
their form, and it reads no byte behind the value.
-/

namespace ServerCore.NginxHttpDate

open ExactReader
open NginxNumbers (Byte Bytes isDigit)
open NginxParseHttpTime List

variable {rest space more weekday : Bytes} {c : Byte}

def digitByte (value : Nat) : Byte := (value + '0'.toNat).toUInt8

def twoText (value : Nat) : Bytes := [digitByte (value / 10), digitByte (value % 10)]

def fourText (value : Nat) : Bytes :=
  [digitByte (value / 1000), digitByte (value / 100 % 10),
    digitByte (value / 10 % 10), digitByte (value % 10)]

inductive MonthName : Nat → Bytes → Prop where
  | january (c2 : Byte) : MonthName 0 ['J'.toUInt8, 'a'.toUInt8, c2]
  | february (c1 c2 : Byte) : MonthName 1 ['F'.toUInt8, c1, c2]
  | march (c1 : Byte) : MonthName 2 ['M'.toUInt8, c1, 'r'.toUInt8]
  | april (c2 : Byte) : MonthName 3 ['A'.toUInt8, 'p'.toUInt8, c2]
  | may (c1 c2 : Byte) : c2 ≠ 'r'.toUInt8 → MonthName 4 ['M'.toUInt8, c1, c2]
  | june (c1 : Byte) : c1 ≠ 'a'.toUInt8 → MonthName 5 ['J'.toUInt8, c1, 'n'.toUInt8]
  | july (c1 c2 : Byte) : c1 ≠ 'a'.toUInt8 → c2 ≠ 'n'.toUInt8 → MonthName 6 ['J'.toUInt8, c1, c2]
  | august (c1 c2 : Byte) : c1 ≠ 'p'.toUInt8 → MonthName 7 ['A'.toUInt8, c1, c2]
  | september (c1 c2 : Byte) : MonthName 8 ['S'.toUInt8, c1, c2]
  | october (c1 c2 : Byte) : MonthName 9 ['O'.toUInt8, c1, c2]
  | november (c1 c2 : Byte) : MonthName 10 ['N'.toUInt8, c1, c2]
  | december (c1 c2 : Byte) : MonthName 11 ['D'.toUInt8, c1, c2]

variable {cond : Bool} {c : Byte} {fmt found : Fmt} {rest input name value text p : Bytes}
  {fields : Fields} {day month ignored : Nat}

theorem run_check (holds : cond = true) : (check cond).run p = .ok ((), p) := by
  rw [holds]
  rfl

theorem run_check_false (fails : cond = false) : (check cond).run p = .error .error := by
  rw [fails]
  rfl

theorem digit_byte_iff (c : Byte) : isDigit c = true ↔ ∃ value < 10, c = digitByte value := by
  revert c
  exact ByteTable.forall_byte (by decide)

theorem digit_byte_value : ∀ value < 10, isDigit (digitByte value) = true ∧
    (digitByte value).toNat - '0'.toNat = value := by
  decide

theorem run_digit {value : Nat} (small : value < 10) :
    digit.run (digitByte value :: rest) = .ok (value, rest) := by
  have byte := digit_byte_value value small
  have byteRead : (byteAt 0).run (digitByte value :: rest) =
      .ok (digitByte value, digitByte value :: rest) := rfl
  rw [digit, run_bind_ok byteRead, run_bind_ok (run_check byte.1), byte.2]
  rfl

theorem reads_digit : Reads Stop.error digit 1 (fun value text => value < 10 ∧
    text = [digitByte value]) where
  short := by
    intro value text written
    rw [written.2]
    exact le_refl 1
  reads := by
    intro value text written rest
    rw [written.2]
    exact run_digit written.1
  refuses := by
    intro input enough
    cases input with
    | nil => cases enough
    | cons c rest =>
      by_cases isNumber : isDigit c = true
      · obtain ⟨value, small, same⟩ := (digit_byte_iff c).mp isNumber
        exact .inr ⟨value, [c], rest, ⟨small, by rw [same]⟩, rfl⟩
      · left
        have byteRead : (byteAt 0).run (c :: rest) = .ok (c, c :: rest) := rfl
        rw [digit, run_bind_ok byteRead,
          run_bind_error (run_check_false (Bool.eq_false_iff.mpr isNumber))]

theorem reads_expect : Reads Stop.error (expect c) 1 (fun _ text => text = [c]) where
  short := by
    intro value text written
    rw [written]
    exact le_refl 1
  reads := by
    intro value text written rest
    have byteRead : (byteAt 0).run (c :: rest) = .ok (c, c :: rest) := rfl
    rw [written, singleton_append, expect, run_bind_ok byteRead,
      run_bind_ok (run_check (beq_self_eq_true c))]
    rfl
  refuses := by
    intro input enough
    cases input with
    | nil => cases enough
    | cons first rest =>
      by_cases same : first = c
      · exact .inr ⟨(), [c], rest, rfl, by rw [same]; rfl⟩
      · left
        have byteRead : (byteAt 0).run (first :: rest) = .ok (first, first :: rest) := rfl
        rw [expect, run_bind_ok byteRead, run_bind_error (run_check_false (beq_false_of_ne same))]

theorem reads_two : Reads Stop.error twoDigits 2 (fun value text => value < 100 ∧
    text = twoText value) := by
  apply reads_congr _ (reads_bind reads_digit
    (fun tens => reads_bind reads_digit (fun ones => reads_pure (tens * 10 + ones))))
  intro value text
  constructor
  · intro written
    refine ⟨value / 10, [digitByte (value / 10)], [digitByte (value % 10)],
      ⟨by omega, rfl⟩, ?_, written.2⟩
    exact ⟨value % 10, [digitByte (value % 10)], [], ⟨by omega, rfl⟩, ⟨by omega, rfl⟩, rfl⟩
  · intro written
    obtain ⟨tens, front, _, isTens, ⟨ones, middle, back, isOnes, isValue, isBack⟩, isText⟩ := written
    have quotient : (tens * 10 + ones) / 10 = tens := by omega
    have remainder : (tens * 10 + ones) % 10 = ones := by omega
    rw [isText, isBack, isTens.2, isOnes.2, isValue.2, isValue.1, twoText, quotient, remainder]
    exact ⟨by omega, rfl⟩

theorem reads_four : Reads Stop.error fourDigits 4 (fun value text => value < 10000 ∧
    text = fourText value) := by
  apply reads_congr _ (reads_bind reads_digit
    (fun thousands => reads_bind reads_digit (fun hundreds =>
    reads_bind reads_digit (fun tens => reads_bind reads_digit (fun ones =>
      reads_pure (thousands * 1000 + hundreds * 100 + tens * 10 + ones))))))
  intro value text
  constructor
  · intro written
    refine ⟨value / 1000, [digitByte (value / 1000)], _, ⟨by omega, rfl⟩, ?_, written.2⟩
    refine ⟨value / 100 % 10, [digitByte (value / 100 % 10)], _, ⟨by omega, rfl⟩, ?_, rfl⟩
    refine ⟨value / 10 % 10, [digitByte (value / 10 % 10)], _, ⟨by omega, rfl⟩, ?_, rfl⟩
    exact ⟨value % 10, [digitByte (value % 10)], [], ⟨by omega, rfl⟩, ⟨by omega, rfl⟩, rfl⟩
  · intro written
    obtain ⟨thousands, front, _, isThousands,
        ⟨hundreds, second, _, isHundreds, ⟨tens, third, _, isTens,
      ⟨ones, fourth, back, isOnes, isValue, isBack⟩, isThird⟩, isSecond⟩, isText⟩ := written
    have place1 : (thousands * 1000 + hundreds * 100 + tens * 10 + ones) / 1000 = thousands :=
      by omega
    have place2 : (thousands * 1000 + hundreds * 100 + tens * 10 + ones) / 100 % 10 = hundreds :=
      by omega
    have place3 : (thousands * 1000 + hundreds * 100 + tens * 10 + ones) / 10 % 10 = tens := by omega
    have place4 : (thousands * 1000 + hundreds * 100 + tens * 10 + ones) % 10 = ones := by omega
    rw [isText, isSecond, isThird, isBack, isThousands.2, isHundreds.2, isTens.2,
      isOnes.2, isValue.2, isValue.1,
      fourText, place1, place2, place3, place4]
    exact ⟨by omega, rfl⟩

theorem run_month_j (c1 c2 : Byte) (rest : Bytes) :
    monthSwitch.run ('J'.toUInt8 :: c1 :: c2 :: rest) =
      .ok (if c1 = 'a'.toUInt8 then 0 else if c2 = 'n'.toUInt8 then 5 else 6,
        'J'.toUInt8 :: c1 :: c2 :: rest) := by
  change (if c1 = 'a'.toUInt8 then (return 0 : Read Nat) else do
    let c2 ← byteAt 2
    return if c2 = 'n'.toUInt8 then 5 else 6).run ('J'.toUInt8 :: c1 :: c2 :: rest) = _
  by_cases isA : c1 = 'a'.toUInt8
  · rw [if_pos isA, if_pos isA]
    rfl
  · rw [if_neg isA, if_neg isA]
    rfl

theorem run_month (isName : MonthName month name) :
    monthSwitch.run (name ++ rest) = .ok (month, name ++ rest) := by
  cases isName with
  | january c2 => rfl
  | february c1 c2 => rfl
  | march c1 => rfl
  | april c2 => rfl
  | may c1 c2 other =>
    change Except.ok ((if c2 = 'r'.toUInt8 then 2 else 4), _) = _
    rw [if_neg other]
  | june c1 other =>
    change monthSwitch.run ('J'.toUInt8 :: c1 :: 'n'.toUInt8 :: rest) = _
    rw [run_month_j, if_neg other]
    rfl
  | july c1 c2 other1 other2 =>
    change monthSwitch.run ('J'.toUInt8 :: c1 :: c2 :: rest) = _
    rw [run_month_j, if_neg other1, if_neg other2]
    rfl
  | august c1 c2 other =>
    change Except.ok ((if c1 = 'p'.toUInt8 then 3 else 7), _) = _
    rw [if_neg other]
  | september c1 c2 => rfl
  | october c1 c2 => rfl
  | november c1 c2 => rfl
  | december c1 c2 => rfl

def monthLetters : Bytes := ['J', 'F', 'M', 'A', 'S', 'O', 'N', 'D'].map Char.toUInt8

theorem month_letter (c : Byte) (isLetter : c ∈ monthLetters) : c = 'J'.toUInt8 ∨ c = 'F'.toUInt8 ∨
    c = 'M'.toUInt8 ∨ c = 'A'.toUInt8 ∨ c = 'S'.toUInt8 ∨ c = 'O'.toUInt8 ∨
    c = 'N'.toUInt8 ∨ c = 'D'.toUInt8 := by
  revert c
  exact ByteTable.forall_byte (by decide)

theorem month_of_letter (isLetter : c ∈ monthLetters) {c1 c2 : Byte} :
    ∃ month, MonthName month [c, c1, c2] := by
  have letters := month_letter c isLetter
  rcases letters with rfl | rfl | rfl | rfl | rfl | rfl | rfl | rfl
  · by_cases isA : c1 = 'a'.toUInt8
    · exact ⟨0, isA ▸ .january c2⟩
    · by_cases isN : c2 = 'n'.toUInt8
      · exact ⟨5, isN ▸ .june c1 isA⟩
      · exact ⟨6, .july c1 c2 isA isN⟩
  · exact ⟨1, .february c1 c2⟩
  · by_cases isR : c2 = 'r'.toUInt8
    · exact ⟨2, isR ▸ .march c1⟩
    · exact ⟨4, .may c1 c2 isR⟩
  · by_cases isP : c1 = 'p'.toUInt8
    · exact ⟨3, isP ▸ .april c2⟩
    · exact ⟨7, .august c1 c2 isP⟩
  · exact ⟨8, .september c1 c2⟩
  · exact ⟨9, .october c1 c2⟩
  · exact ⟨10, .november c1 c2⟩
  · exact ⟨11, .december c1 c2⟩

theorem month_refused (other : c ∉ monthLetters) :
    monthSwitch.run (c :: rest) = .error .error := by
  have others : ∀ d ∈ monthLetters, c ≠ d := fun d mem same => other (same ▸ mem)
  have byteRead : (byteAt 0).run (c :: rest) = .ok (c, c :: rest) := rfl
  rw [monthSwitch, run_bind_ok byteRead]
  iterate 8 rw [if_neg (others _ (by decide))]
  rfl

theorem month_name_length (isName : MonthName month name) : name.length = 3 := by
  cases isName <;> rfl

theorem month_name_bound (isName : MonthName month name) : month < 12 := by
  cases isName <;> decide

theorem reads_month : Reads Stop.error monthName 3 MonthName where
  short := fun isName => le_of_eq (month_name_length isName)
  reads := by
    intro month name isName rest
    have behind : (name ++ rest).drop 3 = rest := by
      rw [← month_name_length isName, drop_left]
    rw [monthName, run_bind_ok (run_month isName)]
    change Except.ok (month, (name ++ rest).drop 3) = _
    rw [behind]
  refuses := by
    intro input enough
    obtain ⟨c, c1, c2, rest, split⟩ : ∃ c c1 c2 rest, input = c :: c1 :: c2 :: rest := by
      match input, enough with
      | c :: c1 :: c2 :: rest, _ => exact ⟨c, c1, c2, rest, rfl⟩
    rw [split]
    by_cases isLetter : c ∈ monthLetters
    · obtain ⟨month, isName⟩ := month_of_letter isLetter
      exact .inr ⟨month, [c, c1, c2], rest, isName, rfl⟩
    · left
      rw [monthName, run_bind_error (month_refused isLetter)]

def clockText (hour min sec : Nat) : Bytes :=
  ' '.toUInt8 :: (twoText hour ++ ':'.toUInt8 :: (twoText min ++ ':'.toUInt8 :: twoText sec))

theorem reads_clock : Reads Stop.error clock 9 (fun time text =>
    (time.1 < 100 ∧ time.2.1 < 100 ∧ time.2.2 < 100) ∧
    text = clockText time.1 time.2.1 time.2.2) := by
  apply reads_congr _ (reads_bind reads_expect (fun _ => reads_bind reads_two (fun hour =>
    reads_bind reads_expect (fun _ => reads_bind reads_two (fun min =>
      reads_bind reads_expect
        (fun _ => reads_bind reads_two (fun sec => reads_pure (hour, min, sec))))))))
  intro time text
  constructor
  · intro written
    obtain ⟨hour, min, sec⟩ := time
    refine ⟨(), [' '.toUInt8], _, rfl, ?_, written.2⟩
    refine ⟨hour, twoText hour, _, ⟨written.1.1, rfl⟩, ?_, rfl⟩
    refine ⟨(), [':'.toUInt8], _, rfl, ?_, rfl⟩
    refine ⟨min, twoText min, _, ⟨written.1.2.1, rfl⟩, ?_, rfl⟩
    refine ⟨(), [':'.toUInt8], _, rfl, ?_, rfl⟩
    exact ⟨sec, twoText sec, [], ⟨written.1.2.2, rfl⟩, ⟨rfl, rfl⟩, (append_nil _).symm⟩
  · intro written
    obtain ⟨_, space, _, isSpace,
        ⟨hour, first, _, isHour, ⟨_, colon, _, isColon, ⟨min, second, _, isMin,
      ⟨_, colon', _, isColon', ⟨sec, third, _, isSec, isTime, isThird⟩, isFifth⟩, isFourth⟩,
      isSecond⟩, isFirst⟩,
      isText⟩ := written
    rw [isTime.1]
    refine ⟨⟨isHour.1, isMin.1, isSec.1⟩, ?_⟩
    rw [isText, isSpace, isFirst, isHour.2, isSecond, isColon, isFourth, isMin.2,
      isFifth, isColon', isThird,
      isSec.2, isTime.2, append_nil]
    rfl

def TwoPlaces (fields : Fields) : Prop := fields.hour < 100 ∧ fields.min < 100 ∧ fields.sec < 100

def timeText (fields : Fields) : Bytes := clockText fields.hour fields.min fields.sec

def fullYear (short : Nat) : Nat := short + if short < 70 then 2000 else 1900

def DayText (day : Nat) (text : Bytes) : Prop :=
  (day < 10 ∧ text = [digitByte day]) ∨ (day < 100 ∧ text = twoText day)

/-- The text behind the day of the week. In the last format one byte behind the month is not looked at. -/
inductive DateText (fields : Fields) : Fmt → Bytes → Prop where
  | rfc822 (name : Bytes) : MonthName fields.month name → fields.day < 100 → fields.year < 10000 →
      TwoPlaces fields →
      DateText fields .rfc822
        (twoText fields.day ++ ' '.toUInt8 ::
          (name ++ ' '.toUInt8 :: (fourText fields.year ++ timeText fields)))
  | rfc850 (name : Bytes) (short : Nat) : MonthName fields.month name →
      fields.day < 100 → short < 100 →
      fields.year = fullYear short → TwoPlaces fields →
      DateText fields .rfc850
        (twoText fields.day ++ '-'.toUInt8 ::
          (name ++ '-'.toUInt8 :: (twoText short ++ timeText fields)))
  | isoc (name : Bytes) (c : Byte) (space day : Bytes) : MonthName fields.month name →
      (space = [] ∨ space = [' '.toUInt8]) → DayText fields.day day →
      fields.year < 10000 → TwoPlaces fields →
      DateText fields .isoc
        (name ++ c :: (space ++ (day ++ (timeText fields ++ ' '.toUInt8 :: fourText fields.year))))

theorem reads_short_year : Reads Stop.error (yearMiddle .rfc850 2038) 2 (fun year text =>
    ∃ short < 100, year = fullYear short ∧ text = twoText short) := by
  apply reads_congr _ (reads_bind reads_two (fun short => reads_pure (fullYear short)))
  intro year text
  constructor
  · intro written
    obtain ⟨short, small, isYear, isText⟩ := written
    exact ⟨short, text, [], ⟨small, isText⟩, ⟨isYear, rfl⟩, (append_nil _).symm⟩
  · intro written
    obtain ⟨short, front, back, isShort, isYear, isText⟩ := written
    exact ⟨short, isShort.1, isYear.1, by rw [isText, isShort.2, isYear.2, append_nil]⟩

theorem reads_rest {sep : Byte} {size day : Nat} {WrittenYear : Nat → Bytes → Prop}
    (isBehind : behindMonth fmt = expect sep)
    (readsYear : Reads Stop.error (yearMiddle fmt 2038) size WrittenYear)
    (isDay : dayMiddle fmt day = pure day) (isLast : ∀ year, yearLast fmt year = pure year) :
    Reads Stop.error (readRest fmt day) (3 + (1 + (size + 9))) (fun fields text =>
      fields.day = day ∧ TwoPlaces fields ∧ ∃ name year, MonthName fields.month name ∧
        WrittenYear fields.year year ∧ text = name ++ sep :: (year ++ timeText fields)) := by
  rw [readRest, isBehind, isDay]
  simp only [isLast]
  apply reads_congr _ (reads_bind reads_month (fun month => reads_bind reads_expect (fun _ =>
    reads_bind readsYear
      (fun year => reads_bind (reads_pure day) (fun day => reads_bind reads_clock (fun time =>
      reads_bind (reads_pure year) (fun year =>
        reads_pure (⟨day, month, year, time.1, time.2.1, time.2.2⟩ : Fields))))))))
  intro fields text
  constructor
  · intro written
    obtain ⟨isDay, isTime, name, year, isName, isYear, isText⟩ := written
    refine ⟨fields.month, name, _, isName, ?_, isText⟩
    refine ⟨(), [sep], _, rfl, ?_, rfl⟩
    refine ⟨fields.year, year, timeText fields, isYear, ?_, rfl⟩
    refine ⟨fields.day, [], timeText fields, ⟨isDay, rfl⟩, ?_, rfl⟩
    refine ⟨(fields.hour, fields.min, fields.sec), timeText fields, [], ⟨isTime, rfl⟩,
      ?_, (append_nil _).symm⟩
    exact ⟨fields.year, [], [], ⟨rfl, rfl⟩, ⟨rfl, rfl⟩, rfl⟩
  · intro written
    obtain ⟨month, name, _, isName,
        ⟨_, behind, _, isBehind, ⟨year, yearText, _, isYear, ⟨_, none_, _, isDay,
      ⟨time, clockText, _, isTime, ⟨_, empty, last, isSame, isFields, isLast⟩, isFourth⟩, isThird⟩,
      isSecond⟩, isFirst⟩,
      isText⟩ := written
    rw [isFields.1, isSame.1, isDay.1]
    refine ⟨rfl, isTime.1, name, yearText, isName, isYear, ?_⟩
    rw [isText, isFirst, isBehind, isSecond, isThird, isDay.2, isFourth, isTime.2,
      isLast, isSame.2, isFields.2]
    simp [timeText]

theorem run_byte : (byteAt 0).run (c :: rest) = .ok (c, c :: rest) := rfl

theorem run_left : left.run p = .ok (p.length, p) := rfl

theorem run_advance : (advance 1).run (c :: rest) = .ok ((), rest) := rfl

theorem reads_year_last {year : Nat} : Reads Stop.error (yearLast .isoc year) 5 (fun value text =>
    value < 10000 ∧ text = ' '.toUInt8 :: fourText value) := by
  apply reads_congr _ (reads_bind reads_expect (fun _ => reads_four))
  intro value text
  constructor
  · intro written
    exact ⟨(), [' '.toUInt8], fourText value, rfl, ⟨written.1, rfl⟩, written.2⟩
  · intro written
    obtain ⟨_, space, back, isSpace, isYear, isText⟩ := written
    exact ⟨isYear.1, by rw [isText, isSpace, isYear.2]; rfl⟩

theorem digit_byte_ne_space {value : Nat} (small : value < 10) : digitByte value ≠ ' '.toUInt8 := by
  intro same
  have isNumber := (digit_byte_value value small).1
  rw [same] at isNumber
  exact absurd isNumber (by decide)

theorem run_second_space :
    (secondDigit day).run (' '.toUInt8 :: rest) = .ok (day, ' '.toUInt8 :: rest) := by
  rw [secondDigit, run_bind_ok run_byte, if_pos rfl]
  rfl

theorem run_second_digit {ones : Nat} (small : ones < 10) :
    (secondDigit day).run (digitByte ones :: rest) = .ok (day * 10 + ones, rest) := by
  rw [secondDigit, run_bind_ok run_byte, if_neg (digit_byte_ne_space small),
    run_bind_ok (run_digit small)]
  rfl

theorem second_digit_cases : (secondDigit day).run (c :: rest) = .error .error ∨ c = ' '.toUInt8 ∨
      ∃ ones < 10, c = digitByte ones := by
  by_cases isSpace : c = ' '.toUInt8
  · exact .inr (.inl isSpace)
  · by_cases isNumber : isDigit c = true
    · exact .inr (.inr ((digit_byte_iff c).mp isNumber))
    · left
      have stopped : digit.run (c :: rest) = .error .error := by
        rw [digit, run_bind_ok run_byte,
          run_bind_error (run_check_false (Bool.eq_false_iff.mpr isNumber))]
      rw [secondDigit, run_bind_ok run_byte, if_neg isSpace, run_bind_error stopped]

theorem run_space {day : Bytes} {tens : Nat} (isSpace : space = [] ∨ space = [' '.toUInt8])
    (small : tens < 10)
    (next : Read Nat) :
    (byteAt 0 >>= fun c => advance (if c = ' '.toUInt8 then 1 else 0) >>= fun _ => next).run
      (space ++ (digitByte tens :: day)) = next.run (digitByte tens :: day) := by
  rcases isSpace with rfl | rfl
  · rw [nil_append, run_bind_ok run_byte, if_neg (digit_byte_ne_space small)]
    rfl
  · rfl

theorem run_rest_check (enough : 14 ≤ rest.length) :
    (left >>= fun rest => check (14 ≤ rest) >>= fun _ => (pure day : Read Nat)).run rest =
    .ok (day, rest) := by
  rw [run_bind_ok run_left, run_bind_ok (run_check (decide_eq_true enough))]
  rfl

theorem run_day_middle {day ignored : Nat} {text : Bytes}
    (isSpace : space = [] ∨ space = [' '.toUInt8])
    (isDay : DayText day text) (enough : 13 ≤ rest.length) :
    (dayMiddle .isoc ignored).run (space ++ (text ++ ' '.toUInt8 :: rest)) =
    .ok (day, ' '.toUInt8 :: rest) := by
  have long : 14 ≤ (' '.toUInt8 :: rest).length := Nat.succ_le_succ enough
  rw [dayMiddle]
  rcases isDay with ⟨small, isText⟩ | ⟨small, isText⟩
  · rw [isText, singleton_append, run_space isSpace small, run_bind_ok (run_digit small),
      run_bind_ok run_second_space, run_rest_check long]
  · have tens : day / 10 < 10 := by omega
    have ones : day % 10 < 10 := by omega
    have isValue : day / 10 * 10 + day % 10 = day := by omega
    rw [isText, twoText, cons_append, singleton_append, run_space isSpace tens,
      run_bind_ok (run_digit tens), run_bind_ok (run_second_digit ones), isValue, run_rest_check long]

theorem run_digit_refused (other : isDigit c = false) :
    digit.run (c :: rest) = .error .error := by
  rw [digit, run_bind_ok run_byte, run_bind_error (run_check_false other)]

def dayDigits : Read Nat := do
  let day ← digit
  let day ← secondDigit day
  let rest ← left
  check (14 ≤ rest)
  return day

theorem day_digits_cases (enough : 2 ≤ input.length) : dayDigits.run input = .error .error ∨
      ∃ day text rest, DayText day text ∧ 14 ≤ rest.length ∧ input = text ++ rest ∧
        dayDigits.run input = .ok (day, rest) := by
  obtain ⟨c, d, rest, split⟩ : ∃ c d rest, input = c :: d :: rest := by
    match input, enough with
    | c :: d :: rest, _ => exact ⟨c, d, rest, rfl⟩
  rw [split, dayDigits]
  by_cases isNumber : isDigit c = true
  · obtain ⟨tens, small, isTens⟩ := (digit_byte_iff c).mp isNumber
    rw [isTens, run_bind_ok (run_digit small)]
    rcases second_digit_cases with refused | isSpace | ⟨ones, isOnes, isByte⟩
    · exact .inl (run_bind_error refused)
    · rw [isSpace, run_bind_ok run_second_space]
      by_cases long : 14 ≤ (' '.toUInt8 :: rest).length
      · exact .inr ⟨tens, [digitByte tens], ' '.toUInt8 :: rest, .inl ⟨small, rfl⟩, long,
          rfl, run_rest_check long⟩
      · rw [run_bind_ok run_left]
        exact .inl (run_bind_error (run_check_false (decide_eq_false long)))
    · rw [isByte, run_bind_ok (run_second_digit isOnes)]
      by_cases long : 14 ≤ rest.length
      · right
        have quotient : (tens * 10 + ones) / 10 = tens := by omega
        have remainder : (tens * 10 + ones) % 10 = ones := by omega
        refine ⟨tens * 10 + ones, [digitByte tens, digitByte ones], rest,
          .inr ⟨by omega, ?_⟩, long, rfl,
          run_rest_check long⟩
        rw [twoText, quotient, remainder]
      · rw [run_bind_ok run_left]
        exact .inl (run_bind_error (run_check_false (decide_eq_false long)))
  · exact .inl (run_bind_error (run_digit_refused (Bool.eq_false_iff.mpr isNumber)))

theorem day_middle_cases (enough : 3 ≤ input.length) :
    (dayMiddle .isoc ignored).run input = .error .error ∨
      ∃ day space text rest, (space = [] ∨ space = [' '.toUInt8]) ∧
      DayText day text ∧ 14 ≤ rest.length ∧
        input = space ++ (text ++ rest) ∧ (dayMiddle .isoc ignored).run input = .ok (day, rest) := by
  cases input with
  | nil => cases enough
  | cons c rest =>
    have remains : 2 ≤ rest.length := Nat.le_of_succ_le_succ enough
    rw [dayMiddle, run_bind_ok run_byte]
    by_cases isSpace : c = ' '.toUInt8
    · rw [if_pos isSpace]
      rcases day_digits_cases remains with refused | ⟨day, text, behind, isDay, long, split, taken⟩
      · exact .inl refused
      · exact .inr ⟨day, [' '.toUInt8], text, behind, .inr rfl, isDay, long,
          by rw [isSpace, split]; rfl, taken⟩
    · rw [if_neg isSpace]
      have longer : 2 ≤ (c :: rest).length := Nat.le_succ_of_le remains
      rcases day_digits_cases longer with refused | ⟨day, text, behind, isDay, long, split, taken⟩
      · exact .inl refused
      · exact .inr ⟨day, [], text, behind, .inl rfl, isDay, long, split, taken⟩

def isocEnd (month day : Nat) : Read Fields := do
  let time ← clock
  let year ← yearLast .isoc 2038
  return ⟨day, month, year, time.1, time.2.1, time.2.2⟩

theorem reads_isoc_end {month day : Nat} : Reads Stop.error (isocEnd month day) 14 (fun fields text =>
    fields.month = month ∧ fields.day = day ∧ fields.year < 10000 ∧ TwoPlaces fields ∧
      text = timeText fields ++ ' '.toUInt8 :: fourText fields.year) := by
  apply reads_congr _ (reads_bind reads_clock (fun time => reads_bind reads_year_last (fun year =>
    reads_pure (⟨day, month, year, time.1, time.2.1, time.2.2⟩ : Fields))))
  intro fields text
  constructor
  · intro written
    obtain ⟨isMonth, isDay, isYear, isTime, isText⟩ := written
    refine ⟨(fields.hour, fields.min, fields.sec), timeText fields, _, ⟨isTime, rfl⟩, ?_, isText⟩
    refine ⟨fields.year, _, [], ⟨isYear, rfl⟩, ⟨?_, rfl⟩, (append_nil _).symm⟩
    rw [← isMonth, ← isDay]
  · intro written
    obtain ⟨time, first, _, isTime, ⟨year, second, last, isYear, isFields, isSecond⟩, isText⟩ :=
      written
    rw [isFields.1]
    refine ⟨rfl, rfl, isYear.1, isTime.1, ?_⟩
    rw [isText, isTime.2, isSecond, isYear.2, isFields.2, append_nil]
    rfl

theorem rest_isoc_eq (ignored : Nat) : readRest .isoc ignored =
    monthName >>= fun month => advance 1 >>= fun _ => dayMiddle .isoc ignored >>= isocEnd month := rfl

theorem run_rest_isoc {name day : Bytes}
    (isName : MonthName fields.month name) (isSpace : space = [] ∨ space = [' '.toUInt8])
    (isDay : DayText fields.day day) (isYear : fields.year < 10000) (isTime : TwoPlaces fields) :
    (readRest .isoc ignored).run
      (name ++ c :: (space ++ (day ++ (timeText fields ++ ' '.toUInt8 :: fourText fields.year))) ++
        more) =
      .ok (fields, more) := by
  have isEnd := (reads_isoc_end).reads ⟨rfl, rfl, isYear, isTime, rfl⟩ more
  have split : name ++ c ::
      (space ++ (day ++ (timeText fields ++ ' '.toUInt8 :: fourText fields.year))) ++ more =
      name ++ c :: (space ++
        (day ++ ' '.toUInt8 :: ((timeText fields).tail ++ ' '.toUInt8 :: fourText fields.year
        ++ more))) := by
    simp [timeText, clockText]
  have enough : 13 ≤ ((timeText fields).tail ++ ' '.toUInt8 ::
      fourText fields.year ++ more).length := by
    simp [timeText, clockText, twoText, fourText]
  rw [split, rest_isoc_eq, run_bind_ok (reads_month.reads isName _), run_bind_ok run_advance,
    run_bind_ok (run_day_middle isSpace isDay enough)]
  exact isEnd

theorem rest_isoc_cases (enough : 18 ≤ input.length) :
    (readRest .isoc ignored).run input = .error .error ∨
      ∃ fields text more, DateText fields .isoc text ∧ input = text ++ more := by
  rw [rest_isoc_eq]
  rcases run_cases reads_month (le_trans (by decide) enough) with
    refused | ⟨month, name, rest, isName, split, taken⟩
  · exact .inl (run_bind_error refused)
  · have size := month_name_length isName
    rw [split, length_append] at enough
    rw [run_bind_ok taken]
    cases rest with
    | nil =>
      rw [length_nil] at enough
      omega
    | cons c rest =>
      rw [length_cons] at enough
      rw [run_bind_ok run_advance]
      rcases day_middle_cases (by omega : 3 ≤ rest.length) with
        refused | ⟨day, space, text, behind, isSpace, isDay, long, splitRest, takenDay⟩
      · exact .inl (run_bind_error refused)
      · rw [run_bind_ok takenDay]
        rcases (reads_isoc_end).refuses behind long with
          refused | ⟨fields, last, more, written, splitEnd⟩
        · exact .inl refused
        · obtain ⟨isMonth, isDayField, isYear, isTime, isLast⟩ := written
          right
          refine ⟨fields, _, more, .isoc name c space text (isMonth ▸ isName) isSpace
            (isDayField ▸ isDay) isYear isTime, ?_⟩
          rw [split, splitRest, splitEnd, isLast]
          simp

theorem run_day_space (small : day < 100) (enough : 17 ≤ rest.length) :
    dayFirst.run (twoText day ++ ' '.toUInt8 :: rest) = .ok ((.rfc822, day), rest) := by
  have long : 18 ≤ (' '.toUInt8 :: rest).length := Nat.succ_le_succ enough
  rw [dayFirst, run_bind_ok (reads_two.reads ⟨small, rfl⟩ _), run_bind_ok run_byte, if_pos rfl,
    run_bind_ok run_left, run_bind_ok (run_check (decide_eq_true long)), run_bind_ok run_advance]
  rfl

theorem run_day_dash (small : day < 100) :
    dayFirst.run (twoText day ++ '-'.toUInt8 :: rest) = .ok ((.rfc850, day), rest) := by
  rw [dayFirst, run_bind_ok (reads_two.reads ⟨small, rfl⟩ _), run_bind_ok run_byte,
    if_neg (by decide), if_pos rfl, run_bind_ok run_advance]
  rfl

theorem day_first_cases (enough : 3 ≤ input.length) :
    dayFirst.run input = .error .error ∨ ∃ day < 100, ∃ rest,
      (17 ≤ rest.length ∧ input = twoText day ++ ' '.toUInt8 :: rest) ∨
      input = twoText day ++ '-'.toUInt8 :: rest := by
  rcases run_cases reads_two (Nat.le_of_succ_le enough) with
    refused | ⟨day, text, rest, isDay, split, taken⟩
  · exact .inl (run_bind_error refused)
  · rw [dayFirst, run_bind_ok taken]
    have size : text.length = 2 := by
      rw [isDay.2]
      rfl
    rw [split, length_append, size] at enough
    cases rest with
    | nil => simp at enough
    | cons c rest =>
      rw [run_bind_ok run_byte]
      by_cases isSpace : c = ' '.toUInt8
      · rw [if_pos isSpace, run_bind_ok run_left]
        by_cases long : 18 ≤ (c :: rest).length
        · exact .inr ⟨day, isDay.1, rest,
            .inl ⟨Nat.le_of_succ_le_succ long, by rw [split, isDay.2, isSpace]⟩⟩
        · exact .inl (run_bind_error (run_check_false (decide_eq_false long)))
      · rw [if_neg isSpace]
        by_cases isDash : c = '-'.toUInt8
        · exact .inr ⟨day, isDay.1, rest, .inr (by rw [split, isDay.2, isDash])⟩
        · rw [if_neg isDash]
          exact .inl rfl

theorem time_text_length (fields : Fields) : (timeText fields).length = 9 := rfl

theorem date_body_first (other : found ≠ .isoc) :
    dateBody found = dayFirst >>= fun first => readRest first.1 first.2 := by
  rw [dateBody, if_pos other]

theorem run_date_body (isDate : DateText fields fmt text) (isFound : found = .isoc ↔ fmt = .isoc) :
    (dateBody found).run (text ++ more) = .ok (fields, more) := by
  cases isDate with
  | rfc822 name isName isDay isYear isTime =>
    have other : found ≠ .isoc := fun same => by cases isFound.mp same
    have readsRest := @reads_rest .rfc822 _ 4 fields.day _ rfl reads_four rfl (fun _ => rfl)
    have isRest := readsRest.reads ⟨rfl, isTime, name, _, isName, ⟨isYear, rfl⟩, rfl⟩ more
    have enough : 17 ≤ (name ++ ' '.toUInt8 :: (fourText fields.year ++ timeText fields) ++
        more).length := by
      simp [month_name_length isName, fourText, time_text_length]
      omega
    rw [date_body_first other, append_assoc, cons_append, run_bind_ok (run_day_space isDay enough)]
    exact isRest
  | rfc850 name short isName isDay isShort isYear isTime =>
    have other : found ≠ .isoc := fun same => by cases isFound.mp same
    have readsRest := @reads_rest .rfc850 _ 2 fields.day _ rfl reads_short_year rfl (fun _ => rfl)
    have isRest := readsRest.reads ⟨rfl, isTime, name, _, isName,
      ⟨short, isShort, isYear, rfl⟩, rfl⟩ more
    rw [date_body_first other, append_assoc, cons_append, run_bind_ok (run_day_dash isDay)]
    exact isRest
  | isoc name c space day isName isSpace isDay isYear isTime =>
    rw [isFound.mpr rfl]
    exact run_rest_isoc isName isSpace isDay isYear isTime

theorem date_body_cases (enough : 18 ≤ input.length) : (dateBody found).run input = .error .error ∨
      ∃ fields fmt text more, DateText fields fmt text ∧ (found = .isoc ↔ fmt = .isoc) ∧
      input = text ++ more := by
  by_cases isIsoc : found = .isoc
  · rw [isIsoc]
    rcases rest_isoc_cases enough with refused | ⟨fields, text, more, isDate, split⟩
    · exact .inl refused
    · exact .inr ⟨fields, .isoc, text, more, isDate, Iff.rfl, split⟩
  · rw [date_body_first isIsoc]
    rcases day_first_cases (le_trans (by decide) enough) with refused | ⟨day, isDay, rest, shape⟩
    · exact .inl (run_bind_error refused)
    · rcases shape with ⟨long, split⟩ | split
      · have readsRest := @reads_rest .rfc822 _ 4 day _ rfl reads_four rfl (fun _ => rfl)
        rw [split, run_bind_ok (run_day_space isDay long)]
        rcases readsRest.refuses rest long with refused | ⟨fields, text, more, written, splitRest⟩
        · exact .inl refused
        · obtain ⟨isFields, isTime, name, year, isName, isYear, isText⟩ := written
          right
          refine ⟨fields, .rfc822, _, more, .rfc822 name isName (isFields ▸ isDay) isYear.1 isTime,
            iff_of_false isIsoc (by decide), ?_⟩
          rw [splitRest, isText, isFields, isYear.2]
          simp
      · have readsRest := @reads_rest .rfc850 _ 2 day _ rfl reads_short_year rfl (fun _ => rfl)
        have long : 15 ≤ rest.length := by
          rw [split] at enough
          simp [twoText] at enough
          omega
        rw [split, run_bind_ok (run_day_dash isDay)]
        rcases readsRest.refuses rest long with refused | ⟨fields, text, more, written, splitRest⟩
        · exact .inl refused
        · obtain ⟨isFields, isTime, name, year, isName,
              ⟨short, isShort, isYear, isYearText⟩, isText⟩ := written
          right
          refine ⟨fields, .rfc850, _, more,
            .rfc850 name short isName (isFields ▸ isDay) isShort isYear isTime,
            iff_of_false isIsoc (by decide), ?_⟩
          rw [splitRest, isText, isFields, isYearText]
          simp

/-- The whole value: the day of the week, its separator, spaces, and the date. -/
inductive HttpDate (fields : Fields) : Bytes → Prop where
  | intro (weekday : Bytes) (sep : Byte) (spaces : Bytes) (fmt : Fmt) (text more : Bytes) :
      (∀ c ∈ weekday, c ≠ ','.toUInt8 ∧ c ≠ ' '.toUInt8) →
      ((sep = ','.toUInt8 ∧ fmt ≠ .isoc) ∨ (sep = ' '.toUInt8 ∧ fmt = .isoc)) →
      (∀ c ∈ spaces, c = ' '.toUInt8) → DateText fields fmt text →
      HttpDate fields (weekday ++ sep :: (spaces ++ (text ++ more)))

def foundFmt (sep : Byte) : Fmt := if sep = ','.toUInt8 then .no else .isoc

theorem find_separator {sep : Byte}
    (plain : ∀ c ∈ weekday, c ≠ ','.toUInt8 ∧ c ≠ ' '.toUInt8)
    (isSeparator : sep = ','.toUInt8 ∨ sep = ' '.toUInt8) (rest : Bytes) :
    findSeparator (weekday ++ sep :: rest) = (foundFmt sep, sep :: rest) := by
  induction weekday with
  | nil =>
    rcases isSeparator with isComma | isSpace
    · rw [isComma]
      rfl
    · rw [isSpace]
      rfl
  | cons c weekday ih =>
    have other := plain c mem_cons_self
    rw [cons_append, findSeparator, if_neg other.1, if_neg other.2]
    exact ih (fun d mem => plain d (mem_cons_of_mem c mem))

theorem find_separator_cases : (∀ c ∈ value, c ≠ ','.toUInt8 ∧ c ≠ ' '.toUInt8) ∨
      ∃ weekday sep rest, (∀ c ∈ weekday, c ≠ ','.toUInt8 ∧ c ≠ ' '.toUInt8) ∧
        (sep = ','.toUInt8 ∨ sep = ' '.toUInt8) ∧ value = weekday ++ sep :: rest := by
  induction value with
  | nil => exact .inl (by simp)
  | cons c value ih =>
    by_cases isComma : c = ','.toUInt8
    · exact .inr ⟨[], c, value, by simp, .inl isComma, rfl⟩
    · by_cases isSpace : c = ' '.toUInt8
      · exact .inr ⟨[], c, value, by simp, .inr isSpace, rfl⟩
      · rcases ih with absent | ⟨weekday, sep, rest, plain, isSeparator, split⟩
        · exact .inl (forall_mem_cons.mpr ⟨⟨isComma, isSpace⟩, absent⟩)
        · exact .inr ⟨c :: weekday, sep, rest, forall_mem_cons.mpr ⟨⟨isComma, isSpace⟩, plain⟩,
            isSeparator, by rw [split]; rfl⟩

theorem find_separator_absent (absent : ∀ c ∈ value, c ≠ ','.toUInt8 ∧ c ≠ ' '.toUInt8) :
    findSeparator value = (.no, []) := by
  induction value with
  | nil => rfl
  | cons c value ih =>
    have other := absent c mem_cons_self
    rw [findSeparator, if_neg other.1, if_neg other.2]
    exact ih (fun d mem => absent d (mem_cons_of_mem c mem))

theorem month_name_head (isName : MonthName month name) :
    ∃ c rest, name = c :: rest ∧ c ≠ ' '.toUInt8 := by
  cases isName <;> exact ⟨_, _, rfl, by decide⟩

theorem date_head (isDate : DateText fields fmt text) :
    ∃ c rest, text = c :: rest ∧ c ≠ ' '.toUInt8 := by
  cases isDate with
  | rfc822 name isName isDay isYear isTime => exact ⟨_, _, rfl, digit_byte_ne_space (by omega)⟩
  | rfc850 name short isName isDay isShort isYear isTime =>
      exact ⟨_, _, rfl, digit_byte_ne_space (by omega)⟩
  | isoc name c space day isName isSpace isDay isYear isTime =>
    obtain ⟨first, rest, isFirst, other⟩ := month_name_head isName
    exact ⟨first, _, by rw [isFirst, cons_append], other⟩

theorem date_length (isDate : DateText fields fmt text) : 18 ≤ text.length := by
  cases isDate with
  | rfc822 name isName isDay isYear isTime =>
    simp [month_name_length isName, twoText, fourText, time_text_length]
  | rfc850 name short isName isDay isShort isYear isTime =>
    simp [month_name_length isName, twoText, time_text_length]
  | isoc name c space day isName isSpace isDay isYear isTime =>
    have nonempty : 0 < day.length := by
      rcases isDay with ⟨_, isText⟩ | ⟨_, isText⟩
      · rw [isText]
        exact Nat.succ_pos 0
      · rw [isText]
        exact Nat.succ_pos 1
    simp [month_name_length isName, fourText, time_text_length]
    omega

theorem run_skip {spaces : Bytes} {sep : Byte}
    (plain : ∀ c ∈ weekday, c ≠ ','.toUInt8 ∧ c ≠ ' '.toUInt8)
    (isSeparator : sep = ','.toUInt8 ∨ sep = ' '.toUInt8) (isSpaces : ∀ c ∈ spaces, c = ' '.toUInt8)
    (other : c ≠ ' '.toUInt8) :
    skipWeekday.run (weekday ++ sep :: (spaces ++ c :: rest)) = .ok (foundFmt sep, c :: rest) := by
  have skipped : (spaces ++ c :: rest).dropWhile (· == ' '.toUInt8) = c :: rest := by
    rw [dropWhile_append_of_pos (fun d mem => by simp [isSpaces d mem])]
    exact dropWhile_cons_of_neg (by simpa using other)
  have found := find_separator plain isSeparator (spaces ++ c :: rest)
  rw [StateT.run, skipWeekday, found]
  change Except.ok (foundFmt sep, (spaces ++ c :: rest).dropWhile (· == ' '.toUInt8)) = _
  rw [skipped]

theorem read_fields_skip {value p : Bytes} (skipped : skipWeekday.run value = .ok (fmt, p)) :
    readFields.run value = if 18 ≤ p.length then
        (dateBody fmt >>= fun fields => check (inRange fields) >>= fun _ => pure fields).run p
      else .error .error := by
  rw [readFields, run_bind_ok skipped, run_bind_ok run_left]
  by_cases enough : 18 ≤ p.length
  · rw [if_pos enough, run_bind_ok (run_check (decide_eq_true enough))]
  · rw [if_neg enough, run_bind_error (run_check_false (decide_eq_false enough))]

theorem read_fields_date (isDate : HttpDate fields value)
    (isRange : inRange fields = true) : ∃ more, readFields.run value = .ok (fields, more) := by
  obtain ⟨weekday, sep, spaces, fmt, text, more, plain, isFmt, isSpaces, isText⟩ := isDate
  obtain ⟨c, rest, isHead, other⟩ := date_head isText
  have isSeparator : sep = ','.toUInt8 ∨ sep = ' '.toUInt8 := isFmt.imp And.left And.left
  have found : foundFmt sep = .isoc ↔ fmt = .isoc := by
    rcases isFmt with ⟨isComma, isOther⟩ | ⟨isSpace, isIsoc⟩
    · rw [isComma]
      exact iff_of_false (by decide) isOther
    · rw [isSpace]
      exact iff_of_true (by decide) isIsoc
  have skipped : skipWeekday.run (weekday ++ sep :: (spaces ++ (text ++ more))) =
      .ok (foundFmt sep, text ++ more) := by
    rw [isHead]
    exact run_skip plain isSeparator isSpaces other
  have enough : 18 ≤ (text ++ more).length := by
    rw [length_append]
    exact le_trans (date_length isText) (Nat.le_add_right _ _)
  refine ⟨more, ?_⟩
  rw [read_fields_skip skipped, if_pos enough, run_bind_ok (run_date_body isText found),
    run_bind_ok (run_check isRange)]
  rfl

theorem read_fields_cases (value : Bytes) : readFields.run value = .error .error ∨
      ∃ fields more, HttpDate fields value ∧ inRange fields = true ∧
      readFields.run value = .ok (fields, more) := by
  rcases find_separator_cases with absent | ⟨weekday, sep, rest, plain, isSeparator, split⟩
  · left
    have skipped : skipWeekday.run value = .ok (.no, []) := by
      change Except.ok ((findSeparator value).1,
        ((findSeparator value).2.drop 1).dropWhile (· == ' '.toUInt8)) = _
      rw [find_separator_absent absent]
      rfl
    rw [read_fields_skip skipped]
    rfl
  · have skipped : skipWeekday.run value = .ok (foundFmt sep, rest.dropWhile (· == ' '.toUInt8)) := by
      change Except.ok ((findSeparator value).1,
        ((findSeparator value).2.drop 1).dropWhile (· == ' '.toUInt8)) = _
      rw [split, find_separator plain isSeparator]
      rfl
    have isRest : rest = rest.takeWhile (· == ' '.toUInt8) ++ rest.dropWhile (· == ' '.toUInt8) :=
      takeWhile_append_dropWhile.symm
    have spaces : ∀ c ∈ rest.takeWhile (· == ' '.toUInt8), c = ' '.toUInt8 :=
      fun c mem => by simpa using mem_takeWhile_imp mem
    rw [read_fields_skip skipped]
    by_cases enough : 18 ≤ (rest.dropWhile (· == ' '.toUInt8)).length
    · rw [if_pos enough]
      rcases date_body_cases enough with
        refused | ⟨fields, fmt, text, more, isDate, isFound, isText⟩
      · exact .inl (run_bind_error refused)
      · have isFmt : (sep = ','.toUInt8 ∧ fmt ≠ .isoc) ∨ (sep = ' '.toUInt8 ∧ fmt = .isoc) := by
          rcases isSeparator with isComma | isSpace
          · rw [isComma] at isFound
            exact .inl ⟨isComma, fun same => absurd (isFound.mpr same) (by decide)⟩
          · rw [isSpace] at isFound
            exact .inr ⟨isSpace, isFound.mp (by decide)⟩
        rw [isText, run_bind_ok (run_date_body isDate isFound)]
        by_cases isRange : inRange fields = true
        · right
          refine ⟨fields, more, ?_, isRange, ?_⟩
          · rw [split, isRest, isText]
            exact .intro weekday sep _ fmt text more plain isFmt spaces isDate
          · rw [run_bind_ok (run_check isRange)]
            rfl
        · exact .inl (run_bind_error (run_check_false (Bool.eq_false_iff.mpr isRange)))
    · rw [if_neg enough]
      exact .inl rfl

end ServerCore.NginxHttpDate
