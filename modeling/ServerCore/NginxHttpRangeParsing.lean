import Mathlib.Algebra.Ring.Int.Defs
import Mathlib.Data.List.TakeWhile
import ServerCore.NginxHttpRange

/-!
# What the byte ranges of a header are

Every result in `off_t` fits but one: a number of nineteen digits close to the
limit of the type overflows for a moment, since the code of its last digit is
added before that of zero is subtracted.
-/

namespace ServerCore.NginxHttpRangeParsing

open NginxHttpParse (Byte Bytes)
open NginxHttpRange List Option

variable {range : Range}

def decimalFrom (start : Nat) (digits : Bytes) : Nat :=
  digits.foldl (fun value ch => value * 10 + digitValue ch) start

def decimal (digits : Bytes) : Nat := decimalFrom 0 digits

/-- No value of some first digits is one of the last 48 of `off_t`. -/
def SmallFrom (start : Nat) (text : Bytes) : Prop :=
  ∀ digits, digits <+: text → (∀ ch ∈ digits, isDigit ch = true) → digits ≠ [] →
    decimalFrom start digits < 2 ^ 63 - 48 ∨ 2 ^ 63 ≤ decimalFrom start digits

def SmallNumber (text : Bytes) : Prop := SmallFrom 0 text

section Numbers

variable {ch : Byte} {p digits : Bytes} {start value : Nat}

theorem decimal_from_ge (start : Nat) (digits : Bytes) : start ≤ decimalFrom start digits := by
  induction digits generalizing start with
  | nil => exact le_rfl
  | cons ch digits ih =>
    have later := ih (start * 10 + digitValue ch)
    change _ ≤ decimalFrom (start * 10 + digitValue ch) digits
    omega

theorem digit_code (digit : isDigit ch = true) : ch.toNat = digitValue ch + 48 ∧ digitValue ch ≤ 9 := by
  obtain ⟨lower, upper⟩ := Bool.and_eq_true_iff.1 digit
  have least : 48 ≤ ch.toNat := of_decide_eq_true lower
  have most : ch.toNat ≤ 57 := of_decide_eq_true upper
  have isValue : digitValue ch = ch.toNat - 48 := rfl
  omega

theorem small_from_other (notDigit : isDigit (peek p) = false) : SmallFrom start p := by
  intro digits pre allDigits nonempty
  obtain ⟨rest, rfl⟩ := pre
  cases digits with
  | nil => cases nonempty rfl
  | cons ch digits =>
    have isDigit_ := allDigits ch (mem_cons_self ..)
    exact absurd (isDigit_.symm.trans notDigit) nofun

theorem small_from_cons (digit : isDigit ch = true) :
    SmallFrom start (ch :: p) ↔ 2 ^ 63 ≤ start * 10 + digitValue ch ∨
      (start * 10 + digitValue ch < 2 ^ 63 - 48 ∧ SmallFrom (start * 10 + digitValue ch) p) := by
  constructor
  · intro small
    have first := small [ch] ⟨p, rfl⟩ (fun other mem => by rw [mem_singleton.1 mem]; exact digit)
      (cons_ne_nil _ _)
    rcases first with less | large
    · refine .inr ⟨less, ?_⟩
      intro digits pre allDigits nonempty
      refine small (ch :: digits) (cons_prefix_cons.2 ⟨rfl, pre⟩) ?_ (cons_ne_nil _ _)
      intro other mem
      rcases mem_cons.1 mem with rfl | inDigits
      · exact digit
      · exact allDigits other inDigits
    · exact .inl large
  · intro small digits pre allDigits nonempty
    cases digits with
    | nil => cases nonempty rfl
    | cons other digits =>
      obtain ⟨rfl, behind⟩ := cons_prefix_cons.1 pre
      have isValue : decimalFrom start (other :: digits) =
          decimalFrom (start * 10 + digitValue other) digits := rfl
      rcases small with large | ⟨less, small⟩
      · exact .inr (le_trans large (decimal_from_ge _ _))
      · by_cases none_ : digits = []
        · rw [none_]
          exact .inl less
        · exact small digits behind (fun inner mem => allDigits inner (mem_cons_of_mem _ mem))
            none_

theorem off_t_fits {value : Int} (fits : Fits value) : offT value = value := by
  obtain ⟨least, most⟩ := fits
  unfold maxOffT at most
  unfold offT
  omega

theorem refused_iff (digit : isDigit ch = true) :
    ((start : Int) ≥ cutoff ∧ ((start : Int) > cutoff ∨ (digitValue ch : Int) > cutlim)) ↔
      2 ^ 63 ≤ start * 10 + digitValue ch := by
  have isCutoff : cutoff = 922337203685477580 := by decide
  have isCutlim : cutlim = 7 := by decide
  obtain ⟨-, most⟩ := digit_code digit
  omega

theorem digit_step (digit : isDigit ch = true) (bound : start * 10 + digitValue ch < 2 ^ 63) :
    offT (offT (offT ((start : Int) * 10) + ch.toNat) - '0'.toNat) = (start * 10 + digitValue ch : Nat) ∧
      ((Fits ((start : Int) * 10) ∧ Fits (offT ((start : Int) * 10) + ch.toNat) ∧
        Fits (offT (offT ((start : Int) * 10) + ch.toNat) - '0'.toNat)) ↔
        start * 10 + digitValue ch < 2 ^ 63 - 48) := by
  obtain ⟨isCode, most⟩ := digit_code digit
  have isZero : ('0'.toNat : Int) = 48 := rfl
  have product : offT ((start : Int) * 10) = start * 10 := off_t_fits ⟨by omega, by unfold maxOffT; omega⟩
  unfold Fits offT maxOffT
  omega

/-- The loop over digits: the value is refused when it does not fit, and nothing overflows
when no value on the way is close to the limit. -/
theorem number_spec (bound : start < 2 ^ 63) :
    (number start p).1 = (if decimalFrom start (p.takeWhile isDigit) < 2 ^ 63 then
        some ((decimalFrom start (p.takeWhile isDigit) : Int), p.dropWhile isDigit) else none) ∧
      ((∀ value ∈ (number start p).2, Fits value) ↔ SmallFrom start p) := by
  induction p generalizing start with
  | nil =>
    refine ⟨?_, ?_⟩
    · exact (if_pos bound).symm
    · exact ⟨fun _ => small_from_other rfl, nofun⟩
  | cons ch p ih =>
    rw [number]
    by_cases digit : isDigit ch = true
    · rw [if_pos digit, takeWhile_cons_of_pos digit, dropWhile_cons_of_pos digit,
        small_from_cons digit]
      have isValue : decimalFrom start (ch :: p.takeWhile isDigit) =
          decimalFrom (start * 10 + digitValue ch) (p.takeWhile isDigit) := rfl
      rw [isValue]
      by_cases large : 2 ^ 63 ≤ start * 10 + digitValue ch
      · have beyond := le_trans large (decimal_from_ge (start * 10 + digitValue ch) (p.takeWhile isDigit))
        rw [if_pos ((refused_iff digit).2 large), if_neg (not_lt.2 beyond)]
        exact ⟨rfl, fun _ => .inl large, nofun⟩
      · have less : start * 10 + digitValue ch < 2 ^ 63 := Nat.lt_of_not_le large
        obtain ⟨stored, fits⟩ := digit_step digit less
        obtain ⟨found, later⟩ := ih less
        rw [if_neg fun refused => large ((refused_iff digit).1 refused)]
        dsimp only
        rw [stored]
        refine ⟨found, ?_⟩
        rw [← later]
        simp only [forall_mem_cons]
        constructor
        · rintro ⟨product, sum, difference, others⟩
          exact .inr ⟨fits.1 ⟨product, sum, difference⟩, others⟩
        · rintro (beyond | ⟨small, others⟩)
          · exact absurd beyond large
          · obtain ⟨product, sum, difference⟩ := fits.2 small
            exact ⟨product, sum, difference, others⟩
    · rw [if_neg digit, takeWhile_cons_of_neg digit, dropWhile_cons_of_neg digit]
      have notDigit : isDigit (peek (ch :: p)) = false := Bool.eq_false_iff.2 digit
      refine ⟨(if_pos bound).symm, fun _ => small_from_other notDigit,
        nofun⟩

end Numbers

/-- A range of a header: from one byte to another, from one byte on, or the last ones. -/
inductive RangeSpec where
  | fromTo (first last : Nat)
  | onward (first : Nat)
  | suffix (length : Nat)

/-- The bytes that a range means in a content of this length, if any. -/
def bounds (content : Int) : RangeSpec → Range
  | .fromTo first last => ⟨first, min (last + 1) content⟩
  | .onward first => ⟨first, content⟩
  | .suffix length => ⟨content - length, content⟩

def satisfied (content : Int) (spec : RangeSpec) : Option Range :=
  if (bounds content spec).start < (bounds content spec).stop then
    some (bounds content spec)
  else none

def IsSpaces (text : Bytes) : Prop := ∀ ch ∈ text, ch = ' '.toUInt8

def IsNumber (text : Bytes) : Prop := text ≠ [] ∧ ∀ ch ∈ text, isDigit ch = true

/-- The texts of a range: spaces stand in front of it, around its hyphen where it has a
first byte, and behind it. -/
inductive Spells : RangeSpec → Bytes → Prop
  | fromTo {before first middle gap last after : Bytes} (spaces : IsSpaces before) (isFirst : IsNumber first)
      (isMiddle : IsSpaces middle) (isGap : IsSpaces gap) (isLast : IsNumber last)
      (isAfter : IsSpaces after) :
      Spells (.fromTo (decimal first) (decimal last))
        (before ++ (first ++ (middle ++ '-'.toUInt8 :: (gap ++ (last ++ after)))))
  | onward {before first middle gap : Bytes} (spaces : IsSpaces before) (isFirst : IsNumber first)
      (isMiddle : IsSpaces middle) (isGap : IsSpaces gap) :
      Spells (.onward (decimal first)) (before ++ (first ++ (middle ++ '-'.toUInt8 :: gap)))
  | suffix {before length after : Bytes} (spaces : IsSpaces before) (isLength : IsNumber length)
      (isAfter : IsSpaces after) :
      Spells (.suffix (decimal length)) (before ++ '-'.toUInt8 :: (length ++ after))

inductive HeaderText : List RangeSpec → Bytes → Prop
  | one {spec : RangeSpec} {text : Bytes} (spells : Spells spec text) : HeaderText [spec] text
  | more {spec : RangeSpec} {specs : List RangeSpec} {text rest : Bytes} (spells : Spells spec text)
      (others : HeaderText specs rest) : HeaderText (spec :: specs) (text ++ ','.toUInt8 :: rest)

/-- Where the second number of a range starts, if the parser comes to it. -/
def secondNumber (p : Bytes) : Option Bytes :=
  let p := skipSpaces p
  if peek p = '-'.toUInt8 then some p.tail
  else if isDigit (peek p) ∧ decimal (p.takeWhile isDigit) < 2 ^ 63 then
    let p := skipSpaces (p.dropWhile isDigit)
    if peek p = '-'.toUInt8 then some (skipSpaces p.tail) else none
  else none

/-- The numbers of the range at a place are not close to the limit of `off_t`. -/
def SmallRange (p : Bytes) : Prop :=
  SmallNumber (skipSpaces p) ∧ ∀ text ∈ secondNumber p, SmallNumber text

section Ranges

variable {content start : Int} {suffix : Bool} {p : Bytes} {found : Found}

def AtEnd (p : Bytes) : Prop := peek p = ','.toUInt8 ∨ peek p = 0

instance (p : Bytes) : Decidable (AtEnd p) := inferInstanceAs (Decidable (_ ∨ _))

theorem number_at (p : Bytes) : (number 0 p).1 = (if decimal (p.takeWhile isDigit) < 2 ^ 63 then
        some ((decimal (p.takeWhile isDigit) : Int), p.dropWhile isDigit) else none) ∧
      ((∀ value ∈ (number 0 p).2, Fits value) ↔ SmallNumber p) :=
  number_spec (by decide : 0 < 2 ^ 63)

theorem read_end_eq (digit : isDigit (peek p) = true) : readEnd content start suffix p =
      if decimal (p.takeWhile isDigit) < 2 ^ 63 then
        let stop : Int := decimal (p.takeWhile isDigit)
        let rest := skipSpaces (p.dropWhile isDigit)
        if peek rest ≠ ','.toUInt8 ∧ peek rest ≠ 0 then (none, (number 0 p).2)
        else
          let suffixTrace := if suffix then [content - stop, content - 1] else []
          let start := if suffix then offT (content - stop) else start
          let stop := if suffix then offT (content - 1) else stop
          if stop ≥ content then (some ⟨start, content, rest⟩, (number 0 p).2 ++ suffixTrace)
          else (some ⟨start, offT (stop + 1), rest⟩, (number 0 p).2 ++ suffixTrace ++ [stop + 1])
      else (none, (number 0 p).2) := by
  rw [readEnd, if_neg (not_not.2 digit)]
  have found := (number_at p).1
  generalize number 0 p = read at found ⊢
  obtain ⟨result, trace⟩ := read
  dsimp only at found
  rw [found]
  by_cases less : decimal (p.takeWhile isDigit) < 2 ^ 63
  · rw [if_pos less, if_pos less]
  · rw [if_neg less, if_neg less]

def IsLength (content : Int) : Prop := 0 ≤ content ∧ content ≤ maxOffT

theorem fits_append {trace extra : Trace} (fits : ∀ value ∈ extra, Fits value) :
    (∀ value ∈ trace ++ extra, Fits value) ↔ ∀ value ∈ trace, Fits value := by
  rw [forall_mem_append]
  exact and_iff_left fits

theorem read_end_trace (isLength : IsLength content) :
    (∀ value ∈ (readEnd content start suffix p).2, Fits value) ↔ SmallNumber p := by
  obtain ⟨least, most⟩ := isLength
  by_cases digit : isDigit (peek p) = true
  · rw [read_end_eq digit, ← (number_at p).2]
    by_cases less : decimal (p.takeWhile isDigit) < 2 ^ 63
    · have suffixFits : ∀ value ∈ [content - decimal (p.takeWhile isDigit), content - 1],
          Fits value := by
        unfold Fits maxOffT at *
        refine forall_mem_cons.2 ⟨?_, forall_mem_singleton.2 ?_⟩ <;> omega
      have below : ∀ stop, ¬stop ≥ content → -1 ≤ stop → ∀ value ∈ [stop + 1], Fits value := by
        intro stop less least value mem
        rw [mem_singleton.1 mem]
        unfold Fits maxOffT at *
        omega
      have stored : offT (content - 1) = content - 1 := by
        refine off_t_fits (suffixFits _ ?_)
        simp
      rw [if_pos less]
      dsimp only
      split
      · rfl
      · cases suffix with
        | true =>
          rw [if_pos rfl, if_pos rfl, if_pos rfl, stored]
          split
          · exact fits_append suffixFits
          · rename_i beyond
            rw [append_assoc]
            refine fits_append ?_
            rw [forall_mem_append]
            exact ⟨suffixFits, below _ beyond (by omega)⟩
        | false =>
          have noSuffix : ¬false = true := nofun
          rw [if_neg noSuffix, if_neg noSuffix, if_neg noSuffix, append_nil]
          split
          · rfl
          · rename_i beyond
            exact fits_append (below _ beyond (by omega))
    · rw [if_neg less]
  · rw [readEnd, if_pos digit]
    exact ⟨fun _ => small_from_other (Bool.eq_false_iff.2 digit), nofun⟩

theorem skip_spaces_split (p : Bytes) :
    ∃ spaces : Bytes, IsSpaces spaces ∧ p = spaces ++ skipSpaces p := by
  refine ⟨p.takeWhile fun ch => ch = ' '.toUInt8, ?_, takeWhile_append_dropWhile.symm⟩
  intro ch mem
  have isSpace := mem_takeWhile_imp mem
  exact of_decide_eq_true isSpace

theorem number_split (digit : isDigit (peek p) = true) :
    IsNumber (p.takeWhile isDigit) ∧ p = p.takeWhile isDigit ++ p.dropWhile isDigit := by
  refine ⟨⟨?_, fun ch mem => mem_takeWhile_imp mem⟩, takeWhile_append_dropWhile.symm⟩
  cases p with
  | nil => exact absurd digit (by decide)
  | cons ch p =>
    have firstDigit : isDigit ch = true := digit
    rw [takeWhile_cons_of_pos firstDigit]
    exact cons_ne_nil _ _

theorem peek_cons {ch : Byte} (here : peek p = ch) (some_ : ch ≠ 0) : p = ch :: p.tail := by
  cases p with
  | nil => exact absurd here.symm some_
  | cons other p => rw [← here]; rfl

theorem read_end_found (isLength : IsLength content)
    (isFound : (readEnd content start suffix p).1 = some found) :
    ∃ digits after : Bytes, IsNumber digits ∧ IsSpaces after ∧ p = digits ++ (after ++ found.p) ∧
      AtEnd found.p ∧ decimal digits < 2 ^ 63 ∧
      Range.mk found.start found.stop = (if suffix then bounds content (.suffix (decimal digits))
        else ⟨start, min (decimal digits + 1) content⟩) := by
  obtain ⟨least, most⟩ := isLength
  by_cases digit : isDigit (peek p) = true
  · obtain ⟨isNumber, isText⟩ := number_split digit
    obtain ⟨after, spaces, isRest⟩ := skip_spaces_split (p.dropWhile isDigit)
    rw [read_end_eq digit] at isFound
    by_cases less : decimal (p.takeWhile isDigit) < 2 ^ 63
    · have lastFits : offT (content - 1) = content - 1 := off_t_fits ⟨by omega, by omega⟩
      have startFits : offT (content - decimal (p.takeWhile isDigit)) =
          content - decimal (p.takeWhile isDigit) :=
        off_t_fits ⟨by omega, by omega⟩
      have nextFits : ∀ stop, ¬stop ≥ content → -1 ≤ stop → offT (stop + 1) = stop + 1 := by
        intro stop less least
        exact off_t_fits ⟨by omega, by omega⟩
      rw [if_pos less] at isFound
      dsimp only at isFound
      split at isFound
      · cases isFound
      · rename_i atEnd
        have isEnd : AtEnd (skipSpaces (p.dropWhile isDigit)) := by
          rw [not_and_or, not_not, not_not] at atEnd
          exact atEnd
        refine ⟨p.takeWhile isDigit, after, isNumber, spaces, ?_⟩
        cases suffix with
        | true =>
          rw [if_pos rfl, if_pos rfl, if_pos rfl, lastFits, startFits, if_neg (by omega),
            nextFits _ (by omega) (by omega)] at isFound
          cases isFound
          refine ⟨by rw [← isRest]; exact isText, isEnd, less, ?_⟩
          rw [if_pos rfl, bounds, Int.sub_add_cancel]
        | false =>
          have noSuffix : ¬false = true := nofun
          rw [if_neg noSuffix, if_neg noSuffix] at isFound
          rw [if_neg noSuffix]
          split at isFound
          · cases isFound
            refine ⟨by rw [← isRest]; exact isText, isEnd, less, ?_⟩
            rw [Int.min_eq_right (by omega)]
          · rename_i inside
            rw [nextFits _ inside (by omega)] at isFound
            cases isFound
            refine ⟨by rw [← isRest]; exact isText, isEnd, less, ?_⟩
            rw [Int.min_eq_left (by omega)]
    · rw [if_neg less] at isFound
      cases isFound
  · rw [readEnd, if_pos digit] at isFound
    cases isFound

theorem read_range_eq (notSuffix : peek (skipSpaces p) ≠ '-'.toUInt8)
    (digit : isDigit (peek (skipSpaces p)) = true) : readRange content p =
      if decimal ((skipSpaces p).takeWhile isDigit) < 2 ^ 63 then
        let rest := skipSpaces ((skipSpaces p).dropWhile isDigit)
        if peek rest ≠ '-'.toUInt8 then (none, (number 0 (skipSpaces p)).2)
        else if AtEnd (skipSpaces rest.tail) then
          (some ⟨decimal ((skipSpaces p).takeWhile isDigit), content, skipSpaces rest.tail⟩,
            (number 0 (skipSpaces p)).2)
        else
          let later := readEnd content (decimal ((skipSpaces p).takeWhile isDigit)) false
            (skipSpaces rest.tail)
          (later.1, (number 0 (skipSpaces p)).2 ++ later.2)
      else (none, (number 0 (skipSpaces p)).2) := by
  rw [readRange]
  rw [if_pos notSuffix, if_neg (not_not.2 digit)]
  have found := (number_at (skipSpaces p)).1
  generalize number 0 (skipSpaces p) = read at found ⊢
  obtain ⟨result, trace⟩ := read
  dsimp only at found
  rw [found]
  by_cases less : decimal ((skipSpaces p).takeWhile isDigit) < 2 ^ 63
  · rw [if_pos less, if_pos less]
    rfl
  · rw [if_neg less, if_neg less]

theorem read_range_suffix (isSuffix : peek (skipSpaces p) = '-'.toUInt8) :
    readRange content p = readEnd content 0 true (skipSpaces p).tail := by
  rw [readRange]
  rw [if_neg (not_not.2 isSuffix)]

theorem at_end_no_digit (atEnd : AtEnd p) : isDigit (peek p) = false := by
  rcases atEnd with isComma | isNul
  · rw [isComma]
    decide
  · rw [isNul]
    decide

theorem read_range_trace (isLength : IsLength content) :
    (∀ value ∈ (readRange content p).2, Fits value) ↔ SmallRange p := by
  unfold SmallRange
  by_cases isSuffix : peek (skipSpaces p) = '-'.toUInt8
  · have notDigit : isDigit (peek (skipSpaces p)) = false := by
      rw [isSuffix]
      decide
    have second : secondNumber p = some (skipSpaces p).tail := if_pos isSuffix
    rw [read_range_suffix isSuffix, read_end_trace isLength, second]
    constructor
    · intro small
      refine ⟨small_from_other notDigit, ?_⟩
      intro text isText
      cases isText
      exact small
    · intro small
      exact small.2 _ rfl
  · by_cases digit : isDigit (peek (skipSpaces p)) = true
    · have second : secondNumber p = if decimal ((skipSpaces p).takeWhile isDigit) < 2 ^ 63 then
          if peek (skipSpaces ((skipSpaces p).dropWhile isDigit)) = '-'.toUInt8 then
            some (skipSpaces (skipSpaces ((skipSpaces p).dropWhile isDigit)).tail) else none
          else none := by
        rw [secondNumber]
        rw [if_neg isSuffix]
        simp only [digit, true_and]
      rw [read_range_eq isSuffix digit, second, ← (number_at (skipSpaces p)).2]
      by_cases less : decimal ((skipSpaces p).takeWhile isDigit) < 2 ^ 63
      · rw [if_pos less, if_pos less]
        by_cases hyphen : peek (skipSpaces ((skipSpaces p).dropWhile isDigit)) = '-'.toUInt8
        · rw [if_neg (not_not.2 hyphen), if_pos hyphen]
          by_cases atEnd : AtEnd (skipSpaces (skipSpaces ((skipSpaces p).dropWhile isDigit)).tail)
          · rw [if_pos atEnd]
            refine ⟨fun fits => ⟨fits, ?_⟩, And.left⟩
            intro text isText
            cases isText
            exact small_from_other (at_end_no_digit atEnd)
          · rw [if_neg atEnd]
            rw [forall_mem_append, read_end_trace isLength]
            refine and_congr_right fun _ => ⟨?_, fun small => small _ rfl⟩
            intro small text isText
            cases isText
            exact small
        · rw [if_pos hyphen, if_neg hyphen]
          exact (and_iff_left nofun).symm
      · rw [if_neg less, if_neg less]
        exact (and_iff_left nofun).symm
    · have second : secondNumber p = none := by
        rw [secondNumber]
        rw [if_neg isSuffix, if_neg fun both => digit both.1]
      have none_ : readRange content p = (none, []) := by
        rw [readRange]
        rw [if_pos isSuffix, if_pos digit]
      rw [none_, second]
      refine ⟨fun _ => ⟨small_from_other (Bool.eq_false_iff.2 digit), ?_⟩, ?_⟩
      · exact nofun
      · exact nofun

def Bounded : RangeSpec → Prop
  | .fromTo _ _ => True
  | .onward _ => True
  | .suffix length => length < 2 ^ 63

theorem read_range_found (isLength : IsLength content) (isFound : (readRange content p).1 = some found)
    : ∃ (spec : RangeSpec) (text : Bytes), Spells spec text ∧ p = text ++ found.p ∧ AtEnd found.p ∧
      Bounded spec ∧ Range.mk found.start found.stop = bounds content spec := by
  obtain ⟨before, spaces, isText⟩ := skip_spaces_split p
  by_cases isSuffix : peek (skipSpaces p) = '-'.toUInt8
  · rw [read_range_suffix isSuffix] at isFound
    obtain ⟨digits, after, isNumber, isAfter, isRest, atEnd, less, isRange⟩ :=
      read_end_found isLength isFound
    rw [peek_cons isSuffix (by decide), isRest] at isText
    refine ⟨.suffix (decimal digits), before ++ '-'.toUInt8 :: (digits ++ after),
      .suffix spaces isNumber isAfter, ?_, atEnd, less, ?_⟩
    · simpa using isText
    · rw [isRange, if_pos rfl]
  · by_cases digit : isDigit (peek (skipSpaces p)) = true
    · obtain ⟨isNumber, isFirst⟩ := number_split digit
      obtain ⟨middle, isMiddle, isHyphen⟩ := skip_spaces_split ((skipSpaces p).dropWhile isDigit)
      rw [read_range_eq isSuffix digit] at isFound
      by_cases less : decimal ((skipSpaces p).takeWhile isDigit) < 2 ^ 63
      · rw [if_pos less] at isFound
        by_cases hyphen : peek (skipSpaces ((skipSpaces p).dropWhile isDigit)) = '-'.toUInt8
        · rw [if_neg (not_not.2 hyphen)] at isFound
          obtain ⟨gap, isGap, isBehind⟩ :=
            skip_spaces_split (skipSpaces ((skipSpaces p).dropWhile isDigit)).tail
          rw [isFirst, isHyphen, peek_cons hyphen (by decide), isBehind] at isText
          by_cases atEnd : AtEnd (skipSpaces (skipSpaces ((skipSpaces p).dropWhile isDigit)).tail)
          · rw [if_pos atEnd] at isFound
            cases isFound
            refine ⟨.onward (decimal ((skipSpaces p).takeWhile isDigit)), _,
              .onward spaces isNumber isMiddle isGap, ?_, atEnd, trivial, rfl⟩
            simpa using isText
          · rw [if_neg atEnd] at isFound
            obtain ⟨digits, after, isLast, isAfter, isRest, ends, lastLess, isRange⟩ :=
              read_end_found isLength isFound
            rw [isRest] at isText
            refine ⟨.fromTo (decimal ((skipSpaces p).takeWhile isDigit)) (decimal digits), _,
              .fromTo spaces isNumber isMiddle isGap isLast isAfter, ?_, ends, trivial, isRange⟩
            simpa using isText
        · rw [if_pos hyphen] at isFound
          cases isFound
      · rw [if_neg less] at isFound
        cases isFound
    · have none_ : readRange content p = (none, []) := by
        rw [readRange]
        rw [if_pos isSuffix, if_pos digit]
      rw [none_] at isFound
      cases isFound

end Ranges

inductive Reached (content : Int) (first : LoopState) : LoopState → Prop
  | first : Reached content first first
  | again {state next : LoopState} (before : Reached content first state)
      (isNext : (iteration content state).1 = .again next) : Reached content first next

def Counted (content : Int) (spec : RangeSpec) (state after : LoopState) : Prop :=
  match satisfied content spec with
  | none => after = { state with p := after.p }
  | some range => after.array = state.array ++ [range] ∧
      after.size = state.size + (range.stop - range.start) ∧
      after.size ≤ maxOffT ∧ state.ranges = after.ranges + 1

section Loop

variable {content : Int} {state next : LoopState}

theorem bounds_length (isLength : IsLength content) {spec : RangeSpec} (bound : Bounded spec)
    (some_ : (bounds content spec).start < (bounds content spec).stop) :
    0 < (bounds content spec).stop - (bounds content spec).start ∧
      (bounds content spec).stop - (bounds content spec).start ≤ maxOffT := by
  obtain ⟨least, most⟩ := isLength
  cases spec with
  | fromTo first last | onward first =>
    dsimp only [bounds] at some_ ⊢
    omega
  | suffix length =>
    have less : length < 2 ^ 63 := bound
    dsimp only [bounds] at some_ ⊢
    unfold maxOffT
    omega

theorem push_range_trace (size : 0 ≤ state.size ∧ state.size ≤ maxOffT)
    (pos : 0 < range.stop - range.start) (fits : range.stop - range.start ≤ maxOffT) :
    ∀ value ∈ (pushRange state range).2, Fits value := by
  have lengthFits : Fits (range.stop - range.start) := ⟨by omega, fits⟩
  have roomFits : Fits (maxOffT - (range.stop - range.start)) := by
    unfold Fits maxOffT at *
    omega
  unfold pushRange
  split
  · dsimp only
    rw [off_t_fits lengthFits, off_t_fits roomFits]
    have both : ∀ value ∈ [range.stop - range.start, maxOffT - (range.stop - range.start)], Fits value :=
      forall_mem_cons.2 ⟨lengthFits, forall_mem_singleton.2 roomFits⟩
    split
    · exact both
    · have sumFits : Fits (state.size + (range.stop - range.start)) := by
        unfold Fits maxOffT at *
        omega
      have all : ∀ value ∈ [range.stop - range.start, maxOffT - (range.stop - range.start),
          range.stop - range.start, state.size + (range.stop - range.start)], Fits value := by
        refine forall_mem_cons.2 ⟨lengthFits, forall_mem_cons.2 ⟨roomFits, ?_⟩⟩
        exact forall_mem_cons.2 ⟨lengthFits, forall_mem_singleton.2 sumFits⟩
      split
      · exact all
      · exact all
  · exact nofun

theorem iteration_trace (isLength : IsLength content) (size : 0 ≤ state.size ∧ state.size ≤ maxOffT) :
    (∀ value ∈ (iteration content state).2, Fits value) ↔ SmallRange state.p := by
  rw [← read_range_trace isLength, iteration]
  match isRead : readRange content state.p with
  | (none, trace) => rfl
  | (some found, trace) =>
    dsimp only
    split
    · rename_i some_
      obtain ⟨spec, text, -, -, -, bound, isRange⟩ :=
        read_range_found isLength (congrArg Prod.fst isRead)
      have isStart : found.start = (bounds content spec).start := congrArg Range.start isRange
      have isStop : found.stop = (bounds content spec).stop := congrArg Range.stop isRange
      rw [isStart, isStop] at some_ ⊢
      obtain ⟨pos, fits⟩ := bounds_length isLength bound some_
      exact fits_append (push_range_trace size pos fits)
    · rfl

theorem push_range_counted {range : Range} {after : Iterated} (size : 0 ≤ state.size ∧ state.size ≤ maxOffT)
    (pos : 0 < range.stop - range.start) (fits : range.stop - range.start ≤ maxOffT)
    (isAfter : (pushRange state range).1 = after) : (∃ rc array, after = .returned rc array ∧ rc ≠ .ngxOk) ∨
      ∃ pushed : LoopState, after = goOn pushed ∧ pushed.p = state.p ∧
      pushed.array = state.array ++ [range] ∧
        pushed.size = state.size + (range.stop - range.start) ∧ pushed.size ≤ maxOffT ∧
        state.ranges = pushed.ranges + 1 := by
  have lengthFits : Fits (range.stop - range.start) := ⟨by omega, fits⟩
  have roomFits : Fits (maxOffT - (range.stop - range.start)) := by
    unfold Fits maxOffT at *
    omega
  subst isAfter
  unfold pushRange
  split
  · dsimp only
    rw [off_t_fits lengthFits, off_t_fits roomFits]
    split
    · exact .inl ⟨_, _, rfl, nofun⟩
    · have sumFits : Fits (state.size + (range.stop - range.start)) := by
        unfold Fits maxOffT at *
        omega
      split
      · exact .inl ⟨_, _, rfl, nofun⟩
      · rw [off_t_fits sumFits]
        exact .inr ⟨_, rfl, rfl, rfl, rfl, sumFits.2, by dsimp only; omega⟩
  · exact .inl ⟨_, _, rfl, nofun⟩

theorem iteration_cases (isLength : IsLength content) (size : 0 ≤ state.size ∧ state.size ≤ maxOffT) :
    (∃ rc array, (iteration content state).1 = .returned rc array ∧ rc ≠ .ngxOk) ∨
      ∃ (spec : RangeSpec) (text : Bytes) (after : LoopState), Spells spec text ∧
        state.p = text ++ after.p ∧ AtEnd after.p ∧ Counted content spec state after ∧
        (iteration content state).1 = goOn after := by
  rw [iteration]
  match isRead : readRange content state.p with
  | (none, trace) => exact .inl ⟨_, _, rfl, nofun⟩
  | (some found, trace) =>
    obtain ⟨spec, text, spells, isText, atEnd, bound, isRange⟩ :=
      read_range_found isLength (congrArg Prod.fst isRead)
    have isStart : found.start = (bounds content spec).start := congrArg Range.start isRange
    have isStop : found.stop = (bounds content spec).stop := congrArg Range.stop isRange
    dsimp only
    rw [isStart, isStop]
    by_cases some_ : (bounds content spec).start < (bounds content spec).stop
    · obtain ⟨pos, fits⟩ := bounds_length isLength bound some_
      have isSatisfied : satisfied content spec = some (bounds content spec) := if_pos some_
      rw [if_pos some_]
      obtain returned | ⟨pushed, isPushed, isP, isArray, isSize, small, isRanges⟩ :=
        @push_range_counted { state with p := found.p } (bounds content spec) _ size pos fits rfl
      · exact .inl returned
      · have samePlace : pushed.p = found.p := isP
        refine .inr ⟨spec, text, pushed, spells, by rw [samePlace]; exact isText,
          by rw [samePlace]; exact atEnd, ?_, isPushed⟩
        unfold Counted
        rw [isSatisfied]
        exact ⟨isArray, isSize, small, isRanges⟩
    · have isSatisfied : satisfied content spec = none := if_neg some_
      rw [if_neg some_]
      refine .inr ⟨spec, text, { state with p := found.p }, spells, isText, atEnd, ?_, rfl⟩
      unfold Counted
      rw [isSatisfied]

end Loop

def total (ranges : List Range) : Int := (ranges.map fun range => range.stop - range.start).sum

structure Accepted (text : Bytes) (content : Int) (limit : Nat) (ranges : List Range) : Prop where
  some_ : 1 ≤ ranges.length
  limited : ranges.length ≤ limit
  inside : ∀ range ∈ ranges, 0 ≤ range.start ∧ range.start < range.stop ∧ range.stop ≤ content
  total : total ranges ≤ content
  satisfiable : ∃ specs, HeaderText specs text ∧ ranges = specs.filterMap (satisfied content)

section Runs

variable {content : Int} {first state next after : LoopState} {spec : RangeSpec}

def SizeFits (state : LoopState) : Prop := 0 ≤ state.size ∧ state.size ≤ maxOffT

theorem satisfied_some (isSome : satisfied content spec = some range) :
    range = bounds content spec ∧ range.start < range.stop := by
  unfold satisfied at isSome
  split at isSome
  · cases isSome
    exact ⟨rfl, by assumption⟩
  · cases isSome

theorem counted_sums (count : Counted content spec state after) :
    after.array = state.array ++ (satisfied content spec).toList ∧
      after.size = state.size + total (satisfied content spec).toList ∧
      state.ranges = after.ranges + (satisfied content spec).toList.length := by
  unfold Counted at count
  match isSatisfied : satisfied content spec with
  | none =>
    rw [isSatisfied] at count
    rw [count]
    simp [total]
  | some range =>
    rw [isSatisfied] at count
    obtain ⟨isArray, isSize, -, isRanges⟩ := count
    refine ⟨isArray, ?_, isRanges⟩
    simp [total, isSize]

theorem counted_size (size : SizeFits state) (count : Counted content spec state after) :
    SizeFits after := by
  obtain ⟨least, most⟩ := size
  unfold Counted at count
  match isSatisfied : satisfied content spec with
  | none =>
    rw [isSatisfied] at count
    rw [count]
    exact ⟨least, most⟩
  | some range =>
    rw [isSatisfied] at count
    obtain ⟨-, isSize, small, -⟩ := count
    have pos := (satisfied_some isSatisfied).2
    exact ⟨by omega, small⟩

theorem go_on_again (isNext : goOn state = .again next) :
    peek state.p = ','.toUInt8 ∧ next = { state with p := state.p.tail } := by
  unfold goOn at isNext
  split at isNext
  · cases isNext
  · rename_i isComma
    injection isNext with isNext
    exact ⟨not_not.1 isComma, isNext.symm⟩

section

variable (isLength : IsLength content) (size : SizeFits state)
  (isNext : (iteration content state).1 = .again next)
include isLength size isNext

theorem iteration_again : ∃ (spec : RangeSpec) (text : Bytes) (after : LoopState), Spells spec text ∧
      Counted content spec state after ∧ state.p = text ++ ','.toUInt8 :: next.p ∧
      next = { after with p := next.p } := by
  obtain ⟨rc, array, isReturned, -⟩ | ⟨spec, text, after, spells, isText, -, count, isAfter⟩ :=
    iteration_cases isLength size
  · rw [isReturned] at isNext
    cases isNext
  · rw [isAfter] at isNext
    obtain ⟨isComma, rfl⟩ := go_on_again isNext
    refine ⟨spec, text, after, spells, count, ?_, rfl⟩
    rw [isText]
    exact congrArg (text ++ ·) (peek_cons isComma (by decide))

theorem again_size : SizeFits next := by
  obtain ⟨spec, text, after, -, count, -, isAfter⟩ := iteration_again isLength size isNext
  have afterSize : SizeFits after := counted_size size count
  rw [isAfter]
  exact afterSize

end

theorem reached_size (isLength : IsLength content) (size : SizeFits first)
    (reached : Reached content first state) : SizeFits state := by
  induction reached with
  | first => exact size
  | again before isNext ih => exact again_size isLength ih isNext

theorem reached_head (isNext : (iteration content first).1 = .again next)
    (reached : Reached content next state) : Reached content first state := by
  induction reached with
  | first => exact .again .first isNext
  | again before isNext' ih => exact .again ih isNext'

theorem reached_cases (reached : Reached content first state) :
    state = first ∨ ∃ next, (iteration content first).1 = .again next ∧
      Reached content next state := by
  induction reached with
  | first => exact .inl rfl
  | @again state last before isLast ih =>
    right
    obtain rfl | ⟨next, isNext, later⟩ := ih
    · exact ⟨last, isLast, .first⟩
    · exact ⟨next, isNext, .again later isLast⟩

variable {fuel : Nat} {parsed : Parsed} {ranges : List Range}

theorem loop_trace (isParsed : loop content fuel first = some parsed) :
    (∀ value ∈ parsed.trace, Fits value) ↔ ∀ state, Reached content first state →
      ∀ value ∈ (iteration content state).2, Fits value := by
  induction fuel generalizing first parsed with
  | zero => cases isParsed
  | succ fuel ih =>
    have stops : (∀ next, (iteration content first).1 ≠ .again next) →
        ((∀ value ∈ (iteration content first).2, Fits value) ↔
          ∀ state, Reached content first state →
            ∀ value ∈ (iteration content state).2, Fits value) := by
      intro noNext
      constructor
      · intro fits state reached
        obtain rfl | ⟨next, isNext, -⟩ := reached_cases reached
        · exact fits
        · exact absurd isNext (noNext next)
      · exact fun fits => fits first .first
    rw [loop] at isParsed
    match isStep : iteration content first with
    | (.again next, trace) =>
      rw [isStep] at isParsed
      obtain ⟨rest, isRest, rfl⟩ := map_eq_some_iff.1 isParsed
      have isNext : (iteration content first).1 = .again next := congrArg Prod.fst isStep
      have isTrace : (iteration content first).2 = trace := congrArg Prod.snd isStep
      rw [forall_mem_append, ih isRest]
      constructor
      · rintro ⟨here, later⟩ state reached
        obtain rfl | ⟨other, isOther, further⟩ := reached_cases reached
        · rw [isTrace]
          exact here
        · rw [isNext] at isOther
          cases isOther
          exact later state further
      · intro fits
        refine ⟨?_, fun state reached => fits state (reached_head isNext reached)⟩
        rw [← isTrace]
        exact fits first .first
    | (.left last, trace) | (.returned rc array, trace) =>
      rw [isStep] at isParsed stops
      cases isParsed
      exact stops nofun

theorem loop_ends (isLength : IsLength content) (size : SizeFits first)
    (enough : first.p.length < fuel) : ∃ parsed, loop content fuel first = some parsed := by
  induction fuel generalizing first with
  | zero => cases enough
  | succ fuel ih =>
    rw [loop]
    match isStep : iteration content first with
    | (.again next, trace) =>
      have isNext : (iteration content first).1 = .again next := congrArg Prod.fst isStep
      obtain ⟨spec, text, after, -, -, isText, -⟩ := iteration_again isLength size isNext
      have shorter : next.p.length < fuel := by
        rw [isText, length_append, length_cons] at enough
        omega
      obtain ⟨parsed, isParsed⟩ := ih (again_size isLength size isNext) shorter
      dsimp only
      rw [isParsed]
      exact ⟨_, rfl⟩
    | (.left last, trace) => exact ⟨_, rfl⟩
    | (.returned rc array, trace) => exact ⟨_, rfl⟩

theorem total_append (first second : List Range) : total (first ++ second) = total first + total second := by
  simp [total]

theorem filter_map_cons (spec : RangeSpec) (specs : List RangeSpec) :
    (spec :: specs).filterMap (satisfied content) =
      (satisfied content spec).toList ++ specs.filterMap (satisfied content) := by
  cases isSatisfied : satisfied content spec <;> simp [isSatisfied]

theorem loop_ok (isLength : IsLength content) (size : SizeFits first)
    (noNul : 0 ∉ first.p) (isParsed : loop content fuel first = some parsed) (ok : parsed.rc = .ngxOk) :
    ∃ specs, HeaderText specs first.p ∧
      parsed.ranges = first.array ++ specs.filterMap (satisfied content) ∧
      (specs.filterMap (satisfied content)).length ≤ first.ranges ∧
      first.size + total (specs.filterMap (satisfied content)) ≤ content ∧ parsed.ranges ≠ [] := by
  induction fuel generalizing first parsed with
  | zero => cases isParsed
  | succ fuel ih =>
    rw [loop] at isParsed
    match isStep : iteration content first with
    | (.again next, trace) =>
      rw [isStep] at isParsed
      obtain ⟨rest, isRest, rfl⟩ := map_eq_some_iff.1 isParsed
      have isNext : (iteration content first).1 = .again next := congrArg Prod.fst isStep
      have nextSize := again_size isLength size isNext
      obtain ⟨spec, text, after, spells, count, isText, isAfter⟩ := iteration_again isLength size isNext
      obtain ⟨isArray, isSize, isRanges⟩ := counted_sums count
      rw [isText] at noNul
      have nextNoNul : 0 ∉ next.p := fun mem =>
        noNul (mem_append_right _ (mem_cons_of_mem _ mem))
      obtain ⟨specs, others, restRanges, limited, sum, some_⟩ := ih nextSize nextNoNul isRest ok
      have nextArray : next.array = after.array := by rw [isAfter]
      have nextRanges : next.ranges = after.ranges := by rw [isAfter]
      have nextSum : next.size = after.size := by rw [isAfter]
      rw [nextArray, isArray] at restRanges
      refine ⟨spec :: specs, ?_, ?_, ?_, ?_, some_⟩
      · rw [isText]
        exact .more spells others
      · rw [restRanges, filter_map_cons, append_assoc]
      · rw [filter_map_cons, length_append]
        omega
      · rw [filter_map_cons, total_append]
        omega
    | (.left last, trace) =>
      rw [isStep] at isParsed
      cases isParsed
      have isLeft : (iteration content first).1 = .left last := congrArg Prod.fst isStep
      obtain ⟨rc, array, isReturned, -⟩ | ⟨spec, text, after, spells, isText, atEnd, count, isAfter⟩ :=
        iteration_cases isLength size
      · rw [isReturned] at isLeft
        cases isLeft
      · rw [isAfter] at isLeft
        unfold goOn at isLeft
        split at isLeft
        · rename_i notComma
          injection isLeft with isLast
          subst isLast
          have isNul : peek after.p = 0 := atEnd.resolve_left notComma
          have isEnd : after.p = [] := by
            cases isP : after.p with
            | nil => rfl
            | cons ch p =>
              rw [isP] at isNul isText
              have isZero : ch = 0 := isNul
              rw [isText, isZero] at noNul
              exact absurd (mem_append_right _ (mem_cons_self ..)) noNul
          obtain ⟨isArray, isSize, isRanges⟩ := counted_sums count
          have single : [spec].filterMap (satisfied content) =
              (satisfied content spec).toList := by
            rw [filter_map_cons]
            exact append_nil _
          dsimp only [finish] at ok
          rw [isText, isEnd, append_nil]
          refine ⟨[spec], .one spells, ?_⟩
          rw [single]
          split at ok
          · cases ok
          · rename_i some_
            split at ok
            · cases ok
            · exact ⟨isArray, by omega, by omega, some_⟩
        · cases isLeft
    | (.returned rc array, trace) =>
      rw [isStep] at isParsed
      cases isParsed
      have isReturned : (iteration content first).1 = .returned rc array :=
        congrArg Prod.fst isStep
      obtain ⟨rc', array', isOther, notOk⟩ | ⟨spec, text, after, -, -, -, -, isAfter⟩ :=
        iteration_cases isLength size
      · rw [isReturned] at isOther
        injection isOther with isRc
        exact absurd (isRc.symm.trans ok) notOk
      · rw [isReturned] at isAfter
        unfold goOn at isAfter
        split at isAfter <;> cases isAfter

theorem total_cons (range : Range) (ranges : List Range) :
    total (range :: ranges) = range.stop - range.start + total ranges := sum_cons

theorem total_nonneg (pos : ∀ range ∈ ranges, range.start < range.stop) : 0 ≤ total ranges := by
  induction ranges with
  | nil => exact Int.le_refl _
  | cons range ranges ih =>
    have here := pos range (mem_cons_self ..)
    have rest := ih fun other mem => pos other (mem_cons_of_mem _ mem)
    rw [total_cons]
    omega

theorem length_le_total (pos : ∀ range ∈ ranges, range.start < range.stop)
    (mem : range ∈ ranges) : range.stop - range.start ≤ total ranges := by
  induction ranges with
  | nil => cases mem
  | cons other ranges ih =>
    have others : ∀ inner ∈ ranges, inner.start < inner.stop :=
      fun inner inRanges => pos inner (mem_cons_of_mem _ inRanges)
    have rest := total_nonneg others
    have here := pos other (mem_cons_self ..)
    rw [total_cons]
    rcases mem_cons.1 mem with rfl | inRanges
    · omega
    · have later := ih others inRanges
      omega

theorem satisfied_inside {specs : List RangeSpec}
    (sum : total (specs.filterMap (satisfied content)) ≤ content) :
    ∀ range ∈ specs.filterMap (satisfied content),
      0 ≤ range.start ∧ range.start < range.stop ∧ range.stop ≤ content := by
  have pos : ∀ range ∈ specs.filterMap (satisfied content), range.start < range.stop := by
    intro range mem
    obtain ⟨spec, -, isSatisfied⟩ := mem_filterMap.1 mem
    exact (satisfied_some isSatisfied).2
  intro range mem
  have within := length_le_total pos mem
  have less := pos range mem
  obtain ⟨spec, -, isSatisfied⟩ := mem_filterMap.1 mem
  obtain ⟨isRange, -⟩ := satisfied_some isSatisfied
  refine ⟨?_, less, ?_⟩
  · cases spec with
    | fromTo first last | onward first =>
      rw [isRange]
      exact Int.natCast_nonneg first
    | suffix length =>
      have isStop : range.stop = content := congrArg Range.stop isRange
      omega
  · rw [isRange]
    cases spec with
    | fromTo first last => exact Int.min_le_right ..
    | onward first => exact Int.le_refl _
    | suffix length => exact Int.le_refl _

end Runs

theorem nothing_parsed {value : Bytes} {content : Int} {limit : Nat} {answers : List Bool}
    (fails : ∀ rest, answers ≠ true :: rest) :
    (ReturnCode.ngxError = .ngxOk → Accepted (value.drop 6) content limit []) ∧
      (((∀ result ∈ ([] : Trace), Fits result) ∧
          (ReturnCode.ngxError = .ngxOk → Accepted (value.drop 6) content limit [])) ↔
        ∀ rest, answers = true :: rest → ∀ state,
          Reached content (firstState value limit rest) state → SmallRange state.p) := by
  refine ⟨nofun, ?_⟩
  constructor
  · exact fun _ rest isRest => absurd isRest (fails rest)
  · exact fun _ => ⟨nofun, nofun⟩

/-- The parser always comes to an end, and what it accepts is right. All its computations
fit in `off_t`, and so it does what it should, exactly when no number it reads is among
the last 48 values of the type. -/
theorem range_parse_fits_iff {value : Bytes} {content : Int} {limit : Nat} {answers : List Bool}
    (noNul : 0 ∉ value) (isLength : 0 ≤ content ∧ content ≤ maxOffT) :
    ∃ parsed, ngxHttpRangeParse none value content limit answers = some parsed ∧
      (parsed.rc = .ngxOk → Accepted (value.drop 6) content limit parsed.ranges) ∧
      (((∀ result ∈ parsed.trace, Fits result) ∧
          (parsed.rc = .ngxOk → Accepted (value.drop 6) content limit parsed.ranges)) ↔
        ∀ rest, answers = true :: rest → ∀ state,
          Reached content (firstState value limit rest) state → SmallRange state.p) := by
  match answers with
  | true :: rest =>
    have room : (0 : Int) ≤ maxOffT := by decide
    have size : SizeFits (firstState value limit rest) := ⟨Int.le_refl _, room⟩
    have enough : (firstState value limit rest).p.length < value.length + 1 := by
      have isDrop : (firstState value limit rest).p.length = value.length - 6 := length_drop
      omega
    obtain ⟨parsed, isParsed⟩ := loop_ends isLength size enough
    have accepted : parsed.rc = .ngxOk → Accepted (value.drop 6) content limit parsed.ranges := by
      intro ok
      have noNulText : 0 ∉ (firstState value limit rest).p := fun mem => noNul (mem_of_mem_drop mem)
      obtain ⟨specs, isHeader, isRanges, limited, sum, some_⟩ := loop_ok isLength size noNulText isParsed ok
      have isFound : parsed.ranges = specs.filterMap (satisfied content) := isRanges
      have noSize : (firstState value limit rest).size = 0 := rfl
      rw [noSize, Int.zero_add] at sum
      rw [isFound] at some_ ⊢
      exact ⟨length_pos_iff.2 some_, limited, satisfied_inside sum, sum, specs, isHeader, rfl⟩
    refine ⟨parsed, isParsed, accepted, ?_⟩
    rw [and_iff_left accepted, loop_trace isParsed]
    constructor
    · intro fits other isOther state reached
      injection isOther with _ isOther
      subst isOther
      exact (iteration_trace isLength (reached_size isLength size reached)).1 (fits state reached)
    · intro small state reached
      exact (iteration_trace isLength (reached_size isLength size reached)).2 (small rest rfl state reached)
  | [] | false :: _ => exact ⟨_, rfl, nothing_parsed nofun⟩

/-- "bytes=1-2,-3" -/
def twoRanges : Bytes := "bytes=1-2,-3".toUTF8.toList

theorem two_ranges_accepted :
    ∃ parsed, ngxHttpRangeParse none twoRanges 10 4 (List.replicate 3 true) = some parsed ∧
      parsed.rc = .ngxOk ∧ Accepted (twoRanges.drop 6) 10 4 parsed.ranges := by
  have isOk : (ngxHttpRangeParse none twoRanges 10 4 (List.replicate 3 true)).map Parsed.rc =
      some .ngxOk := by
    with_unfolding_all decide
  obtain ⟨parsed, isParsed, accepted, -⟩ := @range_parse_fits_iff twoRanges 10 4 (List.replicate 3 true)
    (by with_unfolding_all decide) (by decide)
  rw [isParsed] at isOk
  have ok : parsed.rc = .ngxOk := Option.some.inj isOk
  exact ⟨parsed, isParsed, ok, accepted ok⟩

/-- "bytes=9223372036854775807-" -/
def limitRange : Bytes := "bytes=9223372036854775807-".toUTF8.toList

theorem limit_range_overflows :
    ∃ parsed, ngxHttpRangeParse none limitRange maxOffT 1 [true, true] = some parsed ∧
      ¬∀ result ∈ parsed.trace, Fits result := by
  have overflows : (ngxHttpRangeParse none limitRange maxOffT 1 [true, true]).map
      (fun parsed => decide (∀ result ∈ parsed.trace, Fits result)) = some false := by
    with_unfolding_all decide
  obtain ⟨parsed, isParsed, notFits⟩ := map_eq_some_iff.1 overflows
  exact ⟨parsed, isParsed, of_decide_eq_false notFits⟩

end ServerCore.NginxHttpRangeParsing
