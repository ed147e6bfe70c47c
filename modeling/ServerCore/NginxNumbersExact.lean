import ServerCore.DigitString
import ServerCore.ByteTable
import ServerCore.NginxNumbers

/-!
# Numbers are read exactly

Each function returns the number up to the largest one of its type, and an error
for every other text but a lone point.
-/

namespace ServerCore.NginxNumbersExact

open DigitString NginxNumbers Option

variable {c : Byte} {digit number : Nat}

def decimalDigit (c : Byte) : Option Nat := if isDigit c then some (c.toNat - '0'.toNat) else none

def hexDigit (c : Byte) : Option Nat :=
  if isDigit c then some (c.toNat - '0'.toNat)
  else if 'A'.toUInt8 ≤ c && c ≤ 'F'.toUInt8 then some (c.toNat - 'A'.toNat + 10)
  else if 'a'.toUInt8 ≤ c && c ≤ 'f'.toUInt8 then some (c.toNat - 'a'.toNat + 10)
  else none

/-- The number if there is one and it is at most `max`, and the error otherwise. -/
def exactly (max : Int) (number : Option Nat) : Int :=
  upTo max.toNat (fun number => (number : Int)) ngxError number

/-- The text is a decimal fraction with these digits before and behind its point. -/
structure DecimalFraction (text whole frac : Bytes) : Prop where
  written : text = whole ∧ frac = [] ∨ text = whole ++ dot :: frac
  digits : ∀ c ∈ whole ++ frac, isDigit c
  nonempty : whole ++ frac ≠ []

def fractionValue (whole frac : Bytes) : ℚ :=
  value 10 (whole.filterMap decimalDigit) +
    value 10 (frac.filterMap decimalDigit) / 10 ^ frac.length

/-- `ngx_atofp` returns the fraction times the power of ten. -/
structure AtofpExact (line : Bytes) (point : Nat) : Prop where
  fits : ∀ whole frac, DecimalFraction line whole frac → frac.length ≤ point →
    fractionValue whole frac * 10 ^ point ≤ ngxMaxIntTValue →
      ∃ result, ngxAtofp line point = some result ∧
        (result : ℚ) = fractionValue whole frac * 10 ^ point
  exceeds : ∀ whole frac, DecimalFraction line whole frac →
    ¬ (frac.length ≤ point ∧ fractionValue whole frac * 10 ^ point ≤ ngxMaxIntTValue) →
      ngxAtofp line point = some ngxError
  malformed : (¬ ∃ whole frac, DecimalFraction line whole frac) →
    ngxAtofp line point = some ngxError

/-- The number that a text denotes whose last character may be a unit. -/
def scaledNumber (scale : Byte → Option Nat) (line : Bytes) : Option Nat :=
  match line.getLast? with
  | none => none
  | some unit =>
    match scale unit with
    | none => numeral 10 decimalDigit line
    | some factor => (numeral 10 decimalDigit line.dropLast).map (· * factor)

def sizeUnit (unit : Byte) : Option Nat :=
  if unit = 'K'.toUInt8 ∨ unit = 'k'.toUInt8 then some (2 ^ 10)
  else if unit = 'M'.toUInt8 ∨ unit = 'm'.toUInt8 then some (2 ^ 20)
  else none

def offsetUnit (unit : Byte) : Option Nat :=
  if unit = 'G'.toUInt8 ∨ unit = 'g'.toUInt8 then some (2 ^ 30) else sizeUnit unit

structure NumbersExact (line : Bytes) (point : Nat) : Prop where
  atoi : ngxAtoi line = some (exactly ngxMaxIntTValue (numeral 10 decimalDigit line))
  atosz : ngxAtosz line = some (exactly ngxMaxSizeTValue (numeral 10 decimalDigit line))
  atoof : ngxAtoof line = some (exactly ngxMaxOffTValue (numeral 10 decimalDigit line))
  atotm : ngxAtotm line = some (exactly ngxMaxTimeTValue (numeral 10 decimalDigit line))
  hextoi : ngxHextoi line = some (exactly ngxMaxIntTValue (numeral 16 hexDigit line))
  atofp : AtofpExact line point
  size : ngxParseSize line = some (exactly ngxMaxSizeTValue (scaledNumber sizeUnit line))
  offset : ngxParseOffset line = some (exactly ngxMaxOffTValue (scaledNumber offsetUnit line))

section Decimal

theorem decimal_digit (decimal : decimalDigit c = some digit) :
    isDigit c ∧ digitOf c = digit ∧ digit < 10 := by
  unfold decimalDigit at decimal
  split_ifs at decimal with inside
  injection decimal with same
  have bounds := inside
  simp only [isDigit, Bool.and_eq_true, decide_eq_true_eq, UInt8.le_iff_toNat_le] at bounds
  have low : '0'.toUInt8.toNat = 48 := rfl
  have high : '9'.toUInt8.toNat = 57 := rfl
  have zero : '0'.toNat = 48 := rfl
  rw [digitOf]
  exact ⟨inside, by omega, by omega⟩

theorem not_digit (none_ : decimalDigit c = none) : isDigit c = false := by
  unfold decimalDigit at none_
  split_ifs at none_ with inside
  simpa using inside

theorem signed_nat (small : number < 2 ^ 63) : signed (number : Int) = some (number : Int) := by
  rw [signed, if_pos]
  omega

variable {limit number digit : Nat} {c : Byte}

theorem cut_off_eq (decimal : decimalDigit c = some digit) :
    cutOff limit number c = decide (limit < number * 10 + digit) := by
  have facts := decimal_digit decimal
  have test := @cut_off_iff 10 limit number digit facts.2.2
  rw [cutOff, facts.2.1, Bool.eq_iff_iff]
  simp only [Bool.and_eq_true, Bool.or_eq_true, decide_eq_true_eq]
  rw [← test]
  omega

theorem next_value_eq (decimal : decimalDigit c = some digit) (small : number * 10 + digit < 2 ^ 63) :
    nextValue number c = some ((number * 10 + digit : Nat) : Int) := by
  have tens : signed ((number : Int) * 10) = some ((number * 10 : Nat) : Int) := by
    have fits : number * 10 < 2 ^ 63 := by omega
    rw [← signed_nat fits, Int.natCast_mul]
    rfl
  have sum : signed (((number * 10 : Nat) : Int) + digit) = some ((number * 10 + digit : Nat) : Int) := by
    rw [← signed_nat small, Int.natCast_add]
  rw [nextValue, tens, (decimal_digit decimal).2.1, bind_eq_bind, bind_some]
  exact sum

theorem ato_loop_eq (small : limit < 2 ^ 63) (start : Nat) (bound : start ≤ limit) (line : Bytes) :
    atoLoop limit start line = upTo limit (fun number => some (number : Int)) (some ngxError)
        ((line.mapM decimalDigit).map (carried 10 start)) := by
  apply read_carried (fun number line => atoLoop limit (number : Int) line) (by omega)
  · intro number
    rfl
  · intro number c rest none_
    simp [atoLoop, not_digit none_]
  · intro number c next rest _ decimal above
    simp [atoLoop, (decimal_digit decimal).1, cut_off_eq decimal, above]
  · intro number c next rest decimal fits
    have stays : cutOff limit number c = false := by
      rw [cut_off_eq decimal]
      exact decide_eq_false (Nat.not_lt_of_le fits)
    simp [atoLoop, (decimal_digit decimal).1, stays, next_value_eq decimal (Nat.lt_of_le_of_lt fits small)]
  · exact bound

theorem up_to_some (number : Option Nat) :
    upTo limit (fun number => some (number : Int)) (some ngxError) number =
      some (upTo limit (fun number => (number : Int)) ngxError number) := by
  cases number with
  | none => rfl
  | some number =>
    simp only [upTo]
    split_ifs <;> rfl

theorem ngx_ato_exact (small : limit < 2 ^ 63) (line : Bytes) :
    ngxAto limit line = some (exactly limit (numeral 10 decimalDigit line)) := by
  cases line with
  | nil => rfl
  | cons c line =>
    have read := ato_loop_eq small 0 (Nat.zero_le limit) (c :: line)
    have same : carried 10 0 = value 10 := by
      funext digits
      exact carried_zero 10 digits
    rw [same, up_to_some] at read
    rw [ngxAto, if_neg (by simp), exactly, Int.toNat_natCast]
    exact read

end Decimal

theorem hex_digit_eq (c : Byte) : hexDigit c =
      if '0'.toUInt8 ≤ c && c ≤ '9'.toUInt8 then some (c.toNat - '0'.toNat)
      else if 'a'.toUInt8 ≤ (c ||| 0x20) && (c ||| 0x20) ≤ 'f'.toUInt8 then
        some ((c ||| 0x20).toNat - 'a'.toNat + 10)
      else none := by
  revert c
  exact ByteTable.forall_byte (by decide)

theorem hex_digit_small (c : Byte) : ∀ digit ∈ hexDigit c, digit < 16 := by
  revert c
  exact ByteTable.forall_byte (by decide)

theorem zero_le_digit (inside : ('0'.toUInt8 ≤ c && c ≤ '9'.toUInt8) = true) :
    '0'.toNat ≤ c.toNat := by
  rw [Bool.and_eq_true, decide_eq_true_eq, UInt8.le_iff_toNat_le] at inside
  exact inside.1

theorem letter_le (inside : ('a'.toUInt8 ≤ c && c ≤ 'f'.toUInt8) = true) :
    'a'.toNat ≤ c.toNat := by
  rw [Bool.and_eq_true, decide_eq_true_eq, UInt8.le_iff_toNat_le] at inside
  exact inside.1

/-- `value * 16` and the digit. -/
def nextHex (value : Int) (digit : Nat) (line : Bytes) : Option Int := do
  let shifted ← signed (value * 16)
  let value ← signed (shifted + digit)
  hextoiLoop value line

theorem hextoi_cons (value : Int) (c : Byte) (line : Bytes) : hextoiLoop value (c :: line) =
      if value > ngxMaxIntTValue / 16 then some ngxError
      else (hexDigit c).elim (some ngxError) (fun digit => nextHex value digit line) := by
  rw [hextoiLoop, hex_digit_eq]
  dsimp only
  split_ifs with cut digit letter
  · rfl
  · have low := zero_le_digit digit
    rw [elim_some, nextHex, Nat.cast_sub low]
  · have low := letter_le letter
    rw [elim_some, nextHex, Nat.cast_add, Nat.cast_sub low]
    rfl
  · rfl

theorem next_hex_eq (small : number * 16 + digit < 2 ^ 63) (line : Bytes) :
    nextHex number digit line = hextoiLoop ((number * 16 + digit : Nat) : Int) line := by
  have shifted : signed ((number : Int) * 16) = some ((number * 16 : Nat) : Int) := by
    have fits : number * 16 < 2 ^ 63 := by omega
    rw [← signed_nat fits, Int.natCast_mul]
    rfl
  have sum : signed (((number * 16 : Nat) : Int) + digit) = some ((number * 16 + digit : Nat) : Int) := by
    rw [← signed_nat small, Int.natCast_add]
  rw [nextHex, shifted, bind_eq_bind, bind_some, sum, bind_some]

theorem hextoi_loop_eq (start : Nat) (bound : start ≤ 2 ^ 63 - 1) (line : Bytes) :
    hextoiLoop start line = upTo (2 ^ 63 - 1) (fun number => some (number : Int)) (some ngxError)
        ((line.mapM hexDigit).map (carried 16 start)) := by
  have cutoff : ngxMaxIntTValue / 16 = ((2 ^ 59 - 1 : Nat) : Int) := by decide
  apply read_carried (fun number line => hextoiLoop (number : Int) line) (by omega)
  · intro number
    rfl
  · intro number c rest none_
    simp [hextoi_cons, none_]
  · intro number c next rest _ isHex above
    have small := hex_digit_small c next isHex
    rw [hextoi_cons, cutoff, if_pos]
    omega
  · intro number c next rest isHex fits
    have stays : ¬ (number : Int) > ((2 ^ 59 - 1 : Nat) : Int) := by omega
    have small : number * 16 + next < 2 ^ 63 := by omega
    rw [hextoi_cons, cutoff, if_neg stays, isHex, elim_some, next_hex_eq small]
  · exact bound

theorem ngx_hextoi_exact (line : Bytes) :
    ngxHextoi line = some (exactly ngxMaxIntTValue (numeral 16 hexDigit line)) := by
  cases line with
  | nil => rfl
  | cons c line =>
    have read := hextoi_loop_eq 0 (Nat.zero_le _) (c :: line)
    have same : carried 16 0 = value 16 := by
      funext digits
      exact carried_zero 16 digits
    have max : ngxMaxIntTValue.toNat = 2 ^ 63 - 1 := by decide
    rw [same, up_to_some] at read
    rw [ngxHextoi, if_neg (by simp), exactly, max]
    exact read

section Units

variable {limit : Nat}

theorem scale_number_some (size max scale : Int) : scaleNumber (some size) max scale =
      if size = ngxError ∨ size > max then some ngxError else signed (size * scale) := by
  simp [scaleNumber]

theorem scale_number_exact (small : limit < 2 ^ 63) {scale : Nat} (pos : 0 < scale) (line : Bytes) :
    scaleNumber (ngxAto limit line) ((limit : Int) / scale) scale =
      some (exactly limit ((numeral 10 decimalDigit line).map (· * scale))) := by
  rw [ngx_ato_exact small, scale_number_some, exactly, exactly, Int.toNat_natCast]
  cases numeral 10 decimalDigit line with
  | none => rfl
  | some number =>
    have quotient : (limit : Int) / scale = ((limit / scale : Nat) : Int) := rfl
    have below : number ≤ limit / scale ↔ number * scale ≤ limit := Nat.le_div_iff_mul_le pos
    have least : number ≤ number * scale := Nat.le_mul_of_pos_right number pos
    rw [quotient, map_some]
    generalize limit / scale = cut at below
    by_cases fits : number * scale ≤ limit
    · have product : number * scale < 2 ^ 63 := by omega
      have kept : ¬ ((number : Int) = ngxError ∨ (number : Int) > cut) := by
        rw [ngxError]
        omega
      rw [upTo, upTo, if_pos (least.trans fits), if_pos fits, if_neg kept, ← Int.natCast_mul,
        signed_nat product]
    · have above : ¬ number ≤ cut := fun within => fits (below.mp within)
      have refused : upTo limit (fun number => (number : Int)) ngxError (some (number * scale)) = ngxError :=
        if_neg fits
      rw [refused]
      apply if_pos
      rw [upTo]
      split_ifs
      · right
        omega
      · exact Or.inl rfl

theorem scaled_number_cases {scale : Byte → Option Nat} {line : Bytes} {unit : Byte}
    (isLast : line.getLast? = some unit) : scaledNumber scale line =
      (scale unit).elim (numeral 10 decimalDigit line)
        (fun factor => (numeral 10 decimalDigit (line.take (line.length - 1))).map (· * factor)) := by
  rw [scaledNumber, isLast, ← List.dropLast_eq_take]
  dsimp only
  cases scale unit <;> rfl

theorem size_unit_eq (unit : Byte) : sizeUnit unit =
      if isUnit unit 'K' 'k' then some 1024 else if isUnit unit 'M' 'm' then
        some (1024 * 1024) else none := by
  revert unit
  exact ByteTable.forall_byte (by decide)

theorem offset_unit_eq (unit : Byte) : offsetUnit unit =
      if isUnit unit 'K' 'k' then some 1024
      else if isUnit unit 'M' 'm' then some (1024 * 1024)
      else if isUnit unit 'G' 'g' then some (1024 * 1024 * 1024) else none := by
  revert unit
  exact ByteTable.forall_byte (by decide)

theorem scale_number_one (small : limit < 2 ^ 63) (line : Bytes) :
    scaleNumber (ngxAto limit line) limit 1 = some (exactly limit (numeral 10 decimalDigit line)) := by
  have whole := scale_number_exact small Nat.one_pos line
  simpa using whole

theorem ngx_parse_size_exact (line : Bytes) :
    ngxParseSize line = some (exactly ngxMaxSizeTValue (scaledNumber sizeUnit line)) := by
  rw [ngxParseSize]
  cases isLast : line.getLast? with
  | none => simp [scaledNumber, isLast, exactly, upTo]
  | some unit =>
    rw [scaled_number_cases isLast, size_unit_eq]
    dsimp only
    split_ifs
    · exact @scale_number_exact 9223372036854775807 (by decide) 1024 (by decide) _
    · exact @scale_number_exact 9223372036854775807 (by decide) (1024 * 1024) (by decide) _
    · exact @scale_number_one 9223372036854775807 (by decide) _

theorem ngx_parse_offset_exact (line : Bytes) :
    ngxParseOffset line = some (exactly ngxMaxOffTValue (scaledNumber offsetUnit line)) := by
  rw [ngxParseOffset]
  cases isLast : line.getLast? with
  | none => simp [scaledNumber, isLast, exactly, upTo]
  | some unit =>
    rw [scaled_number_cases isLast, offset_unit_eq]
    dsimp only
    split_ifs
    · exact @scale_number_exact 9223372036854775807 (by decide) 1024 (by decide) _
    · exact @scale_number_exact 9223372036854775807 (by decide) (1024 * 1024) (by decide) _
    · exact @scale_number_exact 9223372036854775807 (by decide) (1024 * 1024 * 1024) (by decide) _
    · exact @scale_number_one 9223372036854775807 (by decide) _

end Units

end ServerCore.NginxNumbersExact
