import ServerCore.NginxNumbersExact
import Mathlib.Tactic.FieldSimp

/-!
# Fixed point numbers

`ngx_atofp` takes the digits of a decimal fraction as one number and scales it by
the places that are left. Before the point the loop reads the number alone, behind
it every digit uses up one place.
-/

namespace ServerCore.NginxNumbersFraction

open DigitString NginxNumbers NginxNumbersExact List

variable {text : Bytes} {c : Byte}
variable {digit start : Nat} {line : Bytes}

def intMax : Nat := 9223372036854775807

theorem int_max_eq : ngxMaxIntTValue = (intMax : Int) := rfl

def digitsOf (text : Bytes) : List Nat := text.filterMap decimalDigit

theorem digits_of_append (front back : Bytes) : digitsOf (front ++ back) = digitsOf front ++ digitsOf back :=
  filterMap_append ..

theorem decimal_of_digit (inside : isDigit c) : decimalDigit c = some (c.toNat - '0'.toNat) :=
  if_pos inside

theorem length_digits_of (digits : ∀ c ∈ text, isDigit c) : (digitsOf text).length = text.length := by
  induction text with
  | nil => rfl
  | cons c text ih =>
    have decimal := decimal_of_digit (digits c mem_cons_self)
    have tail := ih (fun other mem => digits other (mem_cons_of_mem c mem))
    rw [digitsOf, filterMap_cons_some decimal, length_cons, length_cons, ← tail]
    rfl

theorem read_digits (digits : ∀ c ∈ text, isDigit c) :
    text.mapM decimalDigit = some (digitsOf text) := by
  induction text with
  | nil => rfl
  | cons c text ih =>
    have decimal := decimal_of_digit (digits c mem_cons_self)
    have tail := ih (fun other mem => digits other (mem_cons_of_mem c mem))
    rw [mapM_cons, decimal, tail, digitsOf, digitsOf, filterMap_cons_some decimal]
    rfl

theorem read_other (mem : c ∈ text) (other : isDigit c = false) : text.mapM decimalDigit = none := by
  induction text with
  | nil => simp at mem
  | cons head text ih =>
    rw [mapM_cons]
    rcases mem_cons.mp mem with same | later
    · have stops : decimalDigit head = none := by
        rw [decimalDigit, ← same, other]
        rfl
      rw [stops]
      rfl
    · rw [ih later]
      cases decimalDigit head <;> rfl

theorem point_loop_eq (point number : Nat) (bound : number ≤ intMax) : pointLoop point number =
      some (if number * 10 ^ point ≤ intMax then ((number * 10 ^ point : Nat) : Int) else ngxError) := by
  induction point generalizing number with
  | zero => simp [pointLoop, bound]
  | succ point ih =>
    have shift : number * 10 ^ (point + 1) = number * 10 * 10 ^ point := by
      rw [pow_succ, mul_comm (10 ^ point), mul_assoc]
    have quotient : ngxMaxIntTValue / 10 = ((922337203685477580 : Nat) : Int) := by decide
    rw [pointLoop, quotient, shift]
    by_cases large : (number : Int) > ((922337203685477580 : Nat) : Int)
    · have least := Nat.le_mul_of_pos_right (number * 10) (Nat.pow_pos (n := point) (show 0 < 10 by decide))
      have exceeds : ¬ number * 10 * 10 ^ point ≤ intMax := by
        simp only [intMax]
        omega
      rw [if_pos large, if_neg exceeds]
    · have fits : number * 10 ≤ intMax := by
        simp only [intMax]
        omega
      have small : number * 10 < 2 ^ 63 := by
        omega
      have tens : signed ((number : Int) * 10) = some ((number * 10 : Nat) : Int) := by
        rw [← signed_nat small, Int.natCast_mul]
        rfl
      rw [if_neg large, tens, Option.bind_eq_bind, Option.bind_some]
      exact ih (number * 10) fits

/-- The turn for a digit. -/
theorem atofp_digit (decimal : decimalDigit c = some digit) {point : Nat} {seen : Bool}
    (place : point ≠ 0) (notDot : c ≠ dot) :
    atofpLoop start point seen (c :: line) =
      if start * 10 + digit ≤ intMax then atofpLoop ((start * 10 + digit : Nat) : Int)
        (point - seen.toNat) seen line
      else some ngxError := by
  have facts := decimal_digit decimal
  rw [atofpLoop, if_neg place, if_neg notDot]
  simp only [facts.1, Bool.not_true, Bool.false_eq_true, if_false]
  rw [int_max_eq, cut_off_eq decimal]
  by_cases fits : start * 10 + digit ≤ intMax
  · have small : start * 10 + digit < 2 ^ 63 := by
      simp only [intMax] at fits
      omega
    have stays : ¬ intMax < start * 10 + digit := Nat.not_lt_of_le fits
    rw [next_value_eq decimal small, if_pos fits]
    simp [stays]
  · have above : intMax < start * 10 + digit := Nat.lt_of_not_le fits
    rw [if_neg fits]
    simp [above]

theorem carried_exceeds (above : ¬ start * 10 + digit ≤ intMax) {digits : List Nat} :
    ¬ carried 10 start (digit :: digits) ≤ intMax := by
  have least := le_carried (show 0 < 10 by decide) (start * 10 + digit) digits
  rw [carried_cons]
  omega

theorem atofp_behind (start point : Nat) (bound : start ≤ intMax) :
    atofpLoop start point true line =
      match line.mapM decimalDigit with
      | none => some ngxError
      | some digits =>
        if digits.length ≤ point ∧ carried 10 start digits ≤ intMax then
          pointLoop (point - digits.length) (carried 10 start digits : Nat)
        else some ngxError := by
  induction line generalizing start point with
  | nil => simp [atofpLoop, bound]
  | cons c line ih =>
    rw [mapM_cons]
    by_cases noPlace : point = 0
    · rw [atofpLoop, if_pos noPlace]
      cases decimalDigit c with
      | none => rfl
      | some digit =>
        cases line.mapM decimalDigit with
        | none => rfl
        | some digits => simp [noPlace]
    · by_cases isDot : c = dot
      · have stops : decimalDigit dot = none := by decide
        simp [atofpLoop, noPlace, isDot, stops]
      · cases decimal : decimalDigit c with
        | none => simp [atofpLoop, noPlace, isDot, not_digit decimal]
        | some digit =>
          rw [atofp_digit decimal noPlace isDot]
          by_cases fits : start * 10 + digit ≤ intMax
          · rw [if_pos fits, Bool.toNat_true, ih _ (point - 1) fits]
            cases line.mapM decimalDigit with
            | none => rfl
            | some digits =>
              have places : digits.length ≤ point - 1 ↔ digits.length + 1 ≤ point := by omega
              have left : point - 1 - digits.length = point - (digits.length + 1) := by omega
              simp [carried_cons, places, left]
          · rw [if_neg fits]
            cases line.mapM decimalDigit with
            | none => rfl
            | some digits => simp [carried_exceeds fits]

theorem atofp_before (whole rest : Bytes) (start point : Nat) (bound : start ≤ intMax)
    (pos : 0 < point) (plain : dot ∉ whole) : atofpLoop start point false (whole ++ rest) =
      match whole.mapM decimalDigit with
      | none => some ngxError
      | some digits =>
        if carried 10 start digits ≤ intMax then
          atofpLoop (carried 10 start digits : Nat) point false rest
        else some ngxError := by
  induction whole generalizing start with
  | nil => simp [bound]
  | cons c whole ih =>
    have isPlain : dot ≠ c ∧ dot ∉ whole := by simpa [mem_cons, not_or] using plain
    have place : point ≠ 0 := Nat.pos_iff_ne_zero.mp pos
    rw [cons_append, mapM_cons]
    cases decimal : decimalDigit c with
    | none => simp [atofpLoop, place, Ne.symm isPlain.1, not_digit decimal]
    | some digit =>
      rw [atofp_digit decimal place (Ne.symm isPlain.1)]
      by_cases fits : start * 10 + digit ≤ intMax
      · rw [if_pos fits, Bool.toNat_false, Nat.sub_zero, ih _ fits isPlain.2]
        cases whole.mapM decimalDigit with
        | none => rfl
        | some digits => simp [carried_cons]
      · rw [if_neg fits]
        cases whole.mapM decimalDigit with
        | none => rfl
        | some digits => simp [carried_exceeds fits]

section Fractions

variable {line whole frac : Bytes} {point : Nat}

theorem dot_not_mem (digits : ∀ c ∈ text, isDigit c) : dot ∉ text := by
  intro mem
  have isDot := digits dot mem
  cases isDot

theorem atofp_start (nonempty : line ≠ []) : ngxAtofp line point = atofpLoop 0 point false line := by
  rw [ngxAtofp, if_neg]
  simpa using nonempty

theorem atofp_fraction (isFrac : DecimalFraction line whole frac) (pos : 0 < point) :
    ngxAtofp line point = some (if frac.length ≤ point ∧
          value 10 (digitsOf (whole ++ frac)) * 10 ^ (point - frac.length) ≤ intMax then
        ((value 10 (digitsOf (whole ++ frac)) * 10 ^ (point - frac.length) : Nat) : Int)
      else ngxError) := by
  have wholeDigits : ∀ c ∈ whole, isDigit c := fun c mem =>
    isFrac.digits c (mem_append_left frac mem)
  have fractionDigits : ∀ c ∈ frac, isDigit c := fun c mem =>
    isFrac.digits c (mem_append_right whole mem)
  have all : carried 10 (value 10 (digitsOf whole)) (digitsOf frac) =
      value 10 (digitsOf (whole ++ frac)) := by
    rw [digits_of_append, ← carried_zero, ← carried_zero, carried_append]
  have scaleUp : value 10 (digitsOf (whole ++ frac)) ≤
      value 10 (digitsOf (whole ++ frac)) * 10 ^ (point - frac.length) :=
    Nat.le_mul_of_pos_right _ (Nat.pow_pos (by decide))
  have grows := le_carried (show 0 < 10 by decide) (value 10 (digitsOf whole)) (digitsOf frac)
  rw [all] at grows
  have nonempty : line ≠ [] := by
    rcases isFrac.written with plain | pointed
    · rw [plain.1]
      intro isNil
      exact isFrac.nonempty (by rw [isNil, plain.2]; rfl)
    · rw [pointed]
      exact append_ne_nil_of_right_ne_nil whole (cons_ne_nil _ _)
  -- the digits before the point fit whenever the whole number does
  have before := fun rest =>
    atofp_before whole rest 0 point (Nat.zero_le intMax) pos (dot_not_mem wholeDigits)
  simp only [read_digits wholeDigits, carried_zero] at before
  rw [atofp_start nonempty]
  rcases isFrac.written with plain | pointed
  · have ends := before []
    rw [append_nil] at ends
    rw [plain.1, ← Nat.cast_zero, ends]
    simp only [plain.2, append_nil, length_nil, Nat.sub_zero, zero_le, true_and]
    rw [plain.2, append_nil, length_nil, Nat.sub_zero] at scaleUp
    by_cases fits : value 10 (digitsOf whole) ≤ intMax
    · rw [if_pos fits, atofpLoop, point_loop_eq point _ fits]
    · rw [if_neg fits, if_neg (fun product => fits (scaleUp.trans product))]
  · have ends := before (dot :: frac)
    rw [← pointed] at ends
    rw [← Nat.cast_zero, ends]
    by_cases fits : value 10 (digitsOf whole) ≤ intMax
    · rw [if_pos fits, atofpLoop, if_neg (Nat.pos_iff_ne_zero.mp pos), if_pos rfl,
        if_neg Bool.false_ne_true, atofp_behind _ point fits, read_digits fractionDigits]
      simp only [length_digits_of fractionDigits, all]
      by_cases within : frac.length ≤ point ∧ value 10 (digitsOf (whole ++ frac)) ≤ intMax
      · rw [if_pos within, point_loop_eq _ _ within.2]
        simp [within.1]
      · rw [if_neg within, if_neg]
        intro both
        exact within ⟨both.1, scaleUp.trans both.2⟩
    · rw [if_neg fits, if_neg]
      intro both
      exact fits (grows.trans (scaleUp.trans both.2))

theorem fraction_value_eq (isFrac : DecimalFraction line whole frac)
    (places : frac.length ≤ point) : fractionValue whole frac * 10 ^ point =
      ((value 10 (digitsOf (whole ++ frac)) * 10 ^ (point - frac.length) : Nat) : ℚ) := by
  have fractionDigits : ∀ c ∈ frac, isDigit c := fun c mem =>
    isFrac.digits c (mem_append_right whole mem)
  have power : (10 : ℚ) ^ point = 10 ^ frac.length * 10 ^ (point - frac.length) := by
    rw [← pow_add, Nat.add_sub_cancel' places]
  have nonzero : (10 : ℚ) ^ frac.length ≠ 0 := by positivity
  rw [digits_of_append, value_append, length_digits_of fractionDigits, fractionValue, power]
  push_cast
  rw [← mul_assoc, add_mul, div_mul_cancel₀ _ nonzero]
  rfl

theorem atofp_malformed (pos : 0 < point) (notDot : line ≠ [dot])
    (malformed : ¬ ∃ whole frac, DecimalFraction line whole frac) :
    ngxAtofp line point = some ngxError := by
  by_cases isNil : line = []
  · rw [isNil]
    rfl
  rw [atofp_start isNil, ← Nat.cast_zero]
  have before := fun whole plain rest =>
    @atofp_before whole rest 0 point (Nat.zero_le intMax) pos plain
  by_cases pointed : dot ∈ line
  · obtain ⟨whole, frac, split, plain⟩ := eq_append_cons_of_mem pointed
    by_cases wholeDigits : ∃ c ∈ whole, isDigit c = false
    · obtain ⟨other, mem, isOther⟩ := wholeDigits
      rw [split, before whole plain, read_other mem isOther]
    · by_cases fractionDigits : ∃ c ∈ frac, isDigit c = false
      · obtain ⟨other, mem, isOther⟩ := fractionDigits
        rw [split, before whole plain]
        cases whole.mapM decimalDigit with
        | none => rfl
        | some digits =>
          dsimp only
          split_ifs with fits
          · rw [atofpLoop, if_neg (Nat.pos_iff_ne_zero.mp pos), if_pos rfl,
              if_neg Bool.false_ne_true, atofp_behind _ _ fits, read_other mem isOther]
          · rfl
      · exfalso
        apply malformed
        refine ⟨whole, frac, Or.inr split, ?_, ?_⟩
        · intro c mem
          by_contra notDigit
          rw [Bool.not_eq_true] at notDigit
          exact (mem_append.mp mem).elim (fun front => wholeDigits ⟨c, front, notDigit⟩)
            (fun back => fractionDigits ⟨c, back, notDigit⟩)
        · intro isEmpty
          apply notDot
          rw [split, (append_eq_nil_iff.mp isEmpty).1, (append_eq_nil_iff.mp isEmpty).2]
          rfl
  · by_cases digits : ∃ c ∈ line, isDigit c = false
    · obtain ⟨other, mem, isOther⟩ := digits
      have ends := before line pointed []
      rw [append_nil] at ends
      rw [ends, read_other mem isOther]
    · exfalso
      apply malformed
      refine ⟨line, [], Or.inl ⟨rfl, rfl⟩, ?_, ?_⟩
      · intro c mem
        by_contra notDigit
        rw [Bool.not_eq_true] at notDigit
        rw [append_nil] at mem
        exact digits ⟨c, mem, notDigit⟩
      · rw [append_nil]
        exact isNil

theorem dot_no_fraction : ¬ ∃ whole frac, DecimalFraction [dot] whole frac := by
  intro denotes
  obtain ⟨whole, frac, isFrac⟩ := denotes
  rcases isFrac.written with plain | pointed
  · have isDigit := isFrac.digits dot (by simp [← plain.1])
    cases isDigit
  · apply isFrac.nonempty
    have sizes := congrArg List.length pointed
    rw [length_append, length_cons, length_cons, length_nil] at sizes
    rw [append_eq_nil_iff, ← length_eq_zero_iff, ← length_eq_zero_iff]
    omega

theorem atofp_dot (pos : 1 ≤ point) : ngxAtofp [dot] point = some 0 := by
  have zero : atofpLoop ((0 : Nat) : Int) point true [] = some 0 := by
    have ends := point_loop_eq point 0 (Nat.zero_le intMax)
    rw [atofpLoop]
    simpa using ends
  rw [atofp_start (cons_ne_nil _ _), atofpLoop, if_neg (Nat.pos_iff_ne_zero.mp pos),
    if_pos rfl, if_neg Bool.false_ne_true, ← Nat.cast_zero, zero]
  rfl

theorem atofp_exact (pos : 1 ≤ point) (notDot : line ≠ [dot]) : AtofpExact line point := by
  constructor
  · intro whole frac isFrac places fits
    have same := fraction_value_eq isFrac places
    refine ⟨_, atofp_fraction isFrac pos, ?_⟩
    rw [same, int_max_eq] at fits
    rw [if_pos ⟨places, by exact_mod_cast fits⟩, same]
    rfl
  · intro whole frac isFrac exceeds
    rw [atofp_fraction isFrac pos, if_neg]
    intro both
    apply exceeds
    refine ⟨both.1, ?_⟩
    rw [fraction_value_eq isFrac both.1, int_max_eq]
    exact_mod_cast both.2
  · intro malformed
    exact atofp_malformed pos notDot malformed

end Fractions

/-- All the functions read a text exactly unless it is a lone point, which `ngx_atofp` reads
as zero. -/
theorem numbers_exact_iff (line : Bytes) (point : Nat) (pos : 1 ≤ point) :
    NumbersExact line point ↔ line ≠ [dot] := by
  constructor
  · intro all isDot
    rw [isDot] at all
    have refused := all.atofp.malformed dot_no_fraction
    rw [atofp_dot pos] at refused
    exact absurd refused (by decide)
  · intro notDot
    exact {
      atoi := @ngx_ato_exact intMax (by decide) line
      atosz := @ngx_ato_exact intMax (by decide) line
      atoof := @ngx_ato_exact intMax (by decide) line
      atotm := @ngx_ato_exact intMax (by decide) line
      hextoi := ngx_hextoi_exact line
      atofp := atofp_exact pos notDot
      size := ngx_parse_size_exact line
      offset := ngx_parse_offset_exact line }

theorem numbers_exact_ten_and_a_half : NumbersExact "10.5".toUTF8.toList 2 :=
  (numbers_exact_iff _ 2 (by decide)).mpr (by with_unfolding_all decide)

theorem lone_point_inexact : ngxAtofp [dot] 2 = some 0 ∧ ¬ NumbersExact [dot] 2 := by
  refine ⟨by decide, ?_⟩
  intro all
  have refused := all.atofp.malformed dot_no_fraction
  exact absurd refused (by decide)

end ServerCore.NginxNumbersFraction
