import Mathlib.Data.Nat.Digits.Defs

/-!
# Digit strings under a limit

The number that a string of digits denotes, its highest digit first, and loops
that read such a string: each step takes one digit, and a number above the limit
is refused before it is built.
-/

namespace ServerCore.DigitString

variable {base limit : Nat}

def value (base : Nat) (digits : List Nat) : Nat := Nat.ofDigits base digits.reverse

@[simp] theorem value_nil (base : Nat) : value base [] = 0 := rfl

theorem value_append (base : Nat) (front back : List Nat) :
    value base (front ++ back) = value base front * base ^ back.length + value base back := by
  rw [value, List.reverse_append, Nat.ofDigits_append, List.length_reverse, mul_comm, add_comm]
  rfl

theorem value_cons (base digit : Nat) (rest : List Nat) :
    value base (digit :: rest) = digit * base ^ rest.length + value base rest := by
  rw [← List.singleton_append, value_append]
  simp [value]

/-- The number after `digits` have been read behind the number `start`. -/
def carried (base start : Nat) (digits : List Nat) : Nat :=
  start * base ^ digits.length + value base digits

@[simp] theorem carried_nil (base start : Nat) : carried base start [] = start := by
  simp [carried]

theorem carried_zero (base : Nat) (digits : List Nat) : carried base 0 digits = value base digits := by
  simp [carried]

theorem carried_cons (base start digit : Nat) (rest : List Nat) :
    carried base start (digit :: rest) = carried base (start * base + digit) rest := by
  rw [carried, carried, value_cons, List.length_cons, pow_succ, add_mul, mul_assoc,
    mul_comm base, add_assoc]

theorem carried_append (base start : Nat) (front back : List Nat) :
    carried base start (front ++ back) = carried base (carried base start front) back := by
  induction front generalizing start with
  | nil => simp
  | cons digit front ih => rw [List.cons_append, carried_cons, carried_cons, ih]

theorem le_carried (pos : 0 < base) (start : Nat) (digits : List Nat) :
    start ≤ carried base start digits := by
  have power : 0 < base ^ digits.length := Nat.pow_pos pos
  exact Nat.le_add_right_of_le (Nat.le_mul_of_pos_right start power)

theorem cut_off_iff {start digit : Nat} (small : digit < base) :
    (limit / base ≤ start ∧ (limit / base < start ∨ limit % base < digit)) ↔
      limit < start * base + digit := by
  have pos : 0 < base := Nat.zero_lt_of_lt small
  have split := Nat.div_add_mod limit base
  have remainder := Nat.mod_lt limit pos
  constructor
  · intro above
    rcases above.2 with larger | last
    · have next : (limit / base + 1) * base ≤ start * base := Nat.mul_le_mul_right base larger
      rw [add_mul, one_mul, mul_comm] at next
      omega
    · have same := Nat.mul_le_mul_right base above.1
      rw [mul_comm] at same
      omega
  · intro exceeds
    have reached : limit / base ≤ start := by
      apply Nat.le_of_lt_succ
      apply Nat.div_lt_of_lt_mul
      rw [mul_comm, Nat.succ_mul]
      omega
    refine ⟨reached, ?_⟩
    rcases lt_or_eq_of_le reached with larger | same
    · exact Or.inl larger
    · right
      rw [← same, mul_comm] at exceeds
      omega

section Reading

variable {Symbol Result : Type*}

/-- The number that a text denotes, unless some symbol of it is no digit. -/
def denoted (base : Nat) (digit : Symbol → Option Nat) (text : List Symbol) : Option Nat :=
  (text.mapM digit).map (value base)

def numeral (base : Nat) (digit : Symbol → Option Nat) (text : List Symbol) : Option Nat :=
  if text.isEmpty then none else denoted base digit text

def upTo (limit : Nat) (done : Nat → Result) (refused : Result) : Option Nat → Result
  | none => refused
  | some number => if number ≤ limit then done number else refused

/-- A loop that takes one digit at a time and refuses what goes above the limit returns the
number up to the limit. `start` has been read already. -/
theorem read_carried {digit : Symbol → Option Nat} {done : Nat → Result}
    {refused : Result} (read : Nat → List Symbol → Result) (pos : 0 < base)
    (ends : ∀ number, read number [] = done number)
    (stops : ∀ number symbol rest, digit symbol = none → read number (symbol :: rest) = refused)
    (exceeds : ∀ number symbol next rest, number ≤ limit → digit symbol = some next →
      limit < number * base + next → read number (symbol :: rest) = refused)
    (continues : ∀ number symbol next rest, digit symbol = some next →
      number * base + next ≤ limit → read number (symbol :: rest) = read (number * base + next) rest)
    (start : Nat) (bound : start ≤ limit) (text : List Symbol) :
    read start text = upTo limit done refused ((text.mapM digit).map (carried base start)) := by
  induction text generalizing start with
  | nil => simp [ends, upTo, bound]
  | cons symbol rest ih =>
    rw [List.mapM_cons]
    cases isDigit : digit symbol with
    | none => simp [stops start symbol rest isDigit, upTo]
    | some next =>
      by_cases fits : start * base + next ≤ limit
      · rw [continues start symbol next rest isDigit fits, ih _ fits]
        cases rest.mapM digit with
        | none => rfl
        | some digits => simp [carried_cons]
      · have above : limit < start * base + next := Nat.lt_of_not_le fits
        rw [exceeds start symbol next rest bound isDigit above]
        cases rest.mapM digit with
        | none => rfl
        | some digits =>
          have least := le_carried pos (start * base + next) digits
          have large : ¬ carried base start (next :: digits) ≤ limit := by
            rw [carried_cons]
            omega
          simp [upTo, large]

end Reading

end ServerCore.DigitString
