import Mathlib.Algebra.Order.Group.Nat

/-!
# Numbers as text

A number is written in a base, its last digit first, by a loop that stops when
nothing is left. A reader that takes one digit at a time, under a bound on the
value and on the number of digits, reads such a text back.
-/

namespace ServerCore.PositionalText

open List

variable {Symbol : Type*}
variable {fuel number places : Nat}

/-- The digits of a number, at most `fuel` of them. There is always one. -/
def numeral (base : Nat) (digit : Nat → Symbol) : Nat → Nat → List Symbol
  | 0, _ => []
  | fuel + 1, number =>
    if number / base = 0 then [digit (number % base)]
    else numeral base digit fuel (number / base) ++ [digit (number % base)]

variable {base : Nat} {digit : Nat → Symbol}

theorem numeral_ne_nil (fuel number : Nat) : numeral base digit (fuel + 1) number ≠ [] := by
  rw [numeral]
  split_ifs <;> simp

theorem mem_numeral (pos : 0 < base) {symbol : Symbol}
    (mem : symbol ∈ numeral base digit fuel number) : ∃ value < base, symbol = digit value := by
  induction fuel generalizing number with
  | zero => simp [numeral] at mem
  | succ fuel ih =>
    rw [numeral] at mem
    split_ifs at mem with single
    · rw [mem_singleton] at mem
      exact ⟨_, Nat.mod_lt _ pos, mem⟩
    · rcases mem_append.mp mem with before | isLast
      · exact ih before
      · rw [mem_singleton] at isLast
        exact ⟨_, Nat.mod_lt _ pos, isLast⟩

theorem length_numeral (pos : 0 < places)
    (small : number < base ^ places) : (numeral base digit fuel number).length ≤ places := by
  induction fuel generalizing number places with
  | zero => simp [numeral]
  | succ fuel ih =>
    rw [numeral]
    split_ifs with single
    · exact pos
    · cases places with
      | zero => exact absurd pos (by simp)
      | succ places =>
        rw [pow_succ, mul_comm] at small
        have less : number / base < base ^ places := Nat.div_lt_of_lt_mul small
        have remains : 0 < places := by
          rcases Nat.eq_zero_or_pos places with none_ | some_
          · rw [none_, pow_zero] at less
            exact absurd (Nat.lt_one_iff.mp less) single
          · exact some_
        rw [length_append, length_singleton]
        exact Nat.succ_le_succ (ih remains less)

theorem read_numeral {Result : Type*} (read : Nat → Nat → List Symbol → Result)
    {limit : Nat} (pos : 0 < base)
    (reads : ∀ taken value next rest, next < base → taken < places → value * base + next ≤ limit →
        read taken value (digit next :: rest) = read (taken + 1) (value * base + next) rest)
        (bound : number ≤ limit) (small : number < base ^ fuel)
    (fits : (numeral base digit fuel number).length ≤ places) (rest : List Symbol) :
    read 0 0 (numeral base digit fuel number ++ rest) =
      read (numeral base digit fuel number).length number rest := by
  induction fuel generalizing number rest with
  | zero =>
    rw [pow_zero, Nat.lt_one_iff] at small
    rw [small]
    rfl
  | succ fuel ih =>
    have parts : number / base * base + number % base = number := Nat.div_add_mod' number base
    rw [numeral] at fits ⊢
    split_ifs at fits ⊢ with single
    · rw [single, Nat.zero_mul, Nat.zero_add] at parts
      have value : 0 * base + number % base = number := by
        rw [Nat.zero_mul, Nat.zero_add]
        exact parts
      have one := reads 0 0 (number % base) rest (Nat.mod_lt _ pos) fits
        (by rw [value]; exact bound)
      rw [value] at one
      exact one
    · rw [length_append, length_singleton] at fits ⊢
      rw [pow_succ, mul_comm] at small
      have before := ih (le_trans (Nat.div_le_self _ _) bound)
        (Nat.div_lt_of_lt_mul small) (Nat.le_of_succ_le fits) ([digit (number % base)] ++ rest)
      rw [append_assoc, before]
      have last := reads (numeral base digit fuel (number / base)).length (number / base)
        (number % base) rest (Nat.mod_lt _ pos) fits (by rw [parts]; exact bound)
      rw [parts] at last
      exact last

end ServerCore.PositionalText
