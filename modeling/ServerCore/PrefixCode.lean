import Mathlib.Data.List.Infix

/-!
# Prefix codes

A code in which no code word begins another one is decoded in one way only: a
decoded part of a coded text is an initial part of its symbols, also when the
text ends in padding that contains no code word.
-/

namespace ServerCore.PrefixCode

open List

variable {Symbol Bit : Type*}

structure Code (Symbol Bit : Type*) where
  word : Symbol → List Bit
  prefix_free : ∀ first second, word first <+: word second → first = second

namespace Code

variable (code : Code Symbol Bit)

def encode (syms : List Symbol) : List Bit := syms.flatMap code.word

@[simp] theorem encode_nil : code.encode [] = [] := rfl

theorem encode_cons (symbol : Symbol) (syms : List Symbol) :
    code.encode (symbol :: syms) = code.word symbol ++ code.encode syms := rfl

theorem encode_append (left right : List Symbol) :
    code.encode (left ++ right) = code.encode left ++ code.encode right := by
  simp [encode]

theorem encode_length_ge {least : Nat} (long : ∀ symbol, least ≤ (code.word symbol).length)
    (syms : List Symbol) : least * syms.length ≤ (code.encode syms).length := by
  induction syms with
  | nil => simp
  | cons symbol syms ih =>
    have first := long symbol
    rw [encode_cons, length_append, length_cons, Nat.mul_succ]
    omega

def Padding (tail : List Bit) : Prop := ∀ symbol, ¬ code.word symbol <+: tail

theorem decoded_is_initial {decoded syms : List Symbol} {rest tail : List Bit}
    (padding : code.Padding tail) (begins : code.encode decoded ++ rest <+: code.encode syms ++ tail) :
    ∃ later, syms = decoded ++ later ∧ rest <+: code.encode later ++ tail := by
  induction decoded generalizing syms with
  | nil => exact ⟨syms, rfl, by simpa using begins⟩
  | cons symbol decoded ih =>
    rw [encode_cons, append_assoc] at begins
    cases syms with
    | nil =>
      have word : code.word symbol <+: tail := (prefix_append _ _).trans (by simpa using begins)
      exact absurd word (padding symbol)
    | cons other syms =>
      rw [encode_cons, append_assoc] at begins
      have firstWord := (prefix_append (code.word symbol)
        (code.encode decoded ++ rest)).trans begins
      have otherWord := prefix_append (code.word other) (code.encode syms ++ tail)
      have same : symbol = other := by
        rcases prefix_or_prefix_of_prefix firstWord otherWord with shorter | longer
        · exact code.prefix_free _ _ shorter
        · exact (code.prefix_free _ _ longer).symm
      subst same
      obtain ⟨later, split, remains⟩ := ih ((prefix_append_right_inj _).mp begins)
      exact ⟨later, by rw [split, cons_append], remains⟩

theorem decoded_unique {left right : List Symbol} {leftTail rightTail : List Bit}
    (leftPadding : code.Padding leftTail) (rightPadding : code.Padding rightTail)
    (same : code.encode left ++ leftTail = code.encode right ++ rightTail) :
    left = right ∧ leftTail = rightTail := by
  have begins : code.encode left ++ leftTail <+: code.encode right ++ rightTail := by
    rw [same]
  obtain ⟨later, split, remains⟩ := code.decoded_is_initial rightPadding begins
  cases later with
  | nil =>
    rw [append_nil] at split
    subst split
    exact ⟨rfl, append_cancel_left same⟩
  | cons symbol later =>
    have tails : leftTail = code.encode (symbol :: later) ++ rightTail := by
      rw [split, encode_append, append_assoc] at same
      exact append_cancel_left same
    rw [encode_cons, append_assoc] at tails
    apply absurd _ (leftPadding symbol)
    rw [tails]
    exact prefix_append _ _

end Code

end ServerCore.PrefixCode
