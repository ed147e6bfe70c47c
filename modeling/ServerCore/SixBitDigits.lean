import Mathlib.Algebra.Group.Nat.Defs
import Mathlib.Data.List.Basic

/-!
# Digits of six bits

Four digits of six bits are three octets. A last group of two or three digits
has one or two octets and spare bits behind them, which `spare` shows as one
more octet.
-/

namespace ServerCore.SixBitDigits

open List

variable {value : Nat}

abbrev Octet := UInt8

def octets : List Nat → List Octet
  | a :: b :: c :: d :: digits =>
    UInt8.ofNat (4 * a + b / 16) :: UInt8.ofNat (16 * (b % 16) + c / 4) ::
      UInt8.ofNat (64 * (c % 4) + d) :: octets digits
  | [a, b, c] => [UInt8.ofNat (4 * a + b / 16), UInt8.ofNat (16 * (b % 16) + c / 4)]
  | [a, b] => [UInt8.ofNat (4 * a + b / 16)]
  | [_] => []
  | [] => []

def spare : List Nat → List Octet
  | _ :: _ :: _ :: _ :: digits => spare digits
  | [_, _, c] => [UInt8.ofNat (64 * (c % 4))]
  | [_, b] => [UInt8.ofNat (16 * (b % 16))]
  | [a] => [UInt8.ofNat (4 * a)]
  | [] => []

def digits : List Octet → List Nat
  | x :: y :: z :: bytes =>
    x.toNat / 4 :: (16 * (x.toNat % 4) + y.toNat / 16) :: (4 * (y.toNat % 16) + z.toNat / 64) ::
      z.toNat % 64 :: digits bytes
  | [x, y] => [x.toNat / 4, 16 * (x.toNat % 4) + y.toNat / 16, 4 * (y.toNat % 16)]
  | [x] => [x.toNat / 4, 16 * (x.toNat % 4)]
  | [] => []

theorem of_nat_eq {octet : Octet} (same : value = octet.toNat) : UInt8.ofNat value = octet := by
  rw [same, UInt8.ofNat_toNat]

theorem to_nat_of_nat (small : value < 256) : (UInt8.ofNat value).toNat = value :=
  UInt8.toNat_ofNat_of_lt small

theorem joined_octet (high : Nat) {low width : Nat} (small : low < 2 ^ width) :
    UInt8.ofNat (high <<< width) ||| UInt8.ofNat low = UInt8.ofNat (2 ^ width * high + low) := by
  rw [← UInt8.ofNat_or, ← Nat.shiftLeft_add_eq_or_of_lt small, Nat.shiftLeft_eq, Nat.mul_comm]

theorem eq_zero_of_octet (small : value < 256) (zero : UInt8.ofNat value = 0) : value = 0 := by
  have same := congrArg UInt8.toNat zero
  rwa [to_nat_of_nat small] at same

theorem digits_small (bytes : List Octet) : ∀ digit ∈ digits bytes, digit < 64 := by
  fun_induction digits bytes with
  | case1 x y z bytes ih =>
    have := x.toNat_lt
    have := y.toNat_lt
    have := z.toNat_lt
    simp only [forall_mem_cons]
    refine ⟨?_, ?_, ?_, ?_, ih⟩ <;> omega
  | case2 x y =>
    have := x.toNat_lt
    have := y.toNat_lt
    simp only [forall_mem_cons, not_mem_nil, false_imp_iff, implies_true, and_true]
    omega
  | case3 x =>
    have := x.toNat_lt
    simp only [forall_mem_cons, not_mem_nil, false_imp_iff, implies_true, and_true]
    omega
  | case4 => simp

theorem digits_length (bytes : List Octet) : (digits bytes).length = (4 * bytes.length + 2) / 3 := by
  fun_induction digits bytes with
  | case1 x y z bytes ih =>
    simp only [length_cons, ih]
    omega
  | case2 | case3 | case4 => simp

theorem octets_length (values : List Nat) : (octets values).length = 3 * values.length / 4 := by
  fun_induction octets values with
  | case1 a b c d values ih =>
    simp only [length_cons, ih]
    omega
  | case2 | case3 | case4 | case5 => simp

theorem spare_length (values : List Nat) :
    (spare values).length = if values.length % 4 = 0 then 0 else 1 := by
  fun_induction spare values with
  | case1 a b c d values ih =>
    have same : (a :: b :: c :: d :: values).length % 4 = values.length % 4 :=
      Nat.add_mod_right values.length 4
    rw [same, ih]
  | case2 | case3 | case4 | case5 => rfl

theorem octets_digits (bytes : List Octet) : octets (digits bytes) = bytes ∧
    ∀ octet ∈ spare (digits bytes), octet = 0 := by
  fun_induction digits bytes with
  | case1 x y z bytes ih =>
    have := y.toNat_lt
    have := z.toNat_lt
    simp only [octets, spare, ih.1, List.cons.injEq, and_true]
    refine ⟨⟨?_, ?_, ?_⟩, ih.2⟩ <;> apply of_nat_eq <;> omega
  | case2 x y =>
    have := y.toNat_lt
    simp only [octets, spare, List.cons.injEq, and_true, mem_singleton, forall_eq]
    refine ⟨⟨?_, ?_⟩, ?_⟩ <;> apply of_nat_eq
    · omega
    · omega
    · rw [UInt8.toNat_zero]
      omega
  | case3 x =>
    simp only [octets, spare, List.cons.injEq, and_true, mem_singleton, forall_eq]
    refine ⟨?_, ?_⟩ <;> apply of_nat_eq
    · omega
    · rw [UInt8.toNat_zero]
      omega
  | case4 => simp [octets, spare]

theorem digits_octets (values : List Nat) (small : ∀ digit ∈ values, digit < 64)
    (ended : values.length % 4 ≠ 1)
    (clean : ∀ octet ∈ spare values, octet = 0) : digits (octets values) = values := by
  fun_induction octets values with
  | case1 a b c d values ih =>
    simp only [forall_mem_cons] at small
    obtain ⟨_, _, _, _, small⟩ := small
    simp only [length_cons] at ended
    have rest := ih small (by omega) (by rwa [spare] at clean)
    rw [digits, to_nat_of_nat (by omega), to_nat_of_nat (by omega), to_nat_of_nat (by omega), rest]
    congr 1
    · omega
    · congr 1
      · omega
      · congr 1
        · omega
        · congr 1
          omega
  | case2 a b c =>
    simp only [forall_mem_cons] at small
    have spared := eq_zero_of_octet (by omega) (clean _ mem_cons_self)
    rw [digits, to_nat_of_nat (by omega), to_nat_of_nat (by omega)]
    simp only [List.cons.injEq, and_true]
    omega
  | case3 a b =>
    simp only [forall_mem_cons] at small
    have spared := eq_zero_of_octet (by omega) (clean _ mem_cons_self)
    rw [digits, to_nat_of_nat (by omega)]
    simp only [List.cons.injEq, and_true]
    omega
  | case4 => cases ended rfl
  | case5 => rfl

end ServerCore.SixBitDigits
