import Mathlib.Data.Nat.Bitwise

/-!
# Words as sets of bits

A word of flags is tested, set and cleared with the mask `1 <<< k`. Each of
these operations is described by the bits of its result.
-/

namespace ServerCore.BitMask

variable {w : Nat} {word : BitVec w} {k : Nat}

theorem get_bit (below : k < w) (j : Nat) : ((1 : BitVec w) <<< k).getLsbD j = decide (j = k) := by
  rw [show (1 : BitVec w) <<< k = BitVec.twoPow w k from (BitVec.twoPow_eq w k).symm,
    BitVec.getLsbD_twoPow]
  simp [below, eq_comm]

theorem eq_zero_iff : word = 0 ↔ ∀ j < w, word.getLsbD j = false := by
  constructor
  · rintro rfl j _
    exact BitVec.getLsbD_zero
  · intro clear
    apply BitVec.eq_of_getLsbD_eq
    intro j below
    rw [clear j below]
    exact BitVec.getLsbD_zero.symm

theorem eq_all_ones_iff : word = BitVec.allOnes w ↔ ∀ j < w, word.getLsbD j = true := by
  constructor
  · rintro rfl j below
    simp [below]
  · intro set
    apply BitVec.eq_of_getLsbD_eq
    intro j below
    rw [set j below]
    simp [below]

theorem and_bit_eq_zero (below : k < w) : word &&& (1 : BitVec w) <<< k = 0 ↔ word.getLsbD k = false := by
  rw [eq_zero_iff]
  constructor
  · intro clear
    have here := clear k below
    rw [BitVec.getLsbD_and, get_bit below] at here
    simpa using here
  · intro clear j _
    rw [BitVec.getLsbD_and, get_bit below]
    by_cases same : j = k
    · rw [same, clear, Bool.false_and]
    · simp [same]

theorem set_bit (below : k < w) (j : Nat) :
    (word ||| (1 : BitVec w) <<< k).getLsbD j = if j = k then true else word.getLsbD j := by
  rw [BitVec.getLsbD_or, get_bit below]
  split <;> simp [*]

theorem clear_bit (below : k < w) (j : Nat) :
    (word &&& ~~~((1 : BitVec w) <<< k)).getLsbD j = if j = k then false else word.getLsbD j := by
  rw [BitVec.getLsbD_and, BitVec.getLsbD_not, get_bit below]
  by_cases inside : j < w
  · split <;> simp [*]
  · rw [BitVec.getLsbD_of_ge word j (by omega)]
    simp

theorem low_bits (within : k ≤ w) (j : Nat) : (((1 : BitVec w) <<< k) - 1).getLsbD j = decide (j < k) := by
  rcases Nat.lt_or_eq_of_le within with below | rfl
  · have power : 2 ^ k < 2 ^ w := Nat.pow_lt_pow_right (by decide) below
    have positive := Nat.two_pow_pos k
    have isNat : (((1 : BitVec w) <<< k) - 1).toNat = 2 ^ k - 1 := by
      rw [show (1 : BitVec w) <<< k = BitVec.twoPow w k from (BitVec.twoPow_eq w k).symm,
        BitVec.toNat_sub, BitVec.toNat_twoPow, Nat.mod_eq_of_lt power]
      have one : (1 : BitVec w).toNat = 1 := by
        change 1 % 2 ^ w = 1
        exact Nat.mod_eq_of_lt (by omega)
      rw [one, show 2 ^ w - 1 + 2 ^ k = 2 ^ k - 1 + 2 ^ w by omega, Nat.add_mod_right]
      exact Nat.mod_eq_of_lt (by omega)
    rw [BitVec.getLsbD, isNat, Nat.testBit_two_pow_sub_one]
  · have gone : (1 : BitVec k) <<< k = 0 := by
      apply BitVec.eq_of_getLsbD_eq
      intro i inside
      rw [BitVec.getLsbD_shiftLeft]
      simp [inside]
    have ones : (0 : BitVec k) - 1 = BitVec.allOnes k := by
      change 0#k - 1#k = _
      rw [BitVec.zero_sub, BitVec.neg_one_eq_allOnes]
    rw [gone, ones, BitVec.getLsbD_allOnes]

end ServerCore.BitMask
