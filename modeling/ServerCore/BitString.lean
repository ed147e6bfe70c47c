import Mathlib.Data.List.Basic
import Mathlib.Data.Nat.Bitwise

/-!
# Bit strings of numbers

A number written with a fixed count of bits, the most significant first. Two
such strings in a row are the string of the numbers put side by side.
-/

namespace ServerCore.BitString

open List

variable {left right width length : Nat} {bits : List Bool}

def ofNat (value : Nat) : Nat → List Bool
  | 0 => []
  | width + 1 => value.testBit width :: ofNat value width

@[simp] theorem of_nat_length (value width : Nat) : (ofNat value width).length = width := by
  induction width with
  | zero => rfl
  | succ width ih => simp [ofNat, ih]

theorem of_nat_congr (same : ∀ index < width, left.testBit index = right.testBit index) :
    ofNat left width = ofNat right width := by
  induction width with
  | zero => rfl
  | succ width ih =>
    rw [ofNat, ofNat, same width (Nat.lt_succ_self width),
      ih fun index bound => same index (Nat.lt_succ_of_lt bound)]

theorem of_nat_append {low : Nat} (high : Nat) (above : Nat) (small : low < 2 ^ width) :
    ofNat (high * 2 ^ width + low) (above + width) = ofNat high above ++ ofNat low width := by
  induction above with
  | zero =>
    rw [zero_add]
    apply of_nat_congr
    intro index bound
    rw [mul_comm, Nat.testBit_two_pow_mul_add high small, if_pos bound]
  | succ above ih =>
    have top : (high * 2 ^ width + low).testBit (above + width) = high.testBit above := by
      rw [mul_comm, Nat.testBit_two_pow_mul_add high small, if_neg (by omega), Nat.add_sub_cancel]
    rw [add_right_comm, ofNat, ofNat, ih, top, cons_append]

theorem of_nat_split (value : Nat) (above width : Nat) :
    ofNat value (above + width) = ofNat (value / 2 ^ width) above ++ ofNat (value % 2 ^ width) width := by
  rw [← of_nat_append _ _ (Nat.mod_lt value (Nat.two_pow_pos width)), Nat.div_add_mod']

theorem of_nat_injective (leftSmall : left < 2 ^ width)
    (rightSmall : right < 2 ^ width) (same : ofNat left width = ofNat right width) : left = right := by
  induction width generalizing left right with
  | zero => omega
  | succ width ih =>
    rw [add_comm, of_nat_split left, of_nat_split right] at same
    obtain ⟨top, rest⟩ := append_inj same (by simp)
    have low := ih (Nat.mod_lt left (Nat.two_pow_pos width))
      (Nat.mod_lt right (Nat.two_pow_pos width)) rest
    have bound : ∀ value, value < 2 ^ (width + 1) → value / 2 ^ width < 2 := by
      intro value small
      rw [Nat.div_lt_iff_lt_mul (Nat.two_pow_pos width)]
      rw [pow_succ] at small
      omega
    have leftTop := bound left leftSmall
    have rightTop := bound right rightSmall
    have high : left / 2 ^ width = right / 2 ^ width := by
      generalize left / 2 ^ width = first at top leftTop
      generalize right / 2 ^ width = second at top rightTop
      simp only [ofNat, List.cons.injEq, Nat.testBit_zero, and_true, decide_eq_decide] at top
      omega
    rw [← Nat.div_add_mod left (2 ^ width), ← Nat.div_add_mod right (2 ^ width), high, low]

theorem of_nat_ones (width : Nat) : ofNat (2 ^ width - 1) width = List.replicate width true := by
  induction width with
  | zero => rfl
  | succ width ih =>
    have value : 2 ^ (width + 1) - 1 = 1 * 2 ^ width + (2 ^ width - 1) := by
      have pos := Nat.two_pow_pos width
      rw [pow_succ]
      omega
    have small : 2 ^ width - 1 < 2 ^ width := by
      have pos := Nat.two_pow_pos width
      omega
    rw [value, add_comm width, of_nat_append 1 1 small, ih, add_comm 1, replicate_succ]
    rfl

theorem prefix_of_nat {short long : Nat} (leftSmall : left < 2 ^ short)
    (rightSmall : right < 2 ^ long) (pre : ofNat left short <+: ofNat right long) :
    short ≤ long ∧ right / 2 ^ (long - short) = left := by
  have order : short ≤ long := by simpa using pre.length_le
  refine ⟨order, ?_⟩
  obtain ⟨extra, rfl⟩ := Nat.exists_eq_add_of_le order
  rw [of_nat_split right] at pre
  have heads : ofNat left short = ofNat (right / 2 ^ extra) short := by
    obtain ⟨suffix, joined⟩ := pre
    exact (append_inj joined (by simp)).1
  rw [Nat.add_sub_cancel_left]
  refine (of_nat_injective leftSmall ?_ heads).symm
  rw [Nat.div_lt_iff_lt_mul (Nat.two_pow_pos extra), ← pow_add]
  exact rightSmall

theorem of_nat_and (left right width : Nat) :
    ofNat (left &&& right) width = List.zipWith (· && ·) (ofNat left width) (ofNat right width) := by
  induction width with
  | zero => rfl
  | succ width ih => rw [ofNat, ofNat, ofNat, Nat.testBit_and, zipWith_cons_cons, ih]

def leading (length width : Nat) : List Bool :=
  List.replicate length true ++ List.replicate (width - length) false

theorem and_leading (within : length ≤ bits.length) :
    List.zipWith (· && ·) bits (leading length bits.length) =
      bits.take length ++ List.replicate (bits.length - length) false := by
  induction length generalizing bits with
  | zero =>
    rw [take_zero, nil_append, Nat.sub_zero, leading, replicate_zero, nil_append, Nat.sub_zero]
    clear within
    induction bits with
    | nil => rfl
    | cons bit bits ih =>
      rw [length_cons, replicate_succ, zipWith_cons_cons, ih, Bool.and_false]
  | succ length ih =>
    cases bits with
    | nil => exact absurd within (Nat.not_succ_le_zero _)
    | cons bit bits =>
      rw [length_cons] at within ⊢
      have rest := ih (Nat.le_of_succ_le_succ within)
      rw [leading] at rest ⊢
      rw [replicate_succ, cons_append, zipWith_cons_cons, Nat.add_sub_add_right, rest,
        Bool.and_true, take_succ_cons, cons_append]

theorem masked_eq_iff {left right : List Bool} (same : left.length = right.length) :
    left.take length ++ List.replicate (left.length - length) false =
        right.take length ++ List.replicate (right.length - length) false ↔
      left.take length = right.take length := by
  rw [same]
  refine ⟨fun equal => (append_inj equal ?_).1, fun equal => by rw [equal]⟩
  rw [length_take, length_take, same]

theorem masked_self_iff (length : Nat) :
    bits.take length ++ List.replicate (bits.length - length) false = bits ↔ true ∉ bits.drop length := by
  have parts := take_append_drop length bits
  constructor
  · intro same mem
    have isRest : List.replicate (bits.length - length) false = bits.drop length :=
      append_cancel_left (same.trans parts.symm)
    rw [← isRest] at mem
    nomatch eq_of_mem_replicate mem
  · intro clear_
    have isRest : bits.drop length = List.replicate (bits.length - length) false := by
      refine eq_replicate_iff.2 ⟨length_drop, ?_⟩
      intro bit mem
      cases bit with
      | false => rfl
      | true => exact absurd mem clear_
    rw [← isRest]
    exact parts

end ServerCore.BitString
