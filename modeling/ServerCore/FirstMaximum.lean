import Mathlib.Data.List.MinMax

/-!
# The first of the largest

A loop over indexes keeps the largest of those that count, by a value that
begins with one that every index beats.
-/

namespace ServerCore.FirstMaximum

open List

variable {Key Value : Type*} [LinearOrder Key] {key : Nat → Key} {may : Nat → Bool} {value : Nat → Value}
  {beats : Value → Nat → Prop} [∀ best index, Decidable (beats best index)] {start : Value}

theorem loop_eq (fromStart : ∀ index, beats start index)
    (isBeats : ∀ best index, beats (value best) index ↔ key best < key index) (count : Nat) :
    (range count).foldl (fun best index =>
      if may index ∧ beats best.1 index then (value index, some index) else best) (start, none) =
      ((argmax key ((range count).filter may)).elim start value, argmax key ((range count).filter may)) := by
  induction count with
  | zero => rfl
  | succ count ih =>
    rw [range_succ, foldl_append, ih, filter_append, filter_singleton]
    by_cases counts : may count
    · rw [counts, cond_true, argmax_concat]
      cases argmax key ((range count).filter may) with
      | none => simp [counts, fromStart]
      | some best =>
        by_cases less : key best < key count <;> simp [counts, isBeats, less]
    · simp [counts]

end ServerCore.FirstMaximum
