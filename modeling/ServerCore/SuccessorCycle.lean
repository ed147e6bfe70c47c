import Mathlib.Data.Set.Basic

/-!
# Successors on a cycle of keys

The successor of a value in a set of linearly ordered keys is the least key that
is not below it, or the least key of all where there is none.
-/

namespace ServerCore.SuccessorCycle

variable {Key : Type*} [LinearOrder Key]
variable {keys : Set Key} {value : Key} {table : Nat → Key} {count : Nat}

structure Succeeds (keys : Set Key) (value key : Key) : Prop where
  mem : key ∈ keys
  next : ∀ other ∈ keys, value ≤ other → value ≤ key ∧ key ≤ other
  around : (∀ other ∈ keys, other < value) → ∀ other ∈ keys, key ≤ other

theorem succeeds_unique {first second : Key}
    (one : Succeeds keys value first) (two : Succeeds keys value second) : first = second := by
  by_cases reached : ∃ other ∈ keys, value ≤ other
  · obtain ⟨other, member, above⟩ := reached
    have firstAbove := (one.next other member above).1
    have secondAbove := (two.next other member above).1
    exact le_antisymm (one.next second two.mem secondAbove).2 (two.next first one.mem firstAbove).2
  · have below : ∀ other ∈ keys, other < value := by
      intro other member
      by_contra above
      exact reached ⟨other, member, not_lt.mp above⟩
    exact le_antisymm (one.around below second two.mem) (two.around below first one.mem)

theorem succeeds_subset {fewer : Set Key} {key : Key} (succeeds : Succeeds keys value key)
    (subset : fewer ⊆ keys) (stays : key ∈ fewer) : Succeeds fewer value key := by
  refine ⟨stays, fun other member above => succeeds.next other (subset member) above, ?_⟩
  intro below other member
  have notReached : ∀ other ∈ keys, other < value := by
    intro other member
    by_contra above
    have reached := (succeeds.next other member (not_lt.mp above)).1
    exact absurd (below key stays) (not_lt.mpr reached)
  exact succeeds.around notReached other (subset member)

def Ascending (table : Nat → Key) (count : Nat) : Prop :=
  ∀ i j, i < j → j < count → table i < table j

structure LowerBound (table : Nat → Key) (count : Nat) (value : Key) (index : Nat) : Prop where
  within : index ≤ count
  below : ∀ i < index, table i < value
  above : ∀ i < count, index ≤ i → value ≤ table i

def keysOf (table : Nat → Key) (count : Nat) : Set Key := {key | ∃ i < count, table i = key}

theorem ascending_le (ascending : Ascending table count) {i j : Nat}
    (order : i ≤ j) (inside : j < count) : table i ≤ table j := by
  cases lt_or_eq_of_le order with
  | inl less => exact le_of_lt (ascending i j less inside)
  | inr same => exact le_of_eq (congrArg table same)

theorem lower_bound_succeeds {index : Nat}
    (ascending : Ascending table count) (pos : 0 < count) (bound : LowerBound table count value index) :
    Succeeds (keysOf table count) value (table (index % count)) := by
  refine ⟨⟨index % count, Nat.mod_lt index pos, rfl⟩, ?_, ?_⟩
  · rintro other ⟨i, inside, rfl⟩ above
    have order : index ≤ i := by
      by_contra before
      exact absurd (bound.below i (Nat.lt_of_not_le before)) (not_lt.mpr above)
    have small : index < count := lt_of_le_of_lt order inside
    rw [Nat.mod_eq_of_lt small]
    exact ⟨bound.above index small le_rfl, ascending_le ascending order inside⟩
  · rintro below other ⟨i, inside, rfl⟩
    have past : index = count := by
      by_contra differs
      have small : index < count := Nat.lt_of_le_of_ne bound.within differs
      exact absurd (below (table index) ⟨index, small, rfl⟩)
        (not_lt.mpr (bound.above index small le_rfl))
    rw [past, Nat.mod_self]
    exact ascending_le ascending (Nat.zero_le i) inside

end ServerCore.SuccessorCycle
