import Mathlib.Data.List.Basic

/-!
# Slot tables with a free stack

A growing array of slots, each held by one key or vacant, together with the
index that every key keeps of its own slot and a stack of the vacant slots. A
slot is released to the stack, taken from it, or appended when the stack is
empty; each of these keeps the three views in step.
-/

namespace ServerCore.SlotTable

open List Function

variable {Key : Type*} {slots : List (Option Key)} {index : Key → Option Nat}
  {free : List Nat} {key : Key} {k : Nat}

def Owned (slots : List (Option Key)) (index : Key → Option Nat) : Prop :=
  ∀ key k, index key = some k ↔ slots[k]? = some (some key)

def Vacant (slots : List (Option Key)) (free : List Nat) : Prop :=
  free.Nodup ∧ ∀ k, k ∈ free ↔ slots[k]? = some none

theorem owned_injective (owned : Owned slots index) {j : Nat}
    (first : slots[j]? = some (some key)) (second : slots[k]? = some (some key)) : j = k := by
  have left := (owned key j).2 first
  have right := (owned key k).2 second
  rw [left] at right
  exact Option.some.inj right

theorem owned_nodup (owned : Owned slots index) : (slots.filterMap id).Nodup := by
  unfold List.Nodup
  rw [pairwise_filterMap, pairwise_iff_getElem]
  intro i j iBound jBound below first isFirst second isSecond same
  subst same
  have held : slots[i]? = some (some first) := by
    rw [getElem?_eq_getElem iBound]
    exact congrArg some isFirst
  have heldToo : slots[j]? = some (some first) := by
    rw [getElem?_eq_getElem jBound]
    exact congrArg some isSecond
  exact absurd (owned_injective owned held heldToo) (Nat.ne_of_lt below)

variable [DecidableEq Key]

theorem owned_release (owned : Owned slots index) (own : index key = some k) :
    Owned (slots.set k none) (update index key none) := by
  have held := (owned key k).1 own
  intro other j
  rw [getElem?_set]
  by_cases isKey : other = key
  · subst isKey
    rw [update_self]
    by_cases isSlot : k = j
    · simp [isSlot]
    · rw [if_neg isSlot, ← owned other j, own]
      simp [isSlot]
  · rw [update_of_ne isKey, owned other j]
    by_cases isSlot : k = j
    · subst isSlot
      have isOther : slots[k]? ≠ some (some other) := by
        rw [held]
        intro same
        exact isKey (Option.some.inj (Option.some.inj same)).symm
      simp [isOther]
    · rw [if_neg isSlot]

omit [DecidableEq Key] in
theorem vacant_release (vacant : Vacant slots free) (held : slots[k]? = some (some key)) :
    Vacant (slots.set k none) (k :: free) := by
  have bound : k < slots.length := (List.getElem?_eq_some_iff.1 held).1
  have wasHeld : k ∉ free := by
    rw [vacant.2 k, held]
    simp
  constructor
  · exact nodup_cons.2 ⟨wasHeld, vacant.1⟩
  · intro j
    rw [getElem?_set, mem_cons, vacant.2 j]
    by_cases isSlot : k = j
    · subst isSlot
      simp [bound]
    · simp [isSlot, Ne.symm isSlot]

theorem owned_take (owned : Owned slots index) (unowned : index key = none)
    (wasVacant : slots[k]? = some none) :
    Owned (slots.set k (some key)) (update index key (some k)) := by
  have bound : k < slots.length := (List.getElem?_eq_some_iff.1 wasVacant).1
  intro other j
  rw [getElem?_set]
  by_cases isKey : other = key
  · subst isKey
    rw [update_self]
    by_cases isSlot : k = j
    · subst isSlot
      simp [bound]
    · rw [if_neg isSlot, ← owned other j, unowned]
      simp [isSlot]
  · rw [update_of_ne isKey, owned other j]
    by_cases isSlot : k = j
    · subst isSlot
      rw [if_pos rfl, if_pos bound, wasVacant]
      simp [Ne.symm isKey]
    · rw [if_neg isSlot]

omit [DecidableEq Key] in
theorem vacant_take (vacant : Vacant slots (k :: free)) : Vacant (slots.set k (some key)) free := by
  have wasVacant := (vacant.2 k).1 mem_cons_self
  have bound : k < slots.length := (List.getElem?_eq_some_iff.1 wasVacant).1
  have once := nodup_cons.1 vacant.1
  constructor
  · exact once.2
  · intro j
    rw [getElem?_set]
    by_cases isSlot : k = j
    · subst isSlot
      simp [bound, once.1]
    · rw [if_neg isSlot, ← vacant.2 j, mem_cons]
      simp [Ne.symm isSlot]

theorem owned_append (owned : Owned slots index) (unowned : index key = none) :
    Owned (slots ++ [some key]) (update index key (some slots.length)) := by
  intro other j
  rw [getElem?_append]
  by_cases isKey : other = key
  · subst isKey
    rw [update_self]
    split
    next below =>
      rw [← owned other j, unowned]
      simp [Nat.ne_of_gt below]
    next above =>
      rw [getElem?_singleton]
      split
      next isLast => simp [show slots.length = j by omega]
      next notLast => simp [show slots.length ≠ j by omega]
  · rw [update_of_ne isKey, owned other j]
    split
    next below => rfl
    next above =>
      rw [getElem?_eq_none (by omega), getElem?_singleton]
      split
      next isLast => simp [Ne.symm isKey]
      next notLast => rfl

omit [DecidableEq Key] in
theorem vacant_append (vacant : Vacant slots []) : Vacant (slots ++ [some key]) [] := by
  constructor
  · exact nodup_nil
  · intro j
    have none_left := vacant.2 j
    rw [getElem?_append]
    split
    next below => exact none_left
    next above =>
      rw [getElem?_singleton]
      split <;> simp

end ServerCore.SlotTable
