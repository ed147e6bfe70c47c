import Mathlib.Order.Lattice
import Mathlib.Data.List.Perm.Basic
import Mathlib.Data.List.Nodup
import Mathlib.Data.List.Range

/-!
# An index kept in the order of keys

Items are numbered in the order in which they came, and a second list holds
their numbers in the order of their keys. A new item gets the next number and
is put in its place; when an item is removed, the last one gets its number.
-/

namespace ServerCore.SortedIndex

open List

variable {α : Type*} [LinearOrder α]

/-- `order` lists the items below `count` by increasing keys. -/
structure Ordered (keys : Nat → α) (count : Nat) (order : List Nat) : Prop where
  perm : order.Perm (List.range count)
  sorted : order.Pairwise fun i j => keys i < keys j

variable {i pos : Nat}

section Lists

variable {keys keys' : Nat → α} {count : Nat} {order : List Nat}

section

variable (ordered : Ordered keys count order)
include ordered

theorem ordered_mem : i ∈ order ↔ i < count := by
  rw [ordered.perm.mem_iff, mem_range]

theorem ordered_nodup : order.Nodup :=
  ordered.perm.nodup_iff.mpr nodup_range

theorem ordered_congr (same : ∀ i < count, keys' i = keys i) : Ordered keys' count order := by
  refine ⟨ordered.perm, ordered.sorted.imp_of_mem ?_⟩
  intro i j inOrder inOrder' less
  rw [same i ((ordered_mem ordered).mp inOrder), same j ((ordered_mem ordered).mp inOrder')]
  exact less

theorem ordered_injective {j : Nat} (first : i < count)
    (second : j < count) (same : keys i = keys j) : i = j := by
  obtain ⟨a, aInside, rfl⟩ := getElem_of_mem ((ordered_mem ordered).mpr first)
  obtain ⟨b, bInside, rfl⟩ := getElem_of_mem ((ordered_mem ordered).mpr second)
  have increasing := pairwise_iff_getElem.mp ordered.sorted
  rcases lt_trichotomy a b with less | rfl | more
  · exact absurd same (ne_of_lt (increasing a b aInside bInside less))
  · rfl
  · exact absurd same.symm (ne_of_lt (increasing b a bInside aInside more))

theorem ordered_insert (pos : Nat) (key : α)
    (before : ∀ i ∈ order.take pos, keys i < key) (behind : ∀ i ∈ order.drop pos, key < keys i)
    (same : ∀ i < count, keys' i = keys i) (isKey : keys' count = key) :
    Ordered keys' (count + 1) (order.take pos ++ count :: order.drop pos) := by
  have old := ordered_congr ordered same
  have inTake : ∀ i ∈ order.take pos, i < count :=
    fun i mem => (ordered_mem ordered).mp (mem_of_mem_take mem)
  have inDrop : ∀ i ∈ order.drop pos, i < count :=
    fun i mem => (ordered_mem ordered).mp (mem_of_mem_drop mem)
  constructor
  · calc (order.take pos ++ count :: order.drop pos).Perm
          (count :: (order.take pos ++ order.drop pos)) := perm_middle
      _ = count :: order := by rw [take_append_drop]
      _ |>.Perm (count :: List.range count) := ordered.perm.cons count
      _ |>.Perm (List.range count ++ [count]) := (perm_append_singleton count _).symm
      _ = List.range (count + 1) := range_succ.symm
  · have whole := old.sorted
    rw [← take_append_drop pos order, pairwise_append] at whole
    obtain ⟨left, right, across⟩ := whole
    rw [pairwise_append, pairwise_cons]
    refine ⟨left, ⟨?_, right⟩, ?_⟩
    · intro i mem
      rw [isKey, same i (inDrop i mem)]
      exact behind i mem
    · intro i mem j inRest
      rcases mem_cons.mp inRest with rfl | later
      · rw [isKey, same i (inTake i mem)]
        exact before i mem
      · exact across i mem j later

end

/-- The number of an item after the item `gone` has been removed. -/
def renumber (count gone i : Nat) : Nat := if i = count then gone else i

theorem ordered_remove (ordered : Ordered keys (count + 1) order) {gone : Nat}
    (inside : pos < order.length) (isGone : order.get ⟨pos, inside⟩ = gone)
    (same : ∀ i ≤ count, i ≠ gone → keys' (renumber count gone i) = keys i) :
    Ordered keys' count ((order.eraseIdx pos).map (renumber count gone)) := by
  have apart := ordered_nodup ordered
  have isPerm : (order.eraseIdx pos).Perm (order.erase gone) := by
    rw [← isGone, get_eq_getElem]
    exact (erase_getElem inside).symm
  have members : ∀ i, i ∈ order.eraseIdx pos ↔ i ≤ count ∧ i ≠ gone := by
    intro i
    rw [isPerm.mem_iff, apart.mem_erase_iff, ordered_mem ordered, Nat.lt_succ_iff, and_comm]
  have goneBelow : gone ≤ count := by
    rw [← isGone, ← Nat.lt_succ_iff, ← ordered_mem ordered]
    exact get_mem _ _
  have erased : (order.eraseIdx pos).Nodup := apart.sublist (eraseIdx_sublist ..)
  constructor
  · apply (perm_ext_iff_of_nodup _ nodup_range).mpr
    · intro i
      rw [mem_map, mem_range]
      constructor
      · rintro ⟨j, mem, rfl⟩
        obtain ⟨below, differ⟩ := (members j).mp mem
        unfold renumber
        split <;> omega
      · intro below
        by_cases isPlace : i = gone
        · refine ⟨count, (members count).mpr ⟨le_rfl, by omega⟩, ?_⟩
          rw [renumber, if_pos rfl, isPlace]
        · refine ⟨i, (members i).mpr ⟨by omega, isPlace⟩, ?_⟩
          rw [renumber, if_neg (by omega)]
    · apply erased.map_on
      intro i mem j member' equal
      obtain ⟨-, differ⟩ := (members i).mp mem
      obtain ⟨-, differ'⟩ := (members j).mp member'
      unfold renumber at equal
      split at equal <;> split at equal <;> omega
  · rw [pairwise_map]
    apply (ordered.sorted.sublist (eraseIdx_sublist ..)).imp_of_mem
    intro i j mem member' less
    obtain ⟨below, differ⟩ := (members i).mp mem
    obtain ⟨below', differ'⟩ := (members j).mp member'
    rw [same i below differ, same j below' differ']
    exact less

end Lists

section Cells

/-- The first `count` cells of an array as a list. -/
def cellsOf (cells : Nat → Nat) (count : Nat) : List Nat := (List.range count).map cells

variable {cells : Nat → Nat} {count : Nat}

@[simp] theorem cells_length : (cellsOf cells count).length = count := by
  rw [cellsOf, length_map, length_range]

theorem cells_get (inside : pos < (cellsOf cells count).length) :
    (cellsOf cells count)[pos] = cells pos := by
  simp [cellsOf]

theorem mem_take_cells (mem : i ∈ (cellsOf cells count).take pos) : ∃ j < pos, cells j = i := by
  rcases mem_take_iff_getElem.mp mem with ⟨j, inside, isItem⟩
  rw [cells_get] at isItem
  exact ⟨j, by omega, isItem⟩

theorem mem_drop_cells (mem : i ∈ (cellsOf cells count).drop pos) :
    ∃ j, pos ≤ j ∧ j < count ∧ cells j = i := by
  rcases mem_drop_iff_getElem.mp mem with ⟨j, inside, isItem⟩
  rw [cells_get] at isItem
  rw [cells_length] at inside
  exact ⟨pos + j, by omega, by omega, isItem⟩

theorem cells_injective {keys : Nat → α} (ordered : Ordered keys count (cellsOf cells count)) {j : Nat}
    (first : i < count) (second : j < count) (same : cells i = cells j) : i = j := by
  have apart := (nodup_map_iff_inj_on nodup_range).mp (ordered_nodup ordered)
  exact apart i (mem_range.mpr first) j (mem_range.mpr second) same

variable {cells' : Nat → Nat}

theorem cells_insert {item : Nat} (within : pos ≤ count)
    (before : ∀ i < pos, cells' i = cells i) (here : cells' pos = item)
    (behind : ∀ i, pos < i → i ≤ count → cells' i = cells (i - 1)) : cellsOf cells' (count + 1) =
      (cellsOf cells count).take pos ++ item :: (cellsOf cells count).drop pos := by
  apply ext_getElem
  · simp
    omega
  · intro i inside inside'
    rw [cells_get]
    rw [cells_length] at inside
    rcases lt_trichotomy i pos with less | rfl | more
    · rw [getElem_append_left (by simp; omega), getElem_take, cells_get, before i less]
    · rw [getElem_append_right (by rw [length_take]; exact Nat.min_le_left _ _)]
      simp [here, min_eq_left within]
    · rw [getElem_append_right (by simp; omega)]
      obtain ⟨more', isMore⟩ : ∃ more', i - min pos count = more' + 1 := ⟨i - pos - 1, by omega⟩
      simp only [length_take, cells_length, isMore, getElem_cons_succ, getElem_drop, cells_get]
      rw [behind i more (by omega)]
      congr 1
      omega

theorem cells_remove (within : pos ≤ count) (before : ∀ i < pos, cells' i = cells i)
    (behind : ∀ i, pos ≤ i → i < count → cells' i = cells (i + 1)) :
    cellsOf cells' count = (cellsOf cells (count + 1)).eraseIdx pos := by
  apply ext_getElem
  · rw [cells_length, length_eraseIdx, if_pos (by rw [cells_length]; omega), cells_length,
      Nat.add_sub_cancel]
  · intro i inside inside'
    rw [cells_length] at inside
    rw [getElem_eraseIdx, cells_get]
    split
    · rw [cells_get, before i (by assumption)]
    · rw [cells_get, behind i (by omega) inside]

end Cells

end ServerCore.SortedIndex
