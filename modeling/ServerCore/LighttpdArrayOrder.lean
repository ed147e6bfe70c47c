import ServerCore.LighttpdArray
import ServerCore.SortedIndex

/-!
# The order of the keys and the binary search

`buffer_caseless_compare` is the order of the keys in lower case. Where the
elements are allocated, no two slots share one and the index is in that order,
`array_get_index` finds the element with a key or the place where it belongs.
-/

namespace ServerCore.LighttpdArrayOrder

open LighttpdArray SortedIndex

variable {entry : DataString}

def foldKey (key : Bytes) : List Nat := key.map fun c => (lowerByte c).toNat

theorem fold_cons (c : Byte) (key : Bytes) : foldKey (c :: key) = (lowerByte c).toNat :: foldKey key :=
  rfl

theorem compare_eq_zero (a b : Bytes) : bufferCaselessCompare a b = 0 ↔ foldKey a = foldKey b := by
  induction a generalizing b with
  | nil => cases b <;> simp [bufferCaselessCompare, foldKey]
  | cons c a ih =>
    cases b with
    | nil => simp [bufferCaselessCompare, foldKey]
    | cons d b =>
      rw [bufferCaselessCompare, fold_cons, fold_cons, List.cons.injEq, UInt8.toNat_inj]
      split_ifs with same sameLower
      · rw [ih b, same]
        simp
      · rw [ih b]
        simp [sameLower]
      · have differ : (lowerByte c).toNat ≠ (lowerByte d).toNat := fun h => sameLower (UInt8.toNat_inj.mp h)
        constructor
        · intro zero
          omega
        · intro both
          exact absurd both.1 sameLower

theorem compare_neg (a b : Bytes) : bufferCaselessCompare a b < 0 ↔ foldKey a < foldKey b := by
  induction a generalizing b with
  | nil => cases b <;> simp [bufferCaselessCompare, foldKey]
  | cons c a ih =>
    cases b with
    | nil => simp [bufferCaselessCompare, foldKey]
    | cons d b =>
      rw [bufferCaselessCompare, fold_cons, fold_cons, List.cons_lt_cons_iff]
      split_ifs with same sameLower
      · rw [ih b, same]
        simp
      · rw [ih b, sameLower]
        simp
      · have differ : (lowerByte c).toNat ≠ (lowerByte d).toNat := fun h => sameLower (UInt8.toNat_inj.mp h)
        omega

section Elements

variable (s : Store)

def item (ndx : Nat) : Option DataString := (s.array.data ndx).bind s.heap

def keyAt (ndx : Nat) : List Nat :=
  match item s ndx with
  | some entry => foldKey (Buffer.text entry.key)
  | none => []

/-- The pointers in the slots, below `used` and above. -/
def InSlot (p : Ptr) : Prop := ∃ ndx < s.array.size, s.array.data ndx = some p

structure Represents : Prop where
  fits : s.array.used ≤ s.array.size
  limit : s.array.used ≤ ssizeMax
  live : ∀ ndx < s.array.used, s.array.data ndx ≠ none
  allocated : ∀ ndx p, ndx < s.array.size → s.array.data ndx = some p →
    ∃ entry, s.heap p = some entry ∧ entry.isIndexKey = false
  apart : ∀ ndx other p, ndx < s.array.size → other < s.array.size →
    s.array.data ndx = some p → s.array.data other = some p → ndx = other
  index : Ordered (keyAt s) s.array.used (cellsOf s.array.sorted s.array.used)

variable {s}

variable {ndx pos : Nat} {p : Ptr}

theorem live_element (rep : Represents s) (inside : ndx < s.array.used) :
    ∃ p entry, s.array.data ndx = some p ∧ s.heap p = some entry ∧ entry.isIndexKey = false := by
  obtain ⟨p, isData⟩ := Option.ne_none_iff_exists'.mp (rep.live ndx inside)
  obtain ⟨entry, isEntry, notIndex⟩ := rep.allocated ndx p (by have := rep.fits; omega) isData
  exact ⟨p, entry, isData, isEntry, notIndex⟩

section

variable {ndx : Nat} {p : Ptr} {entry : DataString} (isData : s.array.data ndx = some p)
  (isEntry : s.heap p = some entry)
include isData isEntry

theorem item_eq : item s ndx = some entry := by
  rw [item, isData, Option.bind_some, isEntry]

theorem key_at_eq : keyAt s ndx = foldKey (Buffer.text entry.key) := by
  rw [keyAt, item_eq isData isEntry]

end

theorem cell_eq (inside : ndx < s.array.size) : s.cell ndx = some (s.array.data ndx) :=
  if_pos inside

theorem element_eq (inside : ndx < s.array.size)
    (isData : s.array.data ndx = some p) (isEntry : s.heap p = some entry) :
    s.element ndx = some (p, entry) := by
  rw [Store.element, cell_eq inside, isData]
  simp [isEntry]

theorem sorted_lt (rep : Represents s) (inside : pos < s.array.used) :
    s.array.sorted pos < s.array.used := by
  rw [← ordered_mem rep.index]
  exact List.mem_map_of_mem (List.mem_range.mpr inside)

theorem sorted_increasing (rep : Represents s) {i j : Nat} (less : i < j) (inside : j < s.array.used) :
    keyAt s (s.array.sorted i) < keyAt s (s.array.sorted j) := by
  have increasing := List.pairwise_iff_getElem.mp rep.index.sorted i j (by rw [cells_length]; omega)
    (by rw [cells_length]; exact inside) less
  rwa [cells_get, cells_get] at increasing

inductive Found (s : Store) (key : List Nat) : Option Nat × Nat → Prop
  | present (pos : Nat) : pos < s.array.used → keyAt s (s.array.sorted pos) = key →
      Found s key (some (s.array.sorted pos), pos)
  | absent (pos : Nat) : pos ≤ s.array.used →
      (∀ i < pos, keyAt s (s.array.sorted i) < key) →
      (∀ i, pos ≤ i → i < s.array.used → key < keyAt s (s.array.sorted i)) →
      Found s key (none, pos)

section

variable (rep : Represents s)
include rep

theorem search_spec {key : Bytes} (fuel lower upper : Nat)
    (enough : upper - lower < fuel) (ordered : lower ≤ upper) (inside : upper ≤ s.array.used)
    (before : ∀ i < lower, keyAt s (s.array.sorted i) < foldKey key)
    (behind : ∀ i, upper ≤ i → i < s.array.used → foldKey key < keyAt s (s.array.sorted i)) :
    ∃ result, s.search key fuel lower upper = some result ∧ Found s (foldKey key) result := by
  induction fuel generalizing lower upper with
  | zero => omega
  | succ fuel ih =>
    by_cases isEnd : lower = upper
    · subst isEnd
      exact ⟨(none, lower), by rw [Store.search, if_pos rfl], .absent lower inside before behind⟩
    · have probeBelow : (lower + upper) / 2 < s.array.used := by omega
      obtain ⟨p, entry, isData, isEntry, -⟩ := live_element rep (sorted_lt rep probeBelow)
      have isKey := key_at_eq isData isEntry
      have unfolded : s.search key (fuel + 1) lower upper =
          if bufferCaselessCompare key (Buffer.text entry.key) = 0 then
            some (some (s.array.sorted ((lower + upper) / 2)), (lower + upper) / 2)
          else if bufferCaselessCompare key (Buffer.text entry.key) < 0 then
            s.search key fuel lower ((lower + upper) / 2)
          else s.search key fuel ((lower + upper) / 2 + 1) upper := by
        have fits := rep.fits
        have elementIs := element_eq (lt_of_lt_of_le (sorted_lt rep probeBelow) fits) isData isEntry
        simp only [Store.search, if_neg isEnd, Store.sortedAt]
        rw [if_pos (by omega : (lower + upper) / 2 < s.array.size)]
        simp [elementIs]
      rw [unfolded]
      split_ifs with equal less
      · refine ⟨_, rfl, .present _ probeBelow ?_⟩
        rw [isKey]
        exact ((compare_eq_zero _ _).mp equal).symm
      · have below := (compare_neg _ _).mp less
        rw [← isKey] at below
        apply ih lower _ (by omega) (by omega) (by omega) before
        intro i fromProbe iInside
        rcases Nat.eq_or_lt_of_le fromProbe with rfl | more
        · exact below
        · exact below.trans (sorted_increasing rep more iInside)
      · have above : keyAt s (s.array.sorted ((lower + upper) / 2)) < foldKey key := by
          rw [isKey]
          apply lt_of_le_of_ne
          · exact not_lt.mp fun h => less ((compare_neg _ _).mpr h)
          · exact fun h => equal ((compare_eq_zero _ _).mpr h.symm)
        apply ih _ upper (by omega) (by omega) inside _ behind
        intro i below
        rcases Nat.eq_or_lt_of_le (Nat.lt_succ_iff.mp below) with rfl | fewer
        · exact above
        · exact (sorted_increasing rep fewer probeBelow).trans above

theorem get_index_spec (key : Bytes) :
    ∃ result, s.arrayGetIndex key = some result ∧ Found s (foldKey key) result := by
  rw [Store.arrayGetIndex, if_pos rep.limit]
  apply search_spec rep _ 0 _ (by omega) (Nat.zero_le _) (Nat.le_refl _)
  · intro i below
    cases below
  · intro i above inside
    omega

theorem exists_position (inside : ndx < s.array.used) :
    ∃ pos < s.array.used, s.array.sorted pos = ndx := by
  have mem := (ordered_mem rep.index).mpr inside
  obtain ⟨pos, below, isNdx⟩ := List.mem_map.mp mem
  exact ⟨pos, List.mem_range.mp below, isNdx⟩

theorem absent_key {key : List Nat}
    (absent : Found s key (none, pos)) (inside : ndx < s.array.used) : keyAt s ndx ≠ key := by
  obtain ⟨i, below, rfl⟩ := exists_position rep inside
  cases absent with
  | absent _ _ before behind =>
    rcases lt_or_ge i pos with less | more
    · exact ne_of_lt (before i less)
    · exact (ne_of_lt (behind i more below)).symm

theorem get_index_live
    (inside : ndx < s.array.used) (isData : s.array.data ndx = some p) (isEntry : s.heap p = some entry) :
    ∃ pos < s.array.used, s.array.sorted pos = ndx ∧
      s.arrayGetIndex (Buffer.text entry.key) = some (some ndx, pos) := by
  obtain ⟨result, isResult, found⟩ := get_index_spec rep (Buffer.text entry.key)
  have isKey := key_at_eq isData isEntry
  rcases result with ⟨_ | other, pos⟩
  · exact absurd isKey (absent_key rep found inside)
  · cases found with
    | present _ positionBelow same =>
      have sameNdx := ordered_injective rep.index
        (sorted_lt rep positionBelow) inside (same.trans isKey.symm)
      refine ⟨pos, positionBelow, sameNdx, ?_⟩
      rw [isResult, sameNdx]

end

end Elements

end ServerCore.LighttpdArrayOrder
