import ServerCore.LighttpdArrayUpdates

/-!
# Removed, emptied and recycled elements

`array_extract_element_klen` moves the last element to the place of the one that
is taken out and closes the gap in the index.
-/

namespace ServerCore.LighttpdArrayRemoval

open LighttpdArray LighttpdArrayOrder LighttpdArrayUpdates SortedIndex Option Function

variable {other ndx : Nat} {p : Ptr} {content : Content}

section Removal

variable {s s' : Store} {ndx pos : Nat}

/-- The element in the slot `ndx` has been taken out. -/
structure Removed (s : Store) (ndx pos : Nat) (s' : Store) : Prop where
  used : s.array.used = s'.array.used + 1
  size : s'.array.size = s.array.size
  heap : s'.heap = s.heap
  kept : ∀ other ≤ s'.array.used, other ≠ ndx →
    s'.array.data (renumber s'.array.used ndx other) = s.array.data other
  last : s'.array.data s'.array.used = none
  rest : ∀ other, s'.array.used < other → s'.array.data other = s.array.data other
  cells : cellsOf s'.array.sorted s'.array.used =
    ((cellsOf s.array.sorted s.array.used).eraseIdx pos).map (renumber s'.array.used ndx)

section

variable (removed : Removed s ndx pos s')
include removed

theorem removed_slot (inside : ndx < s.array.used)
    (isData : s'.array.data other = some p) : ∃ old, old ≠ ndx ∧ s.array.data old = some p ∧
      (old ≤ s'.array.used ∧ other = renumber s'.array.used ndx old ∨
        s'.array.used < old ∧ other = old) := by
  have used := removed.used
  rcases lt_trichotomy other s'.array.used with less | rfl | more
  · by_cases isPlace : other = ndx
    · have isLast : renumber s'.array.used ndx s'.array.used = other := by
        rw [renumber, if_pos rfl, isPlace]
      have kept := removed.kept s'.array.used le_rfl (by omega)
      rw [isLast, isData] at kept
      exact ⟨s'.array.used, by omega, kept.symm, .inl ⟨le_rfl, isLast.symm⟩⟩
    · have same : renumber s'.array.used ndx other = other := if_neg (by omega)
      have kept := removed.kept other (by omega) isPlace
      rw [same, isData] at kept
      exact ⟨other, isPlace, kept.symm, .inl ⟨by omega, same.symm⟩⟩
  · rw [removed.last] at isData
    cases isData
  · rw [removed.rest other more] at isData
    exact ⟨other, by omega, isData, .inr ⟨more, rfl⟩⟩

theorem removed_item (below : other ≤ s'.array.used)
    (differ : other ≠ ndx) : item s' (renumber s'.array.used ndx other) = item s other := by
  rw [item, item, removed.kept other below differ, removed.heap]

theorem represents_removed (rep : Represents s) (inside : ndx < s.array.used)
    (positionInside : pos < s.array.used) (isNdx : s.array.sorted pos = ndx) : Represents s' := by
  have used := removed.used
  have fits := rep.fits
  have limit := rep.limit
  have bound : ∀ {old other : Nat}, old ≤ s'.array.used ∧ other = renumber s'.array.used ndx old ∨
      s'.array.used < old ∧ other = old → other < s.array.size → old < s.array.size := by
    rintro old other (⟨below, -⟩ | ⟨-, rfl⟩) otherIn
    · omega
    · exact otherIn
  constructor
  · rw [removed.size]
    omega
  · omega
  · intro other otherIn
    by_cases isPlace : other = ndx
    · have kept := removed.kept s'.array.used le_rfl (by omega)
      rw [renumber, if_pos rfl] at kept
      rw [isPlace, kept]
      exact rep.live _ (by omega)
    · have kept := removed.kept other (by omega) isPlace
      rw [renumber, if_neg (by omega)] at kept
      rw [kept]
      exact rep.live other (by omega)
  · intro other p otherIn isData
    rw [removed.size] at otherIn
    rcases removed_slot removed inside isData with ⟨old, -, oldData, place⟩
    rw [removed.heap]
    exact rep.allocated old p (bound place otherIn) oldData
  · intro i j p iInside jInside iData jData
    rw [removed.size] at iInside jInside
    rcases removed_slot removed inside iData with ⟨old, -, oldData, place⟩
    rcases removed_slot removed inside jData with ⟨old', -, oldData', place'⟩
    have same := rep.apart old old' p (bound place iInside) (bound place' jInside) oldData oldData'
    subst same
    rcases place with ⟨below, rfl⟩ | ⟨above, rfl⟩ <;> rcases place' with ⟨below', rfl⟩ | ⟨above', rfl⟩
    · rfl
    · omega
    · omega
    · rfl
  · rw [removed.cells]
    have index := rep.index
    rw [used] at index positionInside
    rw [used]
    have inOrder : pos < (cellsOf s.array.sorted (s'.array.used + 1)).length := by
      rw [cells_length]
      exact positionInside
    apply ordered_remove index inOrder
    · rw [List.get_eq_getElem, cells_get]
      exact isNdx
    · intro i below differ
      rw [keyAt, keyAt, removed_item removed below differ]

theorem denotes_removed (rep : Represents s) (inside : ndx < s.array.used)
    (denotes : Denotes s content) : Denotes s' (update content (keyAt s ndx) none) := by
  have used := removed.used
  have backwards : ∀ key v, Holds s' key v →
      ∃ old < s.array.used, old ≠ ndx ∧ ∃ entry, item s old = some entry ∧
        foldKey (Buffer.text entry.key) = key ∧ entry.value = v := by
    rintro key v ⟨other, otherIn, entry, isItem, isKey, isValue⟩
    by_cases isPlace : other = ndx
    · have same := removed_item removed (le_refl s'.array.used) (by omega)
      rw [renumber, if_pos rfl, ← isPlace, isItem] at same
      exact ⟨s'.array.used, by omega, by omega, entry, same.symm, isKey, isValue⟩
    · have same := removed_item removed (le_of_lt otherIn) isPlace
      rw [renumber, if_neg (by omega), isItem] at same
      exact ⟨other, by omega, isPlace, entry, same.symm, isKey, isValue⟩
  apply denotes_update denotes
  · intro key differ v
    constructor
    · intro holds
      rcases backwards key v holds with ⟨old, oldInside, -, entry, isItem, isKey, isValue⟩
      exact ⟨old, oldInside, entry, isItem, isKey, isValue⟩
    · rintro ⟨old, oldInside, entry, isItem, isKey, isValue⟩
      have notGone : old ≠ ndx := by
        rintro rfl
        apply differ
        rw [keyAt, isItem]
        exact isKey.symm
      refine ⟨renumber s'.array.used ndx old, ?_, entry, ?_, isKey, isValue⟩
      · unfold renumber
        split_ifs <;> omega
      · rw [removed_item removed (by omega) notGone, isItem]
  · intro v
    constructor
    · intro holds
      rcases backwards _ v holds with ⟨old, oldInside, differ, entry, isItem, isKey, -⟩
      have oldKey : keyAt s old = keyAt s ndx := by
        rw [keyAt, isItem]
        exact isKey
      exact absurd (ordered_injective rep.index oldInside inside oldKey) differ
    · intro impossible
      cases impossible

end

theorem move_last_spec (rep : Represents s) {lastNdx : Nat} (isLast : s.array.used = lastNdx + 1)
    (inside : ndx < s.array.used) :
    ∃ data sorted, s.moveLast ndx lastNdx = some { s with array := { s.array with
          data := data
          sorted := sorted } } ∧
      (∀ other ≤ lastNdx, other ≠ ndx → data (renumber lastNdx ndx other) = s.array.data other) ∧
      data lastNdx = none ∧ (∀ other, lastNdx < other → data other = s.array.data other) ∧
      ∀ i < s.array.used, sorted i = renumber lastNdx ndx (s.array.sorted i) := by
  have fits := rep.fits
  have lastInside : lastNdx < s.array.size := by omega
  have ndxInside : ndx < s.array.size := by omega
  by_cases isEnd : ndx = lastNdx
  · subst isEnd
    refine ⟨update s.array.data ndx none, s.array.sorted, ?_, ?_, ?_, ?_, ?_⟩
    · rw [Store.moveLast, if_neg (not_not.mpr rfl), Store.setData, if_pos ndxInside]
    · intro other below differ
      rw [renumber, if_neg differ, update_of_ne differ]
    · exact update_self _ _ _
    · intro other above
      exact update_of_ne (by omega) _ _
    · intro i below
      unfold renumber
      split_ifs with isNdx
      · exact isNdx
      · rfl
  · rcases live_element rep (show lastNdx < s.array.used by omega) with ⟨q, last, isData, isEntry, -⟩
    rcases get_index_live rep (by omega) isData isEntry with ⟨lastElemPos, posInside, isPos, isIndex⟩
    refine ⟨update (update s.array.data ndx (s.array.data lastNdx)) lastNdx none,
      update s.array.sorted lastElemPos ndx, ?_, ?_, ?_, ?_, ?_⟩
    · have posFits : lastElemPos < s.array.size := by omega
      simp [Store.moveLast, isEnd, element_eq lastInside isData isEntry, isIndex,
        cell_eq lastInside, Store.setData,
        ndxInside, lastInside, Store.setSorted, posFits, Store.withSorted]
    · intro other below differ
      unfold renumber
      split_ifs with isOther
      · rw [update_of_ne isEnd, update_self, isOther]
      · rw [update_of_ne isOther, update_of_ne differ]
    · exact update_self _ _ _
    · intro other above
      rw [update_of_ne (by omega), update_of_ne (by omega)]
    · intro i below
      by_cases isHere : i = lastElemPos
      · rw [isHere, update_self, isPos, renumber, if_pos rfl]
      · have notLast : s.array.sorted i ≠ lastNdx := by
          intro same
          apply isHere
          exact cells_injective rep.index below posInside (same.trans isPos.symm)
        rw [update_of_ne isHere, renumber, if_neg notLast]

theorem close_gap_spec (s : Store) (pos lastNdx : Nat) (inside : lastNdx < s.array.size) :
    ∃ sorted, s.closeGap pos lastNdx = some (s.withSorted sorted) ∧
      (∀ i < pos, sorted i = s.array.sorted i) ∧
      ∀ i, pos ≤ i → i < lastNdx → sorted i = s.array.sorted (i + 1) := by
  unfold Store.closeGap
  split_ifs with differ
  · refine ⟨_, rfl, ?_, ?_⟩
    · intro i less
      exact if_neg (by omega)
    · intro i more below
      exact if_pos ⟨more, below⟩
  · exact ⟨s.array.sorted, rfl, fun _ _ => rfl, fun i more below => by omega⟩

theorem extract_present (rep : Represents s) {key : Bytes}
    (isIndex : s.arrayGetIndex key = some (some ndx, pos)) (positionInside : pos < s.array.used)
    (inside : ndx < s.array.used) :
    ∃ s', s.arrayExtractElement key = some (s', s.array.data ndx) ∧ Removed s ndx pos s' := by
  have fits := rep.fits
  rcases Nat.exists_eq_add_of_lt inside with ⟨more, isUsed⟩
  have isLast : s.array.used = (ndx + more) + 1 := isUsed
  have lastInside : ndx + more < s.array.size := by omega
  rcases move_last_spec rep isLast inside with ⟨data, sorted, isMoved, kept, last, rest, renumbered⟩
  rcases close_gap_spec { s with array := { s.array with data := data, sorted := sorted } } pos
    (ndx + more)
    lastInside with ⟨closed, isClosed, before, behind⟩
  refine ⟨⟨{ s.array with
      data := data
      sorted := update closed (ndx + more) arrayNotFound
      used := ndx + more }, s.heap⟩, ?_, ?_⟩
  · have lastIs : s.array.used - 1 = ndx + more := by omega
    simp [Store.arrayExtractElement, isIndex, cell_eq (show ndx < s.array.size by omega), lastIs,
      isMoved, isClosed, Store.setSorted, Store.withSorted, if_pos lastInside, Store.setUsed]
  · refine ⟨isLast, rfl, rfl, kept, last, rest, ?_⟩
    rw [isLast]
    change cellsOf (update closed (ndx + more) arrayNotFound) (ndx + more) =
      ((cellsOf s.array.sorted (ndx + more + 1)).eraseIdx pos).map (renumber (ndx + more) ndx)
    have asMap : cellsOf sorted (ndx + more + 1) =
        (cellsOf s.array.sorted (ndx + more + 1)).map (renumber (ndx + more) ndx) := by
      rw [cellsOf, cellsOf, List.map_map]
      apply List.map_congr_left
      intro i mem
      exact renumbered i (by rw [isLast]; exact List.mem_range.mp mem)
    rw [← List.eraseIdx_map, ← asMap]
    apply cells_remove (by omega)
    · intro i less
      rw [update_of_ne (by omega)]
      exact before i less
    · intro i above below
      rw [update_of_ne (by omega)]
      exact behind i above below

end Removal

section Recycling

variable {s s' : Store}

/-- From the slot `i` on, the scan meets an element or the end of the slots
before its counter of 32 bits comes around. -/
def ScanEnds (s : Store) (i : Nat) : Prop :=
  s.array.size < 2 ^ 32 ∨ ∃ j, i ≤ j ∧ j < 2 ^ 32 ∧ j < s.array.size ∧ s.array.data j ≠ none

theorem unused_from_spec (rep : Represents s) (fuel i : Nat)
    (enough : 2 ^ 32 < fuel + i) (small : i < 2 ^ 32)
    (ends : ScanEnds s i) : s.unusedFrom fuel i = some none ∨
      ∃ j p, i ≤ j ∧ j < s.array.size ∧ s.array.data j = some p ∧
      s.unusedFrom fuel i = some (some j) := by
  induction fuel generalizing i with
  | zero => omega
  | succ fuel ih =>
    rw [Store.unusedFrom]
    split_ifs with inside
    · cases isData : s.array.data i with
      | some p =>
        rcases rep.allocated i p inside isData with ⟨entry, isEntry, -⟩
        right
        refine ⟨i, p, le_rfl, inside, isData, ?_⟩
        simp [isEntry]
      | none =>
        have step : i + 1 < 2 ^ 32 ∧ ScanEnds s (i + 1) := by
          rcases ends with short | ⟨j, above, below, jInside, isSome⟩
          · exact ⟨by omega, .inl short⟩
          · have differ : j ≠ i := by
              rintro rfl
              exact isSome isData
            exact ⟨by omega, .inr ⟨j, by omega, below, jInside, isSome⟩⟩
        simp only [Nat.mod_eq_of_lt step.1]
        rcases ih (i + 1) (by omega) step.1 step.2 with isNone | ⟨j, p, above, rest⟩
        · exact .inl isNone
        · exact .inr ⟨j, p, by omega, rest⟩
    · exact .inl rfl

/-- The element in the slot `i` is taken, and the one at `used` moves there. -/
def recycle (s : Store) (i : Nat) : Store :=
  { s with array := { s.array with
      data := update (update s.array.data i (s.array.data s.array.used)) s.array.used none } }

variable {i : Nat}

theorem recycle_kept (above : s.array.used ≤ i) (inside : ndx < s.array.used) :
    (recycle s i).array.data ndx = s.array.data ndx := by
  change update _ _ _ _ = _
  rw [update_of_ne (by omega), update_of_ne (by omega)]

theorem recycle_slot {q : Ptr} (isData : (recycle s i).array.data ndx = some q) :
    ndx ≠ s.array.used ∧
      (ndx = i ∧ s.array.data s.array.used = some q ∨ ndx ≠ i ∧ s.array.data ndx = some q) := by
  change update _ _ _ _ = _ at isData
  by_cases isUsed : ndx = s.array.used
  · rw [isUsed, update_self] at isData
    cases isData
  · rw [update_of_ne isUsed] at isData
    refine ⟨isUsed, ?_⟩
    by_cases isPlace : ndx = i
    · rw [isPlace, update_self] at isData
      exact .inl ⟨isPlace, isData⟩
    · rw [update_of_ne isPlace] at isData
      exact .inr ⟨isPlace, isData⟩

theorem recycle_item (above : s.array.used ≤ i) (inside : ndx < s.array.used) :
    item (recycle s i) ndx = item s ndx := by
  rw [item, item, recycle_kept above inside]
  rfl

theorem represents_recycle (rep : Represents s) (above : s.array.used ≤ i)
    (below : i < s.array.size) :
    Represents (recycle s i) := by
  have usedInside : s.array.used < s.array.size := by omega
  constructor
  · exact rep.fits
  · exact rep.limit
  · intro ndx inside
    rw [recycle_kept above inside]
    exact rep.live ndx inside
  · intro ndx q inside isData
    rcases (recycle_slot isData).2 with ⟨-, old⟩ | ⟨-, old⟩
    · exact rep.allocated _ q usedInside old
    · exact rep.allocated ndx q inside old
  · intro ndx other q inside inside' isData isData'
    rcases recycle_slot isData with ⟨notUsed, ⟨rfl, old⟩ | ⟨notPlace, old⟩⟩
    · rcases recycle_slot isData' with ⟨notUsed', ⟨rfl, -⟩ | ⟨-, old'⟩⟩
      · rfl
      · exact absurd (rep.apart other _ q inside' usedInside old' old) notUsed'
    · rcases recycle_slot isData' with ⟨-, ⟨rfl, old'⟩ | ⟨-, old'⟩⟩
      · exact absurd (rep.apart ndx _ q inside usedInside old old') notUsed
      · exact rep.apart ndx other q inside inside' old old'
  · apply ordered_congr rep.index
    intro ndx inside
    rw [keyAt, keyAt, recycle_item above inside]

theorem recycle_outside (rep : Represents s) (above : s.array.used ≤ i) (below : i < s.array.size)
    (isData : s.array.data i = some p) : ¬ InSlot (recycle s i) p := by
  rintro ⟨ndx, inside, found⟩
  rcases recycle_slot found with ⟨notUsed, ⟨rfl, old⟩ | ⟨notPlace, old⟩⟩
  · exact notUsed (rep.apart ndx _ p below (by omega) isData old)
  · exact notPlace (rep.apart ndx i p inside below old isData)

theorem denotes_recycle (above : s.array.used ≤ i) (denotes : Denotes s content) :
    Denotes (recycle s i) content := by
  intro key value
  rw [denotes key value]
  constructor
  · rintro ⟨ndx, inside, entry, isItem, rest⟩
    exact ⟨ndx, inside, entry, by rw [recycle_item above inside, isItem], rest⟩
  · rintro ⟨ndx, inside, entry, isItem, rest⟩
    exact ⟨ndx, inside, entry, (recycle_item above inside) ▸ isItem, rest⟩

theorem get_unused_element_spec (rep : Represents s) (ends : ScanEnds s s.array.used) :
    s.arrayGetUnusedElement = some (s, none) ∨
      ∃ i p, s.array.used ≤ i ∧ i < s.array.size ∧ s.array.data i = some p ∧
        s.arrayGetUnusedElement = some (recycle s i, some p) := by
  have fits := rep.fits
  have small : s.array.used < 2 ^ 32 := by
    rcases ends with short | ⟨j, above, below, -, -⟩ <;> omega
  unfold Store.arrayGetUnusedElement
  rw [Nat.mod_eq_of_lt small]
  rcases unused_from_spec rep (2 ^ 32 + 1) s.array.used (by omega) small ends with
    isNone | ⟨i, p, above, below, isData, isFound⟩
  · left
    rw [isNone]
    rfl
  · right
    refine ⟨i, p, above, below, isData, ?_⟩
    have usedInside : s.array.used < s.array.size := by omega
    simp only [isFound, bind_eq_bind, bind_some, cell_eq usedInside, Store.setData, if_pos below,
      if_pos usedInside, isData]
    rfl

end Recycling

section Emptying

variable {s : Store}

theorem reset_elements_spec (rep : Represents s) {count : Nat} (inside : count ≤ s.array.used) :
    ∃ s', Store.resetElements count s = some s' ∧ s'.array = s.array ∧
    ∀ p entry, s.heap p = some entry →
        ∃ entry', s'.heap p = some entry' ∧ entry'.isIndexKey = entry.isIndexKey := by
  induction count with
  | zero => exact ⟨s, rfl, rfl, fun p entry isEntry => ⟨entry, isEntry, rfl⟩⟩
  | succ count ih =>
    rcases ih (by omega) with ⟨s', isReset, sameArray, heap⟩
    rcases live_element rep (show count < s.array.used by omega) with ⟨p, entry, isData, isEntry, -⟩
    rcases heap p entry isEntry with ⟨entry', isEntry', -⟩
    have fits := rep.fits
    have isElement : s'.element count = some (p, entry') := by
      apply element_eq _ _ isEntry'
      · rw [sameArray]
        omega
      · rw [sameArray]
        exact isData
    refine ⟨s'.setEntry p { entry' with key := none, value := none }, ?_, sameArray, ?_⟩
    · simp [Store.resetElements, isReset, isElement]
    · intro q found isFound
      rcases heap q found isFound with ⟨found', isFound', sameFlag⟩
      change ∃ entry', update _ _ _ _ = _ ∧ _
      by_cases same : q = p
      · subst same
        rw [isEntry'] at isFound'
        rw [update_self]
        refine ⟨_, rfl, ?_⟩
        rw [← sameFlag, ← Option.some.inj isFound']
      · rw [update_of_ne same]
        exact ⟨found', isFound', sameFlag⟩

theorem reset_spec (rep : Represents s) :
    ∃ s', s.arrayReset = some s' ∧ Represents s' ∧ Denotes s' (fun _ => none) := by
  rcases reset_elements_spec rep le_rfl with ⟨s', isReset, sameArray, heap⟩
  refine ⟨{ s' with array := { s'.array with used := 0, uniqueNdx := 0 } }, ?_, ?_, ?_⟩
  · simp [Store.arrayReset, isReset]
  · constructor
    · exact Nat.zero_le _
    · exact Nat.zero_le _
    · intro ndx inside
      cases inside
    · intro ndx p inside isData
      rw [sameArray] at inside isData
      rcases rep.allocated ndx p inside isData with ⟨entry, isEntry, notIndex⟩
      rcases heap p entry isEntry with ⟨entry', isEntry', sameFlag⟩
      exact ⟨entry', isEntry', sameFlag.trans notIndex⟩
    · change ∀ ndx other p, ndx < s'.array.size → other < s'.array.size → s'.array.data ndx = some p →
        s'.array.data other = some p → ndx = other
      rw [sameArray]
      exact rep.apart
    · exact ⟨List.Perm.refl _, List.Pairwise.nil⟩
  · intro key value
    constructor
    · intro impossible
      cases impossible
    · rintro ⟨ndx, inside, -⟩
      cases inside

end Emptying

end ServerCore.LighttpdArrayRemoval
