import ServerCore.LighttpdArrayOrder

/-!
# What the calls do to the array

For each call, the state behind it and what the array stands for: the value
that each key has. A key is in the array when a slot below `used` holds it.
-/

namespace ServerCore.LighttpdArrayUpdates

open LighttpdArray LighttpdArrayOrder SortedIndex Option Function

variable {key : List Nat} {entry : DataString} {s : Store} {pos other : Nat} {content : Content}

abbrev Content := List Nat → Option Buffer

def Holds (s : Store) (key : List Nat) (value : Buffer) : Prop :=
  ∃ ndx < s.array.used, ∃ entry, item s ndx = some entry ∧
    foldKey (Buffer.text entry.key) = key ∧ entry.value = value

def Denotes (s : Store) (content : Content) : Prop :=
  ∀ key value, content key = some value ↔ Holds s key value

variable {ndx : Nat} {p : Ptr}

section Denotation

variable {s s' : Store} {content : Content}

theorem denotes_update (denotes : Denotes s content) {value : Option Buffer}
    (others : ∀ other ≠ key, ∀ v, Holds s' other v ↔ Holds s other v)
    (here : ∀ v, Holds s' key v ↔ value = some v) : Denotes s' (update content key value) := by
  intro other v
  by_cases same : other = key
  · subst same
    rw [update_self, here v]
  · rw [update_of_ne same, others other same v, denotes other v]

theorem holds_key_at {value : Buffer} (holds : Holds s key value) :
    ∃ ndx < s.array.used, keyAt s ndx = key := by
  rcases holds with ⟨ndx, inside, entry, isItem, isKey, -⟩
  refine ⟨ndx, inside, ?_⟩
  rw [keyAt, isItem]
  exact isKey

theorem holds_live (rep : Represents s)
    (inside : ndx < s.array.used) (isData : s.array.data ndx = some p) (isEntry : s.heap p = some entry)
    (value : Buffer) : Holds s (keyAt s ndx) value ↔ entry.value = value := by
  constructor
  · rintro ⟨other, otherIn, found, isItem, isKey, isValue⟩
    have otherKey : keyAt s other = keyAt s ndx := by
      rw [keyAt, isItem]
      exact isKey
    have same := ordered_injective rep.index otherIn inside otherKey
    subst same
    rw [item_eq isData isEntry] at isItem
    rw [Option.some.inj isItem]
    exact isValue
  · intro isValue
    exact ⟨ndx, inside, entry, item_eq isData isEntry, (key_at_eq isData isEntry).symm, isValue⟩

end Denotation

section Insertion

variable {s s' : Store}

structure Inserted (s : Store) (p : Ptr) (pos : Nat) (s' : Store) : Prop where
  used : s'.array.used = s.array.used + 1
  size : s'.array.size = s.grow.array.size
  room : s.array.used < s'.array.size
  kept : ∀ ndx < s.array.used, s'.array.data ndx = s.array.data ndx
  placed : s'.array.data s.array.used = some p
  rest : ∀ ndx, s.array.used < ndx → ndx < s'.array.size →
    s'.array.data ndx = none ∨ ndx < s.array.size ∧ s'.array.data ndx = s.array.data ndx
  heap : ∀ q, ¬ (s.array.used < s.array.size ∧ s.array.data s.array.used = some q) → s'.heap q = s.heap q
  cells : cellsOf s'.array.sorted (s.array.used + 1) =
    (cellsOf s.array.sorted s.array.used).take pos ++
      s.array.used :: (cellsOf s.array.sorted s.array.used).drop pos

theorem unique_key_eq (isEntry : s.heap p = some entry)
    (hasKey : entry.key ≠ none) (notIndex : entry.isIndexKey = false) : s.uniqueKey p = some s := by
  simp [Store.uniqueKey, isEntry, hasKey, notIndex]

theorem clear_slot_spec (inside : ndx < s.array.size)
    (alloc : ∀ q, s.array.data ndx = some q → (s.heap q).isSome) :
    ∃ heap, s.clearSlot ndx = some { s with heap := heap } ∧
      ∀ q, s.array.data ndx ≠ some q → heap q = s.heap q := by
  unfold Store.clearSlot
  rw [cell_eq inside]
  cases isData : s.array.data ndx with
  | none => exact ⟨s.heap, rfl, fun _ _ => rfl⟩
  | some old =>
    refine ⟨update s.heap old none, ?_, ?_⟩
    · simp [alloc old isData, Store.dataStringFree]
    · intro q differ
      apply update_of_ne
      rintro rfl
      exact differ rfl

theorem grow_room (fits : s.array.used ≤ s.array.size) : s.array.used < s.grow.array.size := by
  unfold Store.grow
  split_ifs with full
  · change s.array.used < s.array.size + 16
    omega
  · omega

theorem grow_array : s.grow.array.used = s.array.used ∧ s.grow.array.sorted = s.array.sorted ∧
    s.grow.heap = s.heap := by
  unfold Store.grow
  split_ifs <;> exact ⟨rfl, rfl, rfl⟩

theorem grow_kept (inside : ndx < s.array.used) : s.grow.array.data ndx = s.array.data ndx := by
  unfold Store.grow
  split_ifs
  · exact if_neg (by omega)
  · rfl

theorem grow_rest (above : s.array.used ≤ ndx) (inside : ndx < s.grow.array.size) :
    s.grow.array.data ndx = none ∨ ndx < s.array.size ∧ s.grow.array.data ndx = s.array.data ndx := by
  unfold Store.grow at inside ⊢
  split_ifs at inside ⊢
  · exact .inl (if_pos ⟨above, inside⟩)
  · exact .inr ⟨inside, rfl⟩

/-- The moved cells of `sorted` with the new one between them. -/
def shifted (sorted : Nat → Nat) (pos ndx : Nat) : Nat → Nat :=
  update (fun i => if pos < i ∧ i ≤ ndx then sorted (i - 1) else sorted i) pos ndx

theorem open_gap_eq (within : pos ≤ ndx) (inside : ndx < s.array.size) :
    ((s.openGap pos ndx).bind fun opened => opened.setSorted pos ndx) =
      some (s.withSorted (shifted s.array.sorted pos ndx)) := by
  have positionInside : pos < s.array.size := by omega
  unfold Store.openGap
  split_ifs with differ
  · rw [bind_some, Store.setSorted]
    exact if_pos positionInside
  · have same : pos = ndx := not_not.mp differ
    have still : (fun i => if ndx < i ∧ i ≤ ndx then s.array.sorted (i - 1) else s.array.sorted i) =
        s.array.sorted := by
      funext i
      rw [if_neg (by omega)]
    rw [bind_some, Store.setSorted, if_pos positionInside, shifted, same, still]

theorem shifted_cells {sorted : Nat → Nat} (within : pos ≤ ndx) :
    cellsOf (shifted sorted pos ndx) (ndx + 1) =
      (cellsOf sorted ndx).take pos ++ ndx :: (cellsOf sorted ndx).drop pos := by
  apply cells_insert within
  · intro i less
    rw [shifted, update_of_ne (by omega), if_neg (by omega)]
  · rw [shifted, update_self]
  · intro i more inside
    rw [shifted, update_of_ne (by omega), if_pos ⟨more, inside⟩]

theorem find_or_insert_absent
    (isEntry : s.heap p = some entry) (hasKey : entry.key ≠ none) (notIndex : entry.isIndexKey = false)
    (isIndex : s.arrayGetIndex (Buffer.text entry.key) = some (none, pos))
    (within : pos ≤ s.array.used) (room : s.array.used + 1 ≤ ssizeMax) (fits : s.array.used ≤ s.array.size)
    (allocatedHere : ∀ q, s.array.used < s.array.size → s.array.data s.array.used =
      some q → (s.heap q).isSome) :
    ∃ s', s.arrayFindOrInsert p = some (s', none) ∧ Inserted s p pos s' := by
  rcases grow_array with ⟨growUsed, growSorted, growHeap⟩
  have growRoom := grow_room fits
  have alloc : ∀ q, s.grow.array.data s.array.used = some q → (s.grow.heap q).isSome := by
    intro q isData
    rcases grow_rest le_rfl growRoom with isNone | ⟨inside, same⟩
    · rw [isNone] at isData
      cases isData
    · rw [growHeap]
      exact allocatedHere q inside (same ▸ isData)
  rcases clear_slot_spec growRoom alloc with ⟨heap, isCleared, heapKept⟩
  refine ⟨⟨{ s.grow.array with
      data := update s.grow.array.data s.array.used (some p)
      sorted := shifted s.array.sorted pos s.array.used
      used := s.array.used + 1 }, heap⟩, ?_, ?_⟩
  · unfold Store.arrayFindOrInsert
    simp only [unique_key_eq isEntry hasKey notIndex, bind_eq_bind, bind_some, isEntry, isIndex,
      if_pos room, growUsed, isCleared, Store.setData, if_pos growRoom]
    rw [← bind_assoc, open_gap_eq within (by exact growRoom), bind_some]
    simp only [Store.withSorted, Store.setUsed, growSorted]
  · constructor
    · rfl
    · rfl
    · exact growRoom
    · intro ndx inside
      change update _ _ _ _ = _
      rw [update_of_ne (by omega), grow_kept inside]
    · exact update_self _ _ _
    · intro ndx above inside
      change update _ _ _ _ = _ ∨ _ ∧ update _ _ _ _ = _
      rw [update_of_ne (by omega)]
      exact grow_rest (le_of_lt above) inside
    · intro q notCleared
      change heap q = s.heap q
      rw [heapKept q, growHeap]
      intro isData
      rcases grow_rest le_rfl growRoom with isNone | ⟨inside, same⟩
      · rw [isNone] at isData
        cases isData
      · exact notCleared ⟨inside, same ▸ isData⟩
    · exact shifted_cells within

variable {p : Ptr} {pos : Nat} {entry : DataString}

section

variable (inserted : Inserted s p pos s')
include inserted

variable {q : Ptr}

theorem inserted_slot (rep : Represents s)
    (inside : ndx < s'.array.size) (isData : s'.array.data ndx = some q) :
    ndx = s.array.used ∧ q = p ∨ ndx ≠ s.array.used ∧ ndx < s.array.size ∧ s.array.data ndx = some q := by
  rcases lt_trichotomy ndx s.array.used with less | rfl | more
  · rw [inserted.kept ndx less] at isData
    exact .inr ⟨by omega, lt_of_lt_of_le less rep.fits, isData⟩
  · rw [inserted.placed] at isData
    exact .inl ⟨rfl, (Option.some.inj isData).symm⟩
  · rcases inserted.rest ndx more inside with isNone | ⟨old, same⟩
    · rw [isNone] at isData
      cases isData
    · exact .inr ⟨by omega, old, same ▸ isData⟩

theorem inserted_heap (rep : Represents s) (differ : ndx ≠ s.array.used) (inside : ndx < s.array.size)
    (isData : s.array.data ndx = some q) : s'.heap q = s.heap q := by
  apply inserted.heap
  rintro ⟨usedInside, sameData⟩
  exact differ (rep.apart ndx _ q inside usedInside isData sameData)

theorem inserted_item (rep : Represents s) (inside : ndx < s.array.used) : item s' ndx = item s ndx := by
  rcases live_element rep inside with ⟨q, found, isData, -, -⟩
  rw [item, item, inserted.kept ndx inside, isData, bind_some, bind_some]
  exact inserted_heap inserted rep (by omega) (lt_of_lt_of_le inside rep.fits) isData

theorem inserted_entry (outside : ¬ InSlot s p) : s'.heap p = s.heap p := by
  apply inserted.heap
  rintro ⟨usedInside, sameData⟩
  exact outside ⟨_, usedInside, sameData⟩

theorem represents_inserted (rep : Represents s)
    (isEntry : s.heap p = some entry) (notIndex : entry.isIndexKey = false) (outside : ¬ InSlot s p)
    (absent : Found s (foldKey (Buffer.text entry.key)) (none, pos))
    (room : s.array.used + 1 ≤ ssizeMax) : Represents s' := by
  have entryKept := (inserted_entry inserted outside).trans isEntry
  constructor
  · rw [inserted.used]
    exact inserted.room
  · rw [inserted.used]
    exact room
  · intro ndx inside
    rw [inserted.used] at inside
    rcases Nat.lt_succ_iff_lt_or_eq.mp inside with less | rfl
    · rw [inserted.kept ndx less]
      exact rep.live ndx less
    · rw [inserted.placed]
      exact some_ne_none p
  · intro ndx q inside isData
    rcases inserted_slot inserted rep inside isData with ⟨-, rfl⟩ | ⟨differ, old, oldData⟩
    · exact ⟨entry, entryKept, notIndex⟩
    · rw [inserted_heap inserted rep differ old oldData]
      exact rep.allocated ndx q old oldData
  · intro ndx other q inside otherIn isData otherData
    rcases inserted_slot inserted rep inside isData with ⟨rfl, rfl⟩ | ⟨differ, old, oldData⟩
    · rcases inserted_slot inserted rep otherIn otherData with ⟨rfl, -⟩ | ⟨-, old, oldData⟩
      · rfl
      · exact absurd ⟨other, old, oldData⟩ outside
    · rcases inserted_slot inserted rep otherIn otherData with ⟨-, rfl⟩ | ⟨-, old', oldData'⟩
      · exact absurd ⟨ndx, old, oldData⟩ outside
      · exact rep.apart ndx other q old old' oldData oldData'
  · rw [inserted.used, inserted.cells]
    cases absent with
    | absent _ _ before behind =>
      apply ordered_insert rep.index pos (foldKey (Buffer.text entry.key))
      · intro i mem
        rcases mem_take_cells mem with ⟨j, below, rfl⟩
        exact before j below
      · intro i mem
        rcases mem_drop_cells mem with ⟨j, above, below, rfl⟩
        exact behind j above below
      · intro i inside
        rw [keyAt, keyAt, inserted_item inserted rep inside]
      · exact key_at_eq inserted.placed entryKept

theorem denotes_inserted (rep : Represents s) (isEntry : s.heap p = some entry) (outside : ¬ InSlot s p)
    (absent : Found s (foldKey (Buffer.text entry.key)) (none, pos))
    (denotes : Denotes s content) :
    Denotes s' (update content (foldKey (Buffer.text entry.key)) (some entry.value)) := by
  have newItem : item s' s.array.used = some entry :=
    item_eq inserted.placed ((inserted_entry inserted outside).trans isEntry)
  apply denotes_update denotes
  · intro other differ v
    constructor
    · rintro ⟨ndx, inside, found, isItem, isKey, isValue⟩
      rw [inserted.used] at inside
      rcases Nat.lt_succ_iff_lt_or_eq.mp inside with less | rfl
      · exact ⟨ndx, less, found, (inserted_item inserted rep less) ▸ isItem, isKey, isValue⟩
      · rw [newItem] at isItem
        rw [← Option.some.inj isItem] at isKey
        exact absurd isKey.symm differ
    · rintro ⟨ndx, inside, found, isItem, isKey, isValue⟩
      refine ⟨ndx, by rw [inserted.used]; omega, found, ?_, isKey, isValue⟩
      rw [inserted_item inserted rep inside, isItem]
  · intro v
    constructor
    · rintro ⟨ndx, inside, found, isItem, isKey, isValue⟩
      rw [inserted.used] at inside
      rcases Nat.lt_succ_iff_lt_or_eq.mp inside with less | rfl
      · rw [inserted_item inserted rep less] at isItem
        rcases holds_key_at ⟨ndx, less, found, isItem, isKey, isValue⟩ with ⟨at', atInside, sameKey⟩
        exact absurd sameKey (absent_key rep absent atInside)
      · rw [newItem] at isItem
        rw [Option.some.inj isItem, isValue]
    · intro isValue
      exact ⟨s.array.used, by rw [inserted.used]; omega, entry, newItem, rfl, Option.some.inj isValue⟩

end

end Insertion

section Rewriting

variable {s s' : Store} {ndx : Nat} {q : Ptr} {entry : DataString}

/-- The element in one slot has been changed or put in the place of another. -/
structure Rewritten (s : Store) (ndx : Nat) (q : Ptr) (entry : DataString) (s' : Store) : Prop where
  used : s'.array.used = s.array.used
  size : s'.array.size = s.array.size
  sorted : s'.array.sorted = s.array.sorted
  here : s'.array.data ndx = some q
  isEntry : s'.heap q = some entry
  others : ∀ other ≠ ndx, s'.array.data other = s.array.data other
  heap : ∀ other p, other ≠ ndx → other < s.array.size → s.array.data other = some p →
    p ≠ q ∧ s'.heap p = s.heap p

section

variable (rewritten : Rewritten s ndx q entry s') (rep : Represents s)
include rewritten rep

theorem rewritten_item
    (differ : other ≠ ndx) (inside : other < s.array.used) : item s' other = item s other := by
  rcases live_element rep inside with ⟨p, found, isData, -, -⟩
  rw [item, item, rewritten.others other differ, isData, bind_some, bind_some]
  exact (rewritten.heap other p differ (lt_of_lt_of_le inside rep.fits) isData).2

theorem rewritten_key (same : foldKey (Buffer.text entry.key) = keyAt s ndx)
    (inside : other < s.array.used) : keyAt s' other = keyAt s other := by
  by_cases isHere : other = ndx
  · subst isHere
    rw [key_at_eq rewritten.here rewritten.isEntry, same]
  · rw [keyAt, keyAt, rewritten_item rewritten rep isHere inside]

theorem represents_rewritten (same : foldKey (Buffer.text entry.key) = keyAt s ndx)
    (notIndex : entry.isIndexKey = false) : Represents s' := by
  constructor
  · rw [rewritten.used, rewritten.size]
    exact rep.fits
  · rw [rewritten.used]
    exact rep.limit
  · intro other inside
    rw [rewritten.used] at inside
    by_cases isHere : other = ndx
    · rw [isHere, rewritten.here]
      exact some_ne_none q
    · rw [rewritten.others other isHere]
      exact rep.live other inside
  · intro other p inside isData
    rw [rewritten.size] at inside
    by_cases isHere : other = ndx
    · rw [isHere, rewritten.here] at isData
      rw [← Option.some.inj isData]
      exact ⟨entry, rewritten.isEntry, notIndex⟩
    · rw [rewritten.others other isHere] at isData
      rw [(rewritten.heap other p isHere inside isData).2]
      exact rep.allocated other p inside isData
  · intro i j p inside inside' isData isData'
    rw [rewritten.size] at inside inside'
    by_cases iHere : i = ndx
    · by_cases jHere : j = ndx
      · rw [iHere, jHere]
      · rw [iHere, rewritten.here] at isData
        rw [rewritten.others j jHere] at isData'
        exact absurd (Option.some.inj isData).symm (rewritten.heap j p jHere inside' isData').1
    · rw [rewritten.others i iHere] at isData
      by_cases jHere : j = ndx
      · rw [jHere, rewritten.here] at isData'
        exact absurd (Option.some.inj isData').symm (rewritten.heap i p iHere inside isData).1
      · rw [rewritten.others j jHere] at isData'
        exact rep.apart i j p inside inside' isData isData'
  · rw [rewritten.used, rewritten.sorted]
    exact ordered_congr rep.index fun i inside => rewritten_key rewritten rep same inside

theorem denotes_rewritten (inside : ndx < s.array.used)
    (same : foldKey (Buffer.text entry.key) = keyAt s ndx)
    (notIndex : entry.isIndexKey = false) (denotes : Denotes s content) :
    Denotes s' (update content (keyAt s ndx) (some entry.value)) := by
  have rep' := represents_rewritten rewritten rep same notIndex
  have inside' : ndx < s'.array.used := by
    rw [rewritten.used]
    exact inside
  apply denotes_update denotes
  · intro key differ v
    constructor
    · rintro ⟨other, otherIn, found, isItem, isKey, isValue⟩
      rw [rewritten.used] at otherIn
      have notHere : other ≠ ndx := by
        rintro rfl
        rw [item_eq rewritten.here rewritten.isEntry] at isItem
        rw [← Option.some.inj isItem, same] at isKey
        exact differ isKey.symm
      rw [rewritten_item rewritten rep notHere otherIn] at isItem
      exact ⟨other, otherIn, found, isItem, isKey, isValue⟩
    · rintro ⟨other, otherIn, found, isItem, isKey, isValue⟩
      have notHere : other ≠ ndx := by
        rintro rfl
        apply differ
        rw [keyAt, isItem]
        exact isKey.symm
      rw [← rewritten_item rewritten rep notHere otherIn] at isItem
      exact ⟨other, by rw [rewritten.used]; exact otherIn, found, isItem, isKey, isValue⟩
  · intro v
    rw [← rewritten_key rewritten rep same inside, holds_live rep' inside' rewritten.here rewritten.isEntry,
      Option.some.injEq]

end

theorem rewritten_set_entry (rep : Represents s) (inside : ndx < s.array.used)
    (isData : s.array.data ndx = some p) (entry : DataString) :
    Rewritten s ndx p entry (s.setEntry p entry) := by
  refine ⟨rfl, rfl, rfl, isData, update_self _ _ _, fun _ _ => rfl, ?_⟩
  intro other other' differ otherIn otherData
  have apart : other' ≠ p := by
    rintro rfl
    exact differ (rep.apart other ndx other' otherIn (lt_of_lt_of_le inside rep.fits) otherData isData)
  exact ⟨apart, update_of_ne apart _ _⟩

section

variable (rep : Represents s) (sameArray : s'.array = s.array)
    (sameHeap : ∀ p, InSlot s p → s'.heap p = s.heap p)
include rep sameArray sameHeap

theorem represents_heap : Represents s' := by
  have sameKey : ∀ ndx < s.array.used, keyAt s' ndx = keyAt s ndx := by
    intro ndx inside
    rcases live_element rep inside with ⟨p, found, isData, isEntry, -⟩
    have inSlot : InSlot s p := ⟨ndx, lt_of_lt_of_le inside rep.fits, isData⟩
    rw [key_at_eq isData isEntry]
    exact key_at_eq (by rw [sameArray]; exact isData) ((sameHeap p inSlot).trans isEntry)
  constructor
  · rw [sameArray]
    exact rep.fits
  · rw [sameArray]
    exact rep.limit
  · rw [sameArray]
    exact rep.live
  · rw [sameArray]
    intro ndx p inside isData
    rw [sameHeap p ⟨ndx, inside, isData⟩]
    exact rep.allocated ndx p inside isData
  · rw [sameArray]
    exact rep.apart
  · rw [sameArray]
    exact ordered_congr rep.index sameKey

theorem denotes_heap (denotes : Denotes s content) :
    Denotes s' content := by
  have sameItem : ∀ ndx < s.array.used, item s' ndx = item s ndx := by
    intro ndx inside
    rcases live_element rep inside with ⟨p, found, isData, isEntry, -⟩
    rw [item, item, sameArray, isData, bind_some, bind_some]
    exact sameHeap p ⟨ndx, lt_of_lt_of_le inside rep.fits, isData⟩
  intro key value
  rw [denotes key value]
  constructor
  · rintro ⟨ndx, inside, found, isItem, isKey, isValue⟩
    exact ⟨ndx, by rw [sameArray]; exact inside, found, by rw [sameItem ndx inside, isItem], isKey, isValue⟩
  · rintro ⟨ndx, inside, found, isItem, isKey, isValue⟩
    rw [sameArray] at inside
    rw [sameItem ndx inside] at isItem
    exact ⟨ndx, inside, found, isItem, isKey, isValue⟩

end

theorem outside_heap (outside : ¬ InSlot s p) {content : Option DataString} (other : Ptr)
    (inSlot : InSlot s other) : update s.heap p content other = s.heap other := by
  apply update_of_ne
  rintro rfl
  exact outside inSlot

theorem represents_outside (rep : Represents s) (outside : ¬ InSlot s p)
    (content : Option DataString) : Represents { s with heap := update s.heap p content } :=
  represents_heap rep rfl (outside_heap outside)

theorem denotes_outside (rep : Represents s) (outside : ¬ InSlot s p)
    (found : Option DataString) (denotes : Denotes s content) :
    Denotes { s with heap := update s.heap p found } content := by
  apply denotes_heap rep _ _ denotes
  · rfl
  · exact outside_heap outside

end Rewriting

end ServerCore.LighttpdArrayUpdates
