import ServerCore.LighttpdArrayRemoval
import ServerCore.TransitionSystem

/-!
# The array as a map

The calls on an array against a map from keys in lower case to values.
-/

namespace ServerCore.LighttpdArrayMap

open LighttpdArray LighttpdArrayOrder LighttpdArrayUpdates LighttpdArrayRemoval SortedIndex TransitionSystem
open List Option Function

variable {key value : Bytes} {entry : DataString} {i j limit : Nat}

/-- A value that is there gets `, ` and the new value behind it. -/
def insertUniqueIn (content : Content) (key : List Nat) (value : Buffer) : Content :=
  match content key with
  | some (some text) =>
    update content key (some (some (text ++ [','.toUInt8, ' '.toUInt8] ++ Buffer.text value)))
  | _ => update content key (some value)

def replaceIn (content : Content) (key : List Nat) (value : Buffer) : Content :=
  update content key (some value)

def extractFrom (content : Content) (key : List Nat) : Content := update content key none

variable {pos ndx n : Nat} {p : Ptr}

section Calls

variable {s : Store} {content : Content}

/-- A call returns an array for the map, or the array is full and an assertion
fails. -/
inductive Returns (used : Nat) (content : Content) : Option Store → Prop
  | store (s' : Store) : Represents s' → Denotes s' content → Returns used content (some s')
  | full : used = ssizeMax → Returns used content none

inductive Answers (s : Store) (content : Content) (key : List Nat) : Option Ptr → Prop
  | present (p : Ptr) (entry : DataString) : s.heap p = some entry → content key = some entry.value →
      Answers s content key (some p)
  | absent : content key = none → Answers s content key none

section

variable (rep : Represents s) (denotes : Denotes s content)
include rep denotes

theorem absent_content {key : List Nat} (absent : Found s key (none, pos)) : content key = none := by
  apply eq_none_iff_forall_ne_some.mpr
  intro value isValue
  rcases holds_key_at ((denotes key value).mp isValue) with ⟨ndx, inside, isKey⟩
  exact absent_key rep absent inside isKey

theorem live_content (inside : ndx < s.array.used) (isData : s.array.data ndx = some p)
    (isEntry : s.heap p = some entry) : content (keyAt s ndx) = some entry.value :=
  (denotes _ _).mpr ((holds_live rep inside isData isEntry _).mpr rfl)

theorem get_element_spec (key : Bytes) :
    ∃ result, s.arrayGetElement key = some result ∧ Answers s content (foldKey key) result := by
  rcases get_index_spec rep key with ⟨⟨found, pos⟩, isIndex, spec⟩
  cases found with
  | none =>
    refine ⟨none, ?_, .absent (absent_content rep denotes spec)⟩
    simp [Store.arrayGetElement, isIndex]
  | some ndx =>
    cases spec with
    | present _ inside isKey =>
      have ndxInside := sorted_lt rep inside
      rcases live_element rep ndxInside with ⟨p, entry, isData, isEntry, -⟩
      refine ⟨some p, ?_, .present p entry isEntry ?_⟩
      · simp [Store.arrayGetElement, isIndex, cell_eq (lt_of_lt_of_le ndxInside rep.fits), isData]
      · rw [← isKey]
        exact live_content rep denotes ndxInside isData isEntry

end

inductive FindsOrInserts (s : Store) (p : Ptr) (key : List Nat) : Option (Store × Option Nat) → Prop
  | found (ndx : Nat) : ndx < s.array.used → keyAt s ndx = key → FindsOrInserts s p key (some (s, some ndx))
  | inserted (s' : Store) (pos : Nat) : Inserted s p pos s' → Found s key (none, pos) →
      s.array.used + 1 ≤ ssizeMax → FindsOrInserts s p key (some (s', none))
  | full : s.array.used = ssizeMax → FindsOrInserts s p key none

theorem find_or_insert_spec (rep : Represents s)
    (isEntry : s.heap p = some entry) (hasKey : entry.key ≠ none) (notIndex : entry.isIndexKey = false) :
    FindsOrInserts s p (foldKey (Buffer.text entry.key)) (s.arrayFindOrInsert p) := by
  rcases get_index_spec rep (Buffer.text entry.key) with ⟨⟨found, pos⟩, isIndex, spec⟩
  cases found with
  | none =>
    by_cases room : s.array.used + 1 ≤ ssizeMax
    · have within : pos ≤ s.array.used := by
        cases spec
        assumption
      have alloc : ∀ q, s.array.used < s.array.size → s.array.data s.array.used = some q →
          (s.heap q).isSome := by
        intro q inside isData
        rcases rep.allocated _ q inside isData with ⟨found, isFound, -⟩
        rw [isFound]
        rfl
      rcases find_or_insert_absent isEntry hasKey notIndex isIndex within room rep.fits alloc with
        ⟨s', isInsert, inserted⟩
      rw [isInsert]
      exact .inserted s' pos inserted spec room
    · have isNone : s.arrayFindOrInsert p = none := by
        simp only [Store.arrayFindOrInsert, unique_key_eq isEntry hasKey notIndex, isEntry, isIndex,
          bind_eq_bind, bind_some, if_neg room]
      rw [isNone]
      have limit := rep.limit
      exact .full (by omega)
  | some ndx =>
    have isFound : s.arrayFindOrInsert p = some (s, some ndx) := by
      simp [Store.arrayFindOrInsert, unique_key_eq isEntry hasKey notIndex, isEntry, isIndex]
    rw [isFound]
    cases spec with
    | present _ inside isKey => exact .found _ (sorted_lt rep inside) isKey

section

variable (rep : Represents s) (denotes : Denotes s content) {p : Ptr} {entry : DataString}
  (isEntry : s.heap p = some entry) (hasKey : entry.key ≠ none) (notIndex : entry.isIndexKey = false)
  (outside : ¬ InSlot s p)
include rep denotes isEntry hasKey notIndex outside

theorem insert_unique_spec :
    Returns s.array.used (insertUniqueIn content (foldKey (Buffer.text entry.key)) entry.value)
      (s.arrayInsertUnique p) := by
  have spec := find_or_insert_spec rep isEntry hasKey notIndex
  unfold Store.arrayInsertUnique
  generalize s.arrayFindOrInsert p = result at spec
  cases spec with
  | full isFull => exact .full isFull
  | inserted s' pos inserted absent room =>
    have isNone := absent_content rep denotes absent
    have isContent : insertUniqueIn content (foldKey (Buffer.text entry.key)) entry.value =
        update content (foldKey (Buffer.text entry.key)) (some entry.value) := by
      simp [insertUniqueIn, isNone]
    rw [isContent]
    exact .store s' (represents_inserted inserted rep isEntry notIndex outside absent room)
      (denotes_inserted inserted rep isEntry outside absent denotes)
  | found ndx inside isKey =>
    rcases live_element rep inside with ⟨dst, dsDst, isData, isDst, dstNotIndex⟩
    have fits := rep.fits
    have isElement := element_eq (lt_of_lt_of_le inside fits) isData isDst
    have oldValue := live_content rep denotes inside isData isDst
    rw [← isKey]
    -- both branches of `data_string_insert_dup` write the value and free the source
    have written : ∀ value : Buffer,
        Represents ((s.setEntry dst { dsDst with value := value }).dataStringFree p) ∧
        Denotes ((s.setEntry dst { dsDst with value := value }).dataStringFree p)
          (update content (keyAt s ndx) (some value)) := by
      intro value
      have rewritten := rewritten_set_entry rep inside isData { dsDst with value := value }
      have sameKey : foldKey (Buffer.text dsDst.key) = keyAt s ndx := (key_at_eq isData isDst).symm
      have rep' := represents_rewritten rewritten rep sameKey dstNotIndex
      exact ⟨represents_outside rep' outside none,
        denotes_outside rep' outside none
          (denotes_rewritten rewritten rep inside sameKey dstNotIndex denotes)⟩
    simp only [bind_eq_bind, bind_some, isElement, Store.dataStringInsertDup, isDst, isEntry]
    cases isValue : dsDst.value with
    | none | some text =>
      rw [isValue] at oldValue
      simp only [insertUniqueIn, oldValue]
      exact .store _ (written _).1 (written _).2

theorem replace_spec :
    Returns s.array.used (replaceIn content (foldKey (Buffer.text entry.key)) entry.value)
      (s.arrayReplace p) := by
  have spec := find_or_insert_spec rep isEntry hasKey notIndex
  unfold Store.arrayReplace
  generalize s.arrayFindOrInsert p = result at spec
  cases spec with
  | full isFull => exact .full isFull
  | inserted s' pos inserted absent room =>
    exact .store s' (represents_inserted inserted rep isEntry notIndex outside absent room)
      (denotes_inserted inserted rep isEntry outside absent denotes)
  | found ndx inside isKey =>
    rcases live_element rep inside with ⟨old, dsOld, isData, isOld, -⟩
    have ndxInside : ndx < s.array.size := lt_of_lt_of_le inside rep.fits
    have apart : old ≠ p := by
      rintro rfl
      exact outside ⟨ndx, ndxInside, isData⟩
    have isReplaced : (s.dataStringFree old).setData ndx (some p) =
        some ⟨{ s.array with data := update s.array.data ndx (some p) },
          update s.heap old none⟩ := if_pos ndxInside
    have rewritten : Rewritten s ndx p entry ⟨{ s.array with data := update s.array.data ndx (some p) },
        update s.heap old none⟩ := by
      refine ⟨rfl, rfl, rfl, update_self _ _ _, ?_, ?_, ?_⟩
      · exact (update_of_ne apart.symm _ _).trans isEntry
      · intro other differ
        exact update_of_ne differ _ _
      · intro other q differ otherIn otherData
        constructor
        · rintro rfl
          exact outside ⟨other, otherIn, otherData⟩
        · apply update_of_ne
          rintro rfl
          exact differ (rep.apart other ndx q otherIn ndxInside otherData isData)
    simp only [bind_eq_bind, bind_some, element_eq ndxInside isData isOld, if_pos apart, isReplaced]
    rw [replaceIn, ← isKey]
    exact .store _ (represents_rewritten rewritten rep isKey.symm notIndex)
      (denotes_rewritten rewritten rep inside isKey.symm notIndex denotes)

end

theorem insert_unique_absent (rep : Represents s) (denotes : Denotes s content)
    (outside : ¬ InSlot s p) (isAbsent : content (foldKey key) = none) :
    Returns s.array.used (replaceIn content (foldKey key) (some value))
      ((s.setEntry p ⟨some key, some value, false⟩).arrayInsertUnique p) := by
  have rep' := represents_outside rep outside (some ⟨some key, some value, false⟩)
  have denotes' := denotes_outside rep outside (some ⟨some key, some value, false⟩) denotes
  have isEntry : (s.setEntry p ⟨some key, some value, false⟩).heap p = some ⟨some key, some value, false⟩ :=
    update_self _ _ _
  have spec := insert_unique_spec rep' denotes' isEntry (some_ne_none key) rfl outside
  have isContent : insertUniqueIn content (foldKey key) (some value) =
      replaceIn content (foldKey key) (some value) := by
    simp [insertUniqueIn, isAbsent, replaceIn]
  rw [← isContent]
  exact spec

def WithinCounter (s : Store) (key : Bytes) : Prop :=
  (∃ value, Holds s (foldKey key) value) ∨ ScanEnds s s.array.used

theorem set_key_value_spec (rep : Represents s) (denotes : Denotes s content)
    {fresh : Ptr} (isFresh : s.heap fresh = none) (within : WithinCounter s key) :
    Returns s.array.used (replaceIn content (foldKey key) (some value))
      (s.arraySetKeyValue key value fresh) := by
  rcases get_index_spec rep key with ⟨⟨found, pos⟩, isIndex, spec⟩
  cases found with
  | some ndx =>
    cases spec with
    | present _ inside isKey =>
      have ndxInside := sorted_lt rep inside
      rcases live_element rep ndxInside with ⟨dst, ds, isData, isEntry, notIndex⟩
      have rewritten := rewritten_set_entry rep ndxInside isData { ds with value := some value }
      have sameKey := (key_at_eq isData isEntry).symm
      simp only [Store.arraySetKeyValue, Store.arrayGetElement, isIndex, bind_eq_bind, bind_some,
        cell_eq (lt_of_lt_of_le ndxInside rep.fits), isData, isEntry]
      rw [replaceIn, ← isKey]
      exact .store _ (represents_rewritten rewritten rep sameKey notIndex)
        (denotes_rewritten rewritten rep ndxInside sameKey notIndex denotes)
  | none =>
    have isAbsent := absent_content rep denotes spec
    have ends : ScanEnds s s.array.used := by
      rcases within with ⟨present, holds⟩ | ends
      · rw [(denotes _ _).mpr holds] at isAbsent
        cases isAbsent
      · exact ends
    simp only [Store.arraySetKeyValue, Store.arrayGetElement, isIndex, bind_eq_bind, bind_some]
    rcases get_unused_element_spec rep ends with isNone | ⟨i, p, above, below, isData, isUnused⟩
    · have outside : ¬ InSlot s fresh := by
        rintro ⟨ndx, inside, isData⟩
        rcases rep.allocated ndx fresh inside isData with ⟨entry, isEntry, -⟩
        rw [isFresh] at isEntry
        cases isEntry
      simp only [isNone, bind_some]
      exact insert_unique_absent rep denotes outside isAbsent
    · rcases rep.allocated i p below isData with ⟨ds, isEntry, notIndex⟩
      have inHeap : (recycle s i).heap p = some ds := isEntry
      have asNew : { ds with key := some key, value := some value } =
        (⟨some key, some value, false⟩ : DataString) := by
        rw [notIndex]
      simp only [isUnused, bind_some, inHeap, asNew]
      exact insert_unique_absent (represents_recycle rep above below) (denotes_recycle above denotes)
        (recycle_outside rep above below isData) isAbsent

theorem extract_spec (rep : Represents s) (denotes : Denotes s content) :
    ∃ s' entry, s.arrayExtractElement key = some (s', entry) ∧ Represents s' ∧
      Denotes s' (extractFrom content (foldKey key)) ∧ Answers s' content (foldKey key) entry := by
  rcases get_index_spec rep key with ⟨⟨found, pos⟩, isIndex, spec⟩
  cases found with
  | none =>
    have isAbsent := absent_content rep denotes spec
    refine ⟨s, none, ?_, rep, ?_, .absent isAbsent⟩
    · simp [Store.arrayExtractElement, isIndex]
    · rw [extractFrom, ← isAbsent, update_eq_self]
      exact denotes
  | some ndx =>
    cases spec with
    | present _ inside isKey =>
      have ndxInside := sorted_lt rep inside
      rcases live_element rep ndxInside with ⟨p, entry, isData, isEntry, -⟩
      rcases extract_present rep isIndex inside ndxInside with ⟨s', isExtract, removed⟩
      have isValue := live_content rep denotes ndxInside isData isEntry
      rw [extractFrom, ← isKey]
      refine ⟨s', some p, ?_, represents_removed removed rep ndxInside inside rfl,
        denotes_removed removed rep ndxInside denotes, .present p entry ?_ isValue⟩
      · rw [isExtract, isData]
      · rw [removed.heap, isEntry]

end Calls

/-- The calls on the array, and what a client does with its own entries. -/
inductive Call where
  | insertUnique (entry : Ptr)
  | replace (entry : Ptr)
  | setKeyValue (key value : Bytes) (fresh : Ptr)
  | extractElement (key : Bytes)
  | getElement (key : Bytes)
  | reset
  | client (p : Ptr) (entry : Option DataString)

structure State where
  store : Store
  content : Content

def Offered (s : Store) (p : Ptr) : Prop :=
  ¬ InSlot s p ∧ ∃ entry text, s.heap p = some entry ∧ entry.key = some text ∧ text ≠ [] ∧
    entry.isIndexKey = false

def Permitted (s : Store) : Call → Prop
  | .insertUnique p => Offered s p
  | .replace p => Offered s p
  | .setKeyValue key _ fresh => key ≠ [] ∧ s.heap fresh = none
  | .extractElement _ => True
  | .getElement _ => True
  | .reset => True
  | .client p _ => ¬ InSlot s p

def perform (s : Store) : Call → Option Store
  | .insertUnique p => s.arrayInsertUnique p
  | .replace p => s.arrayReplace p
  | .setKeyValue key value fresh => s.arraySetKeyValue key value fresh
  | .extractElement key => (s.arrayExtractElement key).map Prod.fst
  | .getElement key => (s.arrayGetElement key).map fun _ => s
  | .reset => s.arrayReset
  | .client p entry => some { s with heap := update s.heap p entry }

def specify (s : State) : Call → Content
  | .insertUnique p =>
    match s.store.heap p with
    | some entry => insertUniqueIn s.content (foldKey (Buffer.text entry.key)) entry.value
    | none => s.content
  | .replace p =>
    match s.store.heap p with
    | some entry => replaceIn s.content (foldKey (Buffer.text entry.key)) entry.value
    | none => s.content
  | .setKeyValue key value _ => replaceIn s.content (foldKey key) (some value)
  | .extractElement key => extractFrom s.content (foldKey key)
  | .getElement _ => s.content
  | .reset => fun _ => none
  | .client _ _ => s.content

/-- `array_set_key_value` for a new key only where the scan ends. -/
def InCounter (s : Store) : Call → Prop
  | .setKeyValue key _ _ => WithinCounter s key
  | _ => True

/-- The calls that meet `allowed`, from `array_init` on. -/
def arraySystem (allowed : Store → Call → Prop) : System State Call where
  initial s := ∃ data sorted, s.store.array = arrayInit data sorted ∧ s.content = fun _ => none
  next before call after := Permitted before.store call ∧ allowed before.store call ∧
    perform before.store call = some after.store ∧ after.content = specify before call

structure IsMap (allowed : Store → Call → Prop) (s : State) : Prop where
  permutation : (cellsOf s.store.array.sorted s.store.array.used).Perm (List.range s.store.array.used)
  live : ∀ ndx < s.store.array.used, item s.store ndx ≠ none
  increasing : ∀ i j e e', i < j → j < s.store.array.used →
    item s.store (s.store.array.sorted i) = some e → item s.store (s.store.array.sorted j) = some e' →
    bufferCaselessCompare (Buffer.text e.key) (Buffer.text e'.key) < 0
  unaliased : ∀ ndx other, ndx < s.store.array.used → s.store.array.used ≤ other →
    other < s.store.array.size → s.store.array.data other ≠ s.store.array.data ndx
  lookup : ∀ key, ∃ result, s.store.arrayGetElement key = some result ∧
    Answers s.store s.content (foldKey key) result
  returns : ∀ call, Permitted s.store call → allowed s.store call →
    (∃ after, perform s.store call = some after) ∨ s.store.array.used = ssizeMax

theorem perform_spec {s : State} (rep : Represents s.store)
    (denotes : Denotes s.store s.content) {call : Call}
    (permitted : Permitted s.store call) (within : InCounter s.store call) :
    Returns s.store.array.used (specify s call) (perform s.store call) := by
  cases call with
  | insertUnique p =>
    rcases permitted with ⟨outside, entry, text, isEntry, isKey, -, notIndex⟩
    have hasKey : entry.key ≠ none := by
      rw [isKey]
      exact some_ne_none text
    rw [specify, isEntry]
    exact insert_unique_spec rep denotes isEntry hasKey notIndex outside
  | replace p =>
    rcases permitted with ⟨outside, entry, text, isEntry, isKey, -, notIndex⟩
    have hasKey : entry.key ≠ none := by
      rw [isKey]
      exact some_ne_none text
    rw [specify, isEntry]
    exact replace_spec rep denotes isEntry hasKey notIndex outside
  | setKeyValue key value fresh => exact set_key_value_spec rep denotes permitted.2 within
  | extractElement key =>
    rcases extract_spec rep denotes with ⟨s', entry, isExtract, rep', denotes', -⟩
    rw [perform, isExtract]
    exact .store s' rep' denotes'
  | getElement key =>
    rcases get_element_spec rep denotes key with ⟨result, isResult, -⟩
    rw [perform, isResult]
    exact .store s.store rep denotes
  | reset =>
    rcases reset_spec rep with ⟨s', isReset, rep', denotes'⟩
    rw [perform, isReset]
    exact .store s' rep' denotes'
  | client p entry =>
    exact .store _ (represents_outside rep permitted entry) (denotes_outside rep permitted entry denotes)

variable {s : State}

theorem reachable_represents (reached : Reachable (arraySystem InCounter) s) :
    Represents s.store ∧ Denotes s.store s.content := by
  apply reachable_invariant _ _ reached
  · rintro ⟨store, content⟩ ⟨data, sorted, isInit, isEmpty⟩
    constructor
    · constructor
      · rw [isInit]
        exact le_rfl
      · rw [isInit]
        exact Nat.zero_le _
      · rw [isInit]
        intro ndx inside
        cases inside
      · rw [isInit]
        intro ndx p inside
        cases inside
      · rw [isInit]
        intro ndx other p inside
        cases inside
      · rw [isInit]
        exact ⟨List.Perm.refl _, List.Pairwise.nil⟩
    · intro key value
      rw [isEmpty]
      constructor
      · intro impossible
        cases impossible
      · rintro ⟨ndx, inside, -⟩
        rw [isInit] at inside
        cases inside
  · rintro before call after ⟨rep, denotes⟩ ⟨permitted, within, isAfter, isContent⟩
    have spec := perform_spec rep denotes permitted within
    rw [isAfter, ← isContent] at spec
    cases spec with
    | store _ rep' denotes' => exact ⟨rep', denotes'⟩

/-- The array is the map in every state of every run in which
`array_set_key_value` is only called for a key that is there or where the scan
for an element to recycle ends. -/
theorem array_is_caseless_map {s : State} (reached : Reachable (arraySystem InCounter) s) :
    IsMap InCounter s := by
  rcases reachable_represents reached with ⟨rep, denotes⟩
  constructor
  · exact rep.index.perm
  · intro ndx inside
    rcases live_element rep inside with ⟨p, entry, isData, isEntry, -⟩
    rw [item_eq isData isEntry]
    exact some_ne_none entry
  · intro i j e e' less inside isItem isItem'
    apply (compare_neg _ _).mpr
    have increasing := sorted_increasing rep less inside
    rw [keyAt, keyAt, isItem, isItem'] at increasing
    exact increasing
  · intro ndx other inside above below same
    rcases live_element rep inside with ⟨p, -, isData, -, -⟩
    have equal := rep.apart ndx other p (by omega) below isData (same.trans isData)
    omega
  · exact get_element_spec rep denotes
  · intro call permitted within
    have spec := perform_spec rep denotes permitted within
    generalize perform s.store call = result at spec
    cases spec with
    | store after _ _ => exact .inl ⟨after, rfl⟩
    | full isFull => exact .inr isFull

/-- An array from `array_init`, with no entries allocated. -/
def emptyArray : State := ⟨⟨arrayInit (fun _ => none) (fun i => i), fun _ => none⟩, fun _ => none⟩

def textOf (text : String) : Bytes := text.toList.map Char.toUInt8

theorem caseless_map_of_two_calls : ∃ s, Reachable (arraySystem InCounter) s ∧ IsMap InCounter s ∧
    s.content (foldKey (textOf "host")) = some (some (textOf "b")) := by
  have start : Reachable (arraySystem InCounter) emptyArray :=
    reachable_initial ⟨fun _ => none, fun i => i, rfl, rfl⟩
  have first : (perform emptyArray.store (.setKeyValue (textOf "Host") (textOf "a") 7)).map
      (fun s => (s.array.used, s.array.size, s.heap 8)) = some (1, 16, none) := by
    rfl
  rcases map_eq_some_iff.mp first with ⟨store, isStore, facts⟩
  rcases Prod.mk.inj facts with ⟨used, facts'⟩
  rcases Prod.mk.inj facts' with ⟨size, unallocated⟩
  let middle : State := ⟨store, specify emptyArray (.setKeyValue (textOf "Host") (textOf "a") 7)⟩
  have reached : Reachable (arraySystem InCounter) middle := by
    have moved : (arraySystem InCounter).next emptyArray
        (.setKeyValue (textOf "Host") (textOf "a") 7) middle :=
      ⟨⟨by decide, rfl⟩, .inr (.inl (by decide)), isStore, rfl⟩
    exact reachable_next start moved
  have permitted : Permitted middle.store (.setKeyValue (textOf "hOST") (textOf "b") 8) :=
    ⟨by decide, unallocated⟩
  have within : InCounter middle.store (.setKeyValue (textOf "hOST") (textOf "b") 8) := by
    right
    left
    change store.array.size < 2 ^ 32
    omega
  rcases (array_is_caseless_map reached).returns _ permitted within with ⟨after, isAfter⟩ | full
  · refine ⟨⟨after, specify middle (.setKeyValue (textOf "hOST") (textOf "b") 8)⟩, ?_, ?_, rfl⟩
    · exact reachable_next reached ⟨permitted, within, isAfter, rfl⟩
    · exact array_is_caseless_map (reachable_next reached ⟨permitted, within, isAfter, rfl⟩)
  · rw [used] at full
    exact absurd full (by decide)

def digits : Nat → Nat → Bytes
  | 0, _ => []
  | width + 1, n => UInt8.ofNat (48 + n / 16 ^ width % 16) :: digits width n

/-- Nine digits of which none is a letter. -/
def numberKey (n : Nat) : Bytes := digits 9 n

theorem digits_lt {width : Nat} (less : i % 16 ^ width < j % 16 ^ width) :
    foldKey (digits width i) < foldKey (digits width j) := by
  induction width with
  | zero =>
    rw [pow_zero, Nat.mod_one, Nat.mod_one] at less
    exact absurd less (lt_irrefl 0)
  | succ width ih =>
    have digit : ∀ d < 16, (lowerByte (UInt8.ofNat (48 + d))).toNat = 48 + d := by decide
    have below (n : Nat) : n / 16 ^ width % 16 < 16 := Nat.mod_lt _ (by decide)
    rw [digits, digits, fold_cons, fold_cons, digit _ (below i), digit _ (below j), cons_lt_cons_iff]
    rw [Nat.mod_pow_succ, Nat.mod_pow_succ] at less
    rcases lt_trichotomy (i / 16 ^ width % 16) (j / 16 ^ width % 16) with first | same | more
    · exact Or.inl (Nat.add_lt_add_left first 48)
    · rw [same] at less ⊢
      exact Or.inr ⟨rfl, ih (Nat.lt_of_add_lt_add_right less)⟩
    · have step := Nat.mul_le_mul_left (16 ^ width) (Nat.succ_le_of_lt more)
      rw [Nat.mul_succ] at step
      omega

theorem number_key_lt (less : i < j) (fits : j < 16 ^ 9) :
    foldKey (numberKey i) < foldKey (numberKey j) := by
  apply digits_lt
  rw [Nat.mod_eq_of_lt (less.trans fits), Nat.mod_eq_of_lt fits]
  exact less

/-- The entries of a client, one for each number up to `limit`. -/
def entries (limit : Nat) : Heap := fun p =>
  if p ≤ limit then some ⟨some (numberKey p), some [], false⟩ else none

/-- The first `n` of the entries have been inserted. -/
structure Filled (limit n : Nat) (s : State) : Prop where
  distinct : limit + 1 < 16 ^ 9
  reached : Reachable (arraySystem fun _ _ => True) s
  rep : Represents s.store
  denotes : Denotes s.store s.content
  heap : s.store.heap = entries limit
  used : s.store.array.used = n
  size : s.store.array.size = 16 * ((n + 15) / 16)
  data : ∀ ndx < n, s.store.array.data ndx = some ndx
  empty : ∀ ndx, n ≤ ndx → ndx < s.store.array.size → s.store.array.data ndx = none
  sorted : cellsOf s.store.array.sorted n = List.range n

theorem filled_sorted (filled : Filled limit n s) (inside : i < n) :
    s.store.array.sorted i = i := by
  have cell := congrArg (fun cells => cells[i]?) filled.sorted
  simpa [cellsOf, inside] using cell

theorem filled_key (filled : Filled limit n s) (fits : n ≤ limit + 1)
    (inside : ndx < n) : keyAt s.store ndx = foldKey (numberKey ndx) := by
  have isEntry : s.store.heap ndx = some ⟨some (numberKey ndx), some [], false⟩ := by
    rw [filled.heap]
    exact if_pos (show ndx ≤ limit by omega)
  exact key_at_eq (filled.data ndx inside) isEntry

theorem filled_position (filled : Filled limit n s)
    (fits : n ≤ limit + 1) (absent : Found s.store (foldKey (numberKey n)) (none, pos)) : pos = n := by
  have distinct := filled.distinct
  cases absent with
  | absent _ within _ behind =>
    rw [filled.used] at within behind
    apply le_antisymm within
    apply Nat.le_of_not_lt
    intro inside
    have less := behind pos le_rfl inside
    rw [filled_sorted filled inside, filled_key filled fits inside] at less
    exact lt_asymm less (number_key_lt (by omega) (by omega))

theorem filled_absent (filled : Filled limit n s) (fits : n ≤ limit + 1)
    (inside : ndx < s.store.array.used) : keyAt s.store ndx ≠ foldKey (numberKey n) := by
  have distinct := filled.distinct
  rw [filled.used] at inside
  rw [filled_key filled fits inside]
  exact ne_of_lt (number_key_lt (by omega) (by omega))

theorem filled_succ (filled : Filled limit n s) (below : n ≤ limit)
    (small : n < ssizeMax) : ∃ s', Filled limit (n + 1) s' := by
  have isEntry : s.store.heap n = some ⟨some (numberKey n), some [], false⟩ := by
    rw [filled.heap]
    exact if_pos below
  have outside : ¬ InSlot s.store n := by
    rintro ⟨ndx, inside, isData⟩
    rcases lt_or_ge ndx n with less | more
    · rw [filled.data ndx less] at isData
      have same := Option.some.inj isData
      omega
    · rw [filled.empty ndx more inside] at isData
      cases isData
  have hasKey : (some (numberKey n) : Buffer) ≠ none := some_ne_none _
  have offered : Offered s.store n := ⟨outside, _, numberKey n, isEntry, rfl, cons_ne_nil _ _, rfl⟩
  have spec := find_or_insert_spec filled.rep isEntry hasKey rfl
  have returned := insert_unique_spec filled.rep filled.denotes isEntry hasKey rfl outside
  cases isResult : s.store.arrayFindOrInsert n with
  | none =>
    rw [isResult] at spec
    cases spec with
    | full isFull =>
      rw [filled.used] at isFull
      omega
  | some result =>
    rw [isResult] at spec
    cases spec with
    | found ndx inside isKey => exact absurd isKey (filled_absent filled (by omega) inside)
    | inserted store pos inserted absent room =>
      have isStore : perform s.store (.insertUnique n) = some store := by
        simp [perform, Store.arrayInsertUnique, isResult]
      have isPos := filled_position filled (by omega) absent
      rw [perform] at isStore
      rw [isStore] at returned
      cases returned with
      | store _ rep denotes =>
        refine ⟨⟨store, specify s (.insertUnique n)⟩, filled.distinct, ?_, rep, ?_, ?_, ?_, ?_, ?_, ?_, ?_⟩
        · have moved : (arraySystem fun _ _ => True).next s (.insertUnique n)
              ⟨store, specify s (.insertUnique n)⟩ := ⟨offered, trivial, isStore, rfl⟩
          exact reachable_next filled.reached moved
        · rw [specify, isEntry]
          exact denotes
        · funext q
          rw [← filled.heap]
          apply inserted.heap
          rintro ⟨inside, isData⟩
          rw [filled.used] at inside isData
          rw [filled.empty n (le_refl n) inside] at isData
          cases isData
        · rw [inserted.used, filled.used]
        · have isUsed := filled.used
          have isSize := filled.size
          rw [inserted.size, Store.grow]
          split_ifs with full
          · change s.store.array.size + 16 = _
            omega
          · omega
        · intro ndx inside
          rcases Nat.lt_succ_iff_lt_or_eq.mp inside with less | rfl
          · rw [inserted.kept ndx (by rw [filled.used]; exact less), filled.data ndx less]
          · have placed := inserted.placed
            rw [filled.used] at placed
            exact placed
        · intro ndx above inside
          rcases inserted.rest ndx (by rw [filled.used]; exact above) inside with isNone | ⟨old, same⟩
          · exact isNone
          · rw [same, filled.empty ndx (by omega) old]
        · have cells := inserted.cells
          rw [filled.used, filled.sorted, isPos] at cells
          rw [cells, range_succ, take_of_length_le (by simp), drop_of_length_le (by simp)]

theorem exists_filled (limit n : Nat) (distinct : limit + 1 < 16 ^ 9) (below : n ≤ limit + 1)
    (small : n ≤ ssizeMax) : ∃ s, Filled limit n s := by
  induction n with
  | zero =>
    refine ⟨⟨⟨arrayInit (fun _ => none) (fun i => i), entries limit⟩, fun _ => none⟩, ?_⟩
    have reached : Reachable (arraySystem InCounter)
        ⟨⟨arrayInit (fun _ => none) (fun i => i), entries limit⟩, fun _ => none⟩ :=
      reachable_initial ⟨fun _ => none, fun i => i, rfl, rfl⟩
    rcases reachable_represents reached with ⟨rep, denotes⟩
    refine ⟨distinct, reachable_initial ⟨fun _ => none, fun i => i, rfl, rfl⟩, rep, denotes, rfl, rfl, rfl,
      ?_, ?_, rfl⟩
    · intro ndx inside
      cases inside
    · intro ndx _ _
      rfl
  | succ n ih =>
    rcases ih (by omega) (by omega) with ⟨s, filled⟩
    exact filled_succ filled (by omega) (by omega)

theorem search_right (s : Store) (key : Bytes) (fuel lower upper : Nat) (enough : upper - lower < fuel)
    (ordered : lower ≤ upper)
    (right : ∀ i, (lower + upper) / 2 ≤ i → i < upper → ∃ ndx p entry, s.sortedAt i = some ndx ∧
      s.element ndx = some (p, entry) ∧ foldKey (Buffer.text entry.key) < foldKey key) :
    s.search key fuel lower upper = some (none, upper) := by
  induction fuel generalizing lower with
  | zero => omega
  | succ fuel ih =>
    by_cases isEnd : lower = upper
    · rw [Store.search, if_pos isEnd, isEnd]
    · rcases right ((lower + upper) / 2) le_rfl (by omega) with ⟨ndx, p, entry, isNdx, isElement, less⟩
      have notZero : ¬ bufferCaselessCompare key (Buffer.text entry.key) = 0 := by
        intro equal
        exact ne_of_lt less ((compare_eq_zero _ _).mp equal).symm
      have notNegative : ¬ bufferCaselessCompare key (Buffer.text entry.key) < 0 := by
        intro negative
        exact lt_asymm less ((compare_neg _ _).mp negative)
      simp only [Store.search, if_neg isEnd, isNdx, bind_eq_bind, bind_some, isElement, if_neg notZero,
        if_neg notNegative]
      apply ih ((lower + upper) / 2 + 1) (by omega) (by omega)
      intro i above below
      exact right i (by omega) below

section HandedOut

variable {limit n : Nat} {s : State}

def takenFirst (s : Store) (entry : DataString) : Store :=
  (⟨{ s.array with data := update (update s.array.data 1 none) s.array.used none },
    s.heap⟩ : Store).setEntry 1 entry

theorem filled_heap (filled : Filled limit n s) (below : p ≤ limit) :
    s.store.heap p = some ⟨some (numberKey p), some [], false⟩ := by
  rw [filled.heap]
  exact if_pos below

section

variable (filled : Filled limit n s) (isLimit : n = limit + 1)
include filled isLimit

theorem filled_get_unused (wraps : n % 2 ^ 32 = 1) (large : 4 ≤ n) (notFull : n < s.store.array.size) :
    s.store.arrayGetUnusedElement = some (⟨{ s.store.array with
      data := update (update s.store.array.data 1 none) n none }, s.store.heap⟩, some 1) := by
  have scanned : s.store.unusedFrom (2 ^ 32 + 1) 1 = some (some 1) := by
    rw [Store.unusedFrom, if_pos (by omega), filled.data 1 (by omega)]
    simp [filled_heap filled (show 1 ≤ limit by omega)]
  have oneInside : 1 < s.store.array.size := by omega
  simp only [Store.arrayGetUnusedElement, filled.used, wraps, scanned, bind_eq_bind, bind_some,
    cell_eq notFull, filled.empty _ le_rfl notFull, Store.setData, if_pos oneInside, if_pos notFull,
    filled.data 1 (by omega)]

theorem filled_search (large : 4 ≤ n) (small : n ≤ ssizeMax) (entry : DataString) :
    (takenFirst s.store entry).arrayGetIndex (numberKey n) = some (none, n) := by
  have isUsed : (takenFirst s.store entry).array.used = n := filled.used
  have fits := filled.rep.fits
  rw [filled.used] at fits
  rw [Store.arrayGetIndex, isUsed, if_pos small]
  apply search_right _ _ _ 0 _ (by omega) (Nat.zero_le _)
  intro i above below
  have notFirst : i ≠ 1 := by omega
  have notLast : i ≠ n := by omega
  refine ⟨i, i, ⟨some (numberKey i), some [], false⟩, ?_, ?_,
    number_key_lt below (by have distinct := filled.distinct; omega)⟩
  · have sorted : (takenFirst s.store entry).array.sorted i = i := filled_sorted filled below
    rw [Store.sortedAt, sorted]
    exact if_pos (show i < s.store.array.size by omega)
  · apply element_eq
    · change i < s.store.array.size
      omega
    · change update _ _ _ _ = _
      rw [filled.used, update_of_ne notLast, update_of_ne notFirst, filled.data i below]
    · change update _ _ _ _ = _
      rw [update_of_ne notFirst]
      exact filled_heap filled (show i ≤ limit by omega)

theorem filled_handed_out (wraps : n % 2 ^ 32 = 1)
    (large : 4 ≤ n) (notFull : n < s.store.array.size) (small : n + 1 ≤ ssizeMax) :
    ∃ s', Reachable (arraySystem fun _ _ => True) s' ∧ s'.store.array.used = n + 1 ∧
      s'.store.array.data 1 = none := by
  let entry : DataString := ⟨some (numberKey n), some [], false⟩
  have isTaken : (takenFirst s.store entry).heap 1 = some entry := by
    change update s.store.heap 1 (some entry) 1 = some entry
    rw [update_self]
  have isUsed : (takenFirst s.store entry).array.used = n := filled.used
  have atUsed : (takenFirst s.store entry).array.data n = none := by
    change update _ _ _ _ = _
    rw [filled.used, update_self]
  have noOther : ∀ q, n < (takenFirst s.store entry).array.size →
      (takenFirst s.store entry).array.data n = some q → ((takenFirst s.store entry).heap q).isSome := by
    intro q _ isData
    rw [atUsed] at isData
    cases isData
  have isIndex := filled_search filled isLimit large (by omega) entry
  have inserts : ∃ store, (takenFirst s.store entry).arrayFindOrInsert 1 = some (store, none) ∧
      Inserted (takenFirst s.store entry) 1 n store := by
    apply find_or_insert_absent isTaken (some_ne_none (numberKey n)) rfl isIndex
    · rw [isUsed]
    · rw [isUsed]
      exact small
    · exact filled.rep.fits
    · rw [isUsed]
      exact noOther
  rcases inserts with ⟨store, isInsert, inserted⟩
  have notThere : s.store.arrayGetElement (numberKey n) = some none := by
    rcases get_index_spec filled.rep (numberKey n) with ⟨⟨found, pos⟩, isFound, spec⟩
    cases found with
    | none => simp [Store.arrayGetElement, isFound]
    | some ndx =>
      cases spec with
      | present _ inside isKey =>
        exact absurd isKey (filled_absent filled (by omega) (sorted_lt filled.rep inside))
  have isStore : perform s.store (.setKeyValue (numberKey n) [] n) = some store := by
    simp only [perform, Store.arraySetKeyValue, notThere, bind_eq_bind, bind_some,
      filled_get_unused filled isLimit wraps large notFull, filled_heap filled (show 1 ≤ limit by omega)]
    have sameStore : (⟨{ s.store.array with
        data := update (update s.store.array.data 1 none) n none }, s.store.heap⟩ :
          Store).setEntry 1 entry = takenFirst s.store entry := by
      rw [takenFirst, filled.used]
    rw [sameStore]
    simp [Store.arrayInsertUnique, isInsert]
  refine ⟨⟨store, specify s (.setKeyValue (numberKey n) [] n)⟩, ?_, ?_, ?_⟩
  · have unallocated : s.store.heap n = none := by
      rw [filled.heap]
      exact if_neg (show ¬ n ≤ limit by omega)
    have moved : (arraySystem fun _ _ => True).next s (.setKeyValue (numberKey n) [] n)
        ⟨store, specify s (.setKeyValue (numberKey n) [] n)⟩ :=
      ⟨⟨cons_ne_nil _ _, unallocated⟩, trivial, isStore, rfl⟩
    exact reachable_next filled.reached moved
  · rw [inserted.used, isUsed]
  · rw [inserted.kept 1 (by rw [isUsed]; omega)]
    change update _ _ _ _ = _
    rw [filled.used, update_of_ne (by omega), update_self]

end

end HandedOut

/-- With 2 ^ 32 + 1 elements, a new key takes the element in slot 1. -/
theorem live_element_handed_out : ∃ s, Reachable (arraySystem fun _ _ => True) s ∧
    s.store.array.used = 2 ^ 32 + 2 ∧ s.store.array.data 1 = none ∧ ¬ IsMap (fun _ _ => True) s := by
  rcases exists_filled (2 ^ 32) (2 ^ 32 + 1) (by decide) (by omega) (by decide) with ⟨s, filled⟩
  have isSize := filled.size
  rcases filled_handed_out filled rfl (by omega) (by omega) (by omega) (by decide) with
    ⟨s', reached, isUsed, isNone⟩
  refine ⟨s', reached, isUsed, isNone, ?_⟩
  intro isMap
  apply isMap.live 1 (by omega)
  rw [item, isNone]
  rfl

end ServerCore.LighttpdArrayMap
