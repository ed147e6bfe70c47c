import ServerCore.NginxRadixTreeRuns

/-!
# The prefixes of a radix tree

The trees that come of `ngx_radix_tree_create` and of any number of insertions
and deletions, with what the answers of these calls say is associated with the
prefixes. A deletion does what it should unless the prefix leads to a leaf that
is the root or has no value.
-/

namespace ServerCore.NginxRadixTreePrefixes

open BinaryTrie
open NginxHttpParse (Byte)
open NginxInet (In6Addr)
open NginxRadixTree NginxRadixTreeHeap NginxRadixTreeRuns List Function

variable {mask inc : BitVec 32} {turns : List Bool}

/-- The trees after some calls. An insertion that succeeds associates its value with the
prefix, and after a deletion that returns nothing is associated with it. -/
inductive Built {Key : Type} (turns : Key → Key → List Bool)
    (insertion : Tree → Key → Key → Nat → ReturnCode × Tree)
    (deletion : Tree → Key → Key → Except Stuck (ReturnCode × Tree)) : Tree → (List Bool → Option Nat) → Prop
  | create (memory : Nat → Node) (perPage : Nat) (answers : List Bool) (prealloc : BitVec 64) (tree : Tree)
      (made : ngxRadixTreeCreate memory perPage answers prealloc = some tree) :
      Built turns insertion deletion tree fun _ => none
  | inserted (tree : Tree) (stored : List Bool → Option Nat) (key mask : Key) (value : Nat)
      (built : Built turns insertion deletion tree stored) (isValue : value ≠ ngxRadixNoValue)
      (done : (insertion tree key mask value).1 = .ngxOk) :
      Built turns insertion deletion (insertion tree key mask value).2
        (update stored (turns key mask) (some value))
  | refused (tree : Tree) (stored : List Bool → Option Nat) (key mask : Key) (value : Nat)
      (built : Built turns insertion deletion tree stored) (isValue : value ≠ ngxRadixNoValue)
      (failed : (insertion tree key mask value).1 ≠ .ngxOk) :
      Built turns insertion deletion (insertion tree key mask value).2 stored
  | deleted (tree : Tree) (stored : List Bool → Option Nat) (key mask : Key)
      (code : ReturnCode) (after : Tree)
      (built : Built turns insertion deletion tree stored)
      (result : deletion tree key mask = .ok (code, after)) :
      Built turns insertion deletion after (update stored (turns key mask) none)

def Built32 : Tree → (List Bool → Option Nat) → Prop :=
  Built turns32 ngxRadix32treeInsert ngxRadix32treeDelete

def Built128 : Tree → (List Bool → Option Nat) → Prop :=
  Built turns128 ngxRadix128treeInsert ngxRadix128treeDelete

section Creation

variable {tree after : Tree} {width : Nat} {stored : List Bool → Option Nat}

theorem turns_length (width : Nat) (keyBit maskBit : Nat → Bool) :
    (turnsOf width keyBit maskBit).length ≤ width := by
  rw [turnsOf, length_map]
  exact (IsPrefix.length_le <| takeWhile_prefix maskBit).trans_eq length_range

theorem fill_level_holds {key : BitVec 32} (rounds : Nat) (holds : Holds 32 tree fun _ => none)
    (filled : fillLevel mask inc rounds tree key = some after) : Holds 32 after fun _ => none := by
  induction rounds generalizing tree key with
  | zero =>
    cases filled
    exact holds
  | succ rounds ih =>
    rw [fillLevel] at filled
    cases answer : ngxRadix32treeInsert tree key mask ngxRadixNoValue with
    | mk code next =>
      rw [answer] at filled
      obtain ⟨stored, -, -⟩ | ⟨-, ⟨isOk, nextHolds⟩ | ⟨isError, -⟩⟩ :=
        insert_spec holds (turns_length 32 _ _) answer
      · cases stored rfl
      · subst isOk
        have same : (update (fun _ => none) (turnsOf 32 (bit32 key) (bit32 mask)) none :
            List Bool → Option Nat) = fun _ => none := update_eq_self _ _
        exact ih (same ▸ nextHolds) filled
      · subst isError
        cases filled

theorem fill_levels_holds (levels : Nat) (holds : Holds 32 tree fun _ => none)
    (filled : fillLevels levels tree mask inc = some after) : Holds 32 after fun _ => none := by
  induction levels generalizing tree mask inc with
  | zero =>
    cases filled
    exact holds
  | succ levels ih =>
    rw [fillLevels] at filled
    cases isLevel : fillLevel ((mask >>> 1) ||| 0x80000000#32) inc (rounds inc) tree 0 with
    | none =>
      rw [isLevel] at filled
      cases filled
    | some next =>
      rw [isLevel] at filled
      exact ih (fill_level_holds (rounds inc) holds isLevel) filled

theorem root_holds {root : Nat} (isRoot : tree.root = root) (noFree : tree.free = none)
    (taken : root < tree.start) :
    Holds 32 (tree.write root ⟨none, none, none, ngxRadixNoValue⟩) fun _ => none := by
  refine ⟨.node root ngxRadixNoValue .nil .nil, [], ⟨⟨?_, ?_, ?_, ?_⟩, noFree⟩, ?_, ?_⟩
  · exact congrArg some isRoot.symm
  · exact ⟨update_self _ _ _, trivial, trivial⟩
  · exact pairwise_singleton _ _
  · intro addr isAddr
    rw [mem_singleton.1 isAddr]
    exact taken
  · intro place some_
    cases place with
    | nil => exact Nat.zero_le _
    | cons turn place =>
      refine absurd ?_ some_
      cases turn <;> exact Trie.part_nil place
  · funext place
    cases place with
    | nil => exact values_none rfl (not_not_intro rfl)
    | cons turn place =>
      refine values_nil ?_
      cases turn <;> exact Trie.part_nil place

theorem create_holds {memory : Nat → Node} {perPage : Nat} {answers : List Bool} {prealloc : BitVec 64}
    (made : ngxRadixTreeCreate memory perPage answers prealloc = some tree) :
    Holds 32 tree fun _ => none := by
  unfold ngxRadixTreeCreate at made
  split at made
  next answers =>
    cases answers with
    | nil => cases made
    | cons answer answers =>
      cases answer with
      | false => cases made
      | true => exact fill_levels_holds _ (root_holds rfl rfl (Nat.lt_succ_self 0)) made
  next => cases made

theorem within_mono {more : Nat} (holds : Holds width tree stored) (most : width ≤ more) :
    Holds more tree stored := by
  obtain ⟨trie, free, sound, within, isStored⟩ := holds
  exact ⟨trie, free, sound, fun place some_ => (within place some_).trans most, isStored⟩

theorem built_holds {Key : Type} {turns : Key → Key → List Bool}
    {insertion : Tree → Key → Key → Nat → ReturnCode × Tree}
    {deletion : Tree → Key → Key → Except Stuck (ReturnCode × Tree)} (wide : 32 ≤ width)
    (fits : ∀ key mask, (turns key mask).length ≤ width)
    (isInsert : ∀ tree key mask value, insertion tree key mask value = insert tree (turns key mask) value)
    (isDelete : ∀ tree key mask, deletion tree key mask = delete tree (turns key mask))
    (built : Built turns insertion deletion tree stored) : Holds width tree stored := by
  induction built with
  | create memory perPage answers prealloc tree made => exact within_mono (create_holds made) wide
  | inserted tree stored key mask value built isValue done ih =>
    obtain ⟨-, isBusy, -⟩ | ⟨-, ⟨-, holds⟩ | ⟨isError, -⟩⟩ :=
      insert_spec ih (fits key mask) (isInsert tree key mask value).symm
    · rw [isBusy] at done
      cases done
    · rw [if_pos (show counts value = true from decide_eq_true isValue)] at holds
      exact holds
    · rw [isError] at done
      cases done
  | refused tree stored key mask value built isValue failed ih =>
    obtain ⟨-, -, same⟩ | ⟨-, ⟨isOk, -⟩ | ⟨-, holds⟩⟩ :=
      insert_spec ih (fits key mask) (isInsert tree key mask value).symm
    · rw [same]
      exact ih
    · exact absurd isOk failed
    · exact holds
  | deleted tree stored key mask code after built result ih =>
    rw [isDelete] at result
    obtain ⟨none_, -, isError⟩ | ⟨-, -, next, isOk, holds⟩ |
        ⟨-, -, -, next, isOk, holds⟩ | ⟨-, -, isStuck⟩ :=
      delete_cases ih (turns key mask)
    · rw [isError] at result
      injection result with result
      injection result with _ isAfter
      rw [← isAfter, ← none_, update_eq_self]
      exact ih
    · rw [isOk] at result
      injection result with result
      injection result with _ isAfter
      rw [← isAfter]
      exact holds
    · rw [isOk] at result
      injection result with result
      injection result with _ isAfter
      rw [← isAfter]
      exact holds
    · rw [isStuck] at result
      cases result

theorem built32_holds (built : Built32 tree stored) : Holds 32 tree stored :=
  built_holds (Nat.le_refl _) (fun _ _ => turns_length 32 _ _) (fun _ _ _ _ => rfl) (fun _ _ _ => rfl) built

theorem built128_holds (built : Built128 tree stored) : Holds 128 tree stored :=
  built_holds (by decide) (fun _ _ => turns_length 128 _ _) (fun _ _ _ _ => rfl) (fun _ _ _ => rfl) built

end Creation

section Searches

variable {tree : Tree} {width : Nat} {stored : List Bool → Option Nat}

/-- The answer is the value of the longest prefix of the key that has one, if any has. -/
def FindsLongest (stored : List Bool → Option Nat) (key : List Bool) (answer : Option Nat) : Prop :=
  (∃ value, answer = some value ∧ value ≠ ngxRadixNoValue ∧ IsLongest stored key value) ∨
    (answer = some ngxRadixNoValue ∧ ∀ place, place <+: key → stored place = none)

inductive InTree (tree : Tree) : Nat → Prop
  | root : InTree tree tree.root
  | child (node : Nat) (turn : Bool) (next : Nat) (above : InTree tree node)
      (isChild : (tree.nodes node).child turn = some next) : InTree tree next

/-- The free nodes, in the order in which they are taken, are not in the tree, and the nodes
of the pages that come after them are neither. -/
def Apart (tree : Tree) : Prop :=
  ∃ free, Chain tree.nodes tree.free free ∧ free.Nodup ∧
    (∀ addr ∈ free, ¬InTree tree addr ∧ addr < tree.start) ∧
    ∀ addr, InTree tree addr → addr < tree.start

theorem find_longest (holds : Holds width tree stored) (turnAt : Nat → Bool) :
    FindsLongest stored ((List.range width).map turnAt)
      (findFrom tree turnAt (width + 1) 0 ngxRadixNoValue (some tree.root)) := by
  obtain ⟨trie, free, sound, within, rfl⟩ := holds
  rw [← sound.root, find_walk turnAt sound.rep width 0 ngxRadixNoValue within, range_eq_range']
  obtain ⟨value, isLast, longest⟩ | ⟨same, none_⟩ :=
    walk_longest counts trie ((List.range' 0 width).map turnAt) (some ngxRadixNoValue)
  · refine .inl ⟨value, isLast, ?_, longest⟩
    obtain ⟨place, -, isValue, -⟩ := longest
    obtain ⟨-, isCounted⟩ := Option.filter_eq_some_iff.1 isValue
    exact of_decide_eq_true isCounted
  · exact .inr ⟨same, none_⟩

theorem mark_of_in_tree {trie : Shape} {free : List Nat} {addr : Nat} (sound : Sound tree trie free)
    (inTree : InTree tree addr) : ∃ place, (trie.part place).mark? = some addr := by
  induction inTree with
  | root => exact ⟨[], sound.root⟩
  | child node turn next above isChild ih =>
    obtain ⟨place, isMark⟩ := ih
    cases isPart : trie.part place with
    | nil =>
      rw [isPart] at isMark
      cases isMark
    | node addr value right left =>
      rw [isPart] at isMark
      cases isMark
      exact ⟨place ++ [turn], (child_at sound isPart turn).symm.trans isChild⟩

theorem holds_apart (holds : Holds width tree stored) : Apart tree := by
  obtain ⟨trie, free, sound, -, -⟩ := holds
  obtain ⟨-, distinct, apart⟩ := nodup_append.1 sound.nodup
  have inMarks : ∀ addr, InTree tree addr → addr ∈ trie.marks := by
    intro addr inTree
    obtain ⟨place, isMark⟩ := mark_of_in_tree sound inTree
    exact Trie.mem_marks_of_part isMark
  refine ⟨free, sound.chain, distinct, ?_, ?_⟩
  · intro addr isFree
    refine ⟨fun inTree => apart addr (inMarks addr inTree) addr isFree rfl, ?_⟩
    exact sound.below addr (mem_append_right _ isFree)
  · intro addr inTree
    exact sound.below addr (mem_append_left _ (inMarks addr inTree))

theorem insert_busy_iff (holds : Holds width tree stored) (room : turns.length ≤ width) (value : Nat) :
    ((insert tree turns value).1 = .ngxBusy ↔ stored turns ≠ none) ∧
      ((insert tree turns value).1 = .ngxBusy → (insert tree turns value).2 = tree) := by
  cases answer : insert tree turns value with
  | mk code after =>
    obtain ⟨some_, isBusy, same⟩ | ⟨none_, ⟨isOk, -⟩ | ⟨isError, -⟩⟩ := insert_spec holds room answer
    · exact ⟨⟨fun _ => some_, fun _ => isBusy⟩, fun _ => same⟩
    · subst isOk
      exact ⟨⟨nofun, fun some_ => absurd none_ some_⟩, nofun⟩
    · subst isError
      exact ⟨⟨nofun, fun some_ => absurd none_ some_⟩, nofun⟩

theorem delete_returns (holds : Holds width tree stored) (some_ : turns ≠ []) :
    ∃ code after, delete tree turns = .ok (code, after) := by
  obtain ⟨-, -, isError⟩ | ⟨-, -, after, isOk, -⟩ | ⟨-, -, -, after, isOk, -⟩ | ⟨-, isEmpty, -⟩ :=
    delete_cases holds turns
  · exact ⟨_, _, isError⟩
  · exact ⟨_, _, isOk⟩
  · exact ⟨_, _, isOk⟩
  · exact absurd isEmpty some_

theorem bits_front (key : In6Addr) (behind : Byte) :
    (List.range 128).map (bit128 (key.val ++ [behind])) = (List.range 128).map (bit128 key.val) := by
  refine map_congr_left fun i isIndex => ?_
  have inKey : i / 8 < key.val.length := by
    rw [key.property]
    exact (Nat.div_lt_iff_lt_mul (by decide)).2 (mem_range.1 isIndex)
  unfold bit128
  rw [getD_eq_getElem?_getD, getD_eq_getElem?_getD, getElem?_append_left inKey]

/-- A search finds the longest prefix, an insertion is refused exactly when its prefix has
a value, deletions of prefixes return, and the free nodes are not in the tree. -/
theorem radix_trees_find_longest : (∀ tree stored, Built32 tree stored →
      (∀ key, FindsLongest stored ((List.range 32).map (bit32 key)) (ngxRadix32treeFind tree key)) ∧
        (∀ key mask value,
          ((ngxRadix32treeInsert tree key mask value).1 = .ngxBusy ↔ stored (turns32 key mask) ≠ none) ∧
            ((ngxRadix32treeInsert tree key mask value).1 = .ngxBusy →
              (ngxRadix32treeInsert tree key mask value).2 = tree)) ∧
        (∀ key mask, turns32 key mask ≠ [] →
          ∃ code after, ngxRadix32treeDelete tree key mask = .ok (code, after)) ∧
        Apart tree) ∧ ∀ tree stored, Built128 tree stored →
        (∀ key behind, FindsLongest stored ((List.range 128).map (bit128 key.val))
          (ngxRadix128treeFind tree key behind)) ∧
          (∀ key mask value,
            ((ngxRadix128treeInsert tree key mask value).1 = .ngxBusy ↔ stored (turns128 key mask) ≠ none) ∧
              ((ngxRadix128treeInsert tree key mask value).1 = .ngxBusy →
                (ngxRadix128treeInsert tree key mask value).2 = tree)) ∧
                (∀ key mask, turns128 key mask ≠ [] →
            ∃ code after, ngxRadix128treeDelete tree key mask = .ok (code, after)) ∧ Apart tree := by
  constructor
  · intro tree stored built
    have holds := built32_holds built
    exact ⟨fun key => find_longest holds (bit32 key),
      fun key mask value => insert_busy_iff holds (turns_length 32 _ _) value,
      fun key mask some_ => delete_returns holds some_, holds_apart holds⟩
  · intro tree stored built
    have holds := built128_holds built
    refine ⟨fun key behind => ?_, fun key mask value => insert_busy_iff holds (turns_length 128 _ _) value,
      fun key mask some_ => delete_returns holds some_, holds_apart holds⟩
    rw [← bits_front key behind]
    exact find_longest holds (bit128 (key.val ++ [behind]))

theorem radix_trees_find_longest_nested : ∃ tree stored, Built32 tree stored ∧
    FindsLongest stored ((List.range 32).map (bit32 0x0a010203)) (ngxRadix32treeFind tree 0x0a010203) ∧
    ngxRadix32treeFind tree 0x0a010203 = some 9 ∧ ngxRadix32treeFind tree 0x0a020203 = some 7 :=
  have made : Built32 _ _ := .create (fun _ => ⟨none, none, none, 0⟩) 128 [true, true] 0 _ rfl
  have built : Built32 _ _ :=
    .inserted _ _ 0x0a010000 0xffff0000 9
      (.inserted _ _ 0x0a000000 0xff000000 7 made (by decide) (by decide))
      (by decide) (by decide)
  ⟨_, _, built, (radix_trees_find_longest.1 _ _ built).1 _, by decide, by decide⟩

end Searches

section Deletions

variable {tree : Tree} {stored : List Bool → Option Nat}

/-- A deletion returns; it says whether there was a value, takes away only that, and
changes nothing where it fails. -/
def DeletesRight (tree : Tree) (key mask : BitVec 32) : Prop :=
  ∃ code after, ngxRadix32treeDelete tree key mask = .ok (code, after) ∧
    (code = .ngxOk ↔ associated tree (turns32 key mask) ≠ none) ∧
    (code = .ngxOk → associated after = update (associated tree) (turns32 key mask) none) ∧
    (code = .ngxError → after = tree)

theorem deletes_right_iff (built : Built32 tree stored) (key mask : BitVec 32) :
    DeletesRight tree key mask ↔ ¬UselessLeaf tree (turns32 key mask) := by
  have holds := built32_holds built
  unfold DeletesRight ngxRadix32treeDelete
  rw [holds_associated holds]
  obtain ⟨none_, notUseless, isError⟩ | ⟨some_, notUseless, after, isOk, afterHolds⟩ |
    ⟨none_, useless, -, after, isOk, -⟩ | ⟨useless, -, isStuck⟩ := delete_cases holds (turns32 key mask)
  · rw [isError]
    refine ⟨fun _ => notUseless, fun _ => ⟨_, _, rfl, ?_, ?_, fun _ => rfl⟩⟩
    · exact ⟨nofun, fun some_ => absurd none_ some_⟩
    · exact nofun
  · rw [isOk]
    refine ⟨fun _ => notUseless, fun _ => ⟨_, after, rfl, ?_, ?_, ?_⟩⟩
    · exact ⟨fun _ => some_, fun _ => rfl⟩
    · exact fun _ => holds_associated afterHolds
    · exact nofun
  · rw [isOk]
    constructor
    · rintro ⟨code, next, result, isSome, -, -⟩
      injection result with result
      injection result with isCode _
      exact absurd none_ (isSome.1 isCode.symm)
    · exact fun notUseless => absurd useless notUseless
  · rw [isStuck]
    constructor
    · rintro ⟨code, next, result, -⟩
      cases result
    · exact fun notUseless => absurd useless notUseless

theorem deletes_right_iff_stored : ∃ tree stored, Built32 tree stored ∧
    (DeletesRight tree 0x0a000000 0xff000000 ↔ ¬UselessLeaf tree (turns32 0x0a000000 0xff000000)) ∧
    associated tree (turns32 0x0a000000 0xff000000) = some 7 :=
  have made : Built32 _ _ := .create (fun _ => ⟨none, none, none, 0⟩) 128 [true, true] 0 _ rfl
  have built : Built32 _ _ := .inserted _ _ 0x0a000000 0xff000000 7 made (by decide) (by decide)
  ⟨_, _, built, deletes_right_iff built _ _, by decide⟩

/-- The empty prefix in a new tree, and one of a single bit that only has a preallocated node. -/
theorem deletes_wrong :
    (∃ tree, Built32 tree (fun _ => none) ∧ ngxRadix32treeDelete tree 0 0 = .error .nullPointer ∧
        ¬DeletesRight tree 0 0) ∧
      ∃ tree after, Built32 tree (fun _ => none) ∧ associated tree (turns32 0 0x80000000) = none ∧
        ngxRadix32treeDelete tree 0 0x80000000 = .ok (.ngxOk, after) ∧ ¬DeletesRight tree 0 0x80000000 := by
  have fresh : Built32 _ _ := .create (fun _ => ⟨none, none, none, 0⟩) 128 [true, true] 0 _ rfl
  have filled : Built32 _ _ := .create (fun _ => ⟨none, none, none, 0⟩) 128 [true, true] 1 _ rfl
  refine ⟨⟨_, fresh, rfl, ?_⟩, ⟨_, _, filled, by decide, rfl, ?_⟩⟩
  · rintro ⟨code, after, result, -⟩
    cases result
  · rintro ⟨code, after, result, isSome, -, -⟩
    cases result
    exact absurd rfl (isSome.1 rfl)

end Deletions

end ServerCore.NginxRadixTreePrefixes
