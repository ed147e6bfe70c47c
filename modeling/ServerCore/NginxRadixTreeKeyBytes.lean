import ServerCore.ByteTable
import ServerCore.NginxRadixTreePrefixes

/-!
# The bytes of the key that a search reads

The byte at the index is read at every node, and the index is moved with the
last bit of a byte; so the byte behind the key is read at a node of depth 128.
-/

namespace ServerCore.NginxRadixTreeKeyBytes

open NginxHttpParse (Byte)
open NginxInet (In6Addr)
open NginxRadixTree NginxRadixTreeHeap NginxRadixTreeRuns NginxRadixTreePrefixes List Function

variable {search : Search}

/-- The locals of `ngx_radix128tree_find`, and the indexes of the bytes read so far. -/
structure Search where
  i : Nat
  bit : Byte
  value : Nat
  node : Option Nat
  reads : List Nat

/-- The body of the loop; `key i` is the byte at this distance from the pointer. -/
def searchTurn (tree : Tree) (key : Nat → Byte) (search : Search) (node : Nat) : Search :=
  let value := if (tree.nodes node).value ≠ ngxRadixNoValue then (tree.nodes node).value else search.value
  let next := (tree.nodes node).child (key search.i &&& search.bit != 0)
  let bit := search.bit >>> 1
  if bit = 0 then ⟨search.i + 1, 0x80, value, next, search.reads ++ [search.i]⟩
  else ⟨search.i, bit, value, next, search.reads ++ [search.i]⟩

def searchLoop (tree : Tree) (key : Nat → Byte) : Nat → Search → Option Search
  | fuel, search =>
    match search.node, fuel with
    | none, _ => some search
    | some _, 0 => none
    | some node, fuel + 1 => searchLoop tree key fuel (searchTurn tree key search node)

def startSearch (tree : Tree) : Search := ⟨0, 0x80, ngxRadixNoValue, some tree.root, []⟩

/-- The bit at this distance from the highest one of the first byte. -/
def keyBit (key : Nat → Byte) (depth : Nat) : Bool := (key (depth / 8)).toBitVec.getMsbD (depth % 8)

def keyBits (key : Nat → Byte) (depth : Nat) : List Bool := (List.range depth).map (keyBit key)

/-- The search returns, gives the value of the longest prefix, and reads no byte but the
sixteen of the key. -/
def StaysInside (tree : Tree) (stored : List Bool → Option Nat) (key : Nat → Byte) : Prop :=
  ∃ fuel search, searchLoop tree key fuel (startSearch tree) = some search ∧
    FindsLongest stored (keyBits key 128) (some search.value) ∧ ∀ index ∈ search.reads, index < 16

/-- The trees of 128 bits after any insertions, and the values that these have stored. -/
inductive Inserted128 : Tree → (List Bool → Option Nat) → Prop
  | create (memory : Nat → Node) (perPage : Nat) (answers : List Bool) (prealloc : BitVec 64) (tree : Tree)
      (made : ngxRadixTreeCreate memory perPage answers prealloc = some tree) :
      Inserted128 tree fun _ => none
  | inserted (tree : Tree) (stored : List Bool → Option Nat) (key mask : In6Addr) (value : Nat)
      (built : Inserted128 tree stored) (isValue : value ≠ ngxRadixNoValue)
      (done : (ngxRadix128treeInsert tree key mask value).1 = .ngxOk) :
      Inserted128 (ngxRadix128treeInsert tree key mask value).2
        (update stored (turns128 key mask) (some value))
  | refused (tree : Tree) (stored : List Bool → Option Nat) (key mask : In6Addr) (value : Nat)
      (built : Inserted128 tree stored) (isValue : value ≠ ngxRadixNoValue)
      (failed : (ngxRadix128treeInsert tree key mask value).1 ≠ .ngxOk) :
      Inserted128 (ngxRadix128treeInsert tree key mask value).2 stored

section Loop

variable {tree : Tree} {key : Nat → Byte}

/-- `bit` at this depth. -/
def bitAt (depth : Nat) : Byte := (0x80 : Byte) >>> (depth % 8).toUInt8

theorem bit_at_next (depth : Nat) :
    (bitAt depth >>> 1 = 0 ↔ depth % 8 = 7) ∧ (depth % 8 ≠ 7 → bitAt depth >>> 1 = bitAt (depth + 1)) := by
  have small : depth % 8 < 8 := Nat.mod_lt _ (by decide)
  have next : (depth + 1) % 8 = (depth % 8 + 1) % 8 := by omega
  unfold bitAt
  rw [next]
  generalize depth % 8 = rest at small
  have each : ∀ rest < 8, ((0x80 : Byte) >>> rest.toUInt8 >>> 1 = 0 ↔ rest = 7) ∧
      (rest ≠ 7 → (0x80 : Byte) >>> rest.toUInt8 >>> 1 =
        (0x80 : Byte) >>> ((rest + 1) % 8).toUInt8) := by decide
  exact each rest small

theorem key_bit_eq (depth : Nat) : (key (depth / 8) &&& bitAt depth != 0) = keyBit key depth := by
  have small : depth % 8 < 8 := Nat.mod_lt _ (by decide)
  unfold bitAt keyBit
  generalize depth % 8 = rest at small
  generalize key (depth / 8) = byte
  have each : ∀ byte : Byte, ∀ rest < 8, (byte &&& (0x80 : Byte) >>> rest.toUInt8 != 0) =
      byte.toBitVec.getMsbD rest :=
    ByteTable.forall_byte (by decide)
  exact each byte rest small

def At (depth : Nat) (search : Search) : Prop := search.i = depth / 8 ∧ search.bit = bitAt depth

theorem turn_at {depth node : Nat} {search : Search} (here : At depth search) :
    At (depth + 1) (searchTurn tree key search node) ∧
      (searchTurn tree key search node).node = (tree.nodes node).child (keyBit key depth) ∧
      (searchTurn tree key search node).reads = search.reads ++ [depth / 8] ∧
      (searchTurn tree key search node).value =
        if (tree.nodes node).value ≠ ngxRadixNoValue then (tree.nodes node).value else search.value := by
  obtain ⟨isIndex, isBit⟩ := here
  obtain ⟨lastIff, next⟩ := bit_at_next depth
  unfold searchTurn At
  rw [isIndex, isBit, key_bit_eq]
  by_cases isLast : depth % 8 = 7
  · rw [if_pos (lastIff.mpr isLast)]
    have first : bitAt (depth + 1) = 0x80 := by
      have wraps : (depth + 1) % 8 = 0 := by omega
      unfold bitAt
      rw [wraps]
      decide
    exact ⟨⟨by dsimp only; omega, first.symm⟩, rfl, rfl, rfl⟩
  · rw [if_neg fun isZero => isLast (lastIff.mp isZero)]
    exact ⟨⟨by dsimp only; omega, next isLast⟩, rfl, rfl, rfl⟩

theorem locate_nowhere (turns : List Bool) : locate tree none turns = none := by
  cases turns with
  | nil => rfl
  | cons turn turns => rfl

theorem ended_spec (fuel : Nat) (depth : Nat) (ended : search.node = none) :
    (searchLoop tree key fuel search).map Search.value =
        findFrom tree (keyBit key) fuel depth search.value none ∧
      ∀ last, searchLoop tree key fuel search = some last → ∀ index, index ∈ last.reads ↔
        index ∈ search.reads ∨ ∃ count, index = (depth + count) / 8 ∧
          locate tree none ((List.range' depth count).map (keyBit key)) ≠ none := by
  have stops : searchLoop tree key fuel search = some search := by
    unfold searchLoop
    rw [ended]
  rw [stops]
  constructor
  · cases fuel <;> rfl
  · intro last isLast index
    cases isLast
    constructor
    · exact Or.inl
    · rintro (old | ⟨count, -, absent⟩)
      · exact old
      · exact absurd (locate_nowhere _) absent

theorem search_loop_spec (fuel : Nat) {depth : Nat} (here : At depth search) :
    (searchLoop tree key fuel search).map Search.value =
        findFrom tree (keyBit key) fuel depth search.value search.node ∧
      ∀ last, searchLoop tree key fuel search = some last → ∀ index, index ∈ last.reads ↔
        index ∈ search.reads ∨ ∃ count, index = (depth + count) / 8 ∧
          locate tree search.node ((List.range' depth count).map (keyBit key)) ≠ none := by
  induction fuel generalizing depth search with
  | zero =>
    cases isNode : search.node with
    | none => exact ended_spec 0 depth isNode
    | some node =>
      unfold searchLoop
      rw [isNode]
      exact ⟨rfl, nofun⟩
  | succ fuel ih =>
    cases isNode : search.node with
    | none => exact ended_spec (fuel + 1) depth isNode
    | some node =>
      obtain ⟨next, isChild, isReads, isValue⟩ := @turn_at tree key depth node search here
      obtain ⟨sameValue, reads⟩ := ih next
      unfold searchLoop
      rw [isNode]
      refine ⟨?_, ?_⟩
      · rw [sameValue, isValue, isChild]
        rfl
      · intro last isLast index
        rw [reads last isLast index, isReads, isChild, mem_append, mem_singleton]
        constructor
        · rintro ((old | isHere) | ⟨count, isIndex, present⟩)
          · exact .inl old
          · exact .inr ⟨0, isHere, Option.some_ne_none node⟩
          · refine .inr ⟨count + 1, by rw [isIndex]; congr 1; omega, ?_⟩
            rw [range'_succ, map_cons]
            exact present
        · rintro (old | ⟨count, isIndex, present⟩)
          · exact .inl (.inl old)
          · cases count with
            | zero => exact .inl (.inr isIndex)
            | succ count =>
              exact .inr ⟨count, by rw [isIndex]; congr 1; omega, present⟩

end Loop

section Depth

variable {tree after : Tree} {stored : List Bool → Option Nat} {width : Nat}

def Full (width : Nat) (trie : Shape) : Prop :=
  ∀ place, place.length = width → trie.part place ≠ .nil → values trie place ≠ none

def HoldsFull (width : Nat) (tree : Tree) (stored : List Bool → Option Nat) : Prop :=
  ∃ trie free, Sound tree trie free ∧ trie.Within width ∧ values trie = stored ∧ Full width trie

theorem holds_of_full (holds : HoldsFull width tree stored) : Holds width tree stored := by
  obtain ⟨trie, free, sound, within, isStored, -⟩ := holds
  exact ⟨trie, free, sound, within, isStored⟩

theorem create_full {memory : Nat → Node} {perPage : Nat} {answers : List Bool} {prealloc : BitVec 64}
    (made : ngxRadixTreeCreate memory perPage answers prealloc = some tree) :
    HoldsFull 128 tree fun _ => none := by
  obtain ⟨trie, free, sound, within, isStored⟩ := create_holds made
  refine ⟨trie, free, sound, fun place some_ => (within place some_).trans (by decide), isStored, ?_⟩
  intro place isLong some_
  have short := within place some_
  omega

theorem insert_full {turns : List Bool} {value : Nat} {code : ReturnCode} (isValue : value ≠ ngxRadixNoValue)
    (holds : HoldsFull width tree stored) (room : turns.length ≤ width)
    (answer : insert tree turns value = (code, after)) :
    (code = .ngxOk → HoldsFull width after (update stored turns (some value))) ∧
      (code ≠ .ngxOk → HoldsFull width after stored) := by
  obtain ⟨trie, free, sound, within, rfl, full⟩ := holds
  have counted : counts value = true := decide_eq_true isValue
  rcases insert_grows sound within room answer with
    ⟨-, isBusy, unchanged⟩ | ⟨-, ⟨isOk, new, newFree, newSound, newWithin, newValues, others⟩ |
      ⟨isError, new, newFree, newSound, newWithin, newValues, others⟩⟩
  · rw [isBusy, unchanged]
    exact ⟨nofun, fun _ => ⟨trie, free, sound, within, rfl, full⟩⟩
  · rw [if_pos counted] at newValues
    refine ⟨fun _ => ⟨new, newFree, newSound, newWithin, newValues, ?_⟩, fun failed => absurd isOk failed⟩
    intro place isLong some_
    rw [newValues]
    by_cases same : place = turns
    · rw [same, update_self]
      exact Option.some_ne_none value
    · rw [update_of_ne same]
      rcases others place some_ with old | pre
      · exact full place isLong old
      · have longer : turns.length ≤ place.length := by omega
        exact absurd (pre.eq_of_length_le longer) same
  · refine ⟨fun isOk => (by rw [isOk] at isError; cases isError),
      fun _ => ⟨new, newFree, newSound, newWithin, newValues, ?_⟩⟩
    intro place isLong some_
    rw [newValues]
    rcases others place some_ with old | shorter
    · exact full place isLong old
    · omega

theorem inserted128_full (built : Inserted128 tree stored) : HoldsFull 128 tree stored := by
  induction built with
  | create memory perPage answers prealloc tree made => exact create_full made
  | inserted tree stored key mask value built isValue done ih =>
    exact (insert_full isValue ih (turns_length 128 _ _) rfl).1 done
  | refused tree stored key mask value built isValue failed ih =>
    exact (insert_full isValue ih (turns_length 128 _ _) rfl).2 failed

theorem locate_iff (holds : HoldsFull 128 tree stored) (key : Nat → Byte) :
    (∃ depth, 128 ≤ depth ∧ locate tree (some tree.root) (keyBits key depth) ≠ none) ↔
      stored (keyBits key 128) ≠ none := by
  obtain ⟨trie, free, sound, within, rfl, full⟩ := holds
  have located : ∀ turns, locate tree (some tree.root) turns = (trie.part turns).mark? := by
    intro turns
    rw [← sound.root]
    exact locate_part sound.rep turns
  constructor
  · rintro ⟨depth, deep, present⟩
    rw [located] at present
    have some_ : trie.part (keyBits key depth) ≠ .nil := by
      intro isNil
      rw [isNil] at present
      exact present rfl
    have most := within _ some_
    have length : (keyBits key depth).length = depth := by rw [keyBits, length_map, length_range]
    have isDepth : depth = 128 := by omega
    rw [isDepth] at some_ length
    exact full _ length some_
  · intro isStored
    refine ⟨128, Nat.le_refl _, ?_⟩
    rw [located]
    intro noMark
    exact isStored (values_nil (nil_of_mark noMark))

end Depth

section Searches

variable {tree : Tree} {stored : List Bool → Option Nat}

theorem search_returns (holds : Holds 128 tree stored) (key : Nat → Byte) :
    ∃ search, searchLoop tree key 129 (startSearch tree) = some search ∧
      FindsLongest stored (keyBits key 128) (some search.value) := by
  have start : At 0 (startSearch tree) := ⟨rfl, rfl⟩
  have longest := find_longest holds (keyBit key)
  have sameValue : (searchLoop tree key 129 (startSearch tree)).map Search.value =
      findFrom tree (keyBit key) (128 + 1) 0 ngxRadixNoValue (some tree.root) :=
      (search_loop_spec 129 start).1
  rw [← sameValue] at longest
  cases isLast : searchLoop tree key 129 (startSearch tree) with
  | none =>
    rw [isLast] at longest
    rcases longest with ⟨value, isValue, -⟩ | ⟨isValue, -⟩
    · cases isValue
    · cases isValue
  | some search =>
    rw [isLast] at longest
    exact ⟨search, rfl, longest⟩

theorem reads_inside_iff (holds : HoldsFull 128 tree stored) (key : Nat → Byte) {fuel : Nat}
    (result : searchLoop tree key fuel (startSearch tree) = some search) :
    (∀ index ∈ search.reads, index < 16) ↔ stored (keyBits key 128) = none := by
  have start : At 0 (startSearch tree) := ⟨rfl, rfl⟩
  have reads := (search_loop_spec fuel start).2 search result
  constructor
  · intro inside
    by_contra isStored
    obtain ⟨depth, deep, present⟩ := (locate_iff holds key).mpr isStored
    have mem : (0 + depth) / 8 ∈ search.reads := by
      apply (reads _).mpr
      refine .inr ⟨depth, rfl, ?_⟩
      rw [← range_eq_range']
      exact present
    have small := inside _ mem
    omega
  · intro notStored index isRead
    rcases (reads index).mp isRead with atStart | ⟨depth, isIndex, present⟩
    · cases atStart
    · rw [← range_eq_range'] at present
      by_contra large
      have deep : 128 ≤ depth := by omega
      exact (locate_iff holds key).mp ⟨depth, deep, present⟩ notStored

/-- A search stays inside the key just if the key itself, with all its bits, has no value
in the tree. -/
theorem search_inside_iff (built : Inserted128 tree stored) (key : Nat → Byte) :
    StaysInside tree stored key ↔ stored (keyBits key 128) = none := by
  have holds := inserted128_full built
  constructor
  · rintro ⟨fuel, search, result, -, inside⟩
    exact (reads_inside_iff holds key result).mp inside
  · intro notStored
    obtain ⟨search, result, longest⟩ := search_returns (holds_of_full holds) key
    exact ⟨129, search, result, longest, (reads_inside_iff holds key result).mpr notStored⟩

/-- The address whose bits are all ones, and the tree with this address alone. -/
def allOnes : In6Addr := ⟨List.replicate 16 255, length_replicate⟩

theorem search_inside_iff_alone : ∃ tree stored, Inserted128 tree stored ∧
    (StaysInside tree stored (fun _ => 0) ↔ stored (keyBits (fun _ => 0) 128) = none) ∧
    stored (keyBits (fun _ => 0) 128) = none ∧ stored (turns128 allOnes allOnes) = some 7 :=
  have made : Inserted128 _ _ := .create (fun _ => ⟨none, none, none, 0⟩) 128 [true, true, true] 0 _ rfl
  have built : Inserted128 _ _ := .inserted _ _ allOnes allOnes 7 made (by decide) (by decide +kernel)
  ⟨_, _, built, search_inside_iff built _, by decide, by decide⟩

/-- The search for the stored address itself reads the byte behind it. -/
theorem reads_seventeenth_byte : ∃ tree stored, Inserted128 tree stored ∧
    ¬StaysInside tree stored (fun _ => 255) ∧
    (searchLoop tree (fun _ => 255) 129 (startSearch tree)).map (fun search => search.reads.getLast?) =
      some (some 16) := by
  have made : Inserted128 _ _ := .create (fun _ => ⟨none, none, none, 0⟩) 128 [true, true, true] 0 _ rfl
  have built : Inserted128 _ _ := .inserted _ _ allOnes allOnes 7 made (by decide) (by decide +kernel)
  refine ⟨_, _, built, ?_, by decide +kernel⟩
  rintro ⟨fuel, search, result, -, inside⟩
  have notStored := (reads_inside_iff (inserted128_full built) _ result).mp inside
  exact absurd notStored (by decide)

end Searches

end ServerCore.NginxRadixTreeKeyBytes
