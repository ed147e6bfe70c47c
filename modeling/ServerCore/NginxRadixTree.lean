import ServerCore.NginxInet

/-!
# The radix tree of nginx

`ngx_radix_tree.c`. The nodes are in memory at addresses, and a free node is linked
through its `right`. Addresses that have not been in use yet are numbered in the order in
which the pages give them out, and hold anything. The functions for 32 and for 128 bits
differ only in how a bit of the key and of the mask is read, so their loops are those
over the turns that the mask selects.
-/

namespace ServerCore.NginxRadixTree

open NginxHttpParse (Byte Bytes)
open NginxInet (In6Addr)

inductive ReturnCode where
  | ngxOk
  | ngxBusy
  | ngxError
  deriving DecidableEq

def ngxRadixNoValue : Nat := 2 ^ 64 - 1

structure Node where
  right : Option Nat
  left : Option Nat
  parent : Option Nat
  value : Nat

/-- `ngx_radix_tree_t` with the memory. `size` is the number of nodes left in the page,
and `answers` is how the allocations to come will end. -/
structure Tree where
  nodes : Nat → Node
  root : Nat
  free : Option Nat
  start : Nat
  size : Nat
  perPage : Nat
  answers : List Bool

def Tree.write (tree : Tree) (addr : Nat) (node : Node) : Tree :=
  { tree with nodes := Function.update tree.nodes addr node }

/-- `node->right` or `node->left`. -/
def Node.child (node : Node) (turn : Bool) : Option Nat := if turn then node.right else node.left

def Node.setChild (node : Node) (turn : Bool) (child : Option Nat) : Node :=
  if turn then { node with right := child } else { node with left := child }

def takeNode (tree : Tree) : Option Nat × Tree :=
  (some tree.start, { tree with start := tree.start + 1, size := tree.size - 1 })

def ngxRadixAlloc (tree : Tree) : Option Nat × Tree :=
  match tree.free with
  | some p => (some p, { tree with free := (tree.nodes p).right })
  | none =>
    if tree.size = 0 then
      match tree.answers with
      | true :: answers => takeNode { tree with size := tree.perPage, answers := answers }
      | answers => (none, { tree with answers := answers.tail })
    else takeNode tree

def attach (tree : Tree) (next node : Nat) (turn : Bool) : Tree :=
  let tree := tree.write next ⟨none, none, some node, ngxRadixNoValue⟩
  tree.write node ((tree.nodes node).setChild turn (some next))

/-- The second loop of an insertion: nodes without a value down to the place. -/
def extend (value : Nat) : Tree → Nat → List Bool → ReturnCode × Tree
  | tree, node, [] => (.ngxOk, tree.write node { tree.nodes node with value := value })
  | tree, node, turn :: turns =>
    match ngxRadixAlloc tree with
    | (none, tree) => (.ngxError, tree)
    | (some next, tree) => extend value (attach tree next node turn) next turns

/-- The first loop, which goes on as long as there are nodes, and what follows it. -/
def insertFrom (value : Nat) (tree : Tree) (node : Nat) : List Bool → ReturnCode × Tree
  | [] =>
    if (tree.nodes node).value ≠ ngxRadixNoValue then (.ngxBusy, tree)
    else (.ngxOk, tree.write node { tree.nodes node with value := value })
  | turn :: turns =>
    match (tree.nodes node).child turn with
    | some next => insertFrom value tree next turns
    | none => extend value tree node (turn :: turns)

def insert (tree : Tree) (turns : List Bool) (value : Nat) : ReturnCode × Tree :=
  insertFrom value tree tree.root turns

def locate (tree : Tree) : Option Nat → List Bool → Option Nat
  | none, _ => none
  | some node, [] => some node
  | some node, turn :: turns => locate tree ((tree.nodes node).child turn) turns

/-- A run of the function that does not return: it reads through a null pointer, or the
steps allowed are too few. -/
inductive Stuck where
  | nullPointer
  | outOfFuel

/-- A node is unlinked from its parent and becomes a free one. -/
def detach (tree : Tree) (node parent : Nat) : Tree :=
  let turn : Bool := (tree.nodes parent).right = some node
  let tree := tree.write parent ((tree.nodes parent).setChild turn none)
  let tree := tree.write node { tree.nodes node with right := tree.free }
  { tree with free := some node }

/-- The loop that unlinks a node, and the ancestors that are of no use without it. -/
def unlink : Nat → Tree → Nat → Except Stuck (ReturnCode × Tree)
  | 0, _, _ => .error .outOfFuel
  | fuel + 1, tree, node =>
    match (tree.nodes node).parent with
    | none => .error .nullPointer
    | some parent =>
      let tree := detach tree node parent
      if (tree.nodes parent).right ≠ none ∨ (tree.nodes parent).left ≠ none then .ok (.ngxOk, tree)
      else if (tree.nodes parent).value ≠ ngxRadixNoValue then .ok (.ngxOk, tree)
      else if (tree.nodes parent).parent = none then .ok (.ngxOk, tree)
      else unlink fuel tree parent

/-- A node is not deeper than there are turns, so their number bounds the loop. -/
def delete (tree : Tree) (turns : List Bool) : Except Stuck (ReturnCode × Tree) :=
  match locate tree (some tree.root) turns with
  | none => .ok (.ngxError, tree)
  | some node =>
    if (tree.nodes node).right ≠ none ∨ (tree.nodes node).left ≠ none then
      if (tree.nodes node).value ≠ ngxRadixNoValue then
        .ok (.ngxOk, tree.write node { tree.nodes node with value := ngxRadixNoValue })
      else .ok (.ngxError, tree)
    else unlink (turns.length + 1) tree node

/-- The loop of a search: `turn i` is the bit of the key at the depth `i`. -/
def findFrom (tree : Tree) (turn : Nat → Bool) : Nat → Nat → Nat → Option Nat → Option Nat
  | _, _, value, none => some value
  | 0, _, _, some _ => none
  | fuel + 1, i, value, some node =>
    let value := if (tree.nodes node).value ≠ ngxRadixNoValue then (tree.nodes node).value else value
    findFrom tree turn fuel (i + 1) value ((tree.nodes node).child (turn i))

def turnsOf (width : Nat) (keyBit maskBit : Nat → Bool) : List Bool :=
  ((List.range width).takeWhile maskBit).map keyBit

/-- `key & bit` with the bit at this distance from the highest one. -/
def bit32 (key : BitVec 32) (i : Nat) : Bool := key.getMsbD i

def turns32 (key mask : BitVec 32) : List Bool := turnsOf 32 (bit32 key) (bit32 mask)

def ngxRadix32treeInsert (tree : Tree) (key mask : BitVec 32) (value : Nat) : ReturnCode × Tree :=
  insert tree (turns32 key mask) value

def ngxRadix32treeDelete (tree : Tree) (key mask : BitVec 32) : Except Stuck (ReturnCode × Tree) :=
  delete tree (turns32 key mask)

def ngxRadix32treeFind (tree : Tree) (key : BitVec 32) : Option Nat :=
  findFrom tree (bit32 key) 33 0 ngxRadixNoValue (some tree.root)

/-- `key[i] & bit` at this distance from the highest bit of the first byte. -/
def bit128 (key : Bytes) (i : Nat) : Bool := ((key.getD (i / 8) 0).toBitVec).getMsbD (i % 8)

def turns128 (key mask : In6Addr) : List Bool := turnsOf 128 (bit128 key.val) (bit128 mask.val)

def ngxRadix128treeInsert (tree : Tree) (key mask : In6Addr) (value : Nat) : ReturnCode × Tree :=
  insert tree (turns128 key mask) value

def ngxRadix128treeDelete (tree : Tree) (key mask : In6Addr) : Except Stuck (ReturnCode × Tree) :=
  delete tree (turns128 key mask)

/-- At a node of depth 128 the byte behind the key is read. -/
def ngxRadix128treeFind (tree : Tree) (key : In6Addr) (behind : Byte) : Option Nat :=
  findFrom tree (bit128 (key.val ++ [behind])) 129 0 ngxRadixNoValue (some tree.root)

/-- The keys of a level, one `inc` after the other until `key` is zero again. -/
def fillLevel (mask inc : BitVec 32) : Nat → Tree → BitVec 32 → Option Tree
  | 0, tree, _ => some tree
  | rounds + 1, tree, key =>
    match ngxRadix32treeInsert tree key mask ngxRadixNoValue with
    | (.ngxOk, tree) => fillLevel mask inc rounds tree (key + inc)
    | _ => none

/-- How often `inc` is added until it is. -/
def rounds (inc : BitVec 32) : Nat := if inc = 0 then 1 else 2 ^ 32 / inc.toNat

/-- `while (preallocate--)` -/
def fillLevels : Nat → Tree → BitVec 32 → BitVec 32 → Option Tree
  | 0, tree, _, _ => some tree
  | levels + 1, tree, mask, inc =>
    let mask := (mask >>> 1) ||| 0x80000000#32
    match fillLevel mask inc (rounds inc) tree 0 with
    | some tree => fillLevels levels tree mask (inc >>> 1)
    | none => none

/-- The levels for -1 depend on the number of nodes in a page. A negative number is counted
down past the lowest one. -/
def levelsOf (perPage : Nat) (prealloc : BitVec 64) : Nat :=
  if prealloc = -1 then if perPage = 128 then 6 else if perPage = 256 then 7 else 8
  else prealloc.toNat

/-- `memory` is what the nodes hold before they are in use. -/
def ngxRadixTreeCreate (memory : Nat → Node) (perPage : Nat) (answers : List Bool)
    (prealloc : BitVec 64) : Option Tree :=
  match answers with
  | true :: answers =>
    match ngxRadixAlloc ⟨memory, 0, none, 0, 0, perPage, answers⟩ with
    | (some root, tree) =>
      let tree := { tree with root := root }.write root ⟨none, none, none, ngxRadixNoValue⟩
      fillLevels (levelsOf perPage prealloc) tree 0 0x80000000#32
    | (none, _) => none
  | _ => none

end ServerCore.NginxRadixTree
