import ServerCore.NginxEventTimer
import Mathlib.Data.UInt

/-!
# String trees

`ngx_str_rbtree_insert_value` and `ngx_str_rbtree_lookup` on the tree of `NginxRbtree`, and
`ngx_rbtree_next`. The strings are kept beside the memory of the nodes, as no function of the
tree writes them. NULL as a result is `some none`.
-/

namespace ServerCore.NginxStrRbtree

open RedBlackTree
open NginxRbtree NginxRbtree.Rbtree
open NginxEventTimer (ngxRbtreeInsertBy)

abbrev Byte := UInt8

abbrev Bytes := List Byte

/-- `ngx_memcmp` of two strings of one length. -/
def ngxMemcmp : Bytes → Bytes → Int
  | a :: as, b :: bs => if a = b then ngxMemcmp as bs else (a.toNat : Int) - b.toNat
  | _, _ => 0

/-- The test that chooses `&temp->left`. -/
def goesLeft (key : Nat) (str : Bytes) (tempKey : Nat) (temp : Bytes) : Bool :=
  if key ≠ tempKey then decide (key < tempKey)
  else if str.length ≠ temp.length then decide (str.length < temp.length)
  else decide (ngxMemcmp str temp < 0)

def ngxStrRbtreeInsertValue (str : Address → Bytes) : Nat → Rbtree → Pointer → Pointer → Option Rbtree
  | 0, _, _, _ => none
  | fuel + 1, tree, temp, node => do
    let n ← node
    let t ← temp
    let side := if goesLeft (tree.memory n).key (str n) (tree.memory t).key (str t) then
      Side.left else Side.right
    let p := (tree.memory t).child side
    if p = some tree.sentinel then
      let tree ← tree.store temp (Node.setChild side node)
      tree.store node fun new =>
        { new with
          parent := temp
          left := some tree.sentinel
          right := some tree.sentinel
          color := .red }
    else ngxStrRbtreeInsertValue str fuel tree p node

/-- The tree with the member `str` of its nodes. -/
structure StrTree where
  tree : Rbtree
  str : Address → Bytes

def lookupLoop (tree : StrTree) (val : Bytes) (hash : Nat) : Nat → Pointer → Option Pointer
  | 0, _ => none
  | fuel + 1, node =>
    if node = some tree.tree.sentinel then some none
    else do
      let n ← node
      let here := tree.tree.memory n
      if hash ≠ here.key then
        lookupLoop tree val hash fuel (if hash < here.key then here.left else here.right)
      else if val.length ≠ (tree.str n).length then
        lookupLoop tree val hash fuel (if val.length < (tree.str n).length then here.left else here.right)
      else
        let rc := ngxMemcmp val (tree.str n)
        if rc < 0 then lookupLoop tree val hash fuel here.left
        else if 0 < rc then lookupLoop tree val hash fuel here.right
        else some (some n)

def ngxStrRbtreeLookup (fuel : Nat) (tree : StrTree) (val : Bytes) (hash : Nat) : Option Pointer :=
  lookupLoop tree val hash fuel tree.tree.root

/-- The loop of `ngx_rbtree_next`. -/
def climb : Nat → Rbtree → Pointer → Option Pointer
  | 0, _, _ => none
  | fuel + 1, tree, node => do
    let parent := (← tree.load node).parent
    if node = tree.root then some none
    else
      let up ← tree.load parent
      if node = up.left then some parent else climb fuel tree parent

def ngxRbtreeNext (fuel : Nat) (tree : Rbtree) (node : Pointer) : Option Pointer := do
  let right := (← tree.load node).right
  if right ≠ some tree.sentinel then ngxRbtreeMin fuel tree right else climb fuel tree node

/-- The nodes that are met from a node on until `ngx_rbtree_next` gives NULL. -/
def visit (fuel : Nat) (tree : Rbtree) : Nat → Pointer → Option (List Address)
  | _, none => some []
  | 0, some _ => none
  | turns + 1, some node => do
    let next ← ngxRbtreeNext fuel tree (some node)
    let rest ← visit fuel tree turns next
    some (node :: rest)

structure StrNode where
  address : Address
  key : Nat
  str : Bytes

inductive Call where
  | insert (node : StrNode)
  | delete (addr : Address)

def perform (fuel : Nat) (tree : StrTree) : Call → Option StrTree
  | .insert node => do
    let keyed ← tree.tree.store (some node.address) fun new => { new with key := node.key }
    let str := Function.update tree.str node.address node.str
    let after ← ngxRbtreeInsertBy (ngxStrRbtreeInsertValue str fuel) fuel keyed (some node.address)
    some ⟨after, str⟩
  | .delete addr => do
    let after ← tree.tree.ngxRbtreeDelete fuel (some addr)
    some { tree with tree := after }

end ServerCore.NginxStrRbtree
