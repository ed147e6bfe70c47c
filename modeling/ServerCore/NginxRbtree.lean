import ServerCore.RedBlackTree

/-!
# The red-black tree of nginx

`ngx_rbtree_insert` and `ngx_rbtree_delete` on a memory of nodes. A pointer is
an address or NULL, and a dereferenced NULL, like a loop that exhausts its fuel,
is `none`. The left and the right variant of a rotation or of a rebalancing
branch are mirror images in the source, so each is written once for a side;
the left variant is the one for `Side.left`.
-/

namespace ServerCore.NginxRbtree

open RedBlackTree Function

abbrev Address := Nat

/-- `none` is NULL. -/
abbrev Pointer := Option Address

/-- `ngx_rbtree_node_t`; `data` is not used by the tree. -/
structure Node where
  key : Nat
  left : Pointer
  right : Pointer
  parent : Pointer
  color : Color

namespace Node

def child (node : Node) : Side → Pointer
  | .left => node.left
  | .right => node.right

def setChild (side : Side) (child : Pointer) (node : Node) : Node :=
  match side with
  | .left => { node with left := child }
  | .right => { node with right := child }

def setParent (parent : Pointer) (node : Node) : Node := { node with parent := parent }

/-- `ngx_rbt_red` and `ngx_rbt_black`. -/
def setColor (color : Color) (node : Node) : Node := { node with color := color }

/-- The fields that `ngx_rbtree_delete` clears in the deleted node. -/
def clear (node : Node) : Node := { node with left := none, right := none, parent := none, key := 0 }

end Node

/-- `ngx_rbtree_t` together with the memory of the nodes. -/
structure Rbtree where
  root : Pointer
  sentinel : Address
  memory : Address → Node

namespace Rbtree

def load (tree : Rbtree) (pointer : Pointer) : Option Node := pointer.map tree.memory

def store (tree : Rbtree) (pointer : Pointer) (change : Node → Node) : Option Rbtree :=
  pointer.map fun addr =>
    { tree with memory := update tree.memory addr (change (tree.memory addr)) }

/-- `child->parent = parent` unless the child is the sentinel. -/
def adopt (tree : Rbtree) (child parent : Pointer) : Option Rbtree :=
  if child ≠ some tree.sentinel then tree.store child (Node.setParent parent) else some tree

/-- Makes `temp` take the place of `node` below `parent`, looking for `node` on
the given side first. -/
def replaceChild (side : Side) (tree : Rbtree) (parent node temp : Pointer) : Option Rbtree :=
  (tree.load parent).bind fun up =>
    if node = up.child side then tree.store parent (Node.setChild side temp)
    else tree.store parent (Node.setChild side.flip temp)

/-- Makes `temp` take the place of `node` as the root or below `parent`. -/
def replace (side : Side) (tree : Rbtree) (parent node temp : Pointer) : Option Rbtree :=
  if node = tree.root then some { tree with root := temp }
  else tree.replaceChild side parent node temp

def rotate (side : Side) (tree : Rbtree) (node : Pointer) : Option Rbtree := do
  let temp := (← tree.load node).child side.flip
  let inner := (← tree.load temp).child side
  let tree ← tree.store node (Node.setChild side.flip inner)
  let tree ← tree.adopt inner node
  let parent := (← tree.load node).parent
  let tree ← tree.store temp (Node.setParent parent)
  let tree ← tree.replace side parent node temp
  let tree ← tree.store temp (Node.setChild side node)
  tree.store node (Node.setParent temp)

def ngxRbtreeLeftRotate (tree : Rbtree) (node : Pointer) : Option Rbtree := tree.rotate .left node

def ngxRbtreeRightRotate (tree : Rbtree) (node : Pointer) : Option Rbtree := tree.rotate .right node

def ngxRbtreeMin : Nat → Rbtree → Pointer → Option Pointer
  | 0, _, _ => none
  | fuel + 1, tree, node => do
    let left := (← tree.load node).left
    if left ≠ some tree.sentinel then ngxRbtreeMin fuel tree left else some node

def ngxRbtreeInsertValue : Nat → Rbtree → Pointer → Pointer → Option Rbtree
  | 0, _, _, _ => none
  | fuel + 1, tree, temp, node => do
    let new ← tree.load node
    let old ← tree.load temp
    let side := if new.key < old.key then Side.left else Side.right
    if old.child side = some tree.sentinel then
      let tree ← tree.store temp (Node.setChild side node)
      tree.store node fun new =>
        { new with
          parent := temp
          left := some tree.sentinel
          right := some tree.sentinel
          color := .red }
    else ngxRbtreeInsertValue fuel tree (old.child side) node

/-- The side on which the pointer `child` is, as the source tests it. -/
def sideOf (up : Node) (child : Pointer) : Side := if child = up.left then .left else .right

/-- The branch of the insertion loop for a black uncle: an inner grandchild is
first rotated outwards. The result is the tree and the new `node`. -/
def insertRotate (side : Side) (tree : Rbtree) (node : Pointer) : Option (Rbtree × Pointer) := do
  let parent := (← tree.load node).parent
  if node = (← tree.load parent).child side.flip then
    let tree ← tree.rotate side parent
    insertRaise tree parent
  else insertRaise tree node
where
  insertRaise (tree : Rbtree) (node : Pointer) : Option (Rbtree × Pointer) := do
    let parent := (← tree.load node).parent
    let tree ← tree.store parent (Node.setColor .black)
    let grand := (← tree.load parent).parent
    let tree ← tree.store grand (Node.setColor .red)
    let tree ← tree.rotate side.flip grand
    some (tree, node)

/-- The loop that rebalances the tree after an insertion, and the last line of
`ngx_rbtree_insert` behind it. -/
def insertFixup : Nat → Rbtree → Pointer → Option Rbtree
  | 0, _, _ => none
  | fuel + 1, tree, node =>
    if node = tree.root then tree.store tree.root (Node.setColor .black)
    else do
      let parent := (← tree.load node).parent
      let up ← tree.load parent
      if up.color = .black then tree.store tree.root (Node.setColor .black)
      else
        let grand := up.parent
        let above ← tree.load grand
        let side := sideOf above parent
        let temp := above.child side.flip
        let uncle ← tree.load temp
        if uncle.color = .red then
          let tree ← tree.store parent (Node.setColor .black)
          let tree ← tree.store temp (Node.setColor .black)
          let tree ← tree.store grand (Node.setColor .red)
          insertFixup fuel tree grand
        else
          let (tree, node) ← tree.insertRotate side node
          insertFixup fuel tree node

def ngxRbtreeInsert (fuel : Nat) (tree : Rbtree) (node : Pointer) : Option Rbtree := do
  if tree.root = some tree.sentinel then
    let tree ← tree.store node fun new =>
      { new with
        parent := none
        left := some tree.sentinel
        right := some tree.sentinel
        color := .black }
    some { tree with root := node }
  else
    let tree ← ngxRbtreeInsertValue fuel tree tree.root node
    insertFixup fuel tree node

section

variable (side : Side) (tree : Rbtree)

/-- The other child of the parent of `temp`. -/
def brotherOf (temp : Pointer) : Option Pointer := do
  let up ← tree.load (← tree.load temp).parent
  some (up.child side.flip)

/-- A red brother `w` is rotated above the parent; the result is the tree and
the new `w`. -/
def deleteRedBrother (temp w : Pointer) :
    Option (Rbtree × Pointer) := do
  let brother ← tree.load w
  if brother.color = .red then
    let parent := (← tree.load temp).parent
    let tree ← tree.store w (Node.setColor .black)
    let tree ← tree.store parent (Node.setColor .red)
    let tree ← tree.rotate side parent
    let w ← tree.brotherOf side temp
    some (tree, w)
  else some (tree, w)

/-- A black brother with a black outer child is rotated so that the outer
child is red; the result is the tree and the new `w`. -/
def deleteInnerRed (temp w : Pointer) :
    Option (Rbtree × Pointer) := do
  let brother ← tree.load w
  let outer ← tree.load (brother.child side.flip)
  if outer.color = .black then
    let tree ← tree.store (brother.child side) (Node.setColor .black)
    let tree ← tree.store w (Node.setColor .red)
    let tree ← tree.rotate side.flip w
    let w ← tree.brotherOf side temp
    some (tree, w)
  else some (tree, w)

/-- The last rotation, which fills the missing black node. -/
def deleteOuterRed (temp w : Pointer) : Option Rbtree := do
  let parent := (← tree.load temp).parent
  let tree ← tree.store w (Node.setColor (← tree.load parent).color)
  let tree ← tree.store parent (Node.setColor .black)
  let outer := (← tree.load w).child side.flip
  let tree ← tree.store outer (Node.setColor .black)
  tree.rotate side parent

/-- The part of the loop's body behind the branch for a red brother. The result
is the tree and the new `temp`. -/
def deleteBlackBrother (temp w : Pointer) :
    Option (Rbtree × Pointer) := do
  let brother ← tree.load w
  let left ← tree.load brother.left
  let right ← tree.load brother.right
  if left.color = .black ∧ right.color = .black then
    let tree ← tree.store w (Node.setColor .red)
    let here ← tree.load temp
    some (tree, here.parent)
  else
    let (tree, w) ← tree.deleteInnerRed side temp w
    let tree ← tree.deleteOuterRed side temp w
    some (tree, tree.root)

end

/-- The body of the loop that rebalances the tree after a deletion. -/
def deleteTurn (tree : Rbtree) (temp : Pointer) : Option (Rbtree × Pointer) := do
  let here ← tree.load temp
  let up ← tree.load here.parent
  let side := sideOf up temp
  let (tree, w) ← tree.deleteRedBrother side temp (up.child side.flip)
  tree.deleteBlackBrother side temp w

/-- The loop, and the last line of `ngx_rbtree_delete` behind it. -/
def deleteFixup : Nat → Rbtree → Pointer → Option Rbtree
  | 0, _, _ => none
  | fuel + 1, tree, temp => do
    let here ← tree.load temp
    if temp = tree.root ∨ here.color = .red then tree.store temp (Node.setColor .black)
    else
      let (tree, temp) ← tree.deleteTurn temp
      deleteFixup fuel tree temp

/-- The node that leaves its place and the child that follows it there. -/
def substitute (fuel : Nat) (tree : Rbtree) (node : Pointer) : Option (Pointer × Pointer) := do
  let old ← tree.load node
  if old.left = some tree.sentinel then some (node, old.right)
  else if old.right = some tree.sentinel then some (node, old.left)
  else
    let subst ← ngxRbtreeMin fuel tree old.right
    let found ← tree.load subst
    if found.left ≠ some tree.sentinel then some (subst, found.left) else some (subst, found.right)

/-- Puts `subst` in the place of `node`. -/
def takePlace (tree : Rbtree) (node subst : Pointer) : Option Rbtree := do
  let old ← tree.load node
  let tree ← tree.store subst fun moved =>
    { moved with left := old.left, right := old.right, parent := old.parent, color := old.color }
  let tree ← tree.replace .left old.parent node subst
  let moved ← tree.load subst
  let tree ← tree.adopt moved.left subst
  let moved ← tree.load subst
  tree.adopt moved.right subst

/-- Takes `subst` out of its place, where `temp` follows it. -/
def unlink (tree : Rbtree) (node subst temp : Pointer) : Option Rbtree := do
  let leaving ← tree.load subst
  let tree ← tree.replaceChild .left leaving.parent subst temp
  if subst = node then tree.store temp (Node.setParent leaving.parent)
  else
    let parent := if leaving.parent = node then subst else leaving.parent
    let tree ← tree.store temp (Node.setParent parent)
    tree.takePlace node subst

def ngxRbtreeDelete (fuel : Nat) (tree : Rbtree) (node : Pointer) : Option Rbtree := do
  let (subst, temp) ← substitute fuel tree node
  if subst = tree.root then
    let tree := { tree with root := temp }
    let tree ← tree.store temp (Node.setColor .black)
    tree.store node Node.clear
  else
    let leaving ← tree.load subst
    let tree ← tree.unlink node subst temp
    let tree ← tree.store node Node.clear
    if leaving.color = .red then some tree else deleteFixup fuel tree temp

/-- `ngx_rbtree_init`: an empty tree over nodes that may hold anything. -/
def ngxRbtreeInit (sentinel : Address) (memory : Address → Node) : Rbtree where
  root := some sentinel
  sentinel := sentinel
  memory := update memory sentinel ((memory sentinel).setColor .black)

end Rbtree

end ServerCore.NginxRbtree
