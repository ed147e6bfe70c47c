import ServerCore.NginxRbtree

/-!
# The keys of the red-black tree

Nothing but the search for a place looks at the keys. So where every key is
replaced by another, each other step does the same to the tree.
-/

namespace ServerCore.NginxRbtreeKeys

open RedBlackTree NginxRbtree
open NginxRbtree.Rbtree Option Function

def mapNode (change : Nat → Nat) (node : Node) : Node := { node with key := change node.key }

def mapKeys (change : Nat → Nat) (tree : Rbtree) : Rbtree :=
  { tree with memory := fun addr => mapNode change (tree.memory addr) }

section Steps

variable {change : Nat → Nat} {tree : Rbtree} {node temp parent pointer : Pointer} {side : Side}

@[simp] theorem map_node_child (node : Node) (side : Side) :
    (mapNode change node).child side = node.child side := by
  cases side <;> rfl

@[simp] theorem map_node_left (node : Node) : (mapNode change node).left = node.left := rfl

@[simp] theorem map_node_right (node : Node) : (mapNode change node).right = node.right := rfl

@[simp] theorem map_node_parent (node : Node) : (mapNode change node).parent = node.parent := rfl

@[simp] theorem map_node_color (node : Node) : (mapNode change node).color = node.color := rfl

@[simp] theorem map_keys_root : (mapKeys change tree).root = tree.root := rfl

@[simp] theorem map_keys_sentinel : (mapKeys change tree).sentinel = tree.sentinel := rfl

@[simp] theorem load_map : (mapKeys change tree).load pointer =
    (tree.load pointer).map (mapNode change) := by
  cases pointer <;> rfl

theorem store_map {write other : Node → Node}
    (commutes : ∀ node, other (mapNode change node) = mapNode change (write node)) :
    (mapKeys change tree).store pointer other = (tree.store pointer write).map (mapKeys change) := by
  cases pointer with
  | none => rfl
  | some addr =>
    have memory : update (fun place => mapNode change (tree.memory place)) addr
        (other (mapNode change (tree.memory addr))) =
        fun place => mapNode change (update tree.memory addr (write (tree.memory addr)) place) := by
      funext place
      by_cases same : place = addr
      · subst same
        rw [update_self, update_self]
        exact commutes _
      · rw [update_of_ne same, update_of_ne same]
    exact congrArg (fun memory => some (⟨tree.root, tree.sentinel, memory⟩ : Rbtree)) memory

@[simp] theorem store_child_map {child : Pointer} :
    (mapKeys change tree).store pointer (Node.setChild side child) =
    (tree.store pointer (Node.setChild side child)).map (mapKeys change) :=
  store_map fun node => by cases side <;> rfl

@[simp] theorem store_parent_map : (mapKeys change tree).store pointer (Node.setParent parent) =
    (tree.store pointer (Node.setParent parent)).map (mapKeys change) := store_map fun _ => rfl

@[simp] theorem store_color_map {color : Color} : (mapKeys change tree).store pointer (Node.setColor color) =
    (tree.store pointer (Node.setColor color)).map (mapKeys change) := store_map fun _ => rfl

theorem store_key_map {key : Nat} :
    (mapKeys change tree).store pointer (fun node => { node with key := change key }) =
    (tree.store pointer fun node => { node with key := key }).map (mapKeys change) := store_map fun _ => rfl

@[simp] theorem adopt_map : (mapKeys change tree).adopt node parent =
    (tree.adopt node parent).map (mapKeys change) := by
  unfold adopt
  rw [map_keys_sentinel, store_parent_map]
  by_cases isNode : node ≠ some tree.sentinel
  · rw [if_pos isNode, if_pos isNode]
  · rw [if_neg isNode, if_neg isNode]
    rfl

@[simp] theorem replace_child_map : (mapKeys change tree).replaceChild side parent node temp =
    (tree.replaceChild side parent node temp).map (mapKeys change) := by
  unfold replaceChild
  rw [load_map]
  cases tree.load parent with
  | none => rfl
  | some up =>
    simp only [map_some, bind_some, map_node_child, store_child_map]
    by_cases isSide : node = up.child side
    · rw [if_pos isSide, if_pos isSide]
    · rw [if_neg isSide, if_neg isSide]

@[simp] theorem replace_map : (mapKeys change tree).replace side parent node temp =
    (tree.replace side parent node temp).map (mapKeys change) := by
  unfold replace
  rw [map_keys_root, replace_child_map]
  by_cases isRoot : node = tree.root
  · rw [if_pos isRoot, if_pos isRoot]
    rfl
  · rw [if_neg isRoot, if_neg isRoot]

@[simp] theorem rotate_map : (mapKeys change tree).rotate side node =
    (tree.rotate side node).map (mapKeys change) := by
  simp [rotate, bind_map, map_bind, comp_def]

@[simp] theorem min_map (fuel : Nat) : ngxRbtreeMin fuel (mapKeys change tree) pointer =
    ngxRbtreeMin fuel tree pointer := by
  induction fuel generalizing pointer with
  | zero => rfl
  | succ fuel ih =>
    simp only [ngxRbtreeMin, load_map, bind_eq_bind, bind_map, comp_def, map_node_left,
      map_keys_sentinel, ih]
    rfl

@[simp] theorem side_of_map (up : Node) : sideOf (mapNode change up) pointer = sideOf up pointer := rfl

@[simp] theorem insert_raise_map : insertRotate.insertRaise side (mapKeys change tree) node =
    (insertRotate.insertRaise side tree node).map (Prod.map (mapKeys change) id) := by
  simp [insertRotate.insertRaise, bind_map, map_bind, comp_def]

@[simp] theorem insert_rotate_map : insertRotate side (mapKeys change tree) node =
    (insertRotate side tree node).map (Prod.map (mapKeys change) id) := by
  simp [insertRotate, bind_map, map_bind, comp_def, apply_ite (Option.map _)]

theorem insert_fixup_map (fuel : Nat) : insertFixup fuel (mapKeys change tree) node =
    (insertFixup fuel tree node).map (mapKeys change) := by
  induction fuel generalizing tree node with
  | zero => rfl
  | succ fuel ih =>
    simp [insertFixup, bind_map, map_bind, comp_def, apply_ite (Option.map _), ih]
    rfl

@[simp] theorem brother_of_map : brotherOf side (mapKeys change tree) temp = brotherOf side tree temp := by
  simp [brotherOf, bind_map, comp_def]

variable {w subst : Pointer}

@[simp] theorem delete_red_brother_map : deleteRedBrother side (mapKeys change tree) temp w =
    (deleteRedBrother side tree temp w).map (Prod.map (mapKeys change) id) := by
  simp [deleteRedBrother, bind_map, map_bind, comp_def, apply_ite (Option.map _)]
  rfl

@[simp] theorem delete_inner_red_map : deleteInnerRed side (mapKeys change tree) temp w =
    (deleteInnerRed side tree temp w).map (Prod.map (mapKeys change) id) := by
  simp [deleteInnerRed, bind_map, map_bind, comp_def, apply_ite (Option.map _)]

@[simp] theorem delete_outer_red_map : deleteOuterRed side (mapKeys change tree) temp w =
    (deleteOuterRed side tree temp w).map (mapKeys change) := by
  simp [deleteOuterRed, bind_map, map_bind, comp_def]

@[simp] theorem delete_black_brother_map : deleteBlackBrother side (mapKeys change tree) temp w =
    (deleteBlackBrother side tree temp w).map (Prod.map (mapKeys change) id) := by
  simp [deleteBlackBrother, bind_map, map_bind, comp_def, apply_ite (Option.map _)]
  rfl

@[simp] theorem delete_turn_map : deleteTurn (mapKeys change tree) temp =
    (deleteTurn tree temp).map (Prod.map (mapKeys change) id) := by
  simp [deleteTurn, bind_map, map_bind, comp_def]

theorem delete_fixup_map (fuel : Nat) : deleteFixup fuel (mapKeys change tree) temp =
    (deleteFixup fuel tree temp).map (mapKeys change) := by
  induction fuel generalizing tree temp with
  | zero => rfl
  | succ fuel ih =>
    simp [deleteFixup, bind_map, map_bind, comp_def, apply_ite (Option.map _), ih]
    rfl

@[simp] theorem substitute_map (fuel : Nat) : substitute fuel (mapKeys change tree) node =
    substitute fuel tree node := by
  simp only [substitute, load_map, bind_eq_bind, bind_map, comp_def, map_node_left,
    map_node_right, min_map, map_keys_sentinel]
  rfl

@[simp] theorem take_place_map : takePlace (mapKeys change tree) node subst =
    (takePlace tree node subst).map (mapKeys change) := by
  have moves : ∀ old : Node, (mapKeys change tree).store subst (fun moved =>
      { moved with left := old.left, right := old.right, parent := old.parent, color := old.color }) =
      (tree.store subst fun moved =>
        { moved with left := old.left, right := old.right, parent := old.parent, color := old.color }).map
          (mapKeys change) := fun old => store_map fun _ => rfl
  simp [takePlace, bind_map, map_bind, comp_def, moves]

@[simp] theorem unlink_map : unlink (mapKeys change tree) node subst temp =
    (unlink tree node subst temp).map (mapKeys change) := by
  simp [unlink, bind_map, map_bind, comp_def, apply_ite (Option.map _)]
  rfl

theorem delete_map (zero : change 0 = 0) (fuel : Nat) : ngxRbtreeDelete fuel (mapKeys change tree) node =
    (ngxRbtreeDelete fuel tree node).map (mapKeys change) := by
  have clears : ∀ other : Rbtree, (mapKeys change other).store node Node.clear =
      (other.store node Node.clear).map (mapKeys change) := fun other => store_map fun _ => by
    simp [Node.clear, mapNode, zero]
  have rooted : ∀ temp, (⟨temp, tree.sentinel, (mapKeys change tree).memory⟩ : Rbtree) =
      mapKeys change { tree with root := temp } := fun _ => rfl
  simp [ngxRbtreeDelete, bind_map, map_bind, comp_def, apply_ite (Option.map _), clears,
    delete_fixup_map, rooted]
  rfl

end Steps

end ServerCore.NginxRbtreeKeys
