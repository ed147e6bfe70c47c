import ServerCore.NginxStrRbtree
import ServerCore.NginxRbtreeUnlink

/-!
# The walk over a tree

A node with a right child is followed by the least node below that child, and
another one by the first node above it that has it on its left.
-/

namespace ServerCore.NginxStrRbtreeWalk

open RedBlackTree RedBlackTree.Tree
open NginxRbtree NginxRbtree.Rbtree
open NginxRbtreeShape NginxRbtreeUnlink NginxStrRbtree List Option

variable {fuel : Nat} {back : List Item}

/-- The nodes below a pointer, those on the left of a node in front of it. -/
inductive Inorder (tree : Rbtree) : Pointer → List Address → Prop
  | empty : Inorder tree (some tree.sentinel) []
  | node {addr : Address} {front back : List Address} (filled : addr ≠ tree.sentinel)
      (left : Inorder tree (tree.memory addr).left front)
      (right : Inorder tree (tree.memory addr).right back) :
      Inorder tree (some addr) (front ++ addr :: back)

section Walk

variable {tree : Rbtree}

variable {shape : Shape}

theorem inorder_linked {parent : Pointer} (linked : Linked tree.sentinel tree.memory parent shape)
    (foreign : tree.sentinel ∉ addresses shape) :
    Inorder tree (pointerOf tree.sentinel shape) (shape.inorder.map Item.address) := by
  induction shape generalizing parent with
  | nil => exact .empty
  | node color left item right leftIh rightIh =>
    obtain ⟨here, leftLinked, rightLinked⟩ := linked
    have split : addresses (.node color left item right) =
        item.address ::ₘ (addresses left + addresses right) :=
      addresses_join .left color left right item
    rw [split, Multiset.mem_cons, Multiset.mem_add, not_or, not_or] at foreign
    obtain ⟨differ, notLeft, notRight⟩ := foreign
    rw [inorder, map_append, map_cons]
    refine .node (Ne.symm differ) ?_ ?_
    · rw [here]
      exact leftIh leftLinked notLeft
    · rw [here]
      exact rightIh rightLinked notRight

/-- The loop ends at the first node of those behind the context. -/
theorem climb_spec (fuel : Nat) {ctx : Context Item} (enough : ctx.length < fuel)
    (filled : shape ≠ .nil) (rep : Represents tree (plug ctx shape)) :
    climb fuel tree (pointerOf tree.sentinel shape) = some ((after ctx).head?.map Item.address) := by
  induction ctx generalizing fuel shape with
  | nil =>
    obtain ⟨fuel, rfl⟩ := Nat.exists_eq_add_of_lt enough
    obtain ⟨color, near, item, far, rfl⟩ := exists_join .left filled
    obtain ⟨top, here⟩ := load_node [] rep
    have isRoot : tree.root = some item.address := rep.root
    rw [pointer_of_join, climb, here, isRoot]
    exact if_pos rfl
  | cons frame ctx ih =>
    obtain ⟨fuel, rfl⟩ : ∃ rest, fuel = rest + 1 := ⟨fuel - 1, by omega⟩
    rw [length_cons] at enough
    have notRoot := hole_ne_root ctx rep
    have outer : Represents tree (plug ctx (join frame.side frame.color shape frame.value frame.sibling)) :=
      rep
    obtain ⟨above, upper⟩ := load_node ctx outer
    have differ := children_differ ctx outer (.inl filled)
    obtain ⟨color, near, item, far, rfl⟩ := exists_join .left filled
    obtain ⟨top, here⟩ := load_node (frame :: ctx) rep
    rw [pointer_of_join] at notRoot differ ⊢
    rw [climb, here, bind_eq_bind, bind_some, cell_parent, if_neg notRoot, parentOf, upper,
      bind_some, pointer_of_join]
    obtain ⟨side, shade, value, sibling⟩ := frame
    cases side with
    | left => exact if_pos rfl
    | right =>
      have next := ih fuel (by omega) (join_ne_nil .right shade _ sibling value) outer
      rw [pointer_of_join] at next
      exact (if_neg differ).trans next

theorem next_spec {front : List Item} {item : Item}
    (enough : shape.inorder.length < fuel) (rep : Represents tree shape)
    (split : shape.inorder = front ++ item :: back) :
    ngxRbtreeNext fuel tree (some item.address) = some (back.head?.map Item.address) := by
  have distinct : shape.inorder.Nodup := List.Nodup.of_map Item.address rep.distinct
  obtain ⟨ctx, color, left, right, rfl⟩ := exists_plug (show item ∈ shape.inorder by simp [split])
  have focus : Represents tree (plug ctx (join .left color left item right)) := rep
  have behind : Represents tree (plug (⟨.right, color, item, left⟩ :: ctx) right) := rep
  have depth := context_length_le ctx (join .left color left item right)
  have deep : ctx.length < fuel := depth.trans_lt enough
  rw [inorder_plug] at split distinct enough
  have order : before ctx ++ (node color left item right).inorder ++ after ctx =
      (before ctx ++ left.inorder) ++ item :: (right.inorder ++ after ctx) := by
    simp [inorder]
  rw [order] at split distinct enough
  have short : right.inorder.length ≤ fuel := by
    simp only [length_append, length_cons] at enough
    omega
  obtain ⟨-, notBehind, apart⟩ := nodup_append.mp distinct
  have notBefore : item ∉ before ctx ++ left.inorder := fun mem =>
    apart item mem item (mem_cons_self ..) rfl
  obtain ⟨-, -, rfl⟩ := (append_cons_inj_of_notMem notBefore (nodup_cons.mp notBehind).1).mp split
  obtain ⟨top, here⟩ := load_node ctx focus
  have isEmpty := pointer_eq_sentinel _ behind
  rw [ngxRbtreeNext, here, bind_eq_bind, bind_some]
  change (if pointerOf tree.sentinel right ≠ some tree.sentinel then
    ngxRbtreeMin fuel tree (pointerOf tree.sentinel right) else climb fuel tree (some item.address)) = _
  by_cases noRight : right = .nil
  · subst noRight
    rw [if_neg (by simp)]
    have climbs := climb_spec fuel deep (join_ne_nil .left color left .nil item) focus
    rwa [pointer_of_join] at climbs
  · rw [if_pos (mt isEmpty.mp noRight)]
    obtain ⟨path, shade, other, rest, rfl, straight, least⟩ := min_spec fuel _ short noRight behind
    rw [least, inorder_plug, straight]
    rfl

/-- From any place of the sequence the walk meets the rest of it. -/
theorem visit_spec (enough : shape.inorder.length < fuel) (rep : Represents tree shape) :
    ∀ front turns, shape.inorder = front ++ back → back.length ≤ turns →
      visit fuel tree turns (back.head?.map Item.address) = some (back.map Item.address) := by
  induction back with
  | nil =>
    intro front turns split short
    cases turns <;> rfl
  | cons item back ih =>
    intro front turns split short
    obtain ⟨turns, rfl⟩ : ∃ rest, turns = rest + 1 := ⟨turns - 1, by rw [length_cons] at short; omega⟩
    have rest := ih (front ++ [item]) turns (by simp [split]) (Nat.le_of_succ_le_succ short)
    rw [head?_cons, map_some, visit, next_spec enough rep split, bind_eq_bind, bind_some, rest]
    rfl

theorem walk_spec (fuel : Nat) (enough : shape.inorder.length < fuel) (filled : shape ≠ .nil)
    (rep : Represents tree shape) : ∃ first, ngxRbtreeMin fuel tree tree.root = some first ∧
      visit fuel tree shape.inorder.length first = some (shape.inorder.map Item.address) := by
  obtain ⟨path, color, item, right, isPlug, straight, least⟩ :=
    min_spec fuel [] (Nat.le_of_lt enough) filled rep
  refine ⟨some item.address, by rw [rep.root, least], ?_⟩
  have starts : shape.inorder.head? = some item := by
    rw [isPlug, inorder_plug, straight]
    rfl
  have visits := visit_spec enough rep [] _ rfl (Nat.le_refl _)
  rwa [starts] at visits

end Walk

end ServerCore.NginxStrRbtreeWalk
