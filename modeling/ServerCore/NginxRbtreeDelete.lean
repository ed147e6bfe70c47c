import ServerCore.NginxRbtreeInsert

/-!
# Deletion from the red-black tree

A black node that is taken out leaves a subtree with one black node too few,
and the loop moves this fault up until a red node or a rotation removes it.
The subtree may be empty; its parent is then kept in the sentinel.
-/

namespace ServerCore.NginxRbtreeDelete

open RedBlackTree RedBlackTree.Tree NginxRbtree
open NginxRbtreeShape NginxRbtreeInsert

variable {before : Rbtree} {outer inner : Shape} {child : Item} {fuel : Nat}

/-- The tree with a subtree in focus, whose parent can be read also when the
subtree is empty. -/
structure Focused (tree : Rbtree) (ctx : Context Item) (shape : Shape) : Prop where
  represents : Represents tree (plug ctx shape)
  hangs : ∀ frame outer, ctx = frame :: outer → shape = .nil →
    (tree.memory tree.sentinel).parent = some frame.value.address

variable {frame : Frame Item} {ctx : Context Item} {shape sibling : Shape} {height : Nat}
  {upper : Color} {side : Side} {parent : Item} {tree : Rbtree}

theorem focused_reshapes {after : Rbtree} {place : Frame Item} {outer : Context Item}
    (focused : Focused before (place :: outer) shape)
    (reshapes : Reshapes before after (plug (frame :: ctx) shape)) (same : frame.value = place.value)
    : Focused after (frame :: ctx) shape where
  represents := reshapes.represents
  hangs := by
    intro first rest split empty
    injection split with isFirst
    rw [reshapes.sentinel, reshapes.cell, ← isFirst, same]
    exact focused.hangs place outer rfl empty

section Reading

variable {tree : Rbtree} {ctx : Context Item} {shape sibling : Shape} {side : Side} {color : Color}
variable {parent : Item}

theorem load_focus (focused : Focused tree (⟨side, color, parent, sibling⟩ :: ctx) shape) :
    ∃ node, tree.load (pointerOf tree.sentinel shape) = some node ∧
      node.parent = some parent.address ∧ node.color = shape.color := by
  by_cases empty : shape = .nil
  · subst empty
    exact ⟨_, rfl, focused.hangs _ _ rfl rfl, focused.represents.sentinelBlack⟩
  · obtain ⟨shade, near, item, far, rfl⟩ := exists_join .left empty
    obtain ⟨top, loaded⟩ := load_node (⟨side, color, parent, sibling⟩ :: ctx) focused.represents
    exact ⟨_, by rw [pointer_of_join, loaded], by rw [cell_parent, parentOf],
      by rw [cell_color, color_join]⟩

/-- The tree, looked at from the sibling. -/
theorem represents_turned (focused : Focused tree (⟨side, color, parent, sibling⟩ :: ctx) shape) :
    Represents tree (plug (⟨side.flip, color, parent, shape⟩ :: ctx) sibling) := by
  rw [← plug_sibling]
  exact focused.represents

theorem brother_of_eq (focused : Focused tree (⟨side, color, parent, sibling⟩ :: ctx) shape) :
    tree.brotherOf side (pointerOf tree.sentinel shape) = some (pointerOf tree.sentinel sibling) := by
  obtain ⟨node, loaded, above, -⟩ := load_focus focused
  obtain ⟨top, upper⟩ := load_node ctx focused.represents
  simp [Rbtree.brotherOf, loaded, above, upper]

end Reading

section Steps

variable {tree : Rbtree} (ctx : Context Item) {shape near far : Shape} {side : Side}
variable {upper : Color} {parent brother : Item}

theorem delete_red_brother (focused : Focused tree
      (⟨side, upper, parent, join side .red near brother far⟩ :: ctx) shape) :
    ∃ after, tree.deleteRedBrother side (pointerOf tree.sentinel shape) (some brother.address) =
        some (after, pointerOf after.sentinel near) ∧
      Reshapes tree after (plug (⟨side, .red, parent, near⟩ :: ⟨side, .black, brother, far⟩ :: ctx)
        shape) := by
  obtain ⟨node, loaded, above, -⟩ := load_focus focused
  have turned := represents_turned focused
  obtain ⟨top, brotherLoaded⟩ := load_node _ turned
  obtain ⟨first, blackened, reshapes1⟩ :=
    color_reshapes (⟨side.flip, upper, parent, shape⟩ :: ctx) .black turned
  rw [← plug_sibling] at reshapes1
  obtain ⟨second, reddened, reshapes2⟩ := color_reshapes ctx .red reshapes1.represents
  obtain ⟨third, rotated, reshapes3⟩ := rotate_reshapes ctx reshapes2.represents
  have reshapes : Reshapes tree third
      (plug (⟨side, .red, parent, near⟩ :: ⟨side, .black, brother, far⟩ :: ctx) shape) :=
    reshapes_trans (reshapes_trans reshapes1 reshapes2) reshapes3
  have found := brother_of_eq (focused_reshapes focused reshapes rfl)
  rw [reshapes.sentinel] at found
  refine ⟨third, ?_, reshapes⟩
  simp [Rbtree.deleteRedBrother, brotherLoaded, loaded, above, blackened, reddened, rotated,
    found, reshapes.sentinel]

theorem delete_black_brother (isBlack : sibling.color = .black)
    (focused : Focused tree (⟨side, upper, parent, sibling⟩ :: ctx) shape) :
    tree.deleteRedBrother side (pointerOf tree.sentinel shape) (pointerOf tree.sentinel sibling) =
      some (tree, pointerOf tree.sentinel sibling) := by
  have turned := represents_turned focused
  obtain ⟨node, loaded, color⟩ := load_color _ turned
  simp [Rbtree.deleteRedBrother, loaded, color, isBlack]

theorem delete_inner_red (isBlack : far.color = .black)
    (focused : Focused tree (⟨side, upper, parent,
      join side .black (join side .red inner child outer) brother far⟩ :: ctx) shape) :
    ∃ after, tree.deleteInnerRed side (pointerOf tree.sentinel shape) (some brother.address) =
        some (after, some child.address) ∧ Reshapes tree after (plug (⟨side, upper, parent,
        join side .black inner child (join side .red outer brother far)⟩ :: ctx) shape) := by
  have turned := represents_turned focused
  obtain ⟨top, brotherLoaded⟩ := load_node _ turned
  have farther := turned
  rw [← join_flip] at farther
  obtain ⟨outerNode, outerLoaded, outerColor⟩ := load_color (⟨side.flip, .black, brother,
    join side .red inner child outer⟩ :: ⟨side.flip, upper, parent, shape⟩ :: ctx) farther
  obtain ⟨first, blackened, reshapes1⟩ := color_reshapes
    (⟨side, .black, brother, far⟩ :: ⟨side.flip, upper, parent, shape⟩ :: ctx) .black turned
  obtain ⟨second, reddened, reshapes2⟩ := color_reshapes
    (⟨side.flip, upper, parent, shape⟩ :: ctx) .red reshapes1.represents
  have mirrored := reshapes2.represents
  rw [← join_flip, ← join_flip side .black outer inner] at mirrored
  obtain ⟨third, rotated, reshapes3⟩ := rotate_reshapes _ mirrored
  rw [join_flip, join_flip, ← plug_sibling] at reshapes3
  have reshapes := reshapes_trans (reshapes_trans reshapes1 reshapes2) reshapes3
  have found := brother_of_eq (focused_reshapes focused reshapes rfl)
  rw [reshapes.sentinel, pointer_of_join] at found
  refine ⟨third, ?_, reshapes⟩
  simp [Rbtree.deleteInnerRed, brotherLoaded, outerLoaded, outerColor, isBlack, blackened,
    reddened, rotated, found]

theorem delete_outer_already (isRed : far.color = .red) (focused : Focused tree
      (⟨side, upper, parent, join side .black near brother far⟩ :: ctx) shape) :
    tree.deleteInnerRed side (pointerOf tree.sentinel shape) (some brother.address) =
      some (tree, some brother.address) := by
  have turned := represents_turned focused
  obtain ⟨top, brotherLoaded⟩ := load_node _ turned
  rw [← join_flip] at turned
  obtain ⟨outerNode, outerLoaded, outerColor⟩ := load_color
    (⟨side.flip, .black, brother, near⟩ :: ⟨side.flip, upper, parent, shape⟩ :: ctx) turned
  simp [Rbtree.deleteInnerRed, brotherLoaded, outerLoaded, outerColor, isRed]

theorem delete_outer_red {lower : Color} (focused : Focused tree
      (⟨side, upper, parent, join side .black near brother (join side lower inner child outer)⟩ ::
        ctx) shape) :
    ∃ after, tree.deleteOuterRed side (pointerOf tree.sentinel shape) (some brother.address) = some after ∧
      Reshapes tree after (plug ctx (join side upper (join side .black shape parent near) brother
        (join side .black inner child outer))) := by
  obtain ⟨node, loaded, above, -⟩ := load_focus focused
  obtain ⟨top, parentLoaded⟩ := load_node ctx focused.represents
  have turned := represents_turned focused
  obtain ⟨first, painted, reshapes1⟩ :=
    color_reshapes (⟨side.flip, upper, parent, shape⟩ :: ctx) upper turned
  rw [← plug_sibling] at reshapes1
  obtain ⟨second, blackened, reshapes2⟩ := color_reshapes ctx .black reshapes1.represents
  have deeper := reshapes2.represents
  rw [← join_flip] at deeper
  obtain ⟨secondTop, brotherLoaded⟩ :=
    load_node (⟨side.flip, .black, parent, shape⟩ :: ctx) deeper
  have deepest := deeper
  rw [← join_flip side upper] at deepest
  obtain ⟨third, outerBlackened, reshapes3⟩ := color_reshapes (⟨side.flip, upper, brother, near⟩ ::
    ⟨side.flip, .black, parent, shape⟩ :: ctx) .black deepest
  rw [plug, join_flip, plug, join_flip] at reshapes3
  obtain ⟨fourth, rotated, fourthReshapes⟩ := rotate_reshapes ctx reshapes3.represents
  refine ⟨fourth, ?_, reshapes_trans (reshapes_trans (reshapes_trans reshapes1 reshapes2)
    reshapes3) fourthReshapes⟩
  simp [Rbtree.deleteOuterRed, loaded, above, parentLoaded, painted, blackened, brotherLoaded,
    outerBlackened, rotated]

end Steps

/-- One black node is missing on every path of the subtree, or its red root
has only to be painted. -/
def Short (shape : Shape) (height : Nat) : Prop :=
  (shape.color = .black ∧ shape.Balanced height) ∨
    (shape.color = .red ∧ (shape.paint .black).Balanced (height + 1))

theorem red_black_of_short (short : Short shape height) : RedBlack (shape.paint .black) := by
  rcases short with ⟨isBlack, balanced⟩ | ⟨-, balanced⟩
  · exact red_black_paint ⟨isBlack, height, balanced⟩
  · exact ⟨color_paint_black shape, height + 1, balanced⟩

/-- What one turn makes of the tree: the fault moves up to a subtree in a
context that is not longer, or the tree is balanced and the loop goes to its
root. Where the context is not shorter, the subtree is red. -/
inductive Turned (before : Rbtree) (whole : Shape) (depth : Nat) : Rbtree × Pointer → Prop
  | up (after : Rbtree) (ctx : Context Item) (above : Shape) (height : Nat)
      (reshapes : Reshapes before after (plug ctx above))
      (order : (plug ctx above).inorder = whole.inorder) (filled : above ≠ .nil)
      (short : Short above height) (fits : Fits ctx .black (height + 1))
      (shorter : ctx.length < depth ∨ above.color = .red) :
      Turned before whole depth (after, pointerOf after.sentinel above)
  | done (after : Rbtree) (rebalances : Rebalances before after whole) :
      Turned before whole depth (after, after.root)

theorem turned_of_reshapes {first second : Rbtree} {whole : Shape} {depth : Nat}
    {result : Rbtree × Pointer} (reshapes : Reshapes first second shape)
    (same : shape.inorder = whole.inorder) (turned : Turned second shape depth result) :
    Turned first whole depth result := by
  cases turned with
  | up after ctx above height later order filled short fits shorter =>
    exact .up after ctx above height (reshapes_trans reshapes later) (order.trans same) filled
      short fits shorter
  | done after rebalances => exact .done after (rebalances_of_reshapes reshapes same rebalances)

theorem color_cases (color : Color) : color = .red ∨ color = .black := by
  cases color <;> simp

theorem filled_of_red (isRed : shape.color = .red) : shape ≠ .nil := by
  rintro rfl
  exact absurd isRed (by simp)

theorem fits_brother (fits : Fits (⟨side, upper, parent, sibling⟩ :: ctx) .black height) :
    (upper = .red ∧ sibling.color = .black ∧ Fits ctx .red height) ∨
      (upper = .black ∧ Fits ctx .black (height + 1)) := by
  cases upper with
  | red => exact .inl ⟨rfl, fits.2.1, fits.2.2.2⟩
  | black => exact .inr ⟨rfl, fits.2⟩

theorem fits_other_sibling {color : Color} {other : Shape}
    (fits : Fits (⟨side, upper, parent, sibling⟩ :: ctx) color height)
    (balanced : other.Balanced height) (isBlack : other.color = .black) :
    Fits (⟨side, upper, parent, other⟩ :: ctx) color height := by
  cases upper with
  | red => exact ⟨fits.1, isBlack, balanced, fits.2.2.2⟩
  | black => exact ⟨balanced, fits.2⟩

section Turn

variable {tree : Rbtree} (ctx : Context Item) {shape near far : Shape} {side : Side}
variable {upper : Color} {parent brother : Item} {height : Nat}

theorem delete_outer_rebalances (isRed : far.color = .red) (focused : Focused tree
      (⟨side, upper, parent, join side .black near brother far⟩ :: ctx) shape)
    (balanced : shape.Balanced height)
    (fits : Fits (⟨side, upper, parent, join side .black near brother far⟩ :: ctx) .black (height + 1)) :
    ∃ after, tree.deleteOuterRed side (pointerOf tree.sentinel shape) (some brother.address) = some after ∧
      Rebalances tree after (plug (⟨side, upper, parent, join side .black near brother far⟩ :: ctx)
        shape) := by
  obtain ⟨lower, inner, child, outer, rfl⟩ := exists_join side (filled_of_red isRed)
  rw [color_join] at isRed
  subst isRed
  obtain ⟨after, outerRed, reshapes⟩ := delete_outer_red ctx focused
  obtain ⟨nearBal, farBal⟩ := (balanced_black_succ _ _ _ _ _).mp (fits_sibling fits)
  obtain ⟨-, -, innerBal, outerBal⟩ := (balanced_red _ _ _ _ _).mp farBal
  refine ⟨after, outerRed, _, reshapes, ?_, ?_⟩
  · apply inorder_plug_congr
    cases side <;> simp [join, inorder]
  · rcases fits_brother fits with ⟨rfl, -, above⟩ | ⟨rfl, above⟩
    · have filled : (join side .red (join side .black shape parent near) brother
          (join side .black inner child outer)).Balanced (height + 1) := by
        simp [balanced, nearBal, innerBal, outerBal]
      exact fits_plug filled (by rwa [color_join])
    · have filled : (join side .black (join side .black shape parent near) brother
          (join side .black inner child outer)).Balanced (height + 1 + 1) := by
        simp only [balanced_black_succ]
        exact ⟨⟨balanced, nearBal⟩, innerBal, outerBal⟩
      exact fits_plug filled (by rwa [color_join])

theorem short_above (balanced : shape.Balanced height)
    (nearBlack : near.color = .black) (farBlack : far.color = .black)
    (fits : Fits (⟨side, upper, parent, join side .black near brother far⟩ :: ctx) .black (height + 1)) :
    ∃ rest, Short (join side upper shape parent (join side .red near brother far)) rest ∧
      Fits ctx .black (rest + 1) := by
  obtain ⟨nearBal, farBal⟩ := (balanced_black_succ _ _ _ _ _).mp (fits_sibling fits)
  have brotherBalanced : (join side .red near brother far).Balanced height := by
    simp [nearBlack, farBlack, nearBal, farBal]
  have whole : (join side .black shape parent (join side .red near brother far)).Balanced
      (height + 1) := by
    rw [balanced_black_succ]
    exact ⟨balanced, brotherBalanced⟩
  rcases fits_brother fits with ⟨rfl, -, above⟩ | ⟨rfl, above⟩
  · exact ⟨height, .inr ⟨color_join _ _ _ _ _, by rwa [paint_join]⟩, fits_black above⟩
  · exact ⟨height + 1, .inl ⟨color_join _ _ _ _ _, whole⟩, above⟩

section

variable (focused : Focused tree (⟨side, upper, parent, join side .black near brother far⟩ :: ctx) shape)
include focused

theorem delete_black_brother_eq :
    tree.deleteBlackBrother side (pointerOf tree.sentinel shape) (some brother.address) =
      if near.color = .black ∧ far.color = .black then
        (tree.store (some brother.address) (Node.setColor .red)).bind fun first =>
          (first.load (pointerOf tree.sentinel shape)).bind fun here => some (first, here.parent)
      else
        (tree.deleteInnerRed side (pointerOf tree.sentinel shape) (some brother.address)).bind
          fun result => (result.1.deleteOuterRed side (pointerOf tree.sentinel shape) result.2).bind
            fun last => some (last, last.root) := by
  have turned := represents_turned focused
  obtain ⟨top, brotherLoaded⟩ := load_node _ turned
  obtain ⟨nearNode, nearLoaded, nearColor⟩ := load_color
    (⟨side, .black, brother, far⟩ :: ⟨side.flip, upper, parent, shape⟩ :: ctx) turned
  have mirrored := turned
  rw [← join_flip] at mirrored
  obtain ⟨farNode, farLoaded, farColor⟩ := load_color
    (⟨side.flip, .black, brother, near⟩ :: ⟨side.flip, upper, parent, shape⟩ :: ctx) mirrored
  cases side with
  | left =>
    simp [Rbtree.deleteBlackBrother, brotherLoaded, cell, nearLoaded, farLoaded, nearColor, farColor]
  | right =>
    simp [Rbtree.deleteBlackBrother, brotherLoaded, cell, nearLoaded, farLoaded,
      nearColor, farColor, and_comm]

theorem delete_black_brother_turned (balanced : shape.Balanced height)
    (fits : Fits (⟨side, upper, parent, join side .black near brother far⟩ :: ctx) .black
      (height + 1)) (depth : Nat) (shorter : ctx.length < depth ∨ upper = .red) :
    ∃ result, tree.deleteBlackBrother side (pointerOf tree.sentinel shape) (some brother.address) =
        some result ∧
      Turned tree (plug (⟨side, upper, parent, join side .black near brother far⟩ :: ctx) shape)
        depth result := by
  rw [delete_black_brother_eq ctx focused]
  by_cases bothBlack : near.color = .black ∧ far.color = .black
  · have turned := represents_turned focused
    obtain ⟨after, reddened, reshapes⟩ :=
      color_reshapes (⟨side.flip, upper, parent, shape⟩ :: ctx) .red turned
    rw [← plug_sibling] at reshapes
    obtain ⟨node, loaded, above, -⟩ := load_focus (focused_reshapes focused reshapes rfl)
    obtain ⟨rest, short, restFits⟩ := short_above ctx balanced bothBlack.1 bothBlack.2 fits
    refine ⟨(after, some parent.address), ?_, ?_⟩
    · rw [reshapes.sentinel] at loaded
      rw [if_pos bothBlack, reddened, Option.bind_some, loaded, Option.bind_some, above]
    · rw [← pointer_of_join after.sentinel side upper shape (join side .red near brother far) parent]
      apply Turned.up after ctx _ rest reshapes _ (join_ne_nil _ _ _ _ _) short restFits
      · simpa using shorter
      · apply inorder_plug_congr
        exact inorder_join_congr side _ _ _ rfl (inorder_join_congr side _ _ _ rfl rfl)
  · rw [if_neg bothBlack]
    rcases color_cases far.color with farRed | farBlack
    · obtain ⟨after, outerRed, rebalances⟩ :=
        delete_outer_rebalances ctx farRed focused balanced fits
      refine ⟨(after, after.root), ?_, .done after rebalances⟩
      rw [delete_outer_already ctx farRed focused, Option.bind_some, outerRed, Option.bind_some]
    · have nearRed : near.color = .red := by
        rcases color_cases near.color with isRed | isBlack
        · exact isRed
        · exact absurd ⟨isBlack, farBlack⟩ bothBlack
      obtain ⟨lower, inner, child, outer, rfl⟩ := exists_join side (filled_of_red nearRed)
      rw [color_join] at nearRed
      subst nearRed
      obtain ⟨first, innerRed, reshapes⟩ := delete_inner_red ctx farBlack focused
      obtain ⟨nearBal, farBal⟩ := (balanced_black_succ _ _ _ _ _).mp (fits_sibling fits)
      obtain ⟨-, outerBlack, innerBal, outerBal⟩ := (balanced_red _ _ _ _ _).mp nearBal
      have sibling : (join side .black inner child (join side .red outer brother far)).Balanced
          (height + 1) := by
        rw [balanced_black_succ, balanced_red]
        exact ⟨innerBal, outerBlack, farBlack, outerBal, farBal⟩
      obtain ⟨after, outerRed, rebalances⟩ := delete_outer_rebalances ctx (color_join _ _ _ _ _)
        (focused_reshapes focused reshapes rfl) balanced
        (fits_other_sibling fits sibling (color_join _ _ _ _ _))
      refine ⟨(after, after.root), ?_, .done after (rebalances_of_reshapes reshapes ?_ rebalances)⟩
      · rw [reshapes.sentinel] at outerRed
        rw [innerRed, Option.bind_some, outerRed, Option.bind_some]
      · rw [plug, plug]
        apply inorder_plug_congr
        cases side <;> simp [join, inorder]

end

theorem delete_turn_turned (focused : Focused tree (⟨side, upper, parent, sibling⟩ :: ctx) shape)
    (balanced : shape.Balanced height)
    (fits : Fits (⟨side, upper, parent, sibling⟩ :: ctx) .black (height + 1)) :
    ∃ result, tree.deleteTurn (pointerOf tree.sentinel shape) = some result ∧
      Turned tree (plug (⟨side, upper, parent, sibling⟩ :: ctx) shape) (ctx.length + 1) result := by
  have siblingBal := fits_sibling fits
  have siblingFilled : sibling ≠ .nil := balanced_succ_filled siblingBal
  obtain ⟨node, loaded, above, -⟩ := load_focus focused
  obtain ⟨top, parentLoaded⟩ := load_node ctx focused.represents
  have differ := children_differ ctx focused.represents (.inr siblingFilled)
  have turnEq : tree.deleteTurn (pointerOf tree.sentinel shape) =
      (tree.deleteRedBrother side (pointerOf tree.sentinel shape)
        (pointerOf tree.sentinel sibling)).bind fun result =>
          result.1.deleteBlackBrother side (pointerOf tree.sentinel shape) result.2 := by
    simp [Rbtree.deleteTurn, loaded, above, parentLoaded, side_of_cell _ _ _ _ _ _ differ]
  obtain ⟨color, near, brother, far, rfl⟩ := exists_join side siblingFilled
  rw [turnEq]
  cases color with
  | black =>
    rw [delete_black_brother ctx (color_join _ _ _ _ _) focused, Option.bind_some, pointer_of_join]
    exact delete_black_brother_turned ctx focused balanced fits _ (.inl (Nat.lt_succ_self _))
  | red =>
    rw [pointer_of_join]
    obtain ⟨first, risen, reshapes⟩ := delete_red_brother ctx focused
    rw [risen, Option.bind_some]
    obtain ⟨nearBlack, farBlack, nearBal, farBal⟩ := (balanced_red _ _ _ _ _).mp siblingBal
    have outerFits : Fits ctx .black (height + 1 + 1) := by
      rcases fits_brother fits with ⟨-, isBlack, -⟩ | ⟨-, outer⟩
      · rw [color_join] at isBlack
        exact absurd isBlack (by decide)
      · exact outer
    have order : (plug (⟨side, .red, parent, near⟩ :: ⟨side, .black, brother, far⟩ :: ctx)
        shape).inorder = (plug (⟨side, upper, parent, join side .red near brother far⟩ :: ctx)
          shape).inorder :=
      inorder_plug_congr ctx (inorder_rotate side _ _ _ _ _ _ _ _ _).symm
    obtain ⟨lower, inner, nephew, outer, rfl⟩ := exists_join side (balanced_succ_filled nearBal)
    rw [color_join] at nearBlack
    subst nearBlack
    have innerFits : Fits (⟨side, .red, parent, join side .black inner nephew outer⟩ ::
        ⟨side, .black, brother, far⟩ :: ctx) .black (height + 1) :=
      ⟨rfl, color_join _ _ _ _ _, nearBal, farBal, outerFits⟩
    obtain ⟨result, turned, outcome⟩ := delete_black_brother_turned
      (⟨side, .black, brother, far⟩ :: ctx) (focused_reshapes focused reshapes rfl) balanced
      innerFits (ctx.length + 1) (.inr rfl)
    rw [reshapes.sentinel] at turned
    rw [pointer_of_join]
    exact ⟨result, turned, turned_of_reshapes reshapes order outcome⟩

end Turn

theorem delete_fixup_root (fuel : Nat) (filled : shape ≠ .nil)
    (rep : Represents tree shape) (redBlack : RedBlack (shape.paint .black)) :
    ∃ after, tree.deleteFixup (fuel + 1) tree.root = some after ∧ Rebalances tree after shape := by
  obtain ⟨node, loaded, -⟩ := load_color [] rep
  obtain ⟨after, stored, rebalances⟩ := blacken_root filled rep redBlack
  refine ⟨after, ?_, rebalances⟩
  rw [← rep.root] at loaded
  simp [Rbtree.deleteFixup, loaded, stored]

theorem delete_fixup_red {ctx : Context Item} (isRed : shape.color = .red)
    (rep : Represents tree (plug ctx shape))
    (balanced : (shape.paint .black).Balanced (height + 1)) (fits : Fits ctx .black (height + 1)) :
    ∃ after, tree.deleteFixup (fuel + 1) (pointerOf tree.sentinel shape) = some after ∧
      Rebalances tree after (plug ctx shape) := by
  obtain ⟨node, loaded, color⟩ := load_color ctx rep
  obtain ⟨after, stored, reshapes⟩ := paint_reshapes ctx .black (filled_of_red isRed) rep
  refine ⟨after, ?_, _, reshapes, inorder_plug_congr ctx (inorder_paint _ _),
    fits_plug balanced (by rwa [color_paint_black])⟩
  simp [Rbtree.deleteFixup, loaded, color, isRed, stored]

theorem delete_fixup_done (rebalances : Rebalances before tree (plug (frame :: ctx) shape)) :
    ∃ after, tree.deleteFixup (fuel + 1) tree.root = some after ∧
      Rebalances before after (plug (frame :: ctx) shape) := by
  obtain ⟨other, reshapes, order, redBlack⟩ := rebalances
  have filled : other ≠ .nil := by
    rintro rfl
    have deep := context_length_le (frame :: ctx) shape
    rw [← order] at deep
    simp [inorder] at deep
  obtain ⟨after, ended, last⟩ :=
    delete_fixup_root fuel filled reshapes.represents (red_black_paint redBlack)
  exact ⟨after, ended, rebalances_of_reshapes reshapes order last⟩

theorem delete_fixup_rebalances (fuel : Nat) (ctx : Context Item) (enough : ctx.length + 1 < fuel)
    (focused : Focused tree ctx shape) (filled : ctx = [] → shape ≠ .nil) (short : Short shape height)
    (fits : Fits ctx .black (height + 1)) :
    ∃ after, tree.deleteFixup fuel (pointerOf tree.sentinel shape) = some after ∧
      Rebalances tree after (plug ctx shape) := by
  induction fuel generalizing tree ctx shape height with
  | zero => omega
  | succ fuel ih =>
    rcases short with ⟨isBlack, balanced⟩ | ⟨isRed, painted⟩
    · rcases ctx with - | ⟨⟨side, upper, parent, sibling⟩, ctx⟩
      · have ended := delete_fixup_root fuel (filled rfl) focused.represents
          (red_black_of_short (.inl ⟨isBlack, balanced⟩))
        rwa [focused.represents.root] at ended
      · obtain ⟨result, turned, outcome⟩ := delete_turn_turned ctx focused balanced fits
        obtain ⟨node, loaded, -, color⟩ := load_focus focused
        have goesOn : tree.deleteFixup (fuel + 1) (pointerOf tree.sentinel shape) =
            result.1.deleteFixup fuel result.2 := by
          have notRoot := hole_ne_root ctx focused.represents
          simp [Rbtree.deleteFixup, loaded, color, isBlack, notRoot, turned]
        rw [goesOn]
        simp only [List.length_cons] at enough
        cases outcome with
        | done next rebalances =>
          obtain ⟨spare, rfl⟩ : ∃ spare, fuel = spare + 1 := ⟨fuel - 1, by omega⟩
          exact delete_fixup_done rebalances
        | up next outer above rest reshapes order aboveFilled aboveShort aboveFits shorter =>
          have risen : ∃ after, next.deleteFixup fuel (pointerOf next.sentinel above) = some after ∧
              Rebalances next after (plug outer above) := by
            rcases shorter with shorter | isRed
            · exact ih outer (by omega)
                ⟨reshapes.represents, fun _ _ _ empty => absurd empty aboveFilled⟩
                (fun _ => aboveFilled) aboveShort aboveFits
            · obtain ⟨spare, rfl⟩ : ∃ spare, fuel = spare + 1 := ⟨fuel - 1, by omega⟩
              rcases aboveShort with ⟨isBlack, -⟩ | ⟨-, painted⟩
              · rw [isRed] at isBlack
                exact absurd isBlack (by decide)
              · exact delete_fixup_red isRed reshapes.represents painted aboveFits
          obtain ⟨after, ended, rebalances⟩ := risen
          exact ⟨after, ended, rebalances_of_reshapes reshapes order rebalances⟩
    · exact delete_fixup_red isRed focused.represents painted fits

end ServerCore.NginxRbtreeDelete
