import ServerCore.NginxRbtreeShape

/-!
# Insertion into the red-black tree

The new node is red, so the only rule it can break is that its parent is
black. The loop moves this fault two levels up, or removes it by one or two
rotations; the order of the nodes and the black heights stay as they are.
-/

namespace ServerCore.NginxRbtreeInsert

open RedBlackTree RedBlackTree.Tree NginxRbtree
open NginxRbtreeShape
open List hiding after

variable {ctx : Context Item} {item : Item} {key : Nat} {right left : Shape}

def RedBlack (shape : Shape) : Prop := shape.color = .black ∧ ∃ height, shape.Balanced height

/-- The tree became a red-black tree of the same nodes in the same order. -/
def Rebalances (before after : Rbtree) (shape : Shape) : Prop :=
  ∃ other, Reshapes before after other ∧ other.inorder = shape.inorder ∧ RedBlack other

variable {shape uncle sibling near far : Shape} {tree : Rbtree} {frame : Frame Item} {ctx : Context Item}
  {side grandSide turn : Side} {parent grand : Item} {height fuel : Nat} {color : Color}

theorem rebalances_of_reshapes {first second third : Rbtree} {other : Shape}
    (reshapes : Reshapes first second other) (same : other.inorder = shape.inorder)
    (rebalances : Rebalances second third other) : Rebalances first third shape := by
  obtain ⟨final, finalReshapes, order, redBlack⟩ := rebalances
  exact ⟨final, reshapes_trans reshapes finalReshapes, order.trans same, redBlack⟩

theorem blacken_root (filled : shape ≠ .nil)
    (rep : Represents tree shape) (balanced : RedBlack (shape.paint .black)) :
    ∃ after, tree.store tree.root (Node.setColor .black) = some after ∧ Rebalances tree after shape := by
  obtain ⟨after, stored, reshapes⟩ := paint_reshapes [] .black filled rep
  refine ⟨after, ?_, _, reshapes, ?_, balanced⟩
  · rw [rep.root, stored]
  · exact inorder_paint .black shape

theorem red_black_paint (redBlack : RedBlack shape) : RedBlack (shape.paint .black) := by
  rw [← redBlack.1, paint_same]
  exact redBlack

theorem plug_ne_nil (ctx : Context Item) (filled : shape ≠ .nil) : plug ctx shape ≠ .nil := by
  induction ctx generalizing shape with
  | nil => exact filled
  | cons frame ctx ih => exact ih (join_ne_nil _ _ _ _ _)

theorem insert_fixup_exit (fuel : Nat) (filled : shape ≠ .nil) (isBlack : frame.color = .black)
    (rep : Represents tree (plug (frame :: ctx) shape))
    (redBlack : RedBlack (plug (frame :: ctx) shape)) :
    ∃ after, Rbtree.insertFixup (fuel + 1) tree (pointerOf tree.sentinel shape) = some after ∧
      Rebalances tree after (plug (frame :: ctx) shape) := by
  have notRoot := hole_ne_root ctx rep
  obtain ⟨color, near, item, far, rfl⟩ := exists_join .left filled
  obtain ⟨top, here⟩ := load_node (frame :: ctx) rep
  obtain ⟨above, upper⟩ := load_node ctx rep
  obtain ⟨after, stored, rebalances⟩ :=
    blacken_root (plug_ne_nil _ filled) rep (red_black_paint redBlack)
  refine ⟨after, ?_, rebalances⟩
  rw [pointer_of_join] at notRoot ⊢
  rw [Rbtree.insertFixup, if_neg notRoot]
  simp [here, parentOf, upper, isBlack, stored]

theorem insert_raise_reshapes
    {upper lower : Color} {outer inner : Shape} (filled : outer ≠ .nil) (rep : Represents tree
      (plug ctx (join side upper (join side lower outer parent inner) grand uncle))) :
    ∃ after, Rbtree.insertRotate.insertRaise side tree (pointerOf tree.sentinel outer) =
        some (after, pointerOf tree.sentinel outer) ∧ Reshapes tree after
        (plug ctx (join side .black outer parent (join side .red inner grand uncle))) := by
  obtain ⟨color, near, item, far, rfl⟩ := exists_join .left filled
  obtain ⟨top, here⟩ :=
    load_node (⟨side, lower, parent, inner⟩ :: ⟨side, upper, grand, uncle⟩ :: ctx) rep
  obtain ⟨first, blackened, reshapes1⟩ :=
    color_reshapes (⟨side, upper, grand, uncle⟩ :: ctx) .black rep
  obtain ⟨firstTop, middle⟩ := load_node (⟨side, upper, grand, uncle⟩ :: ctx) reshapes1.represents
  obtain ⟨second, reddened, reshapes2⟩ := color_reshapes ctx .red reshapes1.represents
  have turned := reshapes2.represents
  rw [← join_flip, ← join_flip side .black] at turned
  obtain ⟨third, rotated, reshapes3⟩ := rotate_reshapes ctx turned
  rw [join_flip, join_flip] at reshapes3
  refine ⟨third, ?_, reshapes_trans (reshapes_trans reshapes1 reshapes2) reshapes3⟩
  simp [Rbtree.insertRotate.insertRaise, here, parentOf, blackened, middle, reddened, rotated]

/-- The tree after the branch for a black uncle: `child` is below a black node. -/
def Raised (side : Side) (before : Rbtree) (ctx : Context Item) (shape : Shape) (height : Nat)
    (result : Rbtree × Pointer) : Prop :=
  ∃ child value rest, result.2 = pointerOf before.sentinel child ∧ child ≠ .nil ∧
    Reshapes before result.1 (plug (⟨side, .black, value, rest⟩ :: ctx) child) ∧
    (join side .black child value rest).inorder = shape.inorder ∧
    (join side .black child value rest).Balanced (height + 1)

section BlackUncle

variable {tree : Rbtree} (ctx : Context Item) {side : Side} {near far sibling uncle : Shape}
variable {item parent grand : Item} {height : Nat}

theorem insert_rotate_outer (rep : Represents tree (plug ctx
      (join side .black (join side .red (join side .red near item far) parent sibling) grand uncle)))
    (balanced : (join side .red near item far).Balanced height)
    (siblingBal : sibling.color = .black ∧ sibling.Balanced height)
    (uncleBal : uncle.color = .black ∧ uncle.Balanced height) :
    ∃ result, Rbtree.insertRotate side tree (some item.address) = some result ∧ Raised side tree ctx
        (join side .black (join side .red (join side .red near item far) parent sibling) grand uncle)
        height result := by
  obtain ⟨top, here⟩ := load_node
    (⟨side, .red, parent, sibling⟩ :: ⟨side, .black, grand, uncle⟩ :: ctx) rep
  obtain ⟨upperTop, upper⟩ := load_node (⟨side, .black, grand, uncle⟩ :: ctx) rep
  have differ := children_differ (⟨side, .black, grand, uncle⟩ :: ctx) rep
    (.inl (join_ne_nil _ _ _ _ _))
  rw [pointer_of_join] at differ
  obtain ⟨after, raised, reshapes⟩ :=
    insert_raise_reshapes (join_ne_nil side .red near far item) rep
  refine ⟨(after, some item.address), ?_, join side .red near item far, parent,
    join side .red sibling grand uncle, (pointer_of_join _ _ _ _ _ _).symm, join_ne_nil _ _ _ _ _,
    reshapes, ?_, ?_⟩
  · rw [pointer_of_join] at raised
    simp [Rbtree.insertRotate, here, parentOf, upper, differ, raised]
  · cases side <;> simp [join, inorder]
  · rw [balanced_black_succ, balanced_red side sibling]
    exact ⟨balanced, siblingBal.1, uncleBal.1, siblingBal.2, uncleBal.2⟩

theorem insert_rotate_inner (rep : Represents tree (plug ctx
      (join side .black (join side .red sibling parent (join side .red near item far)) grand uncle)))
    (balanced : (join side .red near item far).Balanced height)
    (siblingBal : sibling.color = .black ∧ sibling.Balanced height)
    (uncleBal : uncle.color = .black ∧ uncle.Balanced height) :
    ∃ result, Rbtree.insertRotate side tree (some item.address) = some result ∧ Raised side tree ctx
        (join side .black (join side .red sibling parent (join side .red near item far)) grand uncle)
        height result := by
  have turned := rep
  rw [← join_flip side .red] at turned
  obtain ⟨top, here⟩ := load_node
    (⟨side.flip, .red, parent, sibling⟩ :: ⟨side, .black, grand, uncle⟩ :: ctx) turned
  obtain ⟨upperTop, upper⟩ := load_node (⟨side, .black, grand, uncle⟩ :: ctx) rep
  obtain ⟨first, rotated, reshapes1⟩ := rotate_reshapes (⟨side, .black, grand, uncle⟩ :: ctx) rep
  obtain ⟨after, raised, reshapes⟩ :=
    insert_raise_reshapes (join_ne_nil side .red sibling near parent) reshapes1.represents
  rw [pointer_of_join] at raised
  refine ⟨(after, some parent.address), ?_, join side .red sibling parent near, item,
    join side .red far grand uncle, (pointer_of_join _ _ _ _ _ _).symm, join_ne_nil _ _ _ _ _,
    reshapes_trans reshapes1 reshapes, ?_, ?_⟩
  · simp [Rbtree.insertRotate, here, parentOf, upper, rotated, raised]
  · cases side <;> simp [join, inorder]
  · obtain ⟨nearBlack, farBlack, nearBal, farBal⟩ := (balanced_red _ _ _ _ _).mp balanced
    rw [balanced_black_succ, balanced_red, balanced_red]
    exact ⟨⟨siblingBal.1, nearBlack, siblingBal.2, nearBal⟩,
      farBlack, uncleBal.1, farBal, uncleBal.2⟩

end BlackUncle

theorem insert_recolor {uncleSide : Side} {uncle : Item}
    (rep : Represents tree (plug (⟨side, .red, parent, sibling⟩ ::
      ⟨grandSide, .black, grand, join uncleSide .red near uncle far⟩ :: ctx) shape)) :
    ∃ first second third, tree.store (some parent.address) (Node.setColor .black) = some first ∧
      first.store (some uncle.address) (Node.setColor .black) = some second ∧
      second.store (some grand.address) (Node.setColor .red) = some third ∧
      Reshapes tree third (plug ctx (join grandSide .red (join side .black shape parent sibling)
        grand (join uncleSide .black near uncle far))) := by
  obtain ⟨first, blackened, reshapes1⟩ := color_reshapes
    (⟨grandSide, .black, grand, join uncleSide .red near uncle far⟩ :: ctx) .black rep
  have turned := reshapes1.represents
  rw [plug_sibling] at turned
  obtain ⟨second, uncleBlackened, reshapes2⟩ := color_reshapes
    (⟨grandSide.flip, .black, grand, join side .black shape parent sibling⟩ :: ctx) .black turned
  rw [← plug_sibling ctx grandSide] at reshapes2
  obtain ⟨third, reddened, reshapes3⟩ := color_reshapes ctx .red reshapes2.represents
  exact ⟨first, second, third, blackened, uncleBlackened, reddened,
    reshapes_trans (reshapes_trans reshapes1 reshapes2) reshapes3⟩

theorem insert_fixup_turn (rep : Represents tree (plug (⟨side, .red, parent, sibling⟩ ::
      ⟨grandSide, .black, grand, uncle⟩ :: ctx) (join turn .red near item far))) :
    Rbtree.insertFixup (fuel + 1) tree (some item.address) =
      if uncle.color = .red then
        (tree.store (some parent.address) (Node.setColor .black)).bind fun first =>
          (first.store (pointerOf tree.sentinel uncle) (Node.setColor .black)).bind fun second =>
            (second.store (some grand.address) (Node.setColor .red)).bind fun third =>
              Rbtree.insertFixup fuel third (some grand.address)
      else (tree.insertRotate grandSide (some item.address)).bind fun result =>
        Rbtree.insertFixup fuel result.1 result.2 := by
  have notRoot := hole_ne_root _ rep
  rw [pointer_of_join] at notRoot
  obtain ⟨top, here⟩ := load_node (⟨side, .red, parent, sibling⟩ ::
    ⟨grandSide, .black, grand, uncle⟩ :: ctx) rep
  obtain ⟨upperTop, upper⟩ := load_node (⟨grandSide, .black, grand, uncle⟩ :: ctx) rep
  obtain ⟨aboveTop, above⟩ := load_node ctx rep
  have differ := children_differ ctx rep (.inl (join_ne_nil _ _ _ _ _))
  rw [pointer_of_join] at above differ
  have turned := rep
  rw [plug, plug_sibling] at turned
  obtain ⟨uncleNode, uncleLoaded, uncleColor⟩ := load_color _ turned
  rw [Rbtree.insertFixup, if_neg notRoot]
  simp [here, parentOf, upper, above, side_of_cell _ _ _ _ _ _ differ, uncleLoaded, uncleColor]

theorem insert_rotate_raises (rep : Represents tree (plug (⟨side, .red, parent, sibling⟩ ::
      ⟨grandSide, .black, grand, uncle⟩ :: ctx) (join turn .red near item far)))
    (balanced : (join turn .red near item far).Balanced height)
    (siblingBal : sibling.color = .black ∧ sibling.Balanced height)
    (uncleBal : uncle.color = .black ∧ uncle.Balanced height) :
    ∃ result, Rbtree.insertRotate grandSide tree (some item.address) = some result ∧
      Raised grandSide tree ctx (join grandSide .black
        (join side .red (join turn .red near item far) parent sibling) grand uncle) height result := by
  obtain ⟨near', far', turned⟩ := exists_turn turn grandSide .red near far item
  rw [turned] at rep balanced ⊢
  by_cases outer : side = grandSide
  · subst outer
    exact insert_rotate_outer ctx rep balanced siblingBal uncleBal
  · rw [plug, plug, eq_flip_of_ne outer, join_flip] at rep
    rw [eq_flip_of_ne outer, join_flip]
    exact insert_rotate_inner ctx rep balanced siblingBal uncleBal

theorem insert_fixup_rebalances (fuel : Nat) (ctx : Context Item)
    (enough : ctx.length + 1 < fuel) (rep : Represents tree (plug ctx (join turn .red near item far)))
    (balanced : (join turn .red near item far).Balanced height) (fits : Fits ctx .black height) :
    ∃ after, Rbtree.insertFixup fuel tree (some item.address) = some after ∧
      Rebalances tree after (plug ctx (join turn .red near item far)) := by
  induction fuel generalizing tree ctx turn near far item height with
  | zero => omega
  | succ fuel ih =>
    rcases ctx with - | ⟨⟨side, color, parent, sibling⟩, ctx⟩
    · obtain ⟨after, stored, rebalances⟩ := blacken_root (join_ne_nil _ _ _ _ _) rep
        ⟨by simp, height + 1, balanced_paint_black (color_join _ _ _ _ _) balanced⟩
      refine ⟨after, ?_, rebalances⟩
      have atRoot : some item.address = tree.root := by
        rw [rep.root]
        exact (pointer_of_join _ _ _ _ _ _).symm
      rw [Rbtree.insertFixup, if_pos atRoot, stored]
    cases color with
    | black =>
      have redBlack : RedBlack (plug (⟨side, .black, parent, sibling⟩ :: ctx)
          (join turn .red near item far)) := fits_plug balanced fits
      have exit := insert_fixup_exit fuel (join_ne_nil _ _ _ _ _) rfl rep redBlack
      rwa [pointer_of_join] at exit
    | red =>
      obtain ⟨-, siblingBlack, siblingBal, aboveFits⟩ := fits
      rcases ctx with - | ⟨⟨grandSide, grandColor, grand, uncle⟩, ctx⟩
      · exact absurd aboveFits (by simp [Fits])
      have grandBlack : grandColor = .black := fits_red_parent aboveFits
      subst grandBlack
      obtain ⟨uncleBal, outerFits⟩ := aboveFits
      simp only [length_cons] at enough
      rw [insert_fixup_turn rep]
      by_cases uncleRed : uncle.color = .red
      · have filled : uncle ≠ .nil := by
          rintro rfl
          exact absurd uncleRed (by simp)
        obtain ⟨shade, inner, value, outer, rfl⟩ := exists_join .left filled
        subst uncleRed
        obtain ⟨first, second, third, one, two, three, reshapes⟩ := insert_recolor rep
        obtain ⟨innerBlack, outerBlack, innerBal, outerBal⟩ :=
          (balanced_red _ _ _ _ _).mp uncleBal
        have raised : (join grandSide .red (join side .black (join turn .red near item far) parent
            sibling) grand (join .left .black inner value outer)).Balanced (height + 1) := by
          rw [balanced_red, balanced_black_succ, balanced_black_succ, color_join, color_join]
          exact ⟨rfl, rfl, ⟨balanced, siblingBal⟩, innerBal, outerBal⟩
        obtain ⟨after, fixed, rebalances⟩ :=
          ih ctx (by omega) reshapes.represents raised outerFits
        refine ⟨after, ?_, rebalances_of_reshapes reshapes ?_ rebalances⟩
        · rw [if_pos (color_join _ _ _ _ _), one, Option.bind_some, pointer_of_join, two,
            Option.bind_some, three, Option.bind_some, fixed]
        · apply inorder_plug_congr
          exact inorder_join_congr _ _ _ _ (inorder_join_congr _ _ _ _ rfl rfl)
            (inorder_join_congr _ _ _ _ rfl rfl)
      · have uncleBlack : uncle.color = .black := by
          cases shade : uncle.color with
          | red => exact absurd shade uncleRed
          | black => rfl
        obtain ⟨⟨rotated, node⟩, rotates, child, value, rest, isChild, filled, reshapes, order,
          raised⟩ := insert_rotate_raises rep balanced
            ⟨siblingBlack, siblingBal⟩ ⟨uncleBlack, uncleBal⟩
        obtain ⟨spare, rfl⟩ := Nat.exists_eq_add_of_le' (show 1 ≤ fuel by omega)
        have redBlack : RedBlack (plug ctx (join grandSide .black child value rest)) :=
          fits_plug raised (by rwa [color_join])
        obtain ⟨after, fixed, rebalances⟩ :=
          insert_fixup_exit spare filled rfl reshapes.represents redBlack
        refine ⟨after, ?_, rebalances_of_reshapes reshapes ?_ rebalances⟩
        · rw [if_neg uncleRed, rotates, Option.bind_some, isChild, ← reshapes.sentinel, fixed]
        · exact inorder_plug_congr ctx order

def freshNode (sentinel : Address) (parent : Pointer) (color : Color) (node : Node) : Node :=
  { node with
    parent := parent
    left := some sentinel
    right := some sentinel
    color := color }

theorem fresh_node_cell (sentinel : Address) (parent : Pointer) (color : Color) (node : Node) :
    freshNode sentinel parent color node =
      cell .left color node.key (some sentinel) (some sentinel) parent := rfl

theorem attach_reshapes (rep : Represents tree (plug (frame :: ctx) .nil))
    (fresh : item.address ∉ contextAddresses (frame :: ctx)) (foreign : item.address ≠ tree.sentinel)
    (key : (tree.memory item.address).key = item.key) : ∃ first after,
      tree.store (some frame.value.address) (Node.setChild frame.side (some item.address)) = some first ∧
      first.store (some item.address) (freshNode tree.sentinel (some frame.value.address) .red) =
      some after ∧
      Reshapes tree after (plug (frame :: ctx) (join .left .red .nil item .nil)) := by
  obtain ⟨root, ⟨top, linked⟩, apart, notInside, black⟩ := rep
  rw [linked_plug] at linked
  rw [addresses_plug, addresses_nil, Multiset.zero_add] at apart notInside
  have notAbove : item.address ≠ frame.value.address := by
    intro same
    apply fresh
    simp [same]
  have sentinelAbove : tree.sentinel ≠ frame.value.address := by
    intro same
    apply notInside
    simp [same]
  obtain ⟨first, stored, sameRoot, touches, relinked⟩ :=
    set_hole_spec (some item.address) linked.1 apart
  obtain ⟨after, written, lastRoot, lastTouches, here⟩ :=
    store_spec first item.address (freshNode tree.sentinel (some frame.value.address) .red)
  rw [fresh_node_cell, touches.frame _ (by simpa using notAbove), key] at here
  have own := lastTouches.sentinel.trans touches.sentinel
  have sentinelCell : after.memory tree.sentinel = tree.memory tree.sentinel := by
    rw [lastTouches.frame _ (by simpa using Ne.symm foreign), touches.frame _ (by simpa using sentinelAbove)]
  have total : addresses (plug (frame :: ctx) (join .left .red .nil item .nil)) =
      item.address ::ₘ contextAddresses (frame :: ctx) := by
    rw [addresses_plug, addresses_join, addresses_nil, Multiset.add_zero, Multiset.cons_add,
      Multiset.zero_add]
  refine ⟨first, after, stored, written, ⟨?_, ⟨top, ?_⟩, ?_, ?_, ?_⟩, own, sentinelCell⟩
  · obtain ⟨addr, -, rootIs⟩ := pointer_of_plug tree.sentinel frame ctx
    rw [lastRoot, sameRoot, root, own, rootIs, rootIs]
  · rw [own, linked_plug, linked_join, pointer_of_join]
    refine ⟨linked_context_congr (fun addr mem => ?_) relinked, here, trivial, trivial⟩
    exact lastTouches.frame addr (not_mem_single fresh mem)
  · rw [total]
    exact Multiset.nodup_cons.mpr ⟨fresh, apart⟩
  · rw [own, total, Multiset.mem_cons, not_or]
    exact ⟨Ne.symm foreign, notInside⟩
  · rw [own, sentinelCell, black]

def Sorted (items : List Item) : Prop := items.Pairwise fun first second => first.key ≤ second.key

def Placed (item : Item) (old new : List Item) : Prop :=
  ∃ front back, old = front ++ back ∧ new = front ++ item :: back ∧
    (∀ other ∈ front, other.key ≤ item.key) ∧ ∀ other ∈ back, item.key < other.key

theorem placed_sorted {old new : List Item} (placed : Placed item old new)
    (sorted : Sorted old) : Sorted new := by
  obtain ⟨front, back, rfl, rfl, notGreater, greater⟩ := placed
  obtain ⟨frontSorted, backSorted, across⟩ := pairwise_append.mp sorted
  refine pairwise_append.mpr ⟨frontSorted, pairwise_cons.mpr ⟨?_, backSorted⟩, ?_⟩
  · intro other mem
    exact (greater other mem).le
  · intro first inFront second inBack
    rcases mem_cons.mp inBack with rfl | later
    · exact notGreater first inFront
    · exact across first inFront second later

structure Divides (ctx : Context Item) (key : Nat) : Prop where
  front : ∀ other ∈ before ctx, other.key ≤ key
  back : ∀ other ∈ after ctx, key < other.key

theorem divides_left (divides : Divides ctx key)
    (less : key < item.key) (above : ∀ other ∈ right.inorder, item.key ≤ other.key) :
    Divides (⟨.left, color, item, right⟩ :: ctx) key where
  front := divides.front
  back := by
    intro other mem
    simp only [after, cons_append, mem_cons, mem_append] at mem
    rcases mem with rfl | inRight | outside
    · exact less
    · exact less.trans_le (above other inRight)
    · exact divides.back other outside

theorem divides_right (divides : Divides ctx key)
    (notLess : item.key ≤ key) (below : ∀ other ∈ left.inorder, other.key ≤ item.key) :
    Divides (⟨.right, color, item, left⟩ :: ctx) key where
  front := by
    intro other mem
    simp only [before, mem_append, mem_singleton] at mem
    rcases mem with outside | inLeft | rfl
    · exact divides.front other outside
    · exact (below other inLeft).trans notLess
    · exact notLess
  back := divides.back

theorem insert_value_turn {value : Item}
    (rep : Represents tree (plug ctx (.node color left value right)))
    (key : (tree.memory item.address).key = item.key) :
    tree.ngxRbtreeInsertValue (fuel + 1) (some value.address) (some item.address) =
      let side := if item.key < value.key then Side.left else Side.right
      let child := if item.key < value.key then left else right
      if pointerOf tree.sentinel child = some tree.sentinel then
        (tree.store (some value.address) (Node.setChild side (some item.address))).bind fun first =>
          first.store (some item.address) (freshNode first.sentinel (some value.address) .red)
      else tree.ngxRbtreeInsertValue fuel (pointerOf tree.sentinel child) (some item.address) := by
  have focus : Represents tree (plug ctx (join .left color left value right)) := rep
  obtain ⟨top, here⟩ := load_node ctx focus
  have loaded : tree.load (some item.address) = some (tree.memory item.address) := rfl
  rw [Rbtree.ngxRbtreeInsertValue]
  simp only [loaded, here, Option.bind_eq_bind, Option.bind_some, key, cell_key]
  by_cases less : item.key < value.key
  · simp only [less, if_true, cell_near]
    rfl
  · simp only [less, if_false]
    rfl

/-- The new node is attached at an empty place of the tree, the one its key
belongs to. -/
def Attaches (tree : Rbtree) (whole : Shape) (item : Item) (result : Option Rbtree) : Prop :=
  ∃ after place, result = some after ∧ plug place .nil = whole ∧ Divides place item.key ∧
    Reshapes tree after (plug place (join .left .red .nil item .nil))

theorem insert_value_child (frame : Frame Item)
    {child : Shape} (rep : Represents tree (plug (frame :: ctx) child))
    (fresh : item.address ∉ addresses (plug (frame :: ctx) child))
    (foreign : item.address ≠ tree.sentinel) (key : (tree.memory item.address).key = item.key)
    (divides : Divides (frame :: ctx) item.key)
    (below : child ≠ .nil → Attaches tree (plug (frame :: ctx) child) item
      (tree.ngxRbtreeInsertValue fuel (pointerOf tree.sentinel child) (some item.address))) :
    Attaches tree (plug (frame :: ctx) child) item
      (if pointerOf tree.sentinel child = some tree.sentinel then
        (tree.store (some frame.value.address) (Node.setChild frame.side (some item.address))).bind
          fun first => first.store (some item.address)
            (freshNode first.sentinel (some frame.value.address) .red)
      else tree.ngxRbtreeInsertValue fuel (pointerOf tree.sentinel child) (some item.address)) := by
  by_cases empty : child = .nil
  · subst empty
    rw [addresses_plug, addresses_nil, Multiset.zero_add] at fresh
    obtain ⟨first, after, stored, written, reshapes⟩ := attach_reshapes rep fresh foreign key
    have own : first.sentinel = tree.sentinel := by
      injection stored with stored
      rw [← stored]
    refine ⟨after, frame :: ctx, ?_, rfl, divides, reshapes⟩
    rw [pointer_of_nil, if_pos rfl, stored, Option.bind_some, own, written]
  · have notSentinel : pointerOf tree.sentinel child ≠ some tree.sentinel := by
      obtain ⟨color, near, other, far, rfl⟩ := exists_join .left empty
      rw [pointer_of_join]
      intro isSentinel
      injection isSentinel with isSentinel
      apply rep.foreign
      simp [isSentinel]
    rw [if_neg notSentinel]
    exact below empty

theorem insert_value_attaches (fuel : Nat) (ctx : Context Item)
    (enough : shape.inorder.length < fuel) (filled : shape ≠ .nil)
    (rep : Represents tree (plug ctx shape))
    (fresh : item.address ∉ addresses (plug ctx shape)) (foreign : item.address ≠ tree.sentinel)
    (key : (tree.memory item.address).key = item.key) (sorted : Sorted shape.inorder)
    (divides : Divides ctx item.key) : Attaches tree (plug ctx shape) item
      (tree.ngxRbtreeInsertValue fuel (pointerOf tree.sentinel shape) (some item.address)) := by
  induction shape generalizing fuel ctx with
  | nil => cases filled rfl
  | node color left value right leftIh rightIh =>
    cases fuel with
    | zero => omega
    | succ fuel =>
      obtain ⟨leftSorted, valueSorted, across⟩ := pairwise_append.mp sorted
      obtain ⟨above, rightSorted⟩ := pairwise_cons.mp valueSorted
      simp only [inorder, length_append, length_cons] at enough
      rw [show pointerOf tree.sentinel (.node color left value right) = some value.address from rfl,
        insert_value_turn rep key]
      by_cases less : item.key < value.key
      · have placed : Divides (⟨.left, color, value, right⟩ :: ctx) item.key :=
          divides_left divides less above
        simp only [less, if_true]
        exact insert_value_child ⟨.left, color, value, right⟩ rep fresh foreign key
          placed fun leftFilled =>
            leftIh fuel _ (by omega) leftFilled rep fresh leftSorted placed
      · have placed : Divides (⟨.right, color, value, left⟩ :: ctx) item.key :=
          divides_right divides (Nat.le_of_not_lt less) fun other mem =>
            across other mem value (mem_cons_self ..)
        simp only [less, if_false]
        exact insert_value_child ⟨.right, color, value, left⟩ rep fresh foreign key
          placed fun rightFilled =>
            rightIh fuel _ (by omega) rightFilled rep fresh rightSorted placed

theorem insert_empty (rep : Represents tree .nil)
    (foreign : item.address ≠ tree.sentinel) (key : (tree.memory item.address).key = item.key) :
    ∃ after, tree.ngxRbtreeInsert fuel (some item.address) = some after ∧
      Reshapes tree after (join .left .black .nil item .nil) := by
  obtain ⟨stored, written, -, touches, here⟩ :=
    store_spec tree item.address (freshNode tree.sentinel none .black)
  rw [fresh_node_cell, key] at here
  have sentinelCell := touches.frame tree.sentinel (by simpa using Ne.symm foreign)
  refine ⟨{ stored with root := some item.address }, ?_, ⟨?_, ⟨none, ?_⟩, ?_, ?_, ?_⟩,
    touches.sentinel, sentinelCell⟩
  · have atSentinel : tree.root = some tree.sentinel := rep.root
    rw [Rbtree.ngxRbtreeInsert, if_pos atSentinel]
    exact congrArg (Option.bind · _) written
  · simp
  · rw [linked_join]
    rw [touches.sentinel]
    exact ⟨here, trivial, trivial⟩
  · simp
  · simpa [touches.sentinel] using Ne.symm foreign
  · rw [touches.sentinel, sentinelCell, rep.sentinelBlack]

theorem insert_spec (fuel : Nat) (enough : shape.inorder.length + 2 ≤ fuel)
    (rep : Represents tree shape) (redBlack : RedBlack shape) (sorted : Sorted shape.inorder)
    (fresh : item.address ∉ addresses shape) (foreign : item.address ≠ tree.sentinel)
    (key : (tree.memory item.address).key = item.key) :
    ∃ after other, tree.ngxRbtreeInsert fuel (some item.address) = some after ∧
      Reshapes tree after other ∧ RedBlack other ∧ Placed item shape.inorder other.inorder := by
  by_cases empty : shape = .nil
  · subst empty
    obtain ⟨after, inserted, reshapes⟩ := insert_empty rep foreign key
    refine ⟨after, _, inserted, reshapes, ⟨color_join _ _ _ _ _, 1, ?_⟩, [], [], rfl, rfl, ?_, ?_⟩
    · rw [balanced_black_succ]
      simp
    · simp
    · simp
  · have notEmpty : tree.root ≠ some tree.sentinel := by
      obtain ⟨color, near, other, far, rfl⟩ := exists_join .left empty
      rw [rep.root, pointer_of_join]
      intro isSentinel
      injection isSentinel with isSentinel
      apply rep.foreign
      simp [isSentinel]
    obtain ⟨first, place, attached, hole, divides, reshapes⟩ := insert_value_attaches fuel []
      (by omega) empty rep fresh foreign key sorted ⟨by simp [before], by simp [after]⟩
    obtain ⟨height, nilBalanced, fits⟩ : ∃ height, (.nil : Shape).Balanced height ∧
        Fits place (.nil : Shape).color height := by
      obtain ⟨isBlack, total, balanced⟩ := redBlack
      have whole : plug place .nil = shape := hole
      rw [← whole] at isBlack balanced
      exact fits_of_plug isBlack balanced
    have depth := context_length_le place .nil
    rw [hole, plug] at depth
    have single : (join .left .red .nil item .nil : Shape).Balanced height := by
      simp [nilBalanced]
    obtain ⟨after, fixed, other, otherReshapes, order, otherRedBlack⟩ :=
      insert_fixup_rebalances fuel place (by omega) reshapes.represents single fits
    refine ⟨after, other, ?_, reshapes_trans reshapes otherReshapes, otherRedBlack, before place,
      ServerCore.RedBlackTree.after place, ?_, ?_, divides.front, divides.back⟩
    · rw [Rbtree.ngxRbtreeInsert, if_neg notEmpty, rep.root]
      exact (congrArg (Option.bind · _) attached).trans fixed
    · have split := inorder_plug place (.nil : Shape)
      rw [hole] at split
      simpa [plug, inorder] using split
    · rw [order, inorder_plug]
      simp [join, inorder]

end ServerCore.NginxRbtreeInsert
