import ServerCore.NginxRbtreeUnlink

/-!
# Runs of the red-black tree

A deletion takes one node out of the sequence of nodes and an insertion puts one
into it, and both leave a red-black tree.
-/

namespace ServerCore.NginxRbtreeRuns

open RedBlackTree RedBlackTree.Tree NginxRbtree
open NginxRbtreeShape NginxRbtreeInsert NginxRbtreeDelete NginxRbtreeUnlink
open List hiding after

variable {item : Item}

def Removed (item : Item) (old new : List Item) : Prop :=
  ∃ front back, old = front ++ item :: back ∧ new = front ++ back

def Deletes (fuel : Nat) (tree : Rbtree) (shape : Shape) (item : Item) : Prop :=
  ∃ after other, tree.ngxRbtreeDelete fuel (some item.address) = some after ∧
    after.sentinel = tree.sentinel ∧ Represents after other ∧ RedBlack other ∧
    Removed item shape.inorder other.inorder

variable {side : Side} {height fuel : Nat} {tree : Rbtree} {frame : Frame Item} {ctx : Context Item}
  {shape child : Shape} {old new items : List Item} {color : Color}

theorem balanced_child (balanced : (join side color child item .nil).Balanced height) :
    (color = .red ∧ child.color = .black ∧ child.Balanced height) ∨
      (color = .black ∧ ∃ below, height = below + 1 ∧ Short child below) := by
  cases color with
  | red =>
    obtain ⟨isBlack, -, childBal, -⟩ := (balanced_red _ _ _ _ _).mp balanced
    exact .inl ⟨rfl, isBlack, childBal⟩
  | black =>
    obtain ⟨below, same, childBal, -⟩ := (balanced_black _ _ _ _ _).mp balanced
    rcases color_cases child.color with isRed | isBlack
    · exact .inr ⟨rfl, below, same, .inr ⟨isRed, balanced_paint_black isRed childBal⟩⟩
    · exact .inr ⟨rfl, below, same, .inl ⟨isBlack, childBal⟩⟩

theorem removed_rebalances (fuel : Nat)
    (enough : (frame :: ctx).length + 1 < fuel) (focused : Focused tree (frame :: ctx) child)
    (balanced : (join side color child item .nil).Balanced height)
    (fits : Fits (frame :: ctx) color height) : ∃ after, (if color = .red then some tree
        else tree.deleteFixup fuel (pointerOf tree.sentinel child)) = some after ∧
      Rebalances tree after (plug (frame :: ctx) child) := by
  rcases balanced_child balanced with ⟨rfl, isBlack, childBal⟩ | ⟨rfl, below, rfl, short⟩
  · refine ⟨tree, if_pos rfl, _, ⟨focused.represents, rfl, rfl⟩, rfl, fits_plug childBal ?_⟩
    rw [isBlack]
    exact fits_black fits
  · rw [if_neg (by decide)]
    exact delete_fixup_rebalances fuel (frame :: ctx) enough focused (by simp) short fits

theorem delete_unlinked (fuel : Nat) {whole : Shape} {leaving : Item}
    {node : Node} (found : tree.substitute fuel (some item.address) =
      some (some leaving.address, pointerOf tree.sentinel child))
        (notRoot : some leaving.address ≠ tree.root)
    (loaded : tree.load (some leaving.address) = some node) (isColor : node.color = color)
    (unlinked : ∃ after, tree.unlink (some item.address) (some leaving.address)
        (pointerOf tree.sentinel child) = some after ∧
      after.sentinel = tree.sentinel ∧ Focused after (frame :: ctx) child)
    (outside : item.address ∉ addresses (plug (frame :: ctx) child))
    (foreign : item.address ≠ tree.sentinel) (enough : (frame :: ctx).length + 1 < fuel)
    (balanced : (join side color child leaving .nil).Balanced height)
    (fits : Fits (frame :: ctx) color height)
    (removed : Removed item whole.inorder (plug (frame :: ctx) child).inorder) :
    Deletes fuel tree whole item := by
  obtain ⟨first, taken, own, focused⟩ := unlinked
  obtain ⟨second, cleared, secondOwn, secondFocused⟩ :=
    focused_store Node.clear focused outside (by rwa [own])
  obtain ⟨after, ended, other, reshapes, order, redBlack⟩ :=
    removed_rebalances fuel enough secondFocused balanced fits
  rw [secondOwn, own] at ended
  refine ⟨after, other, ?_, ?_, reshapes.represents, redBlack, by rwa [order]⟩
  · simp [Rbtree.ngxRbtreeDelete, found, notRoot, loaded, taken, cleared, isColor, ended]
  · rw [reshapes.sentinel, secondOwn, own]

theorem blacken_child (rep : Represents tree shape) :
    ∃ after, tree.store (pointerOf tree.sentinel shape) (Node.setColor .black) = some after ∧
      after.sentinel = tree.sentinel ∧ Represents after (shape.paint .black) := by
  by_cases empty : shape = .nil
  · subst empty
    obtain ⟨after, stored, root, touches, written⟩ :=
      store_spec tree tree.sentinel (Node.setColor .black)
    refine ⟨after, stored, touches.sentinel, ?_, ⟨none, trivial⟩, by simp [paint], by simp [paint], ?_⟩
    · rw [root, rep.root, touches.sentinel]
      rfl
    · rw [touches.sentinel, written, Node.setColor]
  · obtain ⟨after, stored, reshapes⟩ := paint_reshapes [] .black empty rep
    exact ⟨after, stored, reshapes.sentinel, reshapes.represents⟩

section Delete

variable {tree : Rbtree} {item : Item}

theorem delete_root (fuel : Nat) (found : tree.substitute fuel (some item.address) =
      some (some item.address, pointerOf tree.sentinel child))
    (rep : Represents tree (join side color child item .nil))
    (redBlack : RedBlack (join side color child item .nil)) :
    Deletes fuel tree (join side color child item .nil) item := by
  obtain ⟨root, ⟨top, linked⟩, distinct, foreign, black⟩ := rep
  obtain ⟨isBlack, height, balanced⟩ := redBlack
  rw [addresses_join, addresses_nil, Multiset.add_zero] at distinct foreign
  rw [Multiset.mem_cons, not_or] at foreign
  have lower : Represents { tree with root := pointerOf tree.sentinel child } child :=
    ⟨rfl, ⟨_, (linked_join.mp linked).2.1⟩, (Multiset.nodup_cons.mp distinct).2, foreign.2, black⟩
  obtain ⟨first, blackened, own, painted⟩ := blacken_child lower
  obtain ⟨after, cleared, afterOwn, focused⟩ := focused_store Node.clear
    (show Focused first [] (child.paint .black) from ⟨painted, by simp⟩)
    (show item.address ∉ addresses (child.paint .black) by
      rw [addresses_paint]
      exact (Multiset.nodup_cons.mp distinct).1)
    (show item.address ≠ first.sentinel by
      rw [own]
      exact Ne.symm foreign.1)
  refine ⟨after, child.paint .black, ?_, by rw [afterOwn, own], focused.represents, ?_, ?_⟩
  · have isRoot : tree.root = some item.address := by rw [root, pointer_of_join]
    simp [Rbtree.ngxRbtreeDelete, found, isRoot, blackened, cleared]
  · rw [color_join] at isBlack
    rcases balanced_child balanced with ⟨isRed, -⟩ | ⟨-, below, -, short⟩
    · rw [isRed] at isBlack
      exact absurd isBlack (by decide)
    · exact red_black_of_short short
  · rw [inorder_paint]
    cases side with
    | left => exact ⟨child.inorder, [], by simp [join, inorder], by simp⟩
    | right => exact ⟨[], child.inorder, by simp [join, inorder], by simp⟩

theorem delete_single (fuel : Nat) (ctx : Context Item) (side : Side) (child : Shape)
    (enough : (plug ctx (join side color child item .nil)).inorder.length + 2 ≤ fuel)
    (found : tree.substitute fuel (some item.address) =
      some (some item.address, pointerOf tree.sentinel child))
    (rep : Represents tree (plug ctx (join side color child item .nil)))
    (redBlack : RedBlack (plug ctx (join side color child item .nil))) :
    Deletes fuel tree (plug ctx (join side color child item .nil)) item := by
  cases ctx with
  | nil => exact delete_root fuel found rep redBlack
  | cons frame ctx =>
    have notRoot := hole_ne_root ctx rep
    rw [pointer_of_join] at notRoot
    obtain ⟨top, loaded⟩ := load_node (frame :: ctx) rep
    obtain ⟨isBlack, total, balanced⟩ := redBlack
    obtain ⟨height, here, fits⟩ := fits_of_plug isBlack balanced
    rw [color_join] at fits
    have depth := context_length_le (frame :: ctx) (join side color child item .nil)
    have distinct := rep.distinct
    have foreign := rep.foreign
    rw [addresses_plug, addresses_join, addresses_nil, Multiset.add_zero, Multiset.cons_add,
      ← addresses_plug] at distinct foreign
    rw [Multiset.mem_cons, not_or] at foreign
    refine delete_unlinked fuel found notRoot loaded (cell_color _ _ _ _ _ _)
      (unlink_self ctx rep) (Multiset.nodup_cons.mp distinct).1 (Ne.symm foreign.1)
      (by omega) here fits ?_
    rw [inorder_plug, inorder_plug]
    cases side with
    | left =>
      exact ⟨before (frame :: ctx) ++ child.inorder, ServerCore.RedBlackTree.after (frame :: ctx),
        by simp [join, inorder], by simp⟩
    | right =>
      exact ⟨before (frame :: ctx), child.inorder ++ ServerCore.RedBlackTree.after (frame :: ctx),
        by simp [join, inorder], by simp⟩

theorem delete_double (fuel : Nat) (ctx path : Context Item) {color shade : Color}
    {left right whole : Shape} {other : Item}
    (isWhole : plug ctx (join .left color left item (plug path (join .left shade .nil other right))) = whole)
    (enough : whole.inorder.length + 2 ≤ fuel) (straight : before path = [])
    (found : tree.substitute fuel (some item.address) =
      some (some other.address, pointerOf tree.sentinel right))
    (rep : Represents tree whole) (redBlack : RedBlack whole) : Deletes fuel tree whole item := by
  subst isWhole
  have distinct := rep.distinct
  have foreign := rep.foreign
  rw [addresses_successor, addresses_exchange] at distinct foreign
  rw [Multiset.mem_cons, not_or] at foreign
  have unlinked := unlink_successor ctx path rep
  have deep := rep
  rw [← plug_right] at deep enough redBlack
  obtain ⟨isBlack, total, balanced⟩ := redBlack
  obtain ⟨height, here, fits⟩ := fits_of_plug isBlack balanced
  have moved := fits_exchange other fits
  have depth := context_length_le (path ++ ⟨.right, color, item, left⟩ :: ctx)
    (join .left shade .nil other right)
  obtain ⟨top, loaded⟩ := load_node _ deep
  obtain ⟨first, rest, split⟩ : ∃ first rest,
      path ++ ⟨.right, color, item, left⟩ :: ctx = first :: rest :=
    exists_cons_of_ne_nil (by simp)
  have notRoot : some other.address ≠ tree.root := by
    rw [split] at deep
    have differ := hole_ne_root rest deep
    rwa [pointer_of_join] at differ
  have removed : Removed item
      (plug ctx (join .left color left item (plug path (join .left shade .nil other right)))).inorder
      (plug (path ++ ⟨.right, color, other, left⟩ :: ctx) right).inorder := by
    refine ⟨before ctx ++ left.inorder, other :: right.inorder ++ ServerCore.RedBlackTree.after path ++
      ServerCore.RedBlackTree.after ctx, ?_, ?_⟩
    · simp [inorder_plug, join, inorder, straight]
    · simp [inorder_plug, before_append, after_append, straight, before, ServerCore.RedBlackTree.after]
  obtain ⟨first', rest', split'⟩ : ∃ first rest,
      path ++ ⟨.right, color, other, left⟩ :: ctx = first :: rest :=
    exists_cons_of_ne_nil (by simp)
  have length' : (first' :: rest').length = (path ++ ⟨.right, color, item, left⟩ :: ctx).length := by
    rw [← split']
    simp
  have outside : item.address ∉ addresses (plug (first' :: rest') right) := by
    rw [← split', plug_right]
    exact (Multiset.nodup_cons.mp distinct).1
  rw [split'] at unlinked moved removed
  exact delete_unlinked fuel found notRoot loaded (cell_color _ _ _ _ _ _) unlinked outside
    (Ne.symm foreign.1) (by omega) (show (join .right shade right other .nil).Balanced height from here)
    moved removed

theorem delete_spec (fuel : Nat) (enough : shape.inorder.length + 2 ≤ fuel)
    (rep : Represents tree shape) (redBlack : RedBlack shape) (mem : item ∈ shape.inorder) :
    Deletes fuel tree shape item := by
  obtain ⟨ctx, color, left, right, rfl⟩ := exists_plug mem
  have focus : Represents tree (plug ctx (join .left color left item right)) := rep
  have leftFocus : Represents tree (plug (⟨.left, color, item, right⟩ :: ctx) left) := rep
  have rightFocus : Represents tree (plug (⟨.right, color, item, left⟩ :: ctx) right) := rep
  have leftEmpty := pointer_eq_sentinel _ leftFocus
  have rightEmpty := pointer_eq_sentinel _ rightFocus
  obtain ⟨top, loaded⟩ := load_node ctx focus
  by_cases noLeft : left = .nil
  · subst noLeft
    refine delete_single fuel ctx .right right enough ?_ rep redBlack
    simp [Rbtree.substitute, loaded, cell, pointer_of_nil]
  · by_cases noRight : right = .nil
    · subst noRight
      refine delete_single fuel ctx .left left enough ?_ rep redBlack
      simp [Rbtree.substitute, loaded, cell, leftEmpty, noLeft, pointer_of_nil]
    · have rightLength : right.inorder.length ≤ fuel := by
        rw [inorder_plug] at enough
        simp only [inorder, length_append, length_cons] at enough
        omega
      obtain ⟨path, shade, other, rest, rfl, straight, least⟩ :=
        min_spec fuel _ rightLength noRight rightFocus
      refine delete_double fuel ctx path rfl enough straight ?_ rep redBlack
      have deep := focus
      rw [← plug_right] at deep
      obtain ⟨above, otherLoaded⟩ := load_node _ deep
      simp [Rbtree.substitute, loaded, cell, leftEmpty, noLeft, rightEmpty, noRight, least, otherLoaded]

end Delete

/-- A call of the tree's user, who sets the key of a node before inserting it. -/
inductive Call where
  | insert (item : Item)
  | delete (addr : Address)

def perform (fuel : Nat) (tree : Rbtree) : Call → Option Rbtree
  | .insert item => do
    let tree ← tree.store (some item.address) fun node => { node with key := item.key }
    tree.ngxRbtreeInsert fuel (some item.address)
  | .delete addr => tree.ngxRbtreeDelete fuel (some addr)

def place (item : Item) (items : List Item) : List Item :=
  items.takeWhile (fun other => other.key ≤ item.key) ++
    item :: items.dropWhile fun other => other.key ≤ item.key

def follow (items : List Item) : Call → List Item
  | .insert item => place item items
  | .delete addr => items.filter fun other => other.address ≠ addr

/-- Only a node outside the tree is inserted, and only one of its nodes is deleted. -/
def Permitted (sentinel : Address) (items : List Item) : Call → Prop
  | .insert item => item.address ≠ sentinel ∧ ∀ other ∈ items, other.address ≠ item.address
  | .delete addr => ∃ item ∈ items, item.address = addr

def AllPermitted (sentinel : Address) : List Item → List Call → Prop
  | _, [] => True
  | items, call :: calls =>
    Permitted sentinel items call ∧ AllPermitted sentinel (follow items call) calls

/-- The memory holds a red-black tree with these nodes in this order. -/
def Holds (tree : Rbtree) (items : List Item) : Prop :=
  ∃ shape, Represents tree shape ∧ RedBlack shape ∧ shape.inorder = items ∧ Sorted items

theorem placed_eq (placed : Placed item old new) : new = place item old := by
  obtain ⟨front, back, rfl, rfl, notGreater, greater⟩ := placed
  have keeps : ∀ other ∈ front, decide (other.key ≤ item.key) = true := by
    intro other mem
    exact decide_eq_true (notGreater other mem)
  have stops : ∀ other ∈ back, ¬decide (other.key ≤ item.key) = true := by
    intro other mem
    simpa using greater other mem
  rw [place, takeWhile_append_of_pos keeps, dropWhile_append_of_pos keeps]
  cases back with
  | nil => simp
  | cons first back =>
    have stop := stops first (mem_cons_self ..)
    simp [stop]

theorem removed_eq (removed : Removed item old new) (distinct : (old.map Item.address).Nodup) :
    new = old.filter fun other => other.address ≠ item.address := by
  obtain ⟨front, back, rfl, rfl⟩ := removed
  rw [map_append, map_cons, nodup_append, nodup_cons] at distinct
  obtain ⟨-, ⟨notBack, -⟩, apart⟩ := distinct
  have keepsFront : ∀ other ∈ front, other.address ≠ item.address := by
    intro other mem
    exact apart _ (mem_map_of_mem mem) _ (mem_cons_self ..)
  have keepsBack : ∀ other ∈ back, other.address ≠ item.address := by
    rintro other mem same
    exact notBack (same ▸ mem_map_of_mem mem)
  rw [filter_append, filter_cons_of_neg (by simp),
    filter_eq_self.mpr (by simpa using keepsFront),
    filter_eq_self.mpr (by simpa using keepsBack)]

theorem place_length (item : Item) (items : List Item) : (place item items).length = items.length + 1 := by
  have whole := congrArg List.length
    (takeWhile_append_dropWhile (p := fun other => decide (other.key ≤ item.key)) (l := items))
  rw [length_append] at whole
  rw [place, length_append, length_cons]
  omega

theorem follow_length (items : List Item) (call : Call) : (follow items call).length ≤ items.length + 1 := by
  cases call with
  | insert item => exact (place_length item items).le
  | delete addr =>
    have shorter := length_filter_le (fun other => decide (other.address ≠ addr)) items
    exact shorter.trans (Nat.le_succ _)

theorem perform_holds {call : Call} (enough : items.length + 2 ≤ fuel)
    (permitted : Permitted tree.sentinel items call) (holds : Holds tree items) :
    ∃ after, perform fuel tree call = some after ∧ after.sentinel = tree.sentinel ∧
      Holds after (follow items call) := by
  obtain ⟨shape, rep, redBlack, rfl, sorted⟩ := holds
  cases call with
  | insert item =>
    obtain ⟨foreign, outside⟩ := permitted
    have fresh : item.address ∉ addresses shape := by
      intro inside
      obtain ⟨other, mem, same⟩ := Multiset.mem_map.mp inside
      exact outside other mem same
    obtain ⟨keyed, stored, own, focused⟩ := focused_store (fun node => { node with key := item.key })
      (show Focused tree [] shape from ⟨rep, by simp⟩) fresh foreign
    have key : (keyed.memory item.address).key = item.key := by
      cases stored
      simp
    obtain ⟨after, other, inserted, reshapes, otherRedBlack, placed⟩ := insert_spec fuel enough
      focused.represents redBlack sorted fresh (by rwa [own]) key
    refine ⟨after, ?_, reshapes.sentinel.trans own, other, reshapes.represents, otherRedBlack,
      placed_eq placed, ?_⟩
    · simp [perform, stored, inserted]
    · have ordered := placed_sorted placed sorted
      rwa [placed_eq placed] at ordered
  | delete addr =>
    obtain ⟨item, mem, rfl⟩ := permitted
    obtain ⟨after, other, deleted, own, otherRepresents, otherRedBlack, removed⟩ :=
      delete_spec fuel enough rep redBlack mem
    have distinct : (shape.inorder.map Item.address).Nodup := rep.distinct
    exact ⟨after, deleted, own, other, otherRepresents, otherRedBlack, removed_eq removed distinct,
      sorted.filter _⟩

theorem calls_hold (calls : List Call) (enough : items.length + calls.length + 2 ≤ fuel)
    (permitted : AllPermitted tree.sentinel items calls) (holds : Holds tree items) :
    ∃ after, calls.foldlM (perform fuel) tree = some after ∧ after.sentinel = tree.sentinel ∧
      Holds after (calls.foldl follow items) := by
  induction calls generalizing tree items with
  | nil => exact ⟨tree, rfl, rfl, holds⟩
  | cons call calls ih =>
    rw [length_cons] at enough
    have shorter := follow_length items call
    have here : items.length + 2 ≤ fuel := by omega
    have later : (follow items call).length + calls.length + 2 ≤ fuel := by omega
    obtain ⟨next, done, own, nextHolds⟩ := perform_holds here permitted.1 holds
    have rest : AllPermitted next.sentinel (follow items call) calls := by
      rw [own]
      exact permitted.2
    obtain ⟨after, finished, afterOwn, afterHolds⟩ := ih later rest nextHolds
    refine ⟨after, ?_, afterOwn.trans own, afterHolds⟩
    rw [foldlM_cons, done]
    exact finished

theorem init_holds (sentinel : Address) (memory : Address → Node) :
    Holds (Rbtree.ngxRbtreeInit sentinel memory) [] := by
  refine ⟨.nil, ⟨rfl, ⟨none, trivial⟩, by simp, by simp, ?_⟩, ⟨rfl, 0, by simp⟩, rfl, List.Pairwise.nil⟩
  simp [Rbtree.ngxRbtreeInit, Node.setColor]

/-- After any permitted calls on an empty tree, memory holds a red-black tree
over the sequence of nodes that the calls define. -/
theorem rbtree_keeps_red_black (sentinel : Address) (memory : Address → Node) (calls : List Call)
    (fuel : Nat) (enough : calls.length + 2 ≤ fuel) (permitted : AllPermitted sentinel [] calls) :
    ∃ tree shape, calls.foldlM (perform fuel) (Rbtree.ngxRbtreeInit sentinel memory) = some tree ∧
      tree.sentinel = sentinel ∧ Represents tree shape ∧ RedBlack shape ∧
      shape.inorder = calls.foldl follow [] ∧ Sorted shape.inorder := by
  obtain ⟨tree, finished, own, shape, rep, redBlack, order, sorted⟩ := calls_hold calls
    (by simpa using enough) (show AllPermitted (Rbtree.ngxRbtreeInit sentinel memory).sentinel [] calls
      from permitted) (init_holds sentinel memory)
  exact ⟨tree, shape, finished, own, rep, redBlack, order, by rwa [order]⟩

theorem rbtree_keeps_red_black_four_calls :
    ∃ tree shape, [Call.insert ⟨1, 20⟩, .insert ⟨2, 10⟩, .insert ⟨3, 10⟩, .delete 1].foldlM (perform 6)
        (Rbtree.ngxRbtreeInit 0 fun _ => ⟨0, none, none, none, .red⟩) = some tree ∧
      tree.sentinel = 0 ∧ Represents tree shape ∧ RedBlack shape ∧
      shape.inorder = [⟨2, 10⟩, ⟨3, 10⟩] ∧ Sorted shape.inorder :=
  rbtree_keeps_red_black 0 (fun _ => ⟨0, none, none, none, .red⟩)
    [.insert ⟨1, 20⟩, .insert ⟨2, 10⟩, .insert ⟨3, 10⟩, .delete 1] 6 (by decide)
    (by simp [AllPermitted, Permitted, follow, place])

end ServerCore.NginxRbtreeRuns
