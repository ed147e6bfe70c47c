import ServerCore.NginxRbtreeDelete

/-!
# Taking a node out of the red-black tree

A node with at most one child is followed by that child. Another one changes
places with its successor, the leftmost node on its right: the successor is
taken out of its place and then put where the node was.
-/

namespace ServerCore.NginxRbtreeUnlink

open RedBlackTree RedBlackTree.Tree NginxRbtree
open NginxRbtreeShape NginxRbtreeInsert NginxRbtreeDelete Option

variable {tree : Rbtree} {shape : Shape} {sentinel : Address} {ctx : Context Item}

theorem pointer_eq_sentinel (ctx : Context Item) (rep : Represents tree (plug ctx shape)) :
    pointerOf tree.sentinel shape = some tree.sentinel ↔ shape = .nil := by
  constructor
  · intro isSentinel
    by_contra filled
    obtain ⟨color, near, item, far, rfl⟩ := exists_join .left filled
    injection isSentinel with isSentinel
    apply rep.foreign
    simp [isSentinel]
  · rintro rfl
    rfl

theorem min_spec (fuel : Nat) (ctx : Context Item) (enough : shape.inorder.length ≤ fuel)
    (filled : shape ≠ .nil) (rep : Represents tree (plug ctx shape)) :
    ∃ path color item right, shape = plug path (join .left color .nil item right) ∧ before path = [] ∧
      tree.ngxRbtreeMin fuel (pointerOf tree.sentinel shape) = some (some item.address) := by
  induction shape generalizing fuel ctx with
  | nil => cases filled rfl
  | node color left item right leftIh rightIh =>
    simp only [inorder, List.length_append, List.length_cons] at enough
    obtain ⟨spare, rfl⟩ : ∃ spare, fuel = spare + 1 := ⟨fuel - 1, by omega⟩
    have focus : Represents tree (plug ctx (join .left color left item right)) := rep
    have below : Represents tree (plug (⟨.left, color, item, right⟩ :: ctx) left) := focus
    have isEmpty := pointer_eq_sentinel _ below
    obtain ⟨top, loaded⟩ := load_node ctx focus
    have turn : tree.ngxRbtreeMin (spare + 1) (some item.address) =
        if pointerOf tree.sentinel left ≠ some tree.sentinel then
          tree.ngxRbtreeMin spare (pointerOf tree.sentinel left)
        else some (some item.address) := by
      rw [Rbtree.ngxRbtreeMin, loaded]
      rfl
    by_cases empty : left = .nil
    · subst empty
      refine ⟨[], color, item, right, rfl, rfl, ?_⟩
      exact turn.trans (if_neg (by simp))
    · obtain ⟨path, shade, first, rest, rfl, straight, found⟩ :=
        leftIh spare (⟨.left, color, item, right⟩ :: ctx) (by omega) empty below
      refine ⟨path ++ [⟨.left, color, item, right⟩], shade, first, rest, ?_, ?_, ?_⟩
      · rw [plug_append]
        rfl
      · rw [before_append, straight]
        rfl
      · exact turn.trans ((if_pos (by rwa [ne_eq, isEmpty])).trans found)

theorem set_parent_spec {old : Pointer} {new : Pointer} (linked : Linked sentinel tree.memory old shape)
    (distinct : (addresses shape).Nodup) (foreign : sentinel ∉ addresses shape) :
    ∃ after, tree.store (pointerOf sentinel shape) (Node.setParent new) = some after ∧
      after.root = tree.root ∧ Touches tree after (sentinel ::ₘ addresses shape) ∧
      Linked sentinel after.memory new shape ∧ (after.memory sentinel).color = (tree.memory sentinel).color ∧
      (shape = .nil → (after.memory sentinel).parent = new) := by
  by_cases empty : shape = .nil
  · subst empty
    obtain ⟨after, stored, root, touches, written⟩ := store_spec tree sentinel (Node.setParent new)
    refine ⟨after, stored, root, touches, trivial, ?_, fun _ => ?_⟩
    · rw [written, Node.setParent]
    · rw [written, Node.setParent]
  · obtain ⟨color, near, item, far, rfl⟩ := exists_join .left empty
    have own : item.address ∈ addresses (join .left color near item far) := by simp
    have other : sentinel ∉ ({item.address} : Multiset Address) := by
      rw [Multiset.mem_singleton]
      rintro rfl
      exact foreign own
    obtain ⟨after, stored, root, touches, written⟩ :=
      store_spec tree item.address (Node.setParent new)
    refine ⟨after, by rw [pointer_of_join, stored], root, ⟨touches.sentinel, ?_⟩, ?_, ?_, ?_⟩
    · intro addr outside
      apply touches.frame
      rw [Multiset.mem_singleton]
      rintro rfl
      exact outside (Multiset.mem_cons_of_mem own)
    · refine linked_reparent rfl distinct written ?_ linked
      intro addr mem differ
      exact touches.frame addr (by simpa using differ)
    · rw [touches.frame _ other]
    · exact fun isNil => absurd isNil empty

/-- A subtree hangs below a context in memory, although not all of the tree
is in order. -/
structure Detached (before after : Rbtree) (top : Pointer) (ctx : Context Item) (shape : Shape)
    (parent : Pointer) : Prop where
  root : after.root = before.root
  sentinel : after.sentinel = before.sentinel
  around : LinkedContext before.sentinel after.memory top ctx (pointerOf before.sentinel shape)
  below : Linked before.sentinel after.memory parent shape
  black : (after.memory before.sentinel).color = .black
  hangs : shape = .nil → (after.memory before.sentinel).parent = parent

section

variable {tree : Rbtree} (ctx : Context Item) {frame : Frame Item} {side : Side} {color : Color}
  {child : Shape} {item : Item}

theorem detach_spec (new : Pointer)
    (rep : Represents tree (plug (frame :: ctx) (join side color child item .nil))) :
    ∃ first after top, tree.replaceChild .left (some frame.value.address) (some item.address)
        (pointerOf tree.sentinel child) = some first ∧
      first.store (pointerOf tree.sentinel child) (Node.setParent new) = some after ∧
      Detached tree after top (frame :: ctx) child new ∧
      after.memory item.address = tree.memory item.address := by
  obtain ⟨root, ⟨top, linked⟩, distinct, foreign, black⟩ := rep
  rw [linked_plug, linked_join, pointer_of_join] at linked
  obtain ⟨around, -, childLinked, -⟩ := linked
  simp only [addresses_plug, addresses_join, addresses_nil, Multiset.add_zero, Multiset.cons_add,
    Multiset.nodup_cons, Multiset.nodup_add, Multiset.mem_cons, Multiset.mem_add, not_or] at distinct foreign
  obtain ⟨⟨itemChild, itemContext⟩, childDistinct, contextDistinct, apart⟩ := distinct
  obtain ⟨sentinelItem, sentinelChild, sentinelContext⟩ := foreign
  have frameInside : frame.value.address ∈ contextAddresses (frame :: ctx) := by simp
  have frameChild := Multiset.disjoint_right.mp apart frameInside
  have frameItem := ne_of_mem_of_not_mem frameInside itemContext
  have frameSentinel := ne_of_mem_of_not_mem frameInside sentinelContext
  obtain ⟨first, replaced, firstRoot, firstTouches, firstAround⟩ :=
    replace_child_spec .left (pointerOf tree.sentinel child) around contextDistinct
      (pointer_ne_sibling itemContext (Ne.symm sentinelItem))
  have firstChild := linked_congr (fun addr mem =>
    firstTouches.frame addr (not_mem_single frameChild mem)) childLinked
  obtain ⟨after, stored, root, touches, below, sameColor, hangs⟩ :=
    set_parent_spec firstChild childDistinct sentinelChild
  refine ⟨first, after, top, replaced, stored, ⟨?_, ?_, ?_, below, ?_, hangs⟩, ?_⟩
  · rw [root, firstRoot]
  · rw [touches.sentinel, firstTouches.sentinel]
  · refine linked_context_congr (fun addr mem => touches.frame addr ?_) firstAround
    rw [Multiset.mem_cons, not_or]
    exact ⟨ne_of_mem_of_not_mem mem sentinelContext, Multiset.disjoint_right.mp apart mem⟩
  · rw [sameColor, firstTouches.frame _ (by simpa using Ne.symm frameSentinel), black]
  · rw [touches.frame _ (by simp [Ne.symm sentinelItem, itemChild]),
      firstTouches.frame _ (by simpa using Ne.symm frameItem)]

theorem unlink_self (rep : Represents tree (plug (frame :: ctx) (join side color child item .nil))) :
    ∃ after, tree.unlink (some item.address) (some item.address) (pointerOf tree.sentinel child) =
        some after ∧ after.sentinel = tree.sentinel ∧ Focused after (frame :: ctx) child := by
  obtain ⟨above, loaded⟩ := load_node (frame :: ctx) rep
  obtain ⟨first, after, top, replaced, stored, detached, -⟩ :=
    detach_spec ctx (some frame.value.address) rep
  have own := detached.sentinel
  have fewer : addresses (plug (frame :: ctx) (join side color child item .nil)) =
      item.address ::ₘ addresses (plug (frame :: ctx) child) := by
    rw [addresses_plug, addresses_join, addresses_nil, Multiset.add_zero, Multiset.cons_add, addresses_plug]
  obtain ⟨rootAddress, -, rootIs⟩ := pointer_of_plug tree.sentinel frame ctx
  refine ⟨after, ?_, own, ⟨?_, ⟨top, ?_⟩, ?_, ?_, ?_⟩, ?_⟩
  · simp [Rbtree.unlink, loaded, parentOf, replaced, stored]
  · rw [detached.root, rep.root, own, rootIs, rootIs]
  · rw [own, linked_plug]
    exact ⟨detached.around, detached.below⟩
  · have distinct := rep.distinct
    rw [fewer] at distinct
    exact (Multiset.nodup_cons.mp distinct).2
  · have foreign := rep.foreign
    rw [fewer, Multiset.mem_cons, not_or] at foreign
    rw [own]
    exact foreign.2
  · rw [own, detached.black]
  · intro next outer split empty
    injection split with isFirst
    rw [own, detached.hangs empty, isFirst]

end

theorem take_place_spec {top leftParent rightParent : Pointer}
    {color : Color} {left right : Shape} {item other : Item} (own : tree.sentinel = sentinel)
    (root : tree.root = pointerOf sentinel (plug ctx (join .left color left item right)))
    (around : LinkedContext sentinel tree.memory top ctx (some item.address))
    (here : tree.memory item.address = cell .left color item.key (pointerOf sentinel left)
      (pointerOf sentinel right) (parentOf top ctx))
    (leftLinked : Linked sentinel tree.memory leftParent left)
    (rightLinked : Linked sentinel tree.memory rightParent right)
    (key : (tree.memory other.address).key = other.key)
    (distinct : (other.address ::ₘ addresses (plug ctx (join .left color left item right))).Nodup)
    (foreign : sentinel ∉ other.address ::ₘ addresses (plug ctx (join .left color left item right))) :
    ∃ after, tree.takePlace (some item.address) (some other.address) = some after ∧
      after.root = pointerOf sentinel (plug ctx (join .left color left other right)) ∧
      after.sentinel = sentinel ∧
      Linked sentinel after.memory top (plug ctx (join .left color left other right)) ∧
      after.memory sentinel = tree.memory sentinel := by
  simp only [addresses_plug, addresses_join, Multiset.cons_add, Multiset.nodup_cons, Multiset.nodup_add,
    Multiset.mem_cons, Multiset.mem_add, not_or, Multiset.disjoint_add_left] at distinct foreign
  obtain ⟨⟨-, ⟨otherLeft, otherRight⟩, otherContext⟩,
    ⟨-, itemContext⟩, ⟨leftDistinct, rightDistinct, leftRight⟩, contextDistinct,
    leftContext, rightContext⟩ := distinct
  obtain ⟨sentinelOther, sentinelItem, ⟨sentinelLeft, sentinelRight⟩, sentinelContext⟩ := foreign
  obtain ⟨t1, stored1, root1, touches1, other1⟩ := store_spec tree other.address fun moved =>
    { moved with
      left := pointerOf sentinel left
      right := pointerOf sentinel right
      parent := parentOf top ctx
      color := color }
  have other1' : t1.memory other.address = cell .left color other.key (pointerOf sentinel left)
      (pointerOf sentinel right) (parentOf top ctx) := by
    rw [other1, ← key]
    rfl
  have own1 := touches1.sentinel.trans own
  have around1 := linked_context_congr (fun addr mem =>
    touches1.frame addr (not_mem_single otherContext mem)) around
  obtain ⟨t2, replaced, root2, touches2, around2⟩ :=
    replace_spec .left (join .left color left other right) (root1.trans root) (pointer_of_join _ _ _ _ _ _)
      around1 contextDistinct itemContext (Ne.symm sentinelItem)
  rw [pointer_of_join] at replaced around2
  have own2 := touches2.sentinel.trans own1
  have other2 := (touches2.frame _ otherContext).trans other1'
  have left2 : Linked sentinel t2.memory leftParent left := by
    refine linked_congr (fun addr mem => ?_) leftLinked
    rw [touches2.frame _ (Multiset.disjoint_left.mp leftContext mem),
      touches1.frame _ (not_mem_single otherLeft mem)]
  have right2 : Linked sentinel t2.memory rightParent right := by
    refine linked_congr (fun addr mem => ?_) rightLinked
    rw [touches2.frame _ (Multiset.disjoint_left.mp rightContext mem),
      touches1.frame _ (not_mem_single otherRight mem)]
  obtain ⟨t3, adopted3, root3, touches3, left3⟩ :=
    adopt_spec (some other.address) own2 left2 leftDistinct sentinelLeft
  have own3 := touches3.sentinel.trans own2
  have other3 := (touches3.frame _ otherLeft).trans other2
  have right3 := linked_congr (fun addr mem =>
    touches3.frame addr (Multiset.disjoint_right.mp leftRight mem)) right2
  obtain ⟨t4, adopted4, root4, touches4, right4⟩ :=
    adopt_spec (some other.address) own3 right3 rightDistinct sentinelRight
  have left4 := linked_congr (fun addr mem =>
    touches4.frame addr (Multiset.disjoint_left.mp leftRight mem)) left3
  have around4 : LinkedContext sentinel t4.memory top ctx (some other.address) := by
    refine linked_context_congr (fun addr mem => ?_) around2
    rw [touches4.frame _ (Multiset.disjoint_right.mp rightContext mem),
      touches3.frame _ (Multiset.disjoint_right.mp leftContext mem)]
  have other4 := (touches4.frame _ otherRight).trans other3
  refine ⟨t4, ?_, ?_, touches4.sentinel.trans own3, ?_, ?_⟩
  · have loadedItem : tree.load (some item.address) = some (cell .left color item.key
        (pointerOf sentinel left) (pointerOf sentinel right) (parentOf top ctx)) := by
      rw [load_some, here]
    have loaded2 : t2.load (some other.address) = some (cell .left color other.key
        (pointerOf sentinel left) (pointerOf sentinel right) (parentOf top ctx)) := by
      rw [load_some, other2]
    have loaded3 : t3.load (some other.address) = some (cell .left color other.key
        (pointerOf sentinel left) (pointerOf sentinel right) (parentOf top ctx)) := by
      rw [load_some, other3]
    simp [Rbtree.takePlace, loadedItem, cell, stored1, replaced, loaded2, adopted3, loaded3, adopted4]
  · rw [root4, root3, root2]
  · rw [linked_plug, linked_join, pointer_of_join]
    exact ⟨around4, other4, left4, right4⟩
  · rw [touches4.frame _ sentinelRight, touches3.frame _ sentinelLeft, touches2.frame _ sentinelContext,
      touches1.frame _ (by simpa using sentinelOther)]

theorem plug_right (ctx path : Context Item) (color : Color) (left shape : Shape) (item : Item) :
    plug (path ++ ⟨.right, color, item, left⟩ :: ctx) shape =
      plug ctx (join .left color left item (plug path shape)) := by
  rw [plug_append]
  rfl

section Successor

variable {tree : Rbtree} (ctx path : Context Item) {color shade : Color} {left right : Shape}
variable {item other : Item}

theorem addresses_successor :
    addresses (plug ctx (join .left color left item (plug path (join .left shade .nil other right)))) =
      other.address ::ₘ addresses (plug ctx (join .left color left item (plug path right))) := by
  simp only [addresses_plug, addresses_join, addresses_nil, Multiset.cons_add, Multiset.add_cons,
    Multiset.zero_add]
  exact Multiset.cons_swap _ _ _

theorem addresses_exchange (right : Shape) :
    other.address ::ₘ addresses (plug ctx (join .left color left item right)) =
      item.address ::ₘ addresses (plug ctx (join .left color left other right)) := by
  simp only [addresses_plug, addresses_join, Multiset.cons_add]
  exact Multiset.cons_swap _ _ _

section

variable
  (rep : Represents tree
    (plug ctx (join .left color left item (plug path (join .left shade .nil other right)))))
include rep

theorem detach_successor : ∃ parent first after top,
      tree.replaceChild .left parent (some other.address) (pointerOf tree.sentinel right) = some first ∧
      first.store (pointerOf tree.sentinel right)
        (Node.setParent (if parent = some item.address then some other.address else parent)) = some after ∧
      (∃ node, tree.load (some other.address) = some node ∧ node.parent = parent) ∧
      (∃ below, Detached tree after top (⟨.right, color, item, left⟩ :: ctx) (plug path right) below) ∧
      (after.memory other.address).key = other.key ∧ (right = .nil → (after.memory tree.sentinel).parent =
        parentOf none (path ++ ⟨.right, color, other, left⟩ :: ctx)) := by
  have deep := rep
  rw [← plug_right] at deep
  obtain ⟨above, loaded⟩ := load_node _ deep
  have key : (tree.memory other.address).key = other.key := by
    injection loaded with loaded
    rw [loaded, cell_key]
  cases path with
  | nil =>
    obtain ⟨first, after, top, replaced, stored, detached, same⟩ :=
      detach_spec ctx (some other.address) (show Represents tree (plug
        (⟨.right, color, item, left⟩ :: ctx) (join .right shade right other .nil)) from deep)
    refine ⟨some item.address, first, after, top, replaced, ?_, ⟨_, loaded, cell_parent _ _ _ _ _ _⟩,
      ⟨_, detached⟩, by rw [same, key], detached.hangs⟩
    rw [if_pos rfl, stored]
  | cons frame path =>
    have differ : frame.value.address ≠ item.address := by
      have distinct := rep.distinct
      rw [addresses_plug, addresses_join, addresses_plug, context_addresses_cons] at distinct
      simp only [Multiset.cons_add, Multiset.add_cons, Multiset.nodup_cons, Multiset.mem_cons, not_or]
        at distinct
      exact Ne.symm distinct.1.1
    obtain ⟨first, after, top, replaced, stored, detached, same⟩ :=
      detach_spec (path ++ ⟨.right, color, item, left⟩ :: ctx) (some frame.value.address)
        (show Represents tree (plug (frame :: (path ++ ⟨.right, color, item, left⟩ :: ctx))
          (join .right shade right other .nil)) from deep)
    have whole : Linked tree.sentinel after.memory top
        (plug (⟨.right, color, item, left⟩ :: ctx) (plug (frame :: path) right)) := by
      rw [← plug_append, linked_plug]
      exact ⟨detached.around, detached.below⟩
    rw [linked_plug] at whole
    have filled : plug (frame :: path) right ≠ .nil := plug_ne_nil path (join_ne_nil _ _ _ _ _)
    refine ⟨some frame.value.address, first, after, top, replaced, ?_,
      ⟨_, loaded, cell_parent _ _ _ _ _ _⟩,
      ⟨_, detached.root, detached.sentinel, whole.1, whole.2, detached.black,
        fun empty => absurd empty filled⟩, by rw [same, key], detached.hangs⟩
    rw [if_neg (by simpa using differ), stored]

theorem unlink_successor :
    ∃ after, tree.unlink (some item.address) (some other.address) (pointerOf tree.sentinel right) =
        some after ∧ after.sentinel = tree.sentinel ∧
      Focused after (path ++ ⟨.right, color, other, left⟩ :: ctx) right := by
  obtain ⟨parent, first, second, top, replaced, stored, ⟨node, loaded, above⟩, ⟨below, detached⟩, key,
    hangs⟩ := detach_successor ctx path rep
  have distinct := rep.distinct
  have foreign := rep.foreign
  rw [addresses_successor] at distinct foreign
  obtain ⟨here, leftLinked, around⟩ := detached.around
  have root : second.root =
      pointerOf tree.sentinel (plug ctx (join .left color left item (plug path right))) := by
    rw [detached.root, rep.root]
    cases ctx with
    | nil => simp [plug]
    | cons frame ctx =>
      obtain ⟨addr, -, rootIs⟩ := pointer_of_plug tree.sentinel frame ctx
      rw [rootIs, rootIs]
  obtain ⟨after, placed, newRoot, own, linked, cell⟩ := take_place_spec detached.sentinel root around
    here leftLinked detached.below key distinct foreign
  have differ : other.address ≠ item.address := by
    rw [addresses_plug, addresses_join] at distinct
    simp only [Multiset.cons_add, Multiset.nodup_cons, Multiset.mem_cons, not_or] at distinct
    exact distinct.1.1
  rw [addresses_exchange] at distinct foreign
  refine ⟨after, ?_, own, ⟨?_, ⟨top, ?_⟩, ?_, ?_, ?_⟩, ?_⟩
  · simp [Rbtree.unlink, loaded, above, replaced, differ, stored, placed]
  · rw [newRoot, own, plug_right]
  · rwa [own, plug_right]
  · rw [plug_right]
    exact (Multiset.nodup_cons.mp distinct).2
  · rw [own, plug_right]
    exact fun inside => foreign (Multiset.mem_cons_of_mem inside)
  · rw [own, cell, detached.black]
  · intro frame outer split empty
    rw [own, cell, hangs empty, split, parentOf]

end

end Successor

theorem focused_store {addr : Address} (change : Node → Node) (focused : Focused tree ctx shape)
    (outside : addr ∉ addresses (plug ctx shape)) (foreign : addr ≠ tree.sentinel) :
    ∃ after, tree.store (some addr) change = some after ∧ after.sentinel = tree.sentinel ∧
      Focused after ctx shape := by
  obtain ⟨after, stored, root, touches, -⟩ := store_spec tree addr change
  have cell := touches.frame tree.sentinel (by simpa using Ne.symm foreign)
  have own := touches.sentinel
  refine ⟨after, stored, own, ⟨?_, ?_, focused.represents.distinct, ?_, ?_⟩, ?_⟩
  · rw [root, own, focused.represents.root]
  · obtain ⟨top, linked⟩ := focused.represents.linked
    rw [own]
    exact ⟨top, linked_congr (fun other mem =>
      touches.frame other (not_mem_single outside mem)) linked⟩
  · rw [own]
    exact focused.represents.foreign
  · rw [own, cell, focused.represents.sentinelBlack]
  · intro frame outer split empty
    rw [own, cell, focused.hangs frame outer split empty]

end ServerCore.NginxRbtreeUnlink
