import ServerCore.NginxRbtree
import Mathlib.Data.Multiset.UnionInter

/-!
# The tree that a memory holds

`Represents` says that the nodes reachable from the root form a given tree, each
with its key, its color, both children and its parent. It does not say what the
parent of the root is: a deletion at the root leaves it pointing to the deleted
node.
-/

namespace ServerCore.NginxRbtreeShape

open RedBlackTree RedBlackTree.Tree NginxRbtree Function

variable {item : Item}
variable {color : Color} {middle : Shape}

structure Item where
  address : Address
  key : Nat
  deriving DecidableEq

abbrev Shape := RedBlackTree.Tree Item

def pointerOf (sentinel : Address) : Shape → Pointer
  | .nil => some sentinel
  | .node _ _ item _ => some item.address

@[simp] theorem pointer_of_nil (sentinel : Address) : pointerOf sentinel .nil = some sentinel := rfl

@[simp] theorem pointer_of_join (sentinel : Address) (side : Side) (color : Color) (near far : Shape)
    (item : Item) : pointerOf sentinel (join side color near item far) = some item.address := by
  cases side <;> rfl

def cell (side : Side) (color : Color) (key : Nat) (near far parent : Pointer) : Node :=
  match side with
  | .left => ⟨key, near, far, parent, color⟩
  | .right => ⟨key, far, near, parent, color⟩

section Cell

variable (side : Side) (color other : Color) (key : Nat) (near far parent pointer : Pointer)

@[simp] theorem cell_near : (cell side color key near far parent).child side = near := by
  cases side <;> rfl

@[simp] theorem cell_far : (cell side color key near far parent).child side.flip = far := by
  cases side <;> rfl

@[simp] theorem cell_color : (cell side color key near far parent).color = color := by
  cases side <;> rfl

@[simp] theorem cell_parent : (cell side color key near far parent).parent = parent := by
  cases side <;> rfl

@[simp] theorem cell_key : (cell side color key near far parent).key = key := by
  cases side <;> rfl

@[simp] theorem cell_set_near : (cell side color key near far parent).setChild side pointer =
    cell side color key pointer far parent := by
  cases side <;> rfl

@[simp] theorem cell_set_far : (cell side color key near far parent).setChild side.flip pointer =
    cell side color key near pointer parent := by
  cases side <;> rfl

@[simp] theorem cell_set_parent : (cell side color key near far parent).setParent pointer =
    cell side color key near far pointer := by
  cases side <;> rfl

@[simp] theorem cell_set_color : (cell side color key near far parent).setColor other =
    cell side other key near far parent := by
  cases side <;> rfl

theorem side_of_cell (differ : near ≠ far) :
    Rbtree.sideOf (cell side color key near far parent) near = side := by
  cases side with
  | left => simp [Rbtree.sideOf, cell]
  | right => simp [Rbtree.sideOf, cell, differ]

end Cell

def addresses (shape : Shape) : Multiset Address := shape.members.map Item.address

def contextAddresses (ctx : Context Item) : Multiset Address :=
  (contextMembers ctx).map Item.address

@[simp] theorem addresses_nil : addresses .nil = 0 := rfl

@[simp] theorem addresses_join (side : Side) (color : Color) (near far : Shape) (item : Item) :
    addresses (join side color near item far) = item.address ::ₘ (addresses near + addresses far) := by
  simp [addresses]

@[simp] theorem addresses_paint (color : Color) (shape : Shape) :
    addresses (shape.paint color) = addresses shape := by
  simp [addresses]

@[simp] theorem addresses_plug (ctx : Context Item) (shape : Shape) :
    addresses (plug ctx shape) = addresses shape + contextAddresses ctx := by
  simp [addresses, contextAddresses]

@[simp] theorem context_addresses_nil : contextAddresses [] = 0 := rfl

@[simp] theorem context_addresses_cons (frame : Frame Item) (ctx : Context Item) :
    contextAddresses (frame :: ctx) =
      frame.value.address ::ₘ (addresses frame.sibling + contextAddresses ctx) := by
  simp [addresses, contextAddresses]

/-- The nodes of the shape are in memory, the root with the given parent. -/
def Linked (sentinel : Address) (memory : Address → Node) : Pointer → Shape → Prop
  | _, .nil => True
  | parent, .node color left item right =>
    memory item.address =
      ⟨item.key, pointerOf sentinel left, pointerOf sentinel right, parent, color⟩ ∧
    Linked sentinel memory (some item.address) left ∧
    Linked sentinel memory (some item.address) right

/-- The parent of what is plugged into the context, `top` above its root. -/
def parentOf (top : Pointer) : Context Item → Pointer
  | [] => top
  | frame :: _ => some frame.value.address

/-- The nodes of the context are in memory around a subtree with root `hole`. -/
def LinkedContext (sentinel : Address) (memory : Address → Node) (top : Pointer) :
    Context Item → Pointer → Prop
  | [], _ => True
  | frame :: ctx, hole =>
    memory frame.value.address = cell frame.side frame.color frame.value.key hole
      (pointerOf sentinel frame.sibling) (parentOf top ctx) ∧
    Linked sentinel memory (some frame.value.address) frame.sibling ∧
    LinkedContext sentinel memory top ctx (some frame.value.address)

variable {side : Side} {near far shape : Shape} {addr : Address} {frame : Frame Item} {tree : Rbtree}

section Linked

variable {sentinel : Address} {memory changed : Address → Node} {parent top hole : Pointer}

@[simp] theorem linked_nil : Linked sentinel memory parent .nil := trivial

theorem linked_join : Linked sentinel memory parent (join side color near item far) ↔
      memory item.address = cell side color item.key (pointerOf sentinel near)
        (pointerOf sentinel far) parent ∧ Linked sentinel memory (some item.address) near ∧
      Linked sentinel memory (some item.address) far := by
  cases side with
  | left => rfl
  | right =>
    rw [join, Linked, cell]
    tauto

variable {ctx : Context Item}

theorem linked_plug : Linked sentinel memory top (plug ctx shape) ↔
      LinkedContext sentinel memory top ctx (pointerOf sentinel shape) ∧
        Linked sentinel memory (parentOf top ctx) shape := by
  induction ctx generalizing shape with
  | nil => simp [plug, LinkedContext, parentOf]
  | cons frame ctx ih =>
    rw [plug, ih, linked_join, pointer_of_join, LinkedContext, parentOf]
    tauto

theorem linked_congr (same : ∀ addr ∈ addresses shape, changed addr = memory addr)
    (linked : Linked sentinel memory parent shape) : Linked sentinel changed parent shape := by
  induction shape generalizing parent with
  | nil => trivial
  | node color left item right leftIh rightIh =>
    have split : addresses (.node color left item right) =
      item.address ::ₘ (addresses left + addresses right) := addresses_join .left color left right item
    rw [split] at same
    refine ⟨?_, leftIh (fun addr mem => same addr ?_) linked.2.1,
      rightIh (fun addr mem => same addr ?_) linked.2.2⟩
    · rw [same item.address (Multiset.mem_cons_self _ _), linked.1]
    · simp [mem]
    · simp [mem]

theorem linked_context_congr (same : ∀ addr ∈ contextAddresses ctx, changed addr = memory addr)
    (linked : LinkedContext sentinel memory top ctx hole) :
    LinkedContext sentinel changed top ctx hole := by
  induction ctx generalizing hole with
  | nil => trivial
  | cons frame ctx ih =>
    rw [context_addresses_cons] at same
    refine ⟨?_, linked_congr (fun addr mem => same addr ?_) linked.2.1,
      ih (fun addr mem => same addr ?_) linked.2.2⟩
    · rw [same _ (Multiset.mem_cons_self _ _), linked.1]
    · simp [mem]
    · simp [mem]

theorem linked_reparent {other : Pointer}
    (isJoin : shape = join side color near item far)
    (distinct : (addresses shape).Nodup)
    (root : changed item.address = (memory item.address).setParent other)
    (same : ∀ addr ∈ addresses shape, addr ≠ item.address → changed addr = memory addr)
    (linked : Linked sentinel memory parent shape) : Linked sentinel changed other shape := by
  subst isJoin
  rw [linked_join] at linked ⊢
  rw [addresses_join] at distinct same
  obtain ⟨notBelow, -⟩ := Multiset.nodup_cons.mp distinct
  have below : ∀ addr ∈ addresses near + addresses far, changed addr = memory addr := by
    intro addr mem
    apply same addr (Multiset.mem_cons_of_mem mem)
    rintro rfl
    exact notBelow mem
  refine ⟨by rw [root, linked.1, cell_set_parent], linked_congr ?_ linked.2.1,
    linked_congr ?_ linked.2.2⟩
  · intro addr mem
    exact below addr (Multiset.mem_add.mpr (.inl mem))
  · intro addr mem
    exact below addr (Multiset.mem_add.mpr (.inr mem))

end Linked

theorem pointer_of_plug (sentinel : Address) (frame : Frame Item) (ctx : Context Item) :
    ∃ addr ∈ contextAddresses (frame :: ctx), ∀ shape,
      pointerOf sentinel (plug (frame :: ctx) shape) = some addr := by
  induction ctx generalizing frame with
  | nil => exact ⟨frame.value.address, by simp, fun shape => by simp [plug]⟩
  | cons next ctx ih =>
    obtain ⟨addr, mem, root⟩ := ih next
    refine ⟨addr, ?_, fun shape => root _⟩
    rw [context_addresses_cons, Multiset.mem_cons, Multiset.mem_add]
    exact .inr (.inr mem)

/-- A change of memory at the addresses in `footprint` only. -/
structure Touches (before after : Rbtree) (footprint : Multiset Address) : Prop where
  sentinel : after.sentinel = before.sentinel
  frame : ∀ addr ∉ footprint, after.memory addr = before.memory addr

theorem store_spec (tree : Rbtree) (addr : Address) (change : Node → Node) :
    ∃ after, tree.store (some addr) change = some after ∧ after.root = tree.root ∧
      Touches tree after {addr} ∧ after.memory addr = change (tree.memory addr) := by
  refine ⟨_, rfl, rfl, ⟨rfl, ?_⟩, update_self _ _ _⟩
  intro other outside
  exact update_of_ne (by simpa using outside) _ _

theorem not_mem_single {stored : Address} {footprint : Multiset Address}
    (outside : stored ∉ footprint) (mem : addr ∈ footprint) : addr ∉ ({stored} : Multiset Address) := by
  rw [Multiset.mem_singleton]
  rintro rfl
  exact outside mem

section Steps

variable {tree : Rbtree} {sentinel : Address} {top : Pointer} {ctx : Context Item}

variable {old : Pointer}

theorem adopt_spec (new : Pointer) (own : tree.sentinel = sentinel)
    (linked : Linked sentinel tree.memory old shape) (distinct : (addresses shape).Nodup)
    (foreign : sentinel ∉ addresses shape) :
    ∃ after, tree.adopt (pointerOf sentinel shape) new = some after ∧ after.root = tree.root ∧
      Touches tree after (addresses shape) ∧ Linked sentinel after.memory new shape := by
  subst own
  by_cases empty : shape = .nil
  · subst empty
    exact ⟨tree, by simp [Rbtree.adopt], rfl, ⟨rfl, fun _ _ => rfl⟩, trivial⟩
  · obtain ⟨color, near, item, far, rfl⟩ := exists_join .left empty
    have own : item.address ∈ addresses (join .left color near item far) := by simp
    obtain ⟨after, stored, root, touches, written⟩ :=
      store_spec tree item.address (Node.setParent new)
    refine ⟨after, ?_, root, ⟨touches.sentinel, ?_⟩, ?_⟩
    · have other : item.address ≠ tree.sentinel := fun same => foreign (same ▸ own)
      rw [Rbtree.adopt, pointer_of_join, if_pos (by simpa using other), stored]
    · intro addr outside
      apply touches.frame
      rw [Multiset.mem_singleton]
      rintro rfl
      exact outside own
    · refine linked_reparent rfl distinct written ?_ linked
      intro addr mem differ
      exact touches.frame addr (by simpa using differ)

theorem set_hole_spec (new : Pointer) (linked : LinkedContext sentinel tree.memory top (frame :: ctx) old)
    (distinct : (contextAddresses (frame :: ctx)).Nodup) :
    ∃ after, tree.store (some frame.value.address) (Node.setChild frame.side new) = some after ∧
      after.root = tree.root ∧ Touches tree after {frame.value.address} ∧
      LinkedContext sentinel after.memory top (frame :: ctx) new := by
  obtain ⟨here, siblingLinked, above⟩ := linked
  rw [context_addresses_cons, Multiset.nodup_cons, Multiset.mem_add, not_or] at distinct
  obtain ⟨⟨notSibling, notAbove⟩, -⟩ := distinct
  obtain ⟨after, stored, root, touches, written⟩ :=
    store_spec tree frame.value.address (Node.setChild frame.side new)
  refine ⟨after, stored, root, touches, ?_, ?_, ?_⟩
  · rw [written, here, cell_set_near]
  · exact linked_congr (fun addr mem =>
      touches.frame addr (not_mem_single notSibling mem)) siblingLinked
  · exact linked_context_congr (fun addr mem =>
      touches.frame addr (not_mem_single notAbove mem)) above

theorem replace_child_spec (side : Side) (new : Pointer)
    (linked : LinkedContext sentinel tree.memory top (frame :: ctx) old)
    (distinct : (contextAddresses (frame :: ctx)).Nodup)
    (single : old ≠ pointerOf sentinel frame.sibling) :
    ∃ after, tree.replaceChild side (some frame.value.address) old new = some after ∧
      after.root = tree.root ∧ Touches tree after {frame.value.address} ∧
      LinkedContext sentinel after.memory top (frame :: ctx) new := by
  obtain ⟨after, stored, rest⟩ := set_hole_spec new linked distinct
  refine ⟨after, ?_, rest⟩
  rw [Rbtree.replaceChild, Rbtree.load, Option.map_some, Option.bind_some, linked.1]
  by_cases sameSide : side = frame.side
  · rw [sameSide, cell_near, if_pos rfl, stored]
  · rw [eq_flip_of_ne sameSide, cell_far, if_neg single, side_flip_flip, stored]

theorem pointer_ne_sibling (outside : addr ∉ contextAddresses (frame :: ctx))
    (foreign : addr ≠ sentinel) : some addr ≠ pointerOf sentinel frame.sibling := by
  by_cases empty : frame.sibling = .nil
  · rw [empty, pointer_of_nil]
    simpa using foreign
  · obtain ⟨color, near, item, far, isJoin⟩ := exists_join .left empty
    rw [isJoin, pointer_of_join]
    intro same
    injection same with same
    apply outside
    simp [isJoin, same]

theorem pointer_ne_root (outside : addr ∉ contextAddresses (frame :: ctx)) :
    some addr ≠ pointerOf sentinel (plug (frame :: ctx) shape) := by
  obtain ⟨rootAddress, mem, rootIs⟩ := pointer_of_plug sentinel frame ctx
  rw [rootIs]
  intro same
  injection same with same
  exact outside (same ▸ mem)

theorem replace_spec (side : Side) (other : Shape)
    (root : tree.root = pointerOf sentinel (plug ctx shape))
    (start : pointerOf sentinel shape = some addr)
    (linked : LinkedContext sentinel tree.memory top ctx (some addr))
    (distinct : (contextAddresses ctx).Nodup) (outside : addr ∉ contextAddresses ctx)
    (foreign : addr ≠ sentinel) :
    ∃ after, tree.replace side (parentOf top ctx) (some addr) (pointerOf sentinel other) = some after ∧
      after.root = pointerOf sentinel (plug ctx other) ∧ Touches tree after (contextAddresses ctx) ∧
      LinkedContext sentinel after.memory top ctx (pointerOf sentinel other) := by
  cases ctx with
  | nil =>
    rw [plug, start] at root
    exact ⟨{ tree with root := pointerOf sentinel other },
      by rw [Rbtree.replace, if_pos root.symm], rfl, ⟨rfl, fun _ _ => rfl⟩, trivial⟩
  | cons frame ctx =>
    have notRoot : some addr ≠ tree.root := by
      rw [root]
      exact pointer_ne_root outside
    obtain ⟨after, replaced, sameRoot, touches, relinked⟩ := replace_child_spec side
      (pointerOf sentinel other) linked distinct (pointer_ne_sibling outside foreign)
    obtain ⟨rootAddress, -, rootIs⟩ := pointer_of_plug sentinel frame ctx
    refine ⟨after, ?_, ?_, ⟨touches.sentinel, ?_⟩, relinked⟩
    · rw [Rbtree.replace, if_neg notRoot, parentOf, replaced]
    · rw [sameRoot, root, rootIs, rootIs]
    · intro addr outside
      apply touches.frame
      rw [Multiset.mem_singleton]
      rintro rfl
      exact outside (by simp)

end Steps

structure Represents (tree : Rbtree) (shape : Shape) : Prop where
  root : tree.root = pointerOf tree.sentinel shape
  linked : ∃ top, Linked tree.sentinel tree.memory top shape
  distinct : (addresses shape).Nodup
  foreign : tree.sentinel ∉ addresses shape
  sentinelBlack : (tree.memory tree.sentinel).color = .black

structure Reshapes (before after : Rbtree) (shape : Shape) : Prop where
  represents : Represents after shape
  sentinel : after.sentinel = before.sentinel
  cell : after.memory before.sentinel = before.memory before.sentinel

theorem load_some (tree : Rbtree) (addr : Address) : tree.load (some addr) = some (tree.memory addr) := rfl

theorem addresses_rotate (ctx : Context Item) (side : Side) (upper lower upper' lower' : Color)
    (near middle far : Shape) (x y : Item) :
    addresses (plug ctx (join side upper' (join side lower' near x middle) y far)) =
      addresses (plug ctx (join side upper near x (join side lower middle y far))) := by
  simp only [addresses_plug, addresses_join, Multiset.cons_add, Multiset.add_cons]
  rw [Multiset.cons_swap]
  simp only [Multiset.add_assoc]

theorem rotate_reshapes (ctx : Context Item) {upper lower : Color} {x y : Item} (rep : Represents tree
      (plug ctx (join side upper near x (join side lower middle y far)))) :
    ∃ after, tree.rotate side (some x.address) = some after ∧
      Reshapes tree after (plug ctx (join side lower (join side upper near x middle) y far)) := by
  obtain ⟨root, ⟨top, linked⟩, distinct, foreign, black⟩ := rep
  have same := addresses_rotate ctx side upper lower lower upper near middle far x y
  have distinct' := distinct
  have foreign' := foreign
  rw [← same] at distinct' foreign'
  obtain ⟨sentinel, own⟩ : ∃ sentinel, tree.sentinel = sentinel := ⟨_, rfl⟩
  rw [own] at root linked foreign foreign' black
  rw [linked_plug, linked_join, linked_join] at linked
  obtain ⟨around, xCell, nearLinked, yCell, middleLinked, farLinked⟩ := linked
  simp only [pointer_of_join] at around xCell yCell
  simp only [addresses_plug, addresses_join, Multiset.cons_add, Multiset.add_cons, Multiset.nodup_cons,
    Multiset.nodup_add, Multiset.mem_cons, Multiset.mem_add, not_or, Multiset.disjoint_add_left,
    Multiset.disjoint_add_right] at distinct foreign
  obtain ⟨⟨xy, ⟨xNear, xMiddle, xFar⟩, xContext⟩, ⟨⟨yNear, yMiddle, yFar⟩, yContext⟩,
    ⟨-, ⟨middleDistinct, -, middleFar⟩, nearMiddle, -⟩, contextDistinct,
    nearContext, middleContext, farContext⟩ := distinct
  obtain ⟨sx, sy, ⟨-, sMiddle, -⟩, sContext⟩ := foreign
  obtain ⟨t1, stored1, root1, touches1, x1⟩ :=
    store_spec tree x.address (Node.setChild side.flip (pointerOf sentinel middle))
  rw [xCell, cell_set_far] at x1
  have middle1 : Linked sentinel t1.memory (some y.address) middle :=
    linked_congr (fun addr mem => touches1.frame addr (not_mem_single xMiddle mem)) middleLinked
  have own1 := touches1.sentinel.trans own
  obtain ⟨t2, adopted, root2, touches2, middle2⟩ :=
    adopt_spec (some x.address) own1 middle1 middleDistinct sMiddle
  have own2 := touches2.sentinel.trans own1
  have x2 := (touches2.frame x.address xMiddle).trans x1
  have y2 : t2.memory y.address = tree.memory y.address := by
    rw [touches2.frame _ yMiddle, touches1.frame _ (by simpa using Ne.symm xy)]
  obtain ⟨t3, stored3, root3, touches3, y3⟩ :=
    store_spec t2 y.address (Node.setParent (parentOf top ctx))
  rw [y2, yCell, cell_set_parent] at y3
  have own3 := touches3.sentinel.trans own2
  have around3 : LinkedContext sentinel t3.memory top ctx (some x.address) := by
    refine linked_context_congr (fun addr mem => ?_) around
    rw [touches3.frame _ (not_mem_single yContext mem),
      touches2.frame _ (Multiset.disjoint_right.mp middleContext mem),
      touches1.frame _ (not_mem_single xContext mem)]
  have rootBefore : t3.root = pointerOf sentinel
      (plug ctx (join side upper near x (join side lower middle y far))) := by
    rw [root3, root2, root1, root]
  obtain ⟨t4, replaced, root4, touches4, around4⟩ :=
    replace_spec side (join side lower (join side upper near x middle) y far) rootBefore
      (pointer_of_join _ _ _ _ _ _) around3 contextDistinct xContext (Ne.symm sx)
  rw [pointer_of_join] at replaced around4
  have own4 := touches4.sentinel.trans own3
  obtain ⟨t5, stored5, root5, touches5, y5⟩ := store_spec t4 y.address (Node.setChild side (some x.address))
  rw [touches4.frame _ yContext, y3, cell_set_near] at y5
  have own5 := touches5.sentinel.trans own4
  obtain ⟨t6, stored6, root6, touches6, x6⟩ := store_spec t5 x.address (Node.setParent (some y.address))
  rw [touches5.frame _ (by simpa using xy), touches4.frame _ xContext,
    touches3.frame _ (by simpa using xy), x2,
    cell_set_parent] at x6
  have own6 := touches6.sentinel.trans own5
  have unchanged : ∀ addr, addr ≠ x.address → addr ≠ y.address → addr ∉ addresses middle →
      addr ∉ contextAddresses ctx → t6.memory addr = tree.memory addr := by
    intro addr notX notY notMiddle notContext
    rw [touches6.frame _ (by simpa using notX), touches5.frame _ (by simpa using notY),
      touches4.frame _ notContext, touches3.frame _ (by simpa using notY), touches2.frame _ notMiddle,
      touches1.frame _ (by simpa using notX)]
  have near6 : Linked sentinel t6.memory (some x.address) near := by
    refine linked_congr (fun addr mem => ?_) nearLinked
    exact unchanged addr (ne_of_mem_of_not_mem mem xNear) (ne_of_mem_of_not_mem mem yNear)
      (Multiset.disjoint_left.mp nearMiddle mem) (Multiset.disjoint_left.mp nearContext mem)
  have far6 : Linked sentinel t6.memory (some y.address) far := by
    refine linked_congr (fun addr mem => ?_) farLinked
    exact unchanged addr (ne_of_mem_of_not_mem mem xFar) (ne_of_mem_of_not_mem mem yFar)
      (Multiset.disjoint_right.mp middleFar mem) (Multiset.disjoint_left.mp farContext mem)
  have middle6 : Linked sentinel t6.memory (some x.address) middle := by
    refine linked_congr (fun addr mem => ?_) middle2
    rw [touches6.frame _ (not_mem_single xMiddle mem), touches5.frame _ (not_mem_single yMiddle mem),
      touches4.frame _ (Multiset.disjoint_left.mp middleContext mem),
      touches3.frame _ (not_mem_single yMiddle mem)]
  have around6 : LinkedContext sentinel t6.memory top ctx (some y.address) := by
    refine linked_context_congr (fun addr mem => ?_) around4
    rw [touches6.frame _ (not_mem_single xContext mem),
      touches5.frame _ (not_mem_single yContext mem)]
  have y6 := (touches6.frame y.address (by simpa using Ne.symm xy)).trans y5
  have sentinelCell := unchanged sentinel sx sy sMiddle sContext
  refine ⟨t6, ?_, ⟨?_, ⟨top, ?_⟩, distinct', ?_, ?_⟩, ?_, ?_⟩
  · simp [Rbtree.rotate, load_some, xCell, yCell, stored1, adopted, x2, stored3, replaced, stored5, stored6]
  · rw [root6, root5, root4, own6]
  · rw [own6, linked_plug, linked_join, linked_join, pointer_of_join, pointer_of_join]
    exact ⟨around6, y6, ⟨x6, near6, middle6⟩, far6⟩
  · rwa [own6]
  · rwa [own6, sentinelCell]
  · rw [own6, own]
  · rwa [own]

theorem reshapes_trans {first second third : Rbtree} {last : Shape}
    (left : Reshapes first second middle) (right : Reshapes second third last) :
    Reshapes first third last where
  represents := right.represents
  sentinel := right.sentinel.trans left.sentinel
  cell := by rw [← left.cell, ← left.sentinel, right.cell]

theorem paint_reshapes (ctx : Context Item) (color : Color)
    (filled : shape ≠ .nil) (rep : Represents tree (plug ctx shape)) :
    ∃ after, tree.store (pointerOf tree.sentinel shape) (Node.setColor color) = some after ∧
      Reshapes tree after (plug ctx (shape.paint color)) := by
  obtain ⟨old, near, item, far, rfl⟩ := exists_join .left filled
  obtain ⟨root, ⟨top, linked⟩, distinct, foreign, black⟩ := rep
  rw [linked_plug, linked_join] at linked
  obtain ⟨around, here, nearLinked, farLinked⟩ := linked
  have same : addresses (plug ctx ((join .left old near item far).paint color)) =
      addresses (plug ctx (join .left old near item far)) := by
    simp
  have distinct' := distinct
  have foreign' := foreign
  rw [← same] at distinct' foreign'
  simp only [addresses_plug, addresses_join, Multiset.cons_add, Multiset.nodup_cons, Multiset.mem_cons,
    Multiset.mem_add, not_or] at distinct foreign
  obtain ⟨⟨⟨notNear, notFar⟩, notContext⟩, -⟩ := distinct
  obtain ⟨after, stored, sameRoot, touches, written⟩ :=
    store_spec tree item.address (Node.setColor color)
  rw [here, cell_set_color] at written
  have sentinelCell := touches.frame tree.sentinel (by simpa using foreign.1)
  refine ⟨after, ?_, ⟨?_, ⟨top, ?_⟩, distinct', ?_, ?_⟩, touches.sentinel, sentinelCell⟩
  · rw [pointer_of_join, stored]
  · rw [sameRoot, root, touches.sentinel]
    cases ctx with
    | nil => simp [plug]
    | cons frame ctx =>
      obtain ⟨addr, -, rootIs⟩ := pointer_of_plug tree.sentinel frame ctx
      rw [rootIs, rootIs]
  · rw [touches.sentinel, linked_plug, paint_join, linked_join, pointer_of_join]
    refine ⟨linked_context_congr (fun addr mem =>
      touches.frame addr (not_mem_single notContext mem)) around, written, ?_, ?_⟩
    · exact linked_congr (fun addr mem =>
        touches.frame addr (not_mem_single notNear mem)) nearLinked
    · exact linked_congr (fun addr mem =>
        touches.frame addr (not_mem_single notFar mem)) farLinked
  · rwa [touches.sentinel]
  · rw [touches.sentinel, sentinelCell, black]

theorem color_reshapes (ctx : Context Item) {old : Color} (color : Color)
    (rep : Represents tree (plug ctx (join side old near item far))) :
    ∃ after, tree.store (some item.address) (Node.setColor color) = some after ∧
      Reshapes tree after (plug ctx (join side color near item far)) := by
  obtain ⟨after, stored, reshapes⟩ :=
    paint_reshapes ctx color (join_ne_nil side old near far item) rep
  rw [pointer_of_join] at stored
  rw [paint_join] at reshapes
  exact ⟨after, stored, reshapes⟩

section Reading

variable {tree : Rbtree} (ctx : Context Item)

theorem plug_sibling (side : Side) (color : Color) (item : Item) (sibling shape : Shape) :
    plug (⟨side, color, item, sibling⟩ :: ctx) shape =
      plug (⟨side.flip, color, item, shape⟩ :: ctx) sibling := by
  rw [plug, plug, join_flip]

theorem load_node (rep : Represents tree (plug ctx (join side color near item far))) :
    ∃ top, tree.load (some item.address) =
      some (cell side color item.key (pointerOf tree.sentinel near) (pointerOf tree.sentinel far)
        (parentOf top ctx)) := by
  obtain ⟨top, linked⟩ := rep.linked
  rw [linked_plug, linked_join] at linked
  exact ⟨top, by rw [load_some, linked.2.1]⟩

theorem load_color (rep : Represents tree (plug ctx shape)) :
    ∃ node, tree.load (pointerOf tree.sentinel shape) = some node ∧ node.color = shape.color := by
  by_cases empty : shape = .nil
  · subst empty
    exact ⟨_, rfl, rep.sentinelBlack⟩
  · obtain ⟨color, near, item, far, rfl⟩ := exists_join .left empty
    obtain ⟨top, loaded⟩ := load_node ctx rep
    exact ⟨_, by rw [pointer_of_join, loaded], by rw [cell_color, color_join]⟩

theorem hole_ne_root (rep : Represents tree (plug (frame :: ctx) shape)) :
    pointerOf tree.sentinel shape ≠ tree.root := by
  obtain ⟨rootAddress, mem, rootIs⟩ := pointer_of_plug tree.sentinel frame ctx
  rw [rep.root, rootIs]
  have distinct := rep.distinct
  have foreign := rep.foreign
  rw [addresses_plug] at distinct foreign
  intro same
  by_cases empty : shape = .nil
  · rw [empty, pointer_of_nil] at same
    injection same with same
    exact foreign (Multiset.mem_add.mpr (.inr (same ▸ mem)))
  · obtain ⟨color, near, item, far, rfl⟩ := exists_join .left empty
    injection same with same
    have apart := (Multiset.nodup_add.mp distinct).2.2
    exact Multiset.disjoint_left.mp apart (show item.address ∈ _ by simp) (same ▸ mem)

theorem children_differ (rep : Represents tree (plug ctx (join side color near item far)))
    (filled : near ≠ .nil ∨ far ≠ .nil) : pointerOf tree.sentinel near ≠ pointerOf tree.sentinel far := by
  have distinct := rep.distinct
  have foreign := rep.foreign
  rw [addresses_plug, addresses_join] at distinct foreign
  have apart := (Multiset.nodup_add.mp (Multiset.nodup_cons.mp (Multiset.nodup_add.mp distinct).1).2).2.2
  have inside : ∀ shape : Shape, shape ≠ .nil → ∃ addr ∈ addresses shape,
      pointerOf tree.sentinel shape = some addr := by
    intro shape filled
    obtain ⟨shade, inner, value, outer, rfl⟩ := exists_join .left filled
    exact ⟨value.address, by simp, by simp⟩
  by_cases nearEmpty : near = .nil
  · obtain ⟨addr, mem, pointer⟩ := inside far (filled.resolve_left (not_not.mpr nearEmpty))
    rw [nearEmpty, pointer, pointer_of_nil]
    intro same
    injection same with same
    apply foreign
    simp [same, mem]
  · obtain ⟨addr, mem, pointer⟩ := inside near nearEmpty
    by_cases farEmpty : far = .nil
    · rw [farEmpty, pointer, pointer_of_nil]
      intro same
      injection same with same
      apply foreign
      simp [← same, mem]
    · obtain ⟨other, otherMem, otherPointer⟩ := inside far farEmpty
      rw [pointer, otherPointer]
      intro same
      injection same with same
      exact Multiset.disjoint_left.mp apart mem (same ▸ otherMem)

end Reading

end ServerCore.NginxRbtreeShape
