import ServerCore.NginxEventTimer
import ServerCore.NginxRbtreeKeys
import ServerCore.NginxRbtreeRuns

/-!
# Deadlines in a window

Within half the range of a word the signed difference of two words is the difference of
the numbers they stand for. So a timer finds its place in the tree as if the deadlines
were not taken modulo `2 ^ w`.
-/

namespace ServerCore.NginxEventTimerOrder

open RedBlackTree RedBlackTree.Tree
open NginxRbtree NginxRbtree.Rbtree
open NginxRbtreeShape NginxRbtreeInsert NginxRbtreeKeys NginxEventTimer Option

variable {pointer : Pointer}

def word (w key : Nat) : Nat := key % 2 ^ w

theorem word_zero (w : Nat) : word w 0 = 0 := Nat.zero_mod _

variable {w : Nat}

theorem quarter_window (wide : 2 ≤ w) : 2 ^ w = 4 * 2 ^ (w - 2) := by
  obtain ⟨rest, rfl⟩ := Nat.exists_eq_add_of_le wide
  rw [Nat.add_sub_cancel_left, Nat.pow_add]

theorem msec_int_words (wide : 2 ≤ w) {first second : Nat} (above : first < second + 2 * 2 ^ (w - 2))
    (below : second ≤ first + 2 * 2 ^ (w - 2)) :
    ngxMsecInt w ((word w first : Int) - word w second) = (first : Int) - second := by
  have range := quarter_window wide
  rw [ngxMsecInt, word, word, Int.natCast_emod, Int.natCast_emod, Int.emod_sub_bmod, Int.sub_emod_bmod]
  apply Int.bmod_eq_of_le
  · rw [range]
    omega
  · rw [range]
    omega

section Descent

variable {w fuel : Nat} {change : Nat → Nat} {tree : Rbtree} {node : Address}

/-- The deadlines of the nodes are compared with the one of the new node as the numbers are. -/
def Compares (w : Nat) (change : Nat → Nat) (key : Nat) (items : List Item) : Prop :=
  ∀ item ∈ items, ngxMsecInt w ((change key : Int) - change item.key) < 0 ↔ key < item.key

variable {parent temp : Pointer} {side : Side} {shape : Shape}

theorem fresh_map {color : Color} :
    (mapKeys change tree).store pointer (freshNode tree.sentinel parent color) =
      (tree.store pointer (freshNode tree.sentinel parent color)).map (mapKeys change) :=
      store_map fun _ => rfl

/-- The new node below `temp`. -/
def attach (tree : Rbtree) (side : Side) (temp : Pointer) (node : Address) : Option Rbtree :=
  (tree.store temp (Node.setChild side (some node))).bind fun first =>
    first.store (some node) (freshNode first.sentinel temp .red)

theorem attach_map :
    attach (mapKeys change tree) side temp node = (attach tree side temp node).map (mapKeys change) := by
  rw [attach, attach, store_child_map, bind_map, map_bind]
  apply congrArg
  funext first
  exact fresh_map

theorem turn_map {next other : Option Rbtree}
    (deeper : pointer ≠ some tree.sentinel → next = other.map (mapKeys change)) :
    (if pointer = some tree.sentinel then attach (mapKeys change tree) side temp node else next) =
      (if pointer = some tree.sentinel then attach tree side temp node else other).map (mapKeys change) := by
  by_cases isSentinel : pointer = some tree.sentinel
  · rw [if_pos isSentinel, if_pos isSentinel]
    exact attach_map
  · rw [if_neg isSentinel, if_neg isSentinel]
    exact deeper isSentinel

theorem filled_of_pointer {sentinel : Address} (differ : pointerOf sentinel shape ≠ some sentinel) :
    shape ≠ .nil := by
  rintro rfl
  exact differ rfl

/-- A function that goes down to the place of a node, to the left where `less` holds of the
node and its key and of the other node and its key. -/
structure Descends (less : Address → Nat → Address → Nat → Bool)
    (insert : Nat → Rbtree → Pointer → Pointer → Option Rbtree) : Prop where
  stuck : ∀ tree temp node, insert 0 tree temp node = none
  turn : ∀ fuel tree temp node, insert (fuel + 1) tree (some temp) (some node) =
    let side := if less node (tree.memory node).key temp (tree.memory temp).key then
      Side.left else Side.right
    if (tree.memory temp).child side = some tree.sentinel then attach tree side (some temp) node
    else insert fuel tree ((tree.memory temp).child side) (some node)

theorem timer_descends (w : Nat) :
    Descends (fun _ key _ other => ngxMsecInt w ((key : Int) - other) < 0)
      (ngxRbtreeInsertTimerValue w) where
  stuck _ _ _ := rfl
  turn fuel tree temp node := by
    rw [ngxRbtreeInsertTimerValue, load_some, load_some]
    simp only [bind_eq_bind, bind_some, decide_eq_true_eq]
    rfl

variable {less : Address → Nat → Address → Nat → Bool}
  {insert : Nat → Rbtree → Pointer → Pointer → Option Rbtree}

theorem insert_value_map (descends : Descends less insert) (filled : shape ≠ .nil)
    (linked : Linked tree.sentinel tree.memory parent shape)
    (compares : ∀ item ∈ shape.inorder,
      less node (change (tree.memory node).key) item.address (change item.key) ↔
      (tree.memory node).key < item.key) :
    insert fuel (mapKeys change tree) (pointerOf tree.sentinel shape) (some node) =
      (tree.ngxRbtreeInsertValue fuel (pointerOf tree.sentinel shape) (some node)).map (mapKeys change) := by
  induction fuel generalizing shape parent with
  | zero => exact descends.stuck _ _ _
  | succ fuel ih =>
    cases shape with
    | nil => cases filled rfl
    | node color left item right =>
      obtain ⟨here, leftLinked, rightLinked⟩ := linked
      have sides : (less node (change (tree.memory node).key) item.address (change item.key) = true) =
          ((tree.memory node).key < item.key) := propext (compares item (by simp [inorder]))
      rw [pointerOf, descends.turn, ngxRbtreeInsertValue, load_some, load_some]
      simp only [mapKeys, bind_eq_bind, bind_some, map_node_child, here]
      simp only [mapNode, sides]
      by_cases isLess : (tree.memory node).key < item.key
      · simp only [isLess, if_true, Node.child]
        exact turn_map fun differ => ih (filled_of_pointer differ) leftLinked fun other mem =>
          compares other (by simp [inorder, mem])
      · simp only [isLess, if_false, Node.child]
        exact turn_map fun differ => ih (filled_of_pointer differ) rightLinked fun other mem =>
          compares other (by simp [inorder, mem])

theorem insert_by_map (descends : Descends less insert) (rep : Represents tree shape)
    (compares : ∀ item ∈ shape.inorder,
      less node (change (tree.memory node).key) item.address (change item.key) ↔
      (tree.memory node).key < item.key) :
    ngxRbtreeInsertBy (insert fuel) fuel (mapKeys change tree) (some node) =
      (tree.ngxRbtreeInsert fuel (some node)).map (mapKeys change) := by
  obtain ⟨top, linked⟩ := rep.linked
  have isEmpty := NginxRbtreeUnlink.pointer_eq_sentinel [] (show Represents tree (plug [] shape) from rep)
  rw [insert_by_value, ngxRbtreeInsertBy, ngxRbtreeInsertBy, map_keys_root, map_keys_sentinel, rep.root]
  by_cases empty : shape = .nil
  · have fresh : ((mapKeys change tree).store (some node) (freshNode tree.sentinel none .black)) =
        (tree.store (some node) (freshNode tree.sentinel none .black)).map (mapKeys change) := fresh_map
    rw [if_pos (isEmpty.mpr empty), if_pos (isEmpty.mpr empty)]
    exact (congrArg (fun stored => stored.bind fun tree =>
      some { tree with root := some node }) fresh).trans rfl
  · rw [if_neg (mt isEmpty.mp empty), if_neg (mt isEmpty.mp empty),
      insert_value_map descends empty linked compares]
    simp [bind_map, insert_fixup_map]

end Descent

end ServerCore.NginxEventTimerOrder
