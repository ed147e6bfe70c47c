import Mathlib.Algebra.Group.Nat.Defs
import Mathlib.Data.Multiset.AddSub

/-!
# Red-black trees and their contexts

Trees with coloured nodes, and the part of a tree around a subtree as a list of
frames from the subtree up to the root. `join` names the children of a node by
the side they are on, so that a statement and its mirror image are one.
-/

namespace ServerCore.RedBlackTree

open List

inductive Color where
  | red
  | black
  deriving DecidableEq

inductive Side where
  | left
  | right
  deriving DecidableEq

def Side.flip : Side → Side
  | .left => .right
  | .right => .left

@[simp] theorem side_flip_flip (side : Side) : side.flip.flip = side := by
  cases side <;> rfl

theorem eq_flip_of_ne {first second : Side} (differ : first ≠ second) : first = second.flip := by
  cases first <;> cases second <;> simp_all [Side.flip]

inductive Tree (Value : Type*) where
  | nil
  | node (color : Color) (left : Tree Value) (value : Value) (right : Tree Value)
  deriving DecidableEq

variable {Value : Type*}

variable {tree : Tree Value} {height : Nat}

namespace Tree

/-- A node with the child `near` on the given side and `far` on the other. -/
def join : Side → Color → Tree Value → Value → Tree Value → Tree Value
  | .left, color, near, value, far => .node color near value far
  | .right, color, near, value, far => .node color far value near

theorem join_flip (side : Side) (color : Color) (near far : Tree Value) (value : Value) :
    join side.flip color near value far = join side color far value near := by
  cases side <;> rfl

theorem exists_join (side : Side) (filled : tree ≠ nil) :
    ∃ color near value far, tree = join side color near value far := by
  cases tree with
  | nil => cases filled rfl
  | node color left value right =>
    cases side with
    | left => exact ⟨color, left, value, right, rfl⟩
    | right => exact ⟨color, right, value, left, rfl⟩

theorem exists_turn (side other : Side) (color : Color) (near far : Tree Value) (value : Value) :
    ∃ near' far', join side color near value far = join other color near' value far' := by
  by_cases same : side = other
  · exact ⟨near, far, by rw [same]⟩
  · exact ⟨far, near, by rw [eq_flip_of_ne same, join_flip]⟩

@[simp] theorem join_ne_nil (side : Side) (color : Color) (near far : Tree Value) (value : Value) :
    join side color near value far ≠ nil := by
  cases side <;> simp [join]

def inorder : Tree Value → List Value
  | nil => []
  | node _ left value right => left.inorder ++ value :: right.inorder

def color : Tree Value → Color
  | nil => .black
  | node color _ _ _ => color

@[simp] theorem color_nil : (nil : Tree Value).color = .black := rfl

@[simp] theorem color_join (side : Side) (shade : Color) (near far : Tree Value) (value : Value) :
    (join side shade near value far).color = shade := by
  cases side <;> rfl

def paint (color : Color) : Tree Value → Tree Value
  | nil => nil
  | node _ left value right => node color left value right

@[simp] theorem paint_join (side : Side) (before after : Color) (near far : Tree Value)
    (value : Value) : (join side before near value far).paint after = join side after near value far := by
  cases side <;> rfl

@[simp] theorem inorder_paint (color : Color) (tree : Tree Value) :
    (tree.paint color).inorder = tree.inorder := by
  cases tree <;> rfl

@[simp] theorem color_paint_black (tree : Tree Value) : (tree.paint .black).color = .black := by
  cases tree <;> rfl

theorem paint_same (tree : Tree Value) : tree.paint tree.color = tree := by
  cases tree <;> rfl

def members (tree : Tree Value) : Multiset Value := tree.inorder

@[simp] theorem members_nil : (nil : Tree Value).members = 0 := rfl

@[simp] theorem members_join (side : Side) (color : Color) (near far : Tree Value) (value : Value) :
    (join side color near value far).members = value ::ₘ (near.members + far.members) := by
  cases side with
  | left =>
    simp only [members, join, inorder, Multiset.coe_add, Multiset.cons_coe, Multiset.coe_eq_coe]
    exact perm_middle
  | right =>
    simp only [members, join, inorder, Multiset.coe_add, Multiset.cons_coe, Multiset.coe_eq_coe]
    exact perm_middle.trans (perm_append_comm.cons value)

@[simp] theorem members_paint (color : Color) (tree : Tree Value) :
    (tree.paint color).members = tree.members := by
  rw [members, inorder_paint, members]

/-- No red node has a red child, and every path down to an empty tree passes
`height` black nodes. -/
def Balanced : Tree Value → Nat → Prop
  | nil, height => height = 0
  | node .red left _ right, height =>
    left.color = .black ∧ right.color = .black ∧ left.Balanced height ∧ right.Balanced height
  | node .black left _ right, height =>
    ∃ below, height = below + 1 ∧ left.Balanced below ∧ right.Balanced below

@[simp] theorem balanced_nil (height : Nat) : (nil : Tree Value).Balanced height ↔ height = 0 := by
  rw [Balanced]

section

variable (side : Side) (near far : Tree Value) (value : Value) (height : Nat)

@[simp] theorem balanced_red : (join side .red near value far).Balanced height ↔
      near.color = .black ∧ far.color = .black ∧ near.Balanced height ∧ far.Balanced height := by
  cases side with
  | left => rw [join, Balanced]
  | right =>
    rw [join, Balanced]
    tauto

theorem balanced_black : (join side .black near value far).Balanced height ↔
      ∃ below, height = below + 1 ∧ near.Balanced below ∧ far.Balanced below := by
  cases side with
  | left => rw [join, Balanced]
  | right =>
    rw [join, Balanced]
    simp only [and_comm]

@[simp] theorem balanced_black_succ : (join side .black near value far).Balanced (height + 1) ↔
      near.Balanced height ∧ far.Balanced height := by
  rw [balanced_black]
  simp

end

def depth : Tree Value → Nat
  | nil => 0
  | node _ left _ right => max left.depth right.depth + 1

theorem depth_le_length (tree : Tree Value) : tree.depth ≤ tree.inorder.length := by
  induction tree with
  | nil => exact Nat.le_refl 0
  | node color left value right =>
    rw [inorder, depth, length_append, length_cons]
    omega

theorem balanced_bounds (balanced : tree.Balanced height) : 2 ^ height ≤ tree.inorder.length + 1 ∧
    tree.depth ≤ 2 * height + 1 ∧ (tree.color = .black → tree.depth ≤ 2 * height) := by
  induction tree generalizing height with
  | nil =>
    cases balanced
    exact ⟨Nat.le_refl 1, Nat.zero_le 1, fun _ => Nat.le_refl 0⟩
  | node color left value right leftIh rightIh =>
    rw [inorder, depth, length_append, length_cons]
    cases color with
    | red =>
      obtain ⟨leftBlack, rightBlack, inLeft, inRight⟩ := balanced
      obtain ⟨filled, -, shallow⟩ := leftIh inLeft
      have lower := shallow leftBlack
      have upper := (rightIh inRight).2.2 rightBlack
      exact ⟨by omega, by omega, fun isBlack => by cases isBlack⟩
    | black =>
      obtain ⟨below, rfl, inLeft, inRight⟩ := balanced
      have lower := leftIh inLeft
      have upper := rightIh inRight
      rw [Nat.pow_succ]
      omega

theorem balanced_succ_filled (balanced : tree.Balanced (height + 1)) : tree ≠ nil := by
  rintro rfl
  simp at balanced

theorem balanced_paint_black (isRed : tree.color = .red)
    (balanced : tree.Balanced height) : (tree.paint .black).Balanced (height + 1) := by
  cases tree with
  | nil => exact absurd isRed (by simp)
  | node color left value right =>
    subst isRed
    exact ⟨height, rfl, balanced.2.2.1, balanced.2.2.2⟩

end Tree

open Tree

/-- A node above a subtree: the side the subtree is on, the node itself and its
other child. -/
structure Frame (Value : Type*) where
  side : Side
  color : Color
  value : Value
  sibling : Tree Value

abbrev Context (Value : Type*) := List (Frame Value)

def plug : Context Value → Tree Value → Tree Value
  | [], tree => tree
  | frame :: ctx, tree =>
    plug ctx (join frame.side frame.color tree frame.value frame.sibling)

theorem plug_append (inner outer : Context Value) (tree : Tree Value) :
    plug (inner ++ outer) tree = plug outer (plug inner tree) := by
  induction inner generalizing tree with
  | nil => rfl
  | cons frame inner ih => exact ih _

def contextMembers : Context Value → Multiset Value
  | [] => 0
  | frame :: ctx => frame.value ::ₘ (frame.sibling.members + contextMembers ctx)

@[simp] theorem context_members_nil : contextMembers ([] : Context Value) = 0 := rfl

@[simp] theorem context_members_cons (frame : Frame Value) (ctx : Context Value) :
    contextMembers (frame :: ctx) =
      frame.value ::ₘ (frame.sibling.members + contextMembers ctx) := rfl

@[simp] theorem members_plug (ctx : Context Value) (tree : Tree Value) :
    (plug ctx tree).members = tree.members + contextMembers ctx := by
  induction ctx generalizing tree with
  | nil => simp [plug]
  | cons frame ctx ih =>
    rw [plug, ih, members_join, context_members_cons, Multiset.cons_add,
      Multiset.add_cons, Multiset.add_assoc]

def before : Context Value → List Value
  | [] => []
  | ⟨.left, _, _, _⟩ :: ctx => before ctx
  | ⟨.right, _, value, sibling⟩ :: ctx => before ctx ++ (sibling.inorder ++ [value])

def after : Context Value → List Value
  | [] => []
  | ⟨.left, _, value, sibling⟩ :: ctx => value :: sibling.inorder ++ after ctx
  | ⟨.right, _, _, _⟩ :: ctx => after ctx

theorem before_append (inner outer : Context Value) :
    before (inner ++ outer) = before outer ++ before inner := by
  induction inner with
  | nil => simp [before]
  | cons frame inner ih =>
    obtain ⟨side, color, value, sibling⟩ := frame
    cases side with
    | left => exact ih
    | right => simp [before, ih]

theorem after_append (inner outer : Context Value) :
    after (inner ++ outer) = after inner ++ after outer := by
  induction inner with
  | nil => simp [after]
  | cons frame inner ih =>
    obtain ⟨side, color, value, sibling⟩ := frame
    cases side with
    | left => simp [after, ih]
    | right => exact ih

theorem inorder_plug (ctx : Context Value) (tree : Tree Value) :
    (plug ctx tree).inorder = before ctx ++ tree.inorder ++ after ctx := by
  induction ctx generalizing tree with
  | nil => simp [plug, before, after]
  | cons frame ctx ih =>
    obtain ⟨side, color, value, sibling⟩ := frame
    cases side with
    | left | right => simp [plug, ih, join, inorder, before, after]

theorem inorder_plug_congr (ctx : Context Value) {other : Tree Value}
    (same : tree.inorder = other.inorder) : (plug ctx tree).inorder = (plug ctx other).inorder := by
  rw [inorder_plug, inorder_plug, same]

theorem context_length_le (ctx : Context Value) (tree : Tree Value) :
    ctx.length ≤ (plug ctx tree).inorder.length := by
  induction ctx generalizing tree with
  | nil => exact Nat.zero_le _
  | cons frame ctx ih =>
    have outer := ih .nil
    rw [inorder_plug] at outer ⊢
    obtain ⟨side, color, value, sibling⟩ := frame
    cases side with
    | left | right =>
      simp only [inorder, before, after, length_append, length_cons, length_nil] at outer ⊢
      omega

theorem inorder_join_congr (side : Side) (color other : Color) (value : Value)
    {near near' far far' : Tree Value} (nearSame : near.inorder = near'.inorder)
    (farSame : far.inorder = far'.inorder) :
    (join side color near value far).inorder = (join side other near' value far').inorder := by
  cases side <;> simp [join, inorder, nearSame, farSame]

theorem inorder_rotate (side : Side) (upper lower upper' lower' : Color) (near middle far : Tree Value)
    (first second : Value) : (join side upper near first (join side lower middle second far)).inorder =
      (join side upper' (join side lower' near first middle) second far).inorder := by
  cases side <;> simp [join, inorder]

/-- A tree of the given color and height completes the context to a balanced
tree with a black root. -/
def Fits : Context Value → Color → Nat → Prop
  | [], color, _ => color = .black
  | ⟨_, .red, _, sibling⟩ :: ctx, color, height =>
    color = .black ∧ sibling.color = .black ∧ sibling.Balanced height ∧ Fits ctx .red height
  | ⟨_, .black, _, sibling⟩ :: ctx, _, height =>
    sibling.Balanced height ∧ Fits ctx .black (height + 1)

variable {ctx : Context Value} {frame : Frame Value}

theorem fits_black {color : Color} (fits : Fits ctx color height) : Fits ctx .black height := by
  cases ctx with
  | nil => rfl
  | cons frame ctx =>
    obtain ⟨side, shade, value, sibling⟩ := frame
    cases shade with
    | red => exact ⟨rfl, fits.2⟩
    | black => exact fits

theorem fits_red_parent (fits : Fits (frame :: ctx) .red height) : frame.color = .black := by
  obtain ⟨side, shade, value, sibling⟩ := frame
  cases shade with
  | red => exact absurd fits.1 (by decide)
  | black => rfl

theorem fits_sibling {color : Color}
    (fits : Fits (frame :: ctx) color height) : frame.sibling.Balanced height := by
  obtain ⟨side, shade, value, sibling⟩ := frame
  cases shade with
  | red => exact fits.2.2.1
  | black => exact fits.1

theorem fits_exchange {inner outer : Context Value} {side : Side} {shade color : Color}
    {old : Value} {sibling : Tree Value} (new : Value)
    (fits : Fits (inner ++ ⟨side, shade, old, sibling⟩ :: outer) color height) :
    Fits (inner ++ ⟨side, shade, new, sibling⟩ :: outer) color height := by
  induction inner generalizing color height with
  | nil => cases shade <;> exact fits
  | cons frame inner ih =>
    obtain ⟨_, upper, _, other⟩ := frame
    cases upper with
    | red => exact ⟨fits.1, fits.2.1, fits.2.2.1, ih fits.2.2.2⟩
    | black => exact ⟨fits.1, ih fits.2⟩

theorem fits_plug (balanced : tree.Balanced height) (fits : Fits ctx tree.color height) :
    (plug ctx tree).color = .black ∧ ∃ total, (plug ctx tree).Balanced total := by
  induction ctx generalizing tree height with
  | nil => exact ⟨fits, height, balanced⟩
  | cons frame ctx ih =>
    obtain ⟨side, shade, value, sibling⟩ := frame
    cases shade with
    | red =>
      obtain ⟨isBlack, siblingBlack, siblingBal, rest⟩ := fits
      exact ih ((balanced_red _ _ _ _ _).mpr ⟨isBlack, siblingBlack, balanced, siblingBal⟩)
        (by simpa using rest)
    | black =>
      exact ih ((balanced_black_succ _ _ _ _ _).mpr ⟨balanced, fits.1⟩) (by simpa using fits.2)

theorem fits_of_plug {total : Nat}
    (isBlack : (plug ctx tree).color = .black) (balanced : (plug ctx tree).Balanced total) :
    ∃ height, tree.Balanced height ∧ Fits ctx tree.color height := by
  induction ctx generalizing tree with
  | nil => exact ⟨total, balanced, isBlack⟩
  | cons frame ctx ih =>
    obtain ⟨side, shade, value, sibling⟩ := frame
    obtain ⟨height, above, fits⟩ := ih isBlack balanced
    rw [color_join] at fits
    cases shade with
    | red =>
      obtain ⟨treeBlack, siblingBlack, treeBalanced, siblingBal⟩ := (balanced_red _ _ _ _ _).mp above
      exact ⟨height, treeBalanced, treeBlack, siblingBlack, siblingBal, fits⟩
    | black =>
      obtain ⟨below, rfl, treeBalanced, siblingBal⟩ := (balanced_black _ _ _ _ _).mp above
      exact ⟨below, treeBalanced, siblingBal, fits⟩

theorem exists_plug {value : Value} (mem : value ∈ tree.inorder) :
    ∃ ctx color left right, tree = plug ctx (.node color left value right) := by
  induction tree with
  | nil => simp [inorder] at mem
  | node color left root right leftIh rightIh =>
    rcases mem_append.mp mem with inLeft | here
    · obtain ⟨ctx, shade, below, above, rfl⟩ := leftIh inLeft
      refine ⟨ctx ++ [⟨.left, color, root, right⟩], shade, below, above, ?_⟩
      rw [plug_append]
      rfl
    · rcases mem_cons.mp here with rfl | inRight
      · exact ⟨[], color, left, right, rfl⟩
      · obtain ⟨ctx, shade, below, above, rfl⟩ := rightIh inRight
        refine ⟨ctx ++ [⟨.right, color, root, left⟩], shade, below, above, ?_⟩
        rw [plug_append]
        rfl

end ServerCore.RedBlackTree
