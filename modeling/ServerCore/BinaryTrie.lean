import Mathlib.Data.List.Infix
import Mathlib.Data.List.Perm.Basic

/-!
# Binary tries

Trees in which a place is given by the turns that lead to it. A node has a mark, which
tells it from the other nodes, and a value. A part is replaced at a place; what the trie
has elsewhere stays.
-/

namespace ServerCore.BinaryTrie

open List Function

variable {other : List Bool}

inductive Trie (Mark Value : Type*) where
  | nil
  | node (mark : Mark) (value : Value) (right left : Trie Mark Value)
  deriving DecidableEq

variable {Mark Value : Type*} {mark : Mark}

namespace Trie

/-- `true` leads to the right. -/
def child : Trie Mark Value → Bool → Trie Mark Value
  | nil, _ => nil
  | node _ _ right _, true => right
  | node _ _ _ left, false => left

def setChild : Trie Mark Value → Bool → Trie Mark Value → Trie Mark Value
  | nil, _, _ => nil
  | node mark value _ left, true, new => node mark value new left
  | node mark value right _, false, new => node mark value right new

def part (trie : Trie Mark Value) : List Bool → Trie Mark Value
  | [] => trie
  | turn :: place => (trie.child turn).part place

def put (trie : Trie Mark Value) : List Bool → Trie Mark Value → Trie Mark Value
  | [], new => new
  | turn :: place, new => trie.setChild turn ((trie.child turn).put place new)

def mark? : Trie Mark Value → Option Mark
  | nil => none
  | node mark _ _ _ => some mark

def value? : Trie Mark Value → Option Value
  | nil => none
  | node _ value _ _ => some value

def marks : Trie Mark Value → List Mark
  | nil => []
  | node mark _ right left => mark :: (right.marks ++ left.marks)

def get (trie : Trie Mark Value) (place : List Bool) : Option Value := (trie.part place).value?

/-- The mark of the node above a place, `before` being above the trie. -/
def above (before : Option Mark) (trie : Trie Mark Value) : List Bool → Option Mark
  | [] => before
  | turn :: place => above trie.mark? (trie.child turn) place

def HasPlace (trie : Trie Mark Value) : List Bool → Prop
  | [] => True
  | turn :: place => trie ≠ nil ∧ (trie.child turn).HasPlace place

def Within (trie : Trie Mark Value) (depth : Nat) : Prop :=
  ∀ place, trie.part place ≠ nil → place.length ≤ depth

section Places

variable {trie new : Trie Mark Value} {place more : List Bool} {turn : Bool}

@[simp] theorem part_nil (place : List Bool) : (nil : Trie Mark Value).part place = nil := by
  induction place with
  | nil => rfl
  | cons turn place ih => exact ih

theorem ne_nil_of_eq_node {value : Value} {right left : Trie Mark Value}
    (isNode : trie = node mark value right left) : trie ≠ nil := by
  rw [isNode]
  nofun

theorem part_append (trie : Trie Mark Value) (place more : List Bool) :
    trie.part (place ++ more) = (trie.part place).part more := by
  induction place generalizing trie with
  | nil => rfl
  | cons turn place ih => exact ih (trie.child turn)

theorem part_snoc (trie : Trie Mark Value) (place : List Bool) (turn : Bool) :
    trie.part (place ++ [turn]) = (trie.part place).child turn := part_append trie place [turn]

theorem above_snoc (before : Option Mark) (trie : Trie Mark Value) (place : List Bool) (turn : Bool) :
    above before trie (place ++ [turn]) = (trie.part place).mark? := by
  induction place generalizing before trie with
  | nil => rfl
  | cons first place ih => exact ih trie.mark? (trie.child first)

theorem put_snoc (trie : Trie Mark Value) (place : List Bool) (turn : Bool) (new : Trie Mark Value) :
    trie.put (place ++ [turn]) new = trie.put place ((trie.part place).setChild turn new) := by
  induction place generalizing trie with
  | nil => rfl
  | cons first place ih => exact congrArg (trie.setChild first) (ih (trie.child first))

theorem child_set_child (some_ : trie ≠ nil) : (trie.setChild turn new).child turn = new := by
  cases trie with
  | nil => cases some_ rfl
  | node mark value right left => cases turn <;> rfl

theorem child_set_other {other : Bool} (differ : other ≠ turn) :
    (trie.setChild turn new).child other = trie.child other := by
  cases trie with
  | nil => rfl
  | node mark value right left =>
    cases turn with
    | true =>
      cases other with
      | true => cases differ rfl
      | false => rfl
    | false =>
      cases other with
      | true => rfl
      | false => cases differ rfl

theorem mark_set_child : (trie.setChild turn new).mark? = trie.mark? := by
  cases trie with
  | nil => rfl
  | node mark value right left => cases turn <;> rfl

theorem value_set_child : (trie.setChild turn new).value? = trie.value? := by
  cases trie with
  | nil => rfl
  | node mark value right left => cases turn <;> rfl

theorem has_place_of_part (some_ : trie.part place ≠ nil) : trie.HasPlace place := by
  induction place generalizing trie with
  | nil => exact trivial
  | cons turn place ih =>
    refine ⟨?_, ih some_⟩
    rintro rfl
    exact some_ (part_nil (turn :: place))

theorem has_place_snoc (some_ : trie.part place ≠ nil) (turn : Bool) : trie.HasPlace (place ++ [turn]) := by
  induction place generalizing trie with
  | nil => exact ⟨some_, trivial⟩
  | cons first place ih =>
    refine ⟨?_, ih some_⟩
    rintro rfl
    exact some_ (part_nil (first :: place))

section

variable (has : trie.HasPlace place)
include has

theorem part_put_under (more : List Bool) :
    (trie.put place new).part (place ++ more) = new.part more := by
  induction place generalizing trie with
  | nil => rfl
  | cons turn place ih =>
    change ((trie.setChild turn _).child turn).part (place ++ more) = _
    rw [child_set_child has.1]
    exact ih has.2

theorem part_put_same : (trie.put place new).part place = new := by
  have under := @part_put_under _ _ trie new place has []
  rw [append_nil] at under
  exact under

theorem get_put_other (apart : ¬place <+: other) :
    (trie.put place new).get other = trie.get other := by
  induction place generalizing trie other with
  | nil => exact absurd nil_prefix apart
  | cons turn place ih =>
    cases other with
    | nil => exact value_set_child
    | cons first other =>
      change (((trie.setChild turn _).child first).part other).value? =
        ((trie.child first).part other).value?
      by_cases same : first = turn
      · subst same
        rw [child_set_child has.1]
        refine ih has.2 ?_
        intro pre
        exact apart (cons_prefix_cons.2 ⟨rfl, pre⟩)
      · rw [child_set_other same]

theorem get_put_under (more : List Bool) :
    (trie.put place new).get (place ++ more) = new.get more := congrArg value? (part_put_under has more)

end

theorem part_put_some (some_ : (trie.put place new).part other ≠ nil) :
    trie.part other ≠ nil ∨ ∃ more, other = place ++ more ∧ new.part more ≠ nil := by
  induction place generalizing trie other with
  | nil => exact .inr ⟨other, rfl, some_⟩
  | cons turn place ih =>
    cases trie with
    | nil => exact .inl some_
    | node mark value right left =>
      cases other with
      | nil => exact .inl nofun
      | cons first other =>
        change ((setChild (node mark value right left) turn _).child first).part other ≠ nil at some_
        by_cases same : first = turn
        · subst same
          have isNode : node mark value right left ≠ nil := nofun
          rw [child_set_child isNode] at some_
          obtain old | ⟨more, isOther, inNew⟩ := ih some_
          · exact .inl old
          · exact .inr ⟨more, by rw [isOther]; rfl, inNew⟩
        · rw [child_set_other same] at some_
          exact .inl some_

theorem put_within {depth : Nat} (within : trie.Within depth)
    (newWithin : ∀ more, new.part more ≠ nil → place.length + more.length ≤ depth) :
    (trie.put place new).Within depth := by
  intro other some_
  obtain old | ⟨more, rfl, inNew⟩ := part_put_some some_
  · exact within other old
  · rw [length_append]
    exact newWithin more inNew

end Places

section Marks

variable {trie new : Trie Mark Value} {place : List Bool}

theorem marks_put (has : trie.HasPlace place) : ∃ rest : List Mark,
    trie.marks.Perm ((trie.part place).marks ++ rest) ∧
      ∀ new, (trie.put place new).marks.Perm (new.marks ++ rest) := by
  induction place generalizing trie with
  | nil =>
    refine ⟨[], ?_, fun new => ?_⟩
    · rw [append_nil]
      exact List.Perm.refl _
    · rw [append_nil]
      exact List.Perm.refl _
  | cons turn place ih =>
    obtain ⟨some_, has⟩ := has
    cases trie with
    | nil => cases some_ rfl
    | node mark value right left =>
      obtain ⟨rest, isOld, isNew⟩ := ih has
      cases turn with
      | true =>
        refine ⟨mark :: (rest ++ left.marks), ?_, fun new => ?_⟩
        · refine (List.Perm.cons mark (isOld.append_right left.marks)).trans ?_
          rw [append_assoc]
          exact perm_middle.symm
        · refine (List.Perm.cons mark ((isNew new).append_right left.marks)).trans ?_
          rw [append_assoc]
          exact perm_middle.symm
      | false =>
        refine ⟨mark :: (right.marks ++ rest), ?_, fun new => ?_⟩
        · refine (List.Perm.cons mark (isOld.append_left right.marks)).trans ?_
          refine (List.Perm.cons mark (perm_append_comm_assoc _ _ _)).trans ?_
          exact perm_middle.symm
        · refine (List.Perm.cons mark ((isNew new).append_left right.marks)).trans ?_
          refine (List.Perm.cons mark (perm_append_comm_assoc _ _ _)).trans ?_
          exact perm_middle.symm

theorem mem_marks_of_part (isMark : (trie.part place).mark? = some mark) :
    mark ∈ trie.marks := by
  have some_ : trie.part place ≠ nil := by
    intro none_
    rw [none_] at isMark
    cases isMark
  obtain ⟨rest, isOld, -⟩ := marks_put (has_place_of_part some_)
  refine isOld.mem_iff.2 (mem_append_left _ ?_)
  cases isPart : trie.part place with
  | nil => exact absurd isPart some_
  | node other value right left =>
    rw [isPart] at isMark
    injection isMark with isMark
    rw [isMark]
    exact mem_cons_self ..

end Marks

end Trie

def IsLongest (values : List Bool → Option Value) (turns : List Bool) (value : Value) : Prop :=
  ∃ longest, longest <+: turns ∧ values longest = some value ∧
    ∀ other, other <+: turns → values other ≠ none → other.length ≤ longest.length

/-- The last value on the way along some turns, among those that count. -/
def walk (counts : Value → Bool) : Trie Mark Value → List Bool → Option Value → Option Value
  | .nil, _, found => found
  | .node _ value _ _, [], found => if counts value then some value else found
  | .node _ value right left, turn :: turns, found =>
    walk counts (if turn then right else left) turns (if counts value then some value else found)

section Walk

variable {counts : Value → Bool} {trie : Trie Mark Value} {turns : List Bool} {found : Option Value}

def counted (counts : Value → Bool) (trie : Trie Mark Value) (place : List Bool) : Option Value :=
  (trie.get place).filter counts

theorem counted_put {place : List Bool} {new : Trie Mark Value} (counts : Value → Bool)
    (has : trie.HasPlace place)
    (below : ∀ turn, new.child turn = (trie.part place).child turn) : counted counts (trie.put place new) =
      update (counted counts trie) place (new.value?.filter counts) := by
  funext other
  unfold counted
  by_cases pre : place <+: other
  · obtain ⟨more, rfl⟩ := pre
    rw [Trie.get_put_under has]
    cases more with
    | nil =>
      rw [append_nil, update_self]
      rfl
    | cons turn more =>
      have differ : place ++ turn :: more ≠ place := by
        intro same
        have lengths := congrArg List.length same
        rw [length_append, length_cons] at lengths
        omega
      rw [update_of_ne differ]
      unfold Trie.get
      rw [Trie.part_append]
      exact congrArg (fun child : Trie Mark Value => (child.part more).value?.filter counts) (below turn)
  · have differ : other ≠ place := by
      rintro rfl
      exact pre (prefix_refl other)
    rw [Trie.get_put_other has pre, update_of_ne differ]

theorem counted_nil (counts : Value → Bool) (place : List Bool) :
    counted counts (.nil : Trie Mark Value) place = none := by
  unfold counted Trie.get
  rw [Trie.part_nil]
  rfl

theorem walk_longest (counts : Value → Bool) (trie : Trie Mark Value) (turns : List Bool)
    (found : Option Value) : (∃ value, walk counts trie turns found = some value ∧
        IsLongest (counted counts trie) turns value) ∨
      (walk counts trie turns found = found ∧ ∀ place, place <+: turns →
        counted counts trie place = none) := by
  induction turns generalizing trie found with
  | nil =>
    cases trie with
    | nil => exact .inr ⟨rfl, fun place _ => counted_nil counts place⟩
    | node mark value right left =>
      have here : counted counts (.node mark value right left) [] = if counts value then
          some value else none := by
        unfold counted Trie.get Trie.part Trie.value?
        rw [Option.filter_some]
      rw [walk]
      by_cases isCounted : counts value = true
      · rw [if_pos isCounted] at here ⊢
        refine .inl ⟨value, rfl, [], nil_prefix, here, ?_⟩
        intro other pre _
        rw [prefix_nil.1 pre]
      · rw [if_neg isCounted] at here ⊢
        refine .inr ⟨rfl, ?_⟩
        intro place pre
        rw [prefix_nil.1 pre]
        exact here
  | cons turn turns ih =>
    cases trie with
    | nil => exact .inr ⟨rfl, fun place _ => counted_nil counts place⟩
    | node mark value right left =>
      have here : counted counts (.node mark value right left) [] = if counts value then
          some value else none := by
        unfold counted Trie.get Trie.part Trie.value?
        rw [Option.filter_some]
      have below : ∀ place, counted counts (.node mark value right left) (turn :: place) =
          counted counts (if turn then right else left) place := by
        intro place
        cases turn <;> rfl
      rw [walk]
      obtain ⟨last, isLast, longest, pre, isValue, most⟩ | ⟨unchanged, none_⟩ :=
        ih (if turn then right else left) (if counts value then some value else found)
      · refine .inl ⟨last, isLast, turn :: longest, cons_prefix_cons.2 ⟨rfl, pre⟩,
          (below longest).trans isValue, ?_⟩
        intro other otherPrefix some_
        cases other with
        | nil => exact Nat.zero_le _
        | cons first other =>
          obtain ⟨rfl, behind⟩ := cons_prefix_cons.1 otherPrefix
          rw [below] at some_
          exact Nat.succ_le_succ (most other behind some_)
      · have others : ∀ first other, first :: other <+: turn :: turns →
            counted counts (.node mark value right left) (first :: other) = none := by
          intro first other otherPrefix
          obtain ⟨rfl, behind⟩ := cons_prefix_cons.1 otherPrefix
          rw [below]
          exact none_ other behind
        rw [unchanged]
        by_cases isCounted : counts value = true
        · rw [if_pos isCounted] at here ⊢
          refine .inl ⟨value, rfl, [], nil_prefix, here, ?_⟩
          intro other otherPrefix some_
          cases other with
          | nil => exact Nat.le_refl _
          | cons first other => exact absurd (others first other otherPrefix) some_
        · rw [if_neg isCounted] at here ⊢
          refine .inr ⟨rfl, ?_⟩
          intro place pre
          cases place with
          | nil => exact here
          | cons first other => exact others first other pre

end Walk

end ServerCore.BinaryTrie
