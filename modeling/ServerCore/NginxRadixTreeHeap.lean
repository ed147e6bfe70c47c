import ServerCore.BinaryTrie
import ServerCore.NginxRadixTree

/-!
# The nodes of a radix tree

The nodes that are reached from the root stand for a trie whose marks are
addresses, and the free list for a list of addresses.
-/

namespace ServerCore.NginxRadixTreeHeap

open BinaryTrie NginxRadixTree List Function

abbrev Shape := Trie Nat Nat

def Rep (nodes : Nat → Node) : Option Nat → Shape → Prop
  | _, .nil => True
  | parent, .node addr value right left =>
    nodes addr = ⟨right.mark?, left.mark?, parent, value⟩ ∧
      Rep nodes (some addr) right ∧ Rep nodes (some addr) left

def Chain (nodes : Nat → Node) : Option Nat → List Nat → Prop
  | head, [] => head = none
  | head, addr :: rest => head = some addr ∧ Chain nodes (nodes addr).right rest

structure Owned (tree : Tree) (trie : Shape) (spare : List Nat) : Prop where
  root : trie.mark? = some tree.root
  rep : Rep tree.nodes none trie
  nodup : (trie.marks ++ spare).Nodup
  below : ∀ addr ∈ trie.marks ++ spare, addr < tree.start

structure Sound (tree : Tree) (trie : Shape) (free : List Nat) : Prop extends Owned tree trie free where
  chain : Chain tree.nodes tree.free free

section Nodes

variable {nodes nodes' : Nat → Node} {parent : Option Nat} {trie new : Shape} {place : List Bool}

theorem rep_congr (rep : Rep nodes parent trie) (same : ∀ addr ∈ trie.marks, nodes' addr = nodes addr) :
    Rep nodes' parent trie := by
  induction trie generalizing parent with
  | nil => exact trivial
  | node addr value right left rightIh leftIh =>
    obtain ⟨here, rightRep, leftRep⟩ := rep
    refine ⟨?_, ?_, ?_⟩
    · rw [same addr (mem_cons_self ..)]
      exact here
    · refine rightIh rightRep fun other isOther => same other ?_
      exact mem_cons_of_mem _ (mem_append_left _ isOther)
    · refine leftIh leftRep fun other isOther => same other ?_
      exact mem_cons_of_mem _ (mem_append_right _ isOther)

theorem chain_congr {head : Option Nat} {free : List Nat} (chain : Chain nodes head free)
    (same : ∀ addr ∈ free, nodes' addr = nodes addr) : Chain nodes' head free := by
  induction free generalizing head with
  | nil => exact chain
  | cons addr rest ih =>
    obtain ⟨isHead, behind⟩ := chain
    refine ⟨isHead, ?_⟩
    rw [same addr (mem_cons_self ..)]
    exact ih behind fun other isOther => same other (mem_cons_of_mem _ isOther)

theorem rep_child (rep : Rep nodes parent trie) (turn : Bool) : Rep nodes trie.mark? (trie.child turn) := by
  cases trie with
  | nil => exact trivial
  | node addr value right left =>
    cases turn with
    | true => exact rep.2.1
    | false => exact rep.2.2

theorem rep_part (rep : Rep nodes parent trie) (place : List Bool) :
    Rep nodes (Trie.above parent trie place) (trie.part place) := by
  induction place generalizing parent trie with
  | nil => exact rep
  | cons turn place ih => exact ih (rep_child rep turn)

theorem node_at {addr value : Nat} {right left : Shape} (rep : Rep nodes parent trie)
    (here : trie.part place = .node addr value right left) :
    nodes addr = ⟨right.mark?, left.mark?, Trie.above parent trie place, value⟩ := by
  have below := rep_part rep place
  rw [here] at below
  exact below.1

theorem child_mark {node : Node} {right left : Shape} (isRight : node.right = right.mark?)
    (isLeft : node.left = left.mark?) (addr value : Nat) (turn : Bool) :
    node.child turn = (Trie.child (.node addr value right left) turn).mark? := by
  cases turn with
  | true => exact isRight
  | false => exact isLeft

theorem rep_put (rep : Rep nodes parent trie) (distinct : trie.marks.Nodup) (has : trie.HasPlace place)
    (isRoot : new.mark? = (trie.part place).mark?)
    (outside : ∀ addr ∈ trie.marks, addr ∉ (trie.part place).marks → nodes' addr = nodes addr)
    (newRep : Rep nodes' (Trie.above parent trie place) new) : Rep nodes' parent (trie.put place new) := by
  induction place generalizing parent trie with
  | nil => exact newRep
  | cons turn place ih =>
    obtain ⟨some_, has⟩ := has
    cases trie with
    | nil => cases some_ rfl
    | node addr value right left =>
      obtain ⟨here, rightRep, leftRep⟩ := rep
      obtain ⟨notBelow, distinct⟩ := nodup_cons.1 distinct
      obtain ⟨rightDistinct, leftDistinct, apart⟩ := nodup_append.1 distinct
      have inPart : ∀ {side : Shape} {more : List Bool} {other : Nat}, side.HasPlace more →
          other ∈ (side.part more).marks → other ∈ side.marks := by
        intro side more other hasMore isOther
        obtain ⟨rest, isOld, -⟩ := Trie.marks_put hasMore
        exact isOld.mem_iff.2 (mem_append_left _ isOther)
      have rootStays : ∀ {side : Shape}, new.mark? = (side.part place).mark? →
          (side.put place new).mark? = side.mark? := by
        intro side isSide
        cases place with
        | nil => exact isSide
        | cons first place => exact Trie.mark_set_child
      cases turn with
      | true =>
        refine ⟨?_, ?_, ?_⟩
        · rw [outside addr (mem_cons_self ..)
            (fun isOther => notBelow (mem_append_left _ (inPart has isOther))), here]
          exact congrArg (fun mark => Node.mk mark left.mark? parent value) (rootStays isRoot).symm
        · refine ih rightRep rightDistinct has isRoot (fun other isOther notPart => ?_) newRep
          exact outside other (mem_cons_of_mem _ (mem_append_left _ isOther)) notPart
        · refine rep_congr leftRep fun other isOther => ?_
          refine outside other (mem_cons_of_mem _ (mem_append_right _ isOther)) ?_
          intro isPart
          exact apart other (inPart has isPart) other isOther rfl
      | false =>
        refine ⟨?_, ?_, ?_⟩
        · rw [outside addr (mem_cons_self ..)
            (fun isOther => notBelow (mem_append_right _ (inPart has isOther))), here]
          exact congrArg (fun mark => Node.mk right.mark? mark parent value) (rootStays isRoot).symm
        · refine rep_congr rightRep fun other isOther => ?_
          refine outside other (mem_cons_of_mem _ (mem_append_left _ isOther)) ?_
          intro isPart
          exact apart other isOther other (inPart has isPart) rfl
        · refine ih leftRep leftDistinct has isRoot (fun other isOther notPart => ?_) newRep
          exact outside other (mem_cons_of_mem _ (mem_append_right _ isOther)) notPart

end Nodes

section Writes

variable {tree after : Tree} {trie new : Shape} {free spare : List Nat} {place : List Bool} {turn : Bool}
  {addr next value : Nat} {right left : Shape}

theorem put_sound (owned : Owned tree trie spare) (some_ : trie.part place ≠ .nil)
    (isRoot : new.mark? = (trie.part place).mark?) (sameRoot : after.root = tree.root)
    (sameStart : after.start = tree.start)
    (outside : ∀ addr ∈ trie.marks, addr ∉ (trie.part place).marks →
      after.nodes addr = tree.nodes addr)
    (newRep : Rep after.nodes (Trie.above none trie place) new) (chain : Chain after.nodes after.free free)
    (used : (new.marks ++ free).Perm ((trie.part place).marks ++ spare)) :
    Sound after (trie.put place new) free := by
  have has := Trie.has_place_of_part some_
  obtain ⟨rest, isOld, isNew⟩ := Trie.marks_put has
  have same : ((trie.put place new).marks ++ free).Perm (trie.marks ++ spare) := by
    refine ((isNew new).append_right free).trans ?_
    refine List.Perm.trans ?_ (isOld.append_right spare).symm
    rw [append_assoc, append_assoc]
    refine (perm_append_comm_assoc _ _ _).trans ?_
    refine List.Perm.trans ?_ (perm_append_comm_assoc _ _ _)
    exact used.append_left rest
  refine { root := ?_, rep := ?_, nodup := ?_, below := ?_, chain := chain }
  · rw [sameRoot, ← owned.root]
    cases place with
    | nil => exact isRoot
    | cons first place => exact Trie.mark_set_child
  · exact rep_put owned.rep (nodup_append.1 owned.nodup).1 has isRoot outside newRep
  · exact same.nodup_iff.2 owned.nodup
  · intro other isOther
    rw [sameStart]
    exact owned.below other (same.mem_iff.1 isOther)

theorem part_nodup (distinct : (trie.marks ++ spare).Nodup) (some_ : trie.part place ≠ .nil) :
    (trie.part place).marks.Nodup := by
  obtain ⟨rest, isOld, -⟩ := Trie.marks_put (Trie.has_place_of_part some_)
  exact (nodup_append.1 (isOld.nodup_iff.1 (nodup_append.1 distinct).1)).1

theorem set_value_sound (sound : Sound tree trie free)
    (here : trie.part place = .node addr value right left) (newValue : Nat) :
    Sound (tree.write addr { tree.nodes addr with value := newValue })
      (trie.put place (.node addr newValue right left)) free := by
  have some_ := Trie.ne_nil_of_eq_node here
  have inMarks : addr ∈ trie.marks := Trie.mem_marks_of_part (by rw [here]; rfl)
  have rep := rep_part sound.rep place
  have partDistinct := part_nodup sound.nodup some_
  rw [here] at rep partDistinct
  obtain ⟨isNode, rightRep, leftRep⟩ := rep
  obtain ⟨notBelow, -⟩ := nodup_cons.1 partDistinct
  have elsewhere : ∀ other, other ≠ addr →
      (tree.write addr { tree.nodes addr with value := newValue }).nodes other = tree.nodes other :=
    fun other differ => update_of_ne differ _ _
  refine put_sound sound.toOwned some_ (by rw [here]; rfl) rfl rfl ?_ ⟨?_, ?_, ?_⟩ ?_ ?_
  · intro other _ notPart
    refine elsewhere other ?_
    rintro rfl
    refine notPart ?_
    rw [here]
    exact mem_cons_self ..
  · exact (update_self _ _ _).trans (by rw [isNode])
  · refine rep_congr rightRep fun other isOther => elsewhere other ?_
    rintro rfl
    exact notBelow (mem_append_left _ isOther)
  · refine rep_congr leftRep fun other isOther => elsewhere other ?_
    rintro rfl
    exact notBelow (mem_append_right _ isOther)
  · refine chain_congr sound.chain fun other isOther => elsewhere other ?_
    rintro rfl
    exact (nodup_append.1 sound.nodup).2.2 other inMarks other isOther rfl
  · rw [here]
    exact List.Perm.refl _

theorem rep_set_child {nodes nodes' : Nat → Node} {parent : Option Nat}
    (rep : Rep nodes parent (.node addr value right left))
    (isNode : nodes' addr = (nodes addr).setChild turn new.mark?)
    (sibling : Rep nodes' (some addr) (Trie.child (.node addr value right left) !turn))
    (newRep : Rep nodes' (some addr) new) :
    Rep nodes' parent (Trie.setChild (.node addr value right left) turn new) := by
  rw [rep.1] at isNode
  cases turn with
  | true => exact ⟨isNode, newRep, sibling⟩
  | false => exact ⟨isNode, sibling, newRep⟩

theorem change_child_sound (owned : Owned tree trie spare)
    (here : trie.part place = .node addr value right left) (sameRoot : after.root = tree.root)
    (sameStart : after.start = tree.start)
    (isNode : after.nodes addr = (tree.nodes addr).setChild turn new.mark?)
    (elsewhere : ∀ other ∈ trie.marks, other ≠ addr → other ∉ ((trie.part place).child turn).marks →
      after.nodes other = tree.nodes other)
    (newRep : Rep after.nodes (some addr) new) (chain : Chain after.nodes after.free free)
    (used : (new.marks ++ free).Perm (((trie.part place).child turn).marks ++ spare)) :
    Sound after (trie.put (place ++ [turn]) new) free := by
  have some_ := Trie.ne_nil_of_eq_node here
  have rep := rep_part owned.rep place
  have partDistinct := part_nodup owned.nodup some_
  have inTrie : ∀ other ∈ (trie.part place).marks, other ∈ trie.marks := by
    obtain ⟨rest, isOld, -⟩ := Trie.marks_put (Trie.has_place_of_part some_)
    exact fun other isOther => isOld.mem_iff.2 (mem_append_left _ isOther)
  obtain ⟨rest, isOld, isNew⟩ := @Trie.marks_put _ _ (trie.part place) [turn] ⟨some_, trivial⟩
  rw [Trie.put_snoc]
  refine put_sound owned some_ Trie.mark_set_child sameRoot sameStart ?_ ?_ chain ?_
  · intro other isOther notPart
    refine elsewhere other isOther ?_ ?_
    · rintro rfl
      refine notPart ?_
      rw [here]
      exact mem_cons_self ..
    · intro inChild
      exact notPart (isOld.mem_iff.2 (mem_append_left _ inChild))
  · rw [here] at rep partDistinct inTrie elsewhere ⊢
    obtain ⟨notBelow, distinct⟩ := nodup_cons.1 partDistinct
    obtain ⟨-, -, apart⟩ := nodup_append.1 distinct
    refine rep_set_child rep isNode (rep_congr (rep_child rep !turn) fun other isOther => ?_) newRep
    have isBelow : other ∈ right.marks ++ left.marks := by
      cases turn with
      | true => exact mem_append_right _ isOther
      | false => exact mem_append_left _ isOther
    refine elsewhere other (inTrie other (mem_cons_of_mem _ isBelow)) ?_ ?_
    · rintro rfl
      exact notBelow isBelow
    · intro inChild
      cases turn with
      | true => exact apart other inChild other isOther rfl
      | false => exact apart other isOther other inChild rfl
  · refine ((isNew new).append_right free).trans ?_
    refine List.Perm.trans ?_ (isOld.append_right spare).symm
    rw [append_assoc, append_assoc]
    refine (perm_append_comm_assoc _ _ _).trans ?_
    refine List.Perm.trans ?_ (perm_append_comm_assoc _ _ _)
    exact used.append_left rest

theorem attach_sound (owned : Owned tree trie (next :: free)) (chain : Chain tree.nodes tree.free free)
    (here : trie.part place = .node addr value right left) (empty : (trie.part place).child turn = .nil) :
    Sound (attach tree next addr turn)
      (trie.put (place ++ [turn]) (.node next ngxRadixNoValue .nil .nil)) free := by
  have inMarks : addr ∈ trie.marks := Trie.mem_marks_of_part (by rw [here]; rfl)
  obtain ⟨-, spareDistinct, apart⟩ := nodup_append.1 owned.nodup
  have isNew : ∀ other ∈ trie.marks, other ≠ next :=
    fun other isOther => apart other isOther next (mem_cons_self ..)
  have elsewhere : ∀ other, other ≠ addr → other ≠ next →
      (attach tree next addr turn).nodes other = tree.nodes other := by
    intro other notNode notNext
    exact (update_of_ne notNode _ _).trans (update_of_ne notNext _ _)
  refine change_child_sound owned here rfl rfl ?_ ?_ ⟨?_, trivial, trivial⟩ ?_ ?_
  · refine (update_self _ _ _).trans ?_
    exact congrArg (fun node : Node => node.setChild turn (some next))
      (update_of_ne (isNew addr inMarks) _ _)
  · intro other isOther differ _
    exact elsewhere other differ (isNew other isOther)
  · exact (update_of_ne (isNew addr inMarks).symm _ _).trans (update_self _ _ _)
  · refine chain_congr chain fun other isOther => elsewhere other ?_ ?_
    · rintro rfl
      exact apart other inMarks other (mem_cons_of_mem _ isOther) rfl
    · rintro rfl
      exact (nodup_cons.1 spareDistinct).1 isOther
  · rw [empty]
    exact List.Perm.refl _

theorem turn_of_child (distinct : (trie.marks ++ spare).Nodup) (rep : Rep tree.nodes none trie)
    (here : trie.part place = .node addr value right left)
    (isChild : ((trie.part place).child turn).mark? = some next) :
    decide ((tree.nodes addr).right = some next) = turn := by
  rw [node_at rep here]
  have partDistinct := part_nodup distinct (Trie.ne_nil_of_eq_node here)
  rw [here] at isChild partDistinct
  cases turn with
  | true => exact decide_eq_true isChild
  | false =>
    refine decide_eq_false fun isRight => ?_
    obtain ⟨-, distinct⟩ := nodup_cons.1 partDistinct
    obtain ⟨-, -, apart⟩ := nodup_append.1 distinct
    have inRight : (right.part []).mark? = some next := isRight
    have inLeft : (left.part []).mark? = some next := isChild
    exact apart next (Trie.mem_marks_of_part inRight) next (Trie.mem_marks_of_part inLeft) rfl

theorem detach_sound {leafValue : Nat} (sound : Sound tree trie free)
    (here : trie.part place = .node addr value right left)
    (isLeaf : (trie.part place).child turn = .node next leafValue .nil .nil) :
    Sound (detach tree next addr) (trie.put (place ++ [turn]) .nil) (next :: free) := by
  have isPlace : trie.part (place ++ [turn]) = .node next leafValue .nil .nil := by
    rw [Trie.part_snoc]
    exact isLeaf
  have inMarks : addr ∈ trie.marks := Trie.mem_marks_of_part (by rw [here]; rfl)
  have nextInMarks : next ∈ trie.marks := Trie.mem_marks_of_part (by rw [isPlace]; rfl)
  obtain ⟨-, -, apart⟩ := nodup_append.1 sound.nodup
  have isTurn := turn_of_child sound.nodup sound.rep here (by rw [isLeaf]; rfl)
  have differ : addr ≠ next := by
    have partDistinct := part_nodup sound.nodup (Trie.ne_nil_of_eq_node here)
    rw [here] at partDistinct isLeaf
    obtain ⟨notBelow, -⟩ := nodup_cons.1 partDistinct
    rintro rfl
    refine notBelow ?_
    cases turn with
    | true =>
      rw [show right = _ from isLeaf]
      exact mem_append_left _ (mem_cons_self ..)
    | false =>
      rw [show left = _ from isLeaf]
      exact mem_append_right _ (mem_cons_self ..)
  have elsewhere : ∀ other, other ≠ addr → other ≠ next →
      (detach tree next addr).nodes other = tree.nodes other := by
    intro other notNode notNext
    exact (update_of_ne notNext _ _).trans (update_of_ne notNode _ _)
  refine change_child_sound sound.toOwned here rfl rfl ?_ ?_ trivial ⟨rfl, ?_⟩ ?_
  · refine (update_of_ne differ _ _).trans ((update_self _ _ _).trans ?_)
    rw [isTurn]
    rfl
  · intro other isOther notNode notBelow
    refine elsewhere other notNode ?_
    rintro rfl
    refine notBelow ?_
    rw [isLeaf]
    exact mem_cons_self ..
  · have isNext : (detach tree next addr).nodes next = { tree.nodes next with right := tree.free } := by
      simp [detach, Tree.write, update_of_ne differ.symm]
    rw [isNext]
    refine chain_congr sound.chain fun other isOther => elsewhere other ?_ ?_
    · rintro rfl
      exact apart other inMarks other isOther rfl
    · rintro rfl
      exact apart other nextInMarks other isOther rfl
  · rw [isLeaf]
    exact List.Perm.refl _

end Writes

end ServerCore.NginxRadixTreeHeap
