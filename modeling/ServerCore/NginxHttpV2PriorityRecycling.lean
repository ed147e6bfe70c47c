import Mathlib.Algebra.Order.BigOperators.Group.List
import Mathlib.Algebra.Order.Group.Nat
import ServerCore.NginxHttpV2PriorityRecords

/-!
# Nodes that are used again

`ngx_http_v2_get_closed_node` takes the node that was closed first out of the
index and out of the tree. Its children get its parent and their part of its
weight, and the update of ranks starts from the node, which stands for its own
parent. `ngx_http_v2_get_node_by_id` then enters the node under a new identifier.
-/

namespace ServerCore.NginxHttpV2PriorityRecycling

open RootedForest NginxHttpV2Priority NginxHttpV2PriorityShape NginxHttpV2PriorityDependency
open NginxHttpV2PriorityRecords List Function

variable {t : PriorityTree} {x : Ptr} {sid : Nat}

def share (t : PriorityTree) (p : Ptr) (weight : Nat) (child : Ptr) : Nat :=
  if (t.nodes p).weight * (t.nodes child).weight / weight = 0 then 1
  else (t.nodes p).weight * (t.nodes child).weight / weight

variable {p : Ptr} {owner : Option Ptr}

theorem share_bounds {child : Ptr} {weight : Nat} (bound : (t.nodes p).weight ≤ 256)
    (part : (t.nodes child).weight ≤ weight) : 1 ≤ share t p weight child ∧
    share t p weight child ≤ 256 := by
  have quotient : (t.nodes p).weight * (t.nodes child).weight / weight ≤ (t.nodes p).weight := by
    apply Nat.div_le_of_le_mul
    rw [mul_comm weight]
    exact Nat.mul_le_mul_left _ part
  unfold share
  by_cases isZero : (t.nodes p).weight * (t.nodes child).weight / weight = 0
  · rw [if_pos isZero]
    omega
  · rw [if_neg isZero]
    exact ⟨Nat.pos_of_ne_zero isZero, le_trans quotient bound⟩

/-- The nodes after the children have got the parent and the weights. -/
def inherited (t : PriorityTree) (p : Ptr) (weight : Nat) (list : List Ptr) (x : Ptr) : Node :=
  if x ∈ list then { t.nodes x with parent := parentOf t p, weight := share t p weight x } else t.nodes x

theorem fold_inherit (list : List Ptr) (t : PriorityTree) (weight : Nat) (notChild : p ∉ list)
    (apart : list.Nodup) :
    list.foldl (fun t child => t.inheritChild p weight child) t =
    { t with nodes := inherited t p weight list } := by
  induction list generalizing t with
  | nil =>
    unfold inherited
    simp
  | cons child list ih =>
    rcases nodup_cons.mp apart with ⟨childNew, rest⟩
    have pRest : p ∉ list := fun inRest => notChild (mem_cons_of_mem _ inRest)
    have pChild : p ≠ child := fun same => notChild (same ▸ mem_cons_self ..)
    rw [foldl_cons, ih _ pRest rest]
    have sameParent : (t.inheritChild p weight child).nodes p = t.nodes p := update_of_ne pChild _ _
    congr 1
    funext x
    unfold inherited
    by_cases isChild : x = child
    · subst isChild
      rw [if_neg childNew, if_pos (mem_cons_self ..)]
      exact update_self ..
    · have sameNode : (t.inheritChild p weight child).nodes x = t.nodes x := update_of_ne isChild _ _
      by_cases inRest : x ∈ list
      · rw [if_pos inRest, if_pos (mem_cons_of_mem _ inRest)]
        unfold parentOf share
        rw [sameNode, sameParent]
      · have notHere : x ∉ child :: list := by
          intro here
          rcases mem_cons.mp here with same | later
          · exact isChild same
          · exact inRest later
        rw [if_neg inRest, if_neg notHere, sameNode]

section

variable (t : PriorityTree) (p : Ptr) (weight : Nat) (list : List Ptr) (x : Ptr)

theorem inherited_rank : (inherited t p weight list x).rank = (t.nodes x).rank := by
  unfold inherited
  by_cases inList : x ∈ list
  · rw [if_pos inList]
  · rw [if_neg inList]

theorem inherited_parent :
    (inherited t p weight list x).parent = if x ∈ list then parentOf t p else parentOf t x := by
  unfold inherited
  by_cases inList : x ∈ list
  · rw [if_pos inList, if_pos inList]
  · rw [if_neg inList, if_neg inList]
    rfl

theorem inherited_record : (inherited t p weight list x).id = (t.nodes x).id ∧
      (inherited t p weight list x).hasStream = (t.nodes x).hasStream := by
  unfold inherited
  by_cases inList : x ∈ list
  · rw [if_pos inList]
    exact ⟨rfl, rfl⟩
  · rw [if_neg inList]
    exact ⟨rfl, rfl⟩

end

section Recycle

variable {t : PriorityTree}

/-- The tree from which the node is taken, before the ranks are updated. -/
def relieved (t : PriorityTree) (p : Ptr) (rest : List Ptr) : PriorityTree :=
  let list := (t.children (some p)).erase p
  { t with
    nodes := inherited t p ((list.map fun child => (t.nodes child).weight).sum) list
    streamsIndex := update t.streamsIndex (t.index (t.nodes p).id)
      ((t.streamsIndex (t.index (t.nodes p).id)).erase p)
    children := fun owner => (t.children owner).erase p
    closed := rest
    closedNodes := (t.closedNodes + 255) % 256 }

theorem relieved_parent_queue (t : PriorityTree) (p : Ptr) (rest : List Ptr) (link : Link Ptr) :
    (relieved t p rest).parentQueue link = t.parentQueue link := by
  cases link with
  | unset => rfl
  | root => rfl
  | node a =>
    change some (some a, (inherited t p _ _ a).rank) = some (some a, (t.nodes a).rank)
    rw [inherited_rank]

variable {rest : List Ptr}

theorem get_closed_node_eq (isClosed : t.closed = p :: rest)
    (inBucket : p ∈ t.streamsIndex (t.index (t.nodes p).id)) (apart : (t.children (some p)).Nodup)
    {rank : Nat} (isQueue : t.parentQueue (parentOf t p) = some (owner, rank)) :
    t.getClosedNode = (((relieved t p rest).setRank p rank).childrenUpdate p).bind fun t =>
      some ((t.setChildren owner (t.children owner ++ t.children (some p))).setNode p zeroNode, p) := by
  have notChild : p ∉ (t.children (some p)).erase p := apart.not_mem_erase
  have pParent : ((relieved t p rest).nodes p).parent = parentOf t p := by
    change (inherited t p _ _ p).parent = _
    rw [inherited_parent, if_neg notChild]
  have isQueue' : (relieved t p rest).parentQueue ((relieved t p rest).nodes p).parent =
      some (owner, rank) := by
    rw [relieved_parent_queue, pParent, isQueue]
  unfold PriorityTree.getClosedNode
  rw [isClosed]
  dsimp only
  rw [if_pos inBucket]
  unfold PriorityTree.removeQueue
  rw [fold_inherit _ _ _ notChild (apart.erase p)]
  change ((relieved t p rest).parentQueue ((relieved t p rest).nodes p).parent).bind _ = _
  rw [isQueue']
  rfl

theorem relieved_member (books : Books t none) (rest : List Ptr) (x : Ptr) :
    Member (relieved t p rest) x ↔ Member t x ∧ x ≠ p := by
  constructor
  · rintro ⟨bucket, inBucket⟩
    change x ∈ update t.streamsIndex _ _ bucket at inBucket
    by_cases isBucket : bucket = t.index (t.nodes p).id
    · rw [isBucket, update_self, (books.distinct _).mem_erase_iff] at inBucket
      exact ⟨⟨_, inBucket.2⟩, inBucket.1⟩
    · rw [update_of_ne isBucket] at inBucket
      refine ⟨⟨bucket, inBucket⟩, ?_⟩
      rintro rfl
      exact isBucket (books.placed bucket x inBucket)
  · rintro ⟨⟨bucket, inBucket⟩, differ⟩
    refine ⟨bucket, ?_⟩
    change x ∈ update t.streamsIndex _ _ bucket
    by_cases isBucket : bucket = t.index (t.nodes p).id
    · rw [isBucket] at inBucket ⊢
      rw [update_self, (books.distinct _).mem_erase_iff]
      exact ⟨differ, inBucket⟩
    · rw [update_of_ne isBucket]
      exact inBucket

theorem relieved_books (books : Books t none)
    (isClosed : t.closed = p :: rest) : Books (relieved t p rest) none := by
  have isMem := relieved_member books (p := p) rest
  have apart : p ∉ rest ∧ rest.Nodup := nodup_cons.mp (isClosed ▸ books.closedDistinct)
  have pMember : Member t p := ((books.isClosed p).mp (isClosed ▸ mem_cons_self ..)).1
  have record : ∀ x, ((relieved t p rest).nodes x).id = (t.nodes x).id ∧
      ((relieved t p rest).nodes x).hasStream = (t.nodes x).hasStream := fun x => inherited_record ..
  have notNone : ∀ x : Ptr, some x ≠ none := nofun
  constructor
  · intro bucket x inBucket
    rw [(record x).1]
    change x ∈ update t.streamsIndex _ _ bucket at inBucket
    by_cases isBucket : bucket = t.index (t.nodes p).id
    · rw [isBucket, update_self] at inBucket
      rw [isBucket]
      exact books.placed _ x (mem_of_mem_erase inBucket)
    · rw [update_of_ne isBucket] at inBucket
      exact books.placed bucket x inBucket
  · intro bucket
    change (update t.streamsIndex _ _ bucket).Nodup
    by_cases isBucket : bucket = t.index (t.nodes p).id
    · rw [isBucket, update_self]
      exact (books.distinct _).erase p
    · rw [update_of_ne isBucket]
      exact books.distinct bucket
  · intro x y xMem yMember
    rw [(record x).1, (record y).1]
    exact books.unique x y ((isMem x).mp xMem).1 ((isMem y).mp yMember).1
  · exact apart.2
  · intro x
    have before := books.isClosed x
    rw [isClosed, mem_cons] at before
    rw [isMem, (record x).2]
    constructor
    · intro inRest
      rcases before.mp (.inr inRest) with ⟨xMem, noStream, notOut⟩
      refine ⟨⟨xMem, ?_⟩, noStream, notOut⟩
      rintro rfl
      exact apart.1 inRest
    · rintro ⟨⟨xMem, differ⟩, noStream, notOut⟩
      rcases before.mpr ⟨xMem, noStream, notOut⟩ with same | inRest
      · exact absurd same differ
      · exact inRest
  · have counted := books.counted
    rw [isClosed, length_cons] at counted
    change (t.closedNodes + 255) % 256 = rest.length % 256
    omega
  · intro x xMem _
    rcases (isMem x).mp xMem with ⟨xBefore, -⟩
    have ownWeight := books.weighted x xBefore (notNone x)
    change 1 ≤ (inherited t p _ _ x).weight ∧ (inherited t p _ _ x).weight ≤ 256
    unfold inherited
    by_cases inList : x ∈ (t.children (some p)).erase p
    · rw [if_pos inList]
      apply share_bounds (books.weighted p pMember (notNone p)).2
      exact single_le_sum (fun _ _ => Nat.zero_le _) _
        (mem_map_of_mem inList)
    · rw [if_neg inList]
      exact ownWeight
  · intro x xMem
    rw [(record x).1, (record x).2]
    exact books.opened x ((isMem x).mp xMem).1

structure Relieved (t t₁ : PriorityTree) (p : Ptr) : Prop where
  books : Books t₁ none
  isMember : ∀ x, Member t₁ x ↔ Member t x ∧ x ≠ p
  isParent : ∀ x, parentOf t₁ x = if x ∈ t.children (some p) then parentOf t p else parentOf t x
  isRank : ∀ x, (t₁.nodes x).rank = (t.nodes x).rank
  isId : ∀ x, (t₁.nodes x).id = (t.nodes x).id
  isChildren : t₁.children = fun owner => (t.children owner).erase p
  isLast : t₁.lastSid = t.lastSid

theorem ranked_of_links (links : Links t none) (xMem : Member t x) :
    Depth (parentOf t) (.node x) (t.nodes x).rank :=
  links.ranked x xMem (links.linked x xMem (nofun))

theorem relieved_spec (books : Books t none) (links : Links t none)
    (isClosed : t.closed = p :: rest) (pMember : Member t p) : Relieved t (relieved t p rest) p := by
  have listEq : (t.children (some p)).erase p = t.children (some p) := by
    apply erase_of_not_mem
    intro inQueue
    exact not_below_self (ranked_of_links links pMember)
      (.child ((links.queues.queued (some p) p).mp inQueue).2)
  constructor
  · exact relieved_books books isClosed
  · exact relieved_member books rest
  · intro x
    change (inherited t p _ ((t.children (some p)).erase p) x).parent = _
    rw [inherited_parent, listEq]
  · exact fun x => inherited_rank ..
  · exact fun x => (inherited_record ..).1
  · rfl
  · rfl

section Relieved

variable {t₁ : PriorityTree} {p : Ptr}

variable {depth : Nat}

section

variable (links : Links t none) (relieved : Relieved t t₁ p)
include links relieved

theorem relieved_spliced (x : Ptr) :
    parentOf t₁ x = parentOf t x ∨ parentOf t x = .node p ∧ parentOf t₁ x = parentOf t p := by
  rw [relieved.isParent]
  by_cases isChild : x ∈ t.children (some p)
  · exact .inr ⟨((links.queues.queued (some p) x).mp isChild).2, if_pos isChild⟩
  · exact .inl (if_neg isChild)

theorem relieved_outside (xMem : Member t x) :
    Depth (parentOf t₁) (.node x) (t.nodes x).rank ∨ Below (parentOf t) p x := by
  by_cases below : Below (parentOf t) p x
  · exact .inr below
  · left
    apply depth_congr (ranked_of_links links xMem)
    intro y onTheWay
    rcases relieved_spliced links relieved y with same | ⟨isChild, -⟩
    · exact same
    · rcases onTheWay with rfl | yBelow
      · exact absurd (.child isChild) below
      · exact absurd (below_trans (.child isChild) yBelow) below

theorem relieved_inside (pMember : Member t p) (x y : Ptr)
    (xMem : Member t₁ x) (isParent : parentOf t₁ x = .node y) : Member t₁ y := by
  rcases (relieved.isMember x).mp xMem with ⟨xBefore, -⟩
  rw [relieved.isParent] at isParent
  apply (relieved.isMember y).mpr
  by_cases isChild : x ∈ t.children (some p)
  · rw [if_pos isChild] at isParent
    refine ⟨links.queues.inside p y pMember isParent, ?_⟩
    rintro rfl
    exact not_below_self (ranked_of_links links pMember) (.child isParent)
  · rw [if_neg isChild] at isParent
    refine ⟨links.queues.inside x y xBefore isParent, ?_⟩
    rintro rfl
    exact isChild ((links.queues.queued (some y) x).mpr ⟨xBefore, isParent⟩)

theorem relieved_bounded (pMember : Member t p)
    (xMem : Member t₁ x) (isDepth : Depth (parentOf t₁) (.node x) depth) : depth ≤ t₁.members.length := by
  have covered := books_covered relieved.books
  apply depth_le_length _ (covered x xMem) isDepth
  intro a inList b isParent
  exact covered b (relieved_inside links relieved pMember a b (mem_of_member_members inList) isParent)

end

theorem under_without (links : Links t none) (pMember : Member t p) (below : Below (parentOf t) p x)
    (xMem : Member t x) : Under (fun owner => (t.children owner).erase p) p x := by
  have noCycle := not_below_self (ranked_of_links links pMember)
  have kept : ∀ z y, Below (parentOf t) p z → Member t z → parentOf t z = .node y →
      z ∈ (t.children (some y)).erase p := by
    intro z y zBelow zMember isParent
    apply (links.queues.distinct (some y)).mem_erase_iff.mpr
    refine ⟨?_, (links.queues.queued (some y) z).mpr ⟨zMember, isParent⟩⟩
    rintro rfl
    exact noCycle zBelow
  induction below with
  | @child z isParent => exact .child (kept z p (.child isParent) xMem isParent)
  | @step z y isParent yBelow ih =>
    have yMember := links.queues.inside z y xMem isParent
    exact .step (kept z y (.step isParent yBelow) xMem isParent) (ih yMember)

theorem relieved_update (links : Links t none) (relieved : Relieved t t₁ p) (pMember : Member t p)
    (pRank : (t.nodes p).rank = depth + 1) :
    ∃ t₂, (t₁.setRank p depth).childrenUpdate p = some t₂ ∧ Reranked t₁ t₂ ∧
      ∀ x, Member t₁ x → Depth (parentOf t₁) (.node x) (t₂.nodes x).rank := by
  have noCycle := not_below_self (ranked_of_links links pMember)
  have rooted : ∀ x, Member t x → ∃ depth', Depth (parentOf t₁) (.node x) depth' := fun x xMem =>
    depth_splice (relieved_spliced links relieved) (ranked_of_links links xMem)
  have above : Depth (parentOf t₁) (parentOf t p) depth := by
    rcases relieved_outside links relieved pMember with isDepth | below
    · rw [pRank] at isDepth
      rcases depth_node isDepth with ⟨above', same, rest⟩
      cases same
      rcases relieved_spliced links relieved p with isSame | ⟨-, isSame⟩
      · rw [isSame] at rest
        exact rest
      · rw [isSame] at rest
        exact rest
    · exact absurd below noCycle
  have ownBound : depth ≤ t₁.members.length := by
    cases isParent : parentOf t p with
    | unset =>
      rw [isParent] at above
      cases above
    | root =>
      rw [isParent] at above
      cases above
      exact Nat.zero_le _
    | node g =>
      rw [isParent] at above
      apply relieved_bounded links relieved pMember _ above
      apply (relieved.isMember g).mpr
      refine ⟨links.queues.inside p g pMember isParent, ?_⟩
      rintro rfl
      exact noCycle (.child isParent)
  have children₂ : (t₁.setRank p depth).children = fun owner =>
      (t.children owner).erase p := relieved.isChildren
  -- the node stands for its parent, the others have their new depths
  have edges : ∀ y, y = p ∨ Under (t₁.setRank p depth).children p y →
      ∀ x ∈ (t₁.setRank p depth).children (some y),
        update (depthOf (parentOf t₁)) p depth x = update (depthOf (parentOf t₁)) p depth y + 1 ∧
          update (depthOf (parentOf t₁)) p depth x ≤ t₁.members.length := by
    rw [children₂]
    intro y _ x inQueue
    rcases (links.queues.distinct (some y)).mem_erase_iff.mp inQueue with ⟨xDiffer, inBefore⟩
    rcases (links.queues.queued (some y) x).mp inBefore with ⟨xMem, isParent⟩
    rcases rooted x xMem with ⟨xDepth, isDepth⟩
    have xBound := relieved_bounded links relieved pMember
      ((relieved.isMember x).mpr ⟨xMem, xDiffer⟩) isDepth
    rcases depth_node isDepth with ⟨xAbove, rfl, xRest⟩
    rw [relieved.isParent x] at xRest
    rw [update_of_ne xDiffer, depth_of_eq isDepth]
    refine ⟨?_, xBound⟩
    by_cases isNode : y = p
    · subst isNode
      rw [if_pos inBefore] at xRest
      rw [update_self, depth_unique xRest above]
    · have notChild : x ∉ t.children (some p) := by
        intro isChild
        have same := isParent.symm.trans ((links.queues.queued (some p) x).mp isChild).2
        exact isNode (Option.some.inj (link_of_injective same))
      rw [if_neg notChild, isParent] at xRest
      rw [update_of_ne isNode, depth_of_eq xRest]
  have here : ((t₁.setRank p depth).nodes p).rank = update (depthOf (parentOf t₁)) p depth p := by
    rw [set_rank_self, update_self]
  have within : update (depthOf (parentOf t₁)) p depth p ≤ t₁.members.length := by
    rw [update_self]
    exact ownBound
  rcases children_update_spec (t₁.members.length + 1) _ t₁.members.length
    (t₁.setRank p depth) p edges here within
    (by omega) with ⟨t₂, isResult, reranked, towards, done⟩
  refine ⟨t₂, isResult, reranked_trans (reranked_set t₁ p depth) reranked, ?_⟩
  intro x xMember₁
  rcases (relieved.isMember x).mp xMember₁ with ⟨xMem, xDiffer⟩
  rcases rooted x xMem with ⟨xDepth, isDepth⟩
  have isRank : (t₂.nodes x).rank = update (depthOf (parentOf t₁)) p depth x := by
    rcases relieved_outside links relieved xMem with still | below
    · apply towards_keeps towards
      rw [set_rank_of_ne t₁ xDiffer, relieved.isRank, update_of_ne xDiffer, depth_of_eq still]
    · apply done x
      rw [children₂]
      exact under_without links pMember below xMem
  rw [isRank, update_of_ne xDiffer, depth_of_eq isDepth]
  exact isDepth

end Relieved

/-- The tree after the children have joined the queue of their new parent. -/
def taken (t : PriorityTree) (p : Ptr) (owner : Option Ptr) : PriorityTree :=
  (t.setChildren owner (t.children owner ++ t.children (some p))).setNode p zeroNode

theorem taken_node_of_ne (differ : x ≠ p) :
    (taken t p owner).nodes x = t.nodes x := update_of_ne differ _ _

theorem taken_node_self (t : PriorityTree) (p : Ptr) : (taken t p owner).nodes p = zeroNode :=
  update_self ..

theorem get_closed_node_spec (books : Books t none) (links : Links t none)
    (isClosed : t.closed = p :: rest) :
    ∃ t', t.getClosedNode = some (t', p) ∧ Books t' none ∧ Links (t'.setChildren (some p) []) none ∧
      (∀ x, Member t' x ↔ Member t x ∧ x ≠ p) ∧ t'.nodes p = zeroNode ∧
      (∀ x, x ≠ p → (t'.nodes x).id = (t.nodes x).id) ∧ t'.lastSid = t.lastSid := by
  have pMember : Member t p := ((books.isClosed p).mp (isClosed ▸ mem_cons_self ..)).1
  have pDepth := ranked_of_links links pMember
  have inBucket : p ∈ t.streamsIndex (t.index (t.nodes p).id) := by
    rcases pMember with ⟨bucket, inBucket⟩
    rw [← books.placed bucket p inBucket]
    exact inBucket
  rcases depth_node pDepth with ⟨depth, pRank, above⟩
  have parentRank : ∀ x, parentOf t p = .node x → (t.nodes x).rank = depth := by
    intro x isParent
    rw [isParent] at above
    exact depth_unique (ranked_of_links links (links.queues.inside p x pMember isParent)) above
  rcases parent_queue_spec above parentRank with ⟨owner, isQueue, isOwner⟩
  have differ : owner ≠ some p := by
    rintro rfl
    exact not_below_self pDepth (.child isOwner.symm)
  rw [get_closed_node_eq isClosed inBucket (links.queues.distinct _) isQueue]
  have isRelieved := relieved_spec books links isClosed pMember
  generalize relieved t p rest = t₁ at isRelieved ⊢
  rcases relieved_update links isRelieved pMember pRank with ⟨t₂, isUpdate, reranked, ranked⟩
  rw [isUpdate]
  have relinked := relinked_of_reranked reranked
  have isMem : ∀ x, Member (taken t₂ p owner) x ↔ Member t x ∧ x ≠ p := by
    intro x
    rw [← isRelieved.isMember x, ← relinked_member relinked]
    exact Iff.rfl
  have isParent : parentOf (taken t₂ p owner) =
      update (fun x => if x ∈ t.children (some p) then parentOf t p else parentOf t x) p .unset := by
    funext x
    by_cases isNode : x = p
    · rw [isNode, update_self]
      unfold parentOf
      rw [taken_node_self]
      rfl
    · rw [update_of_ne isNode, ← isRelieved.isParent x, ← reranked_parent reranked]
      unfold parentOf
      rw [taken_node_of_ne isNode]
  have isChildren : ((taken t₂ p owner).setChildren (some p) []).children = update (update
      (fun other => (t.children other).erase p) owner
      ((t.children owner).erase p ++ (t.children (some p)).erase p)) (some p) [] := by
    change update (update t₂.children owner (t₂.children owner ++ t₂.children (some p)))
      (some p) [] = _
    rw [reranked_children reranked, isRelieved.isChildren]
  -- no way to the root leads through the node
  have isDepth : ∀ x, Member (taken t₂ p owner) x →
      Depth (parentOf (taken t₂ p owner)) (.node x) ((taken t₂ p owner).nodes x).rank := by
    intro x xMem
    have xMember₁ := (isRelieved.isMember x).mpr ((isMem x).mp xMem)
    rw [taken_node_of_ne ((isMem x).mp xMem).2]
    apply depth_congr (ranked x xMember₁)
    intro y onTheWay
    have yMember : Member t₁ y := by
      rcases onTheWay with rfl | below
      · exact xMember₁
      · exact below_inside (relieved_inside links isRelieved pMember) below xMember₁
    rw [isParent, update_of_ne ((isRelieved.isMember y).mp yMember).2, isRelieved.isParent y]
  refine ⟨taken t₂ p owner, rfl, ?_, ?_, isMem, taken_node_self t₂ p, ?_, ?_⟩
  · apply books_frame (books_relinked relinked isRelieved.books)
    intro x xMem
    exact taken_node_of_ne ((isMem x).mp xMem).2
  · refine ⟨?_, ?_, ?_⟩
    · rw [isChildren]
      change Queues (Member (taken t₂ p owner)) (parentOf (taken t₂ p owner)) _
      have sameMember : Member (taken t₂ p owner) = fun x => Member t x ∧ x ≠ p := by
        funext x
        exact propext (isMem x)
      rw [isParent, sameMember]
      exact queues_splice links.queues isOwner.symm differ
    · intro x xMem _
      exact isDepth x xMem
    · intro x xMem _ isUnset
      rcases depth_node (isDepth x xMem) with ⟨_, -, rest'⟩
      change parentOf (taken t₂ p owner) x = .unset at isUnset
      rw [isUnset] at rest'
      cases rest'
  · intro x xDiffer
    rw [taken_node_of_ne xDiffer, relinked.node x]
    exact isRelieved.isId x
  · rw [← isRelieved.isLast]
    change t₂.lastSid = _
    rw [relinked.same]

end Recycle

section Alloc

variable {t : PriorityTree}

def entered (t : PriorityTree) (p : Ptr) (sid : Nat) : PriorityTree :=
  { t with
    nodes := update t.nodes p { t.nodes p with id := sid }
    children := update t.children (some p) []
    streamsIndex := update t.streamsIndex (t.index sid) (p :: t.streamsIndex (t.index sid)) }

theorem entered_node_of_ne (differ : x ≠ p) :
    (entered t p sid).nodes x = t.nodes x := update_of_ne differ _ _

section

variable (t : PriorityTree) (p : Ptr) (sid : Nat)

theorem entered_node_self : (entered t p sid).nodes p = { t.nodes p with id := sid } := update_self ..

theorem entered_parent : parentOf (entered t p sid) = parentOf t := by
  funext x
  unfold parentOf
  by_cases isNode : x = p
  · rw [isNode, entered_node_self]
  · rw [entered_node_of_ne isNode]

theorem entered_member : Member (entered t p sid) = fun x => x = p ∨ Member t x := by
  funext x
  apply propext
  constructor
  · rintro ⟨bucket, inBucket⟩
    change x ∈ update t.streamsIndex _ _ bucket at inBucket
    by_cases isBucket : bucket = t.index sid
    · rw [isBucket, update_self] at inBucket
      rcases mem_cons.mp inBucket with same | later
      · exact .inl same
      · exact .inr ⟨_, later⟩
    · rw [update_of_ne isBucket] at inBucket
      exact .inr ⟨bucket, inBucket⟩
  · rintro (rfl | ⟨bucket, inBucket⟩)
    · refine ⟨t.index sid, ?_⟩
      change x ∈ update t.streamsIndex _ _ (t.index sid)
      rw [update_self]
      exact mem_cons_self ..
    · refine ⟨bucket, ?_⟩
      change x ∈ update t.streamsIndex _ _ bucket
      by_cases isBucket : bucket = t.index sid
      · rw [isBucket] at inBucket ⊢
        rw [update_self]
        exact mem_cons_of_mem _ inBucket
      · rw [update_of_ne isBucket]
        exact inBucket

end

theorem entered_books (books : Books t none) (notMember : ¬ Member t p)
    (isZero : t.nodes p = zeroNode) (unused : ∀ x, Member t x → (t.nodes x).id ≠ sid) :
    Books (entered t p sid) (some p) := by
  have notNone : ∀ x : Ptr, some x ≠ none := nofun
  have differs : ∀ x, Member t x → x ≠ p := by
    rintro x xMem rfl
    exact notMember xMem
  have same : ∀ x, Member t x → (entered t p sid).nodes x = t.nodes x := fun x xMem =>
    entered_node_of_ne (differs x xMem)
  have ownId : ((entered t p sid).nodes p).id = sid := by rw [entered_node_self]
  have ownStream : ((entered t p sid).nodes p).hasStream = false := by
    rw [entered_node_self, isZero]
    rfl
  constructor
  · intro bucket x inBucket
    change x ∈ update t.streamsIndex _ _ bucket at inBucket
    have old : x ∈ t.streamsIndex bucket → bucket = t.index ((entered t p sid).nodes x).id := by
      intro inOld
      rw [same x ⟨bucket, inOld⟩]
      exact books.placed bucket x inOld
    by_cases isBucket : bucket = t.index sid
    · rw [isBucket, update_self] at inBucket
      rcases mem_cons.mp inBucket with rfl | later
      · rw [ownId]
        exact isBucket
      · exact old (isBucket ▸ later)
    · rw [update_of_ne isBucket] at inBucket
      exact old inBucket
  · intro bucket
    change (update t.streamsIndex _ _ bucket).Nodup
    by_cases isBucket : bucket = t.index sid
    · rw [isBucket, update_self]
      exact nodup_cons.mpr ⟨fun inOld => notMember ⟨_, inOld⟩, books.distinct _⟩
    · rw [update_of_ne isBucket]
      exact books.distinct bucket
  · rw [entered_member]
    rintro x y (rfl | xMem) (rfl | yMember) sameId
    · rfl
    · rw [ownId, same y yMember] at sameId
      exact absurd sameId.symm (unused y yMember)
    · rw [ownId, same x xMem] at sameId
      exact absurd sameId (unused x xMem)
    · rw [same x xMem, same y yMember] at sameId
      exact books.unique x y xMem yMember sameId
  · exact books.closedDistinct
  · intro x
    change x ∈ t.closed ↔ _
    rw [books.isClosed x, entered_member]
    constructor
    · rintro ⟨xMem, noStream, -⟩
      rw [same x xMem]
      exact ⟨.inr xMem, noStream, fun isNode => differs x xMem (Option.some.inj isNode)⟩
    · rintro ⟨rfl | xMem, noStream, notOut⟩
      · cases notOut rfl
      · rw [same x xMem] at noStream
        exact ⟨xMem, noStream, notNone x⟩
  · exact books.counted
  · rw [entered_member]
    rintro x (rfl | xMem) notOut
    · cases notOut rfl
    · rw [same x xMem]
      exact books.weighted x xMem (notNone x)
  · rw [entered_member]
    rintro x (rfl | xMem) isOpen
    · rw [ownStream] at isOpen
      cases isOpen
    · rw [same x xMem] at isOpen ⊢
      exact books.opened x xMem isOpen

theorem entered_links (links : Links (t.setChildren (some p) []) none) (notMember : ¬ Member t p)
    (isZero : t.nodes p = zeroNode) : Links (entered t p sid) (some p) := by
  have isUnset : parentOf t p = .unset := by
    unfold parentOf
    rw [isZero]
    rfl
  constructor
  · rw [entered_member, entered_parent]
    exact queues_enter links.queues isUnset
  · rw [entered_member, entered_parent]
    rintro x (rfl | xMem) isSet
    · exact absurd isUnset isSet
    · have differ : x ≠ p := by
        rintro rfl
        exact notMember xMem
      rw [entered_node_of_ne differ]
      exact links.ranked x xMem isSet
  · rw [entered_member, entered_parent]
    rintro x (rfl | xMem) notOut
    · cases notOut rfl
    · exact links.linked x xMem (nofun)

theorem alloc_node_by_id_spec (books : Books t none) (links : Links t none) (sid : Nat) {fresh : Ptr}
    (isFresh : ¬ Member t fresh) :
    ∃ t' p, t.allocNodeById sid fresh = some (t', p) ∧ Member t' p ∧ (t'.nodes p).id = sid ∧
      t'.lastSid = t.lastSid ∧
      (t' = t ∨ Books t' (some p) ∧ Links t' (some p) ∧ parentOf t' p = .unset ∧
        (t'.nodes p).hasStream = false) := by
  unfold PriorityTree.allocNodeById
  cases found : t.getNodeById sid with
  | some p =>
    rcases get_node_by_id_some sid found with ⟨pMember, isId⟩
    exact ⟨t, p, rfl, pMember, isId, rfl, .inl rfl⟩
  | none =>
    have unused : ∀ x, Member t x → (t.nodes x).id ≠ sid := fun x xMem =>
      get_node_by_id_none books found xMem
    -- a node that is not in the index, from the pool or taken out of the tree
    have node : ∃ t' p, (if t.closedNodes < 32 then some (t.setNode fresh zeroNode, fresh) else
        t.getClosedNode) =
        some (t', p) ∧ Books t' none ∧ Links (t'.setChildren (some p) []) none ∧ ¬ Member t' p ∧
        t'.nodes p = zeroNode ∧ (∀ x, Member t' x → (t'.nodes x).id ≠ sid) ∧ t'.lastSid = t.lastSid := by
      by_cases few : t.closedNodes < 32
      · rw [if_pos few]
        have same : ∀ x, Member t x → update t.nodes fresh zeroNode x = t.nodes x := by
          intro x xMem
          apply update_of_ne
          rintro rfl
          exact isFresh xMem
        have noChildren : t.children (some fresh) = [] := by
          apply eq_nil_iff_forall_not_mem.mpr
          intro x inQueue
          rcases (links.queues.queued (some fresh) x).mp inQueue with ⟨xMem, isParent⟩
          exact isFresh (links.queues.inside x fresh xMem isParent)
        have cleared : (t.setNode fresh zeroNode).setChildren (some fresh) [] =
            t.setNode fresh zeroNode := by
          rw [← noChildren]
          change { t.setNode fresh zeroNode with
            children := update t.children (some fresh) (t.children (some fresh)) } = _
          rw [update_eq_self]
          rfl
        refine ⟨t.setNode fresh zeroNode, fresh, rfl, books_frame books t.children same, ?_, isFresh,
          update_self .., ?_, rfl⟩
        · rw [cleared]
          exact links_frame links same
        · intro x xMem
          change (update t.nodes fresh zeroNode x).id ≠ sid
          rw [same x xMem]
          exact unused x xMem
      · rw [if_neg few]
        cases isClosed : t.closed with
        | nil =>
          have counted := books.counted
          rw [isClosed] at counted
          exact absurd (counted ▸ (by decide : 0 % 256 < 32)) few
        | cons p rest =>
          rcases get_closed_node_spec books links isClosed with
            ⟨t', isResult, books', links', isMem, isZero, sameId, sameLast⟩
          refine ⟨t', p, isResult, books', links', fun pStill => ((isMem p).mp pStill).2 rfl,
            isZero, ?_, sameLast⟩
          intro x xMem
          rcases (isMem x).mp xMem with ⟨xBefore, differ⟩
          rw [sameId x differ]
          exact unused x xBefore
    rcases node with ⟨t', p, isNode, books', links', notMember, isZero, unused', sameLast⟩
    rw [isNode]
    refine ⟨entered t' p sid, p, rfl, ?_, ?_, sameLast, .inr ⟨?_, ?_, ?_, ?_⟩⟩
    · rw [entered_member]
      exact .inl rfl
    · rw [entered_node_self]
    · exact entered_books books' notMember isZero unused'
    · exact entered_links links' notMember isZero
    · rw [entered_parent]
      unfold parentOf
      rw [isZero]
      rfl
    · rw [entered_node_self, isZero]
      rfl

end Alloc

end ServerCore.NginxHttpV2PriorityRecycling
