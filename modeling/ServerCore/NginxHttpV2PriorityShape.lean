import ServerCore.NginxHttpV2Priority

/-!
# The shape of the priority tree

The queues of children against the parent links. The recursion of
`ngx_http_v2_node_children_update` gives every node below its start the rank
that the links ask for and leaves the others alone, and the loop that looks for
a node above its new parent finds it when the ranks are right.
-/

namespace ServerCore.NginxHttpV2PriorityShape

open RootedForest NginxHttpV2Priority List Function

variable {t'' : PriorityTree} {x here new : Ptr}

/-- `x` is reached from `p` through the queues. -/
inductive Under (children : Option Ptr → List Ptr) (p : Ptr) : Ptr → Prop
  | child {x : Ptr} : x ∈ children (some p) → Under children p x
  | step {x y : Ptr} : x ∈ children (some y) → Under children p y → Under children p x

structure Reranked (t t' : PriorityTree) : Prop where
  same : t' = { t with nodes := t'.nodes }
  node : ∀ x, t'.nodes x = { t.nodes x with rank := (t'.nodes x).rank }

theorem reranked_refl {t : PriorityTree} : Reranked t t := ⟨rfl, fun _ => rfl⟩

variable {t t' : PriorityTree} {p : Ptr} {depth : Ptr → Nat}

theorem reranked_trans (first : Reranked t t') (second : Reranked t' t'') : Reranked t t'' := by
  constructor
  · rw [second.same, first.same]
  · intro x
    rw [second.node x, first.node x]

theorem reranked_set (t : PriorityTree) (p : Ptr) (rank : Nat) : Reranked t (t.setRank p rank) := by
  refine ⟨rfl, ?_⟩
  intro x
  change update t.nodes p { t.nodes p with rank := rank } x =
    { t.nodes x with rank := (update t.nodes p { t.nodes p with rank := rank } x).rank }
  by_cases isNode : x = p
  · subst isNode
    rw [update_self]
  · rw [update_of_ne isNode]

theorem set_rank_self (t : PriorityTree) (p : Ptr) (rank : Nat) :
    ((t.setRank p rank).nodes p).rank = rank := by
  change (update t.nodes p { t.nodes p with rank := rank } p).rank = rank
  rw [update_self]

theorem set_rank_of_ne (t : PriorityTree) (differ : x ≠ p) (rank : Nat) :
    (t.setRank p rank).nodes x = t.nodes x := update_of_ne differ _ _

theorem reranked_children (reranked : Reranked t t') : t'.children = t.children := by
  rw [reranked.same]

def Towards (depth : Ptr → Nat) (t t' : PriorityTree) : Prop :=
  ∀ x, (t'.nodes x).rank = (t.nodes x).rank ∨ (t'.nodes x).rank = depth x

theorem towards_trans (first : Towards depth t t')
    (second : Towards depth t' t'') : Towards depth t t'' := by
  intro x
  rcases second x with same | isDepth
  · rw [same]
    exact first x
  · exact .inr isDepth

theorem towards_keeps (towards : Towards depth t t')
    (isDepth : (t.nodes x).rank = depth x) : (t'.nodes x).rank = depth x := by
  rcases towards x with same | isDepth'
  · exact same.trans isDepth
  · exact isDepth'

theorem children_update_spec (fuel : Nat) (depth : Ptr → Nat) (bound : Nat) (t : PriorityTree) (p : Ptr)
    (edges : ∀ y, y = p ∨ Under t.children p y → ∀ x ∈ t.children (some y),
      depth x = depth y + 1 ∧ depth x ≤ bound)
    (here : (t.nodes p).rank = depth p) (within : depth p ≤ bound) (enough : bound < depth p + fuel) :
    ∃ t', PriorityTree.nodeChildrenUpdate fuel t p = some t' ∧ Reranked t t' ∧ Towards depth t t' ∧
      ∀ x, Under t.children p x → (t'.nodes x).rank = depth x := by
  induction fuel generalizing t p with
  | zero => omega
  | succ fuel ih =>
    -- the loop over some of the children, from a tree in which others are done
    have loop : ∀ (list : List Ptr), (∀ x ∈ list, x ∈ t.children (some p)) → ∀ current, Reranked t current →
        Towards depth t current → ∃ t', list.foldlM (fun t child => PriorityTree.nodeChildrenUpdate fuel
          (t.setRank child ((t.nodes p).rank + 1)) child) current = some t' ∧ Reranked t t' ∧
          Towards depth t t' ∧ Towards depth current t' ∧
          ∀ x ∈ list, (t'.nodes x).rank = depth x ∧ ∀ y, Under t.children x y →
          (t'.nodes y).rank = depth y := by
      intro list
      induction list with
      | nil =>
        intro _ current reranked towards
        exact ⟨current, rfl, reranked, towards, fun _ => .inl rfl, nofun⟩
      | cons child list listInduction =>
        intro inside current reranked towards
        have isChild := inside child (mem_cons_self ..)
        rcases edges p (.inl rfl) child isChild with ⟨childDepth, childBound⟩
        have rankHere : (current.nodes p).rank = depth p := towards_keeps towards here
        have sameChildren : (current.setRank child ((current.nodes p).rank + 1)).children = t.children := by
          change current.children = t.children
          exact reranked_children reranked
        have childRank : ((current.setRank child ((current.nodes p).rank + 1)).nodes child).rank =
            depth child := by
          rw [set_rank_self, rankHere, childDepth]
        have childEdges : ∀ y, y = child ∨
            Under (current.setRank child ((current.nodes p).rank + 1)).children child y →
            ∀ x ∈ (current.setRank child ((current.nodes p).rank + 1)).children (some y),
              depth x = depth y + 1 ∧ depth x ≤ bound := by
          rw [sameChildren]
          rintro y (rfl | under)
          · exact edges y (.inr (.child isChild))
          · apply edges y
            right
            induction under with
            | child mem => exact .step mem (.child isChild)
            | step mem _ underInduction => exact .step mem underInduction
        rcases ih _ child childEdges childRank childBound (by omega) with
          ⟨afterChild, isAfter, rerankedChild, towardsChild, underChild⟩
        have rerankedSet := reranked_set current child ((current.nodes p).rank + 1)
        have towardsSet : Towards depth current (current.setRank child ((current.nodes p).rank + 1)) := by
          intro x
          by_cases isChildHere : x = child
          · subst isChildHere
            exact .inr childRank
          · exact .inl (congrArg Node.rank (set_rank_of_ne current isChildHere _))
        have towardsAfter := towards_trans towardsSet towardsChild
        rcases listInduction (fun x mem => inside x (mem_cons_of_mem _ mem)) afterChild
          (reranked_trans reranked (reranked_trans rerankedSet rerankedChild))
          (towards_trans towards towardsAfter) with ⟨t', isRest, rerankedRest, towardsRest, fromChild, rest⟩
        refine ⟨t', ?_, rerankedRest, towardsRest, towards_trans towardsAfter fromChild, ?_⟩
        · rw [foldlM_cons, isAfter]
          exact isRest
        · intro x mem
          rcases mem_cons.mp mem with rfl | later
          · refine ⟨towards_keeps fromChild (towards_keeps towardsChild childRank), ?_⟩
            intro y under
            rw [sameChildren] at underChild
            exact towards_keeps fromChild (underChild y under)
          · exact rest x later
    rcases loop (t.children (some p)) (fun _ mem => mem) t reranked_refl (fun _ => .inl rfl) with
      ⟨t', isResult, reranked, towards, -, done⟩
    refine ⟨t', isResult, reranked, towards, ?_⟩
    intro x under
    -- the first step from `p` leads to one of the children
    have first : ∃ child ∈ t.children (some p), x = child ∨ Under t.children child x := by
      induction under with
      | child mem => exact ⟨_, mem, .inl rfl⟩
      | step mem _ underInduction =>
        rcases underInduction with ⟨child, isChild, rfl | under⟩
        · exact ⟨_, isChild, .inr (.child mem)⟩
        · exact ⟨child, isChild, .inr (.step mem under)⟩
    rcases first with ⟨child, isChild, rfl | under⟩
    · exact (done x isChild).1
    · exact (done child isChild).2 x under

section Queues

def linkOf : Option Ptr → Link Ptr
  | none => .root
  | some p => .node p

variable {owner : Option Ptr} {list : List Ptr}

theorem link_of_injective {owner' : Option Ptr} (same : linkOf owner = linkOf owner') : owner = owner' := by
  cases owner with
  | none =>
    cases owner' with
    | none => rfl
    | some _ => cases same
  | some _ =>
    cases owner' with
    | none => cases same
    | some _ =>
      cases same
      rfl

structure Queues (mem : Ptr → Prop) (parent : Ptr → Link Ptr) (children : Option Ptr → List Ptr) : Prop where
  distinct : ∀ owner, (children owner).Nodup
  queued : ∀ owner x, x ∈ children owner ↔ mem x ∧ parent x = linkOf owner
  inside : ∀ x y, mem x → parent x = .node y → mem y

variable {mem : Ptr → Prop} {parent : Ptr → Link Ptr} {children : Option Ptr → List Ptr}

theorem mem_insert_after : x ∈ insertAfter here new list ↔ x ∈ list ∨ x = new ∧ here ∈ list := by
  induction list with
  | nil => simp [insertAfter]
  | cons first list ih =>
    unfold insertAfter
    by_cases isHere : first = here
    · rw [if_pos isHere]
      subst isHere
      simp only [mem_cons, true_or, and_true]
      tauto
    · rw [if_neg isHere]
      simp only [mem_cons, ih]
      tauto

theorem nodup_insert_after (distinct : list.Nodup) (isNew : new ∉ list) :
    (insertAfter here new list).Nodup := by
  induction list with
  | nil => exact distinct
  | cons first list ih =>
    rcases nodup_cons.mp distinct with ⟨firstNew, rest⟩
    have newFirst : new ≠ first := fun same => isNew (same ▸ mem_cons_self ..)
    have newRest : new ∉ list := fun inRest => isNew (mem_cons_of_mem _ inRest)
    unfold insertAfter
    by_cases isHere : first = here
    · rw [if_pos isHere]
      apply nodup_cons.mpr
      refine ⟨?_, nodup_cons.mpr ⟨newRest, rest⟩⟩
      intro again
      rcases mem_cons.mp again with same | inRest
      · exact newFirst same.symm
      · exact firstNew inRest
    · rw [if_neg isHere]
      apply nodup_cons.mpr
      refine ⟨?_, ih rest newRest⟩
      intro again
      rcases mem_insert_after.mp again with inRest | ⟨same, -⟩
      · exact firstNew inRest
      · exact newFirst same.symm

section

variable (queues : Queues mem parent children)
include queues

theorem queues_lift {q : Ptr} (pMember : mem p) (qMember : mem q) (differ : p ≠ q) :
    Queues mem (update parent q (parent p)) (fun owner => insertAfter p q ((children owner).erase q)) := by
  constructor
  · intro owner
    exact nodup_insert_after ((queues.distinct owner).erase q) (queues.distinct owner).not_mem_erase
  · intro owner x
    rw [mem_insert_after, (queues.distinct owner).mem_erase_iff, (queues.distinct owner).mem_erase_iff]
    by_cases isLifted : x = q
    · subst isLifted
      rw [update_self, queues.queued owner p]
      tauto
    · rw [update_of_ne isLifted, queues.queued owner x]
      tauto
  · intro x y xMem isParent
    by_cases isLifted : x = q
    · subst isLifted
      rw [update_self] at isParent
      exact queues.inside p y pMember isParent
    · rw [update_of_ne isLifted] at isParent
      exact queues.inside x y xMem isParent

theorem queues_adopt (pMember : mem p) (differ : owner ≠ some p) :
    Queues mem (fun x => if x ∈ children owner then .node p else parent x)
      (update (update children (some p) (children (some p) ++ children owner)) owner []) := by
  have atOwner : ∀ other, other ≠ owner → other ≠ some p →
      update (update children (some p) (children (some p) ++ children owner)) owner [] other =
        children other := by
    intro other notOwner notNode
    rw [update_of_ne notOwner, update_of_ne notNode]
  have atNode : update (update children (some p) (children (some p) ++ children owner)) owner []
      (some p) = children (some p) ++ children owner := by
    rw [update_of_ne differ.symm, update_self]
  have exclusive : ∀ other x, x ∈ children other → x ∈ children owner → other = owner := by
    intro other x inOther inOwner
    have first := ((queues.queued other x).mp inOther).2
    have second := ((queues.queued owner x).mp inOwner).2
    exact link_of_injective (first.symm.trans second)
  constructor
  · intro other
    by_cases isOwner : other = owner
    · subst isOwner
      rw [update_self]
      exact nodup_nil
    · by_cases isNode : other = some p
      · subst isNode
        rw [atNode]
        apply (queues.distinct _).append (queues.distinct owner)
        intro x inNode inOwner
        exact isOwner (exclusive _ x inNode inOwner)
      · rw [atOwner other isOwner isNode]
        exact queues.distinct other
  · intro other x
    by_cases isOwner : other = owner
    · subst isOwner
      rw [update_self]
      constructor
      · intro inNone
        cases inNone
      · rintro ⟨xMem, isParent⟩
        by_cases adopted : x ∈ children other
        · rw [if_pos adopted] at isParent
          exact absurd (link_of_injective (@id (linkOf (some p) = _) isParent)).symm differ
        · rw [if_neg adopted] at isParent
          exact absurd ((queues.queued other x).mpr ⟨xMem, isParent⟩) adopted
    · by_cases isNode : other = some p
      · subst isNode
        rw [atNode, mem_append]
        by_cases adopted : x ∈ children owner
        · rw [if_pos adopted]
          have xMem := ((queues.queued owner x).mp adopted).1
          exact ⟨fun _ => ⟨xMem, rfl⟩, fun _ => .inr adopted⟩
        · rw [if_neg adopted, queues.queued (some p) x]
          tauto
      · rw [atOwner other isOwner isNode]
        by_cases adopted : x ∈ children owner
        · rw [if_pos adopted]
          constructor
          · intro inOther
            exact absurd (exclusive other x inOther adopted) isOwner
          · rintro ⟨-, isParent⟩
            exact absurd (link_of_injective (@id (linkOf (some p) = _) isParent)).symm isNode
        · rw [if_neg adopted]
          exact queues.queued other x
  · intro x y xMem isParent
    by_cases adopted : x ∈ children owner
    · rw [if_pos adopted] at isParent
      cases isParent
      exact pMember
    · rw [if_neg adopted] at isParent
      exact queues.inside x y xMem isParent

theorem queues_move (pMember : mem p)
    (ownerMember : ∀ q, owner = some q → mem q) : Queues mem (update parent p (linkOf owner))
      (update (fun other => (children other).erase p) owner ((children owner).erase p ++ [p])) := by
  have notLeft : ∀ other, p ∉ (children other).erase p := fun other => (queues.distinct other).not_mem_erase
  constructor
  · intro other
    by_cases isOwner : other = owner
    · subst isOwner
      rw [update_self]
      apply ((queues.distinct other).erase p).append (nodup_singleton p)
      intro x inOther isLast
      rw [mem_singleton.mp isLast] at inOther
      exact notLeft other inOther
    · rw [update_of_ne isOwner]
      exact (queues.distinct other).erase p
  · intro other x
    by_cases isOwner : other = owner
    · subst isOwner
      rw [update_self, mem_append, mem_singleton, (queues.distinct other).mem_erase_iff]
      by_cases isNode : x = p
      · subst isNode
        rw [update_self]
        tauto
      · rw [update_of_ne isNode, queues.queued other x]
        tauto
    · rw [update_of_ne isOwner, (queues.distinct other).mem_erase_iff]
      by_cases isNode : x = p
      · subst isNode
        rw [update_self]
        constructor
        · rintro ⟨differ, -⟩
          cases differ rfl
        · rintro ⟨-, isParent⟩
          exact absurd (link_of_injective isParent).symm isOwner
      · rw [update_of_ne isNode, queues.queued other x]
        tauto
  · intro x y xMem isParent
    by_cases isNode : x = p
    · subst isNode
      rw [update_self] at isParent
      exact ownerMember y (link_of_injective (@id (_ = linkOf (some y)) isParent))
    · rw [update_of_ne isNode] at isParent
      exact queues.inside x y xMem isParent

theorem queues_splice
    (isOwner : parent p = linkOf owner) (differ : owner ≠ some p) : Queues (fun x => mem x ∧ x ≠ p)
      (update (fun x => if x ∈ children (some p) then parent p else parent x) p .unset)
      (update (update (fun other => (children other).erase p) owner
        ((children owner).erase p ++ (children (some p)).erase p)) (some p) []) := by
  have apart : ∀ x, x ∈ children owner → x ∉ children (some p) := by
    intro x inOwner inNode
    have first := ((queues.queued owner x).mp inOwner).2
    have second := ((queues.queued (some p) x).mp inNode).2
    exact differ (link_of_injective (first.symm.trans second))
  constructor
  · intro other
    by_cases isNode : other = some p
    · rw [isNode, update_self]
      exact nodup_nil
    · rw [update_of_ne isNode]
      by_cases isQueue : other = owner
      · rw [isQueue, update_self]
        apply ((queues.distinct owner).erase p).append ((queues.distinct (some p)).erase p)
        intro x inOwner inNode
        exact apart x (mem_of_mem_erase inOwner) (mem_of_mem_erase inNode)
      · rw [update_of_ne isQueue]
        exact (queues.distinct other).erase p
  · intro other x
    by_cases isTaken : x = p
    · rw [isTaken, update_self]
      constructor
      · intro inQueue
        by_cases isNode : other = some p
        · rw [isNode, update_self] at inQueue
          cases inQueue
        · rw [update_of_ne isNode] at inQueue
          by_cases isQueue : other = owner
          · rw [isQueue, update_self, mem_append] at inQueue
            rcases inQueue with inOwner | inNode
            · exact absurd inOwner (queues.distinct owner).not_mem_erase
            · exact absurd inNode (queues.distinct (some p)).not_mem_erase
          · rw [update_of_ne isQueue] at inQueue
            exact absurd inQueue (queues.distinct other).not_mem_erase
      · rintro ⟨⟨-, absurdity⟩, -⟩
        cases absurdity rfl
    · rw [update_of_ne isTaken]
      have kept : ∀ queue, x ∈ (children queue).erase p ↔ mem x ∧ parent x = linkOf queue := by
        intro queue
        rw [(queues.distinct queue).mem_erase_iff, queues.queued queue x]
        tauto
      by_cases isChild : x ∈ children (some p)
      · rw [if_pos isChild, isOwner]
        rcases (queues.queued (some p) x).mp isChild with ⟨xMem, isParent⟩
        by_cases isNode : other = some p
        · rw [isNode, update_self]
          constructor
          · intro inNone
            cases inNone
          · rintro ⟨-, same⟩
            exact absurd (link_of_injective same) differ
        · rw [update_of_ne isNode]
          by_cases isQueue : other = owner
          · rw [isQueue, update_self, mem_append, kept, kept]
            exact ⟨fun _ => ⟨⟨xMem, isTaken⟩, rfl⟩, fun _ => .inr ⟨xMem, isParent⟩⟩
          · rw [update_of_ne isQueue, kept]
            constructor
            · rintro ⟨-, same⟩
              exact absurd (link_of_injective (same.symm.trans isParent)) isNode
            · rintro ⟨-, same⟩
              exact absurd (link_of_injective same).symm isQueue
      · rw [if_neg isChild]
        have notChild : ¬ (mem x ∧ parent x = linkOf (some p)) := fun isNode =>
          isChild ((queues.queued (some p) x).mpr isNode)
        by_cases isNode : other = some p
        · rw [isNode, update_self]
          constructor
          · intro inNone
            cases inNone
          · rintro ⟨⟨xMem, -⟩, same⟩
            exact absurd ⟨xMem, same⟩ notChild
        · rw [update_of_ne isNode]
          by_cases isQueue : other = owner
          · rw [isQueue, update_self, mem_append, kept, kept]
            tauto
          · rw [update_of_ne isQueue, kept]
            tauto
  · rintro x y ⟨xMem, isTaken⟩ isParent
    rw [update_of_ne isTaken] at isParent
    by_cases isChild : x ∈ children (some p)
    · rw [if_pos isChild] at isParent
      have pMember := queues.inside x p xMem ((queues.queued (some p) x).mp isChild).2
      refine ⟨queues.inside p y pMember isParent, ?_⟩
      rintro rfl
      exact differ (link_of_injective (isOwner.symm.trans isParent))
    · rw [if_neg isChild] at isParent
      refine ⟨queues.inside x y xMem isParent, ?_⟩
      rintro rfl
      exact isChild ((queues.queued (some y) x).mpr ⟨xMem, isParent⟩)

theorem queues_enter (isUnset : parent p = .unset) : Queues (fun x => x = p ∨ mem x) parent children := by
  have notLinked : ∀ owner, parent p ≠ linkOf owner := by
    intro owner isLink
    rw [isUnset] at isLink
    cases owner with
    | none => cases isLink
    | some _ => cases isLink
  constructor
  · exact queues.distinct
  · intro owner x
    rw [queues.queued owner x]
    constructor
    · rintro ⟨xMem, isParent⟩
      exact ⟨.inr xMem, isParent⟩
    · rintro ⟨rfl | xMem, isParent⟩
      · exact absurd isParent (notLinked owner)
      · exact ⟨xMem, isParent⟩
  · rintro x y (rfl | xMem) isParent
    · exact absurd isParent (notLinked (some y))
    · exact .inr (queues.inside x y xMem isParent)

end

end Queues

end ServerCore.NginxHttpV2PriorityShape
