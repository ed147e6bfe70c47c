import ServerCore.NginxHttpV2PriorityShape

/-!
# New dependencies in the priority tree

Where the node was above its new parent, the parent first takes the place of the
node. With an exclusive dependency the other children of the new parent go below
the node.
-/

namespace ServerCore.NginxHttpV2PriorityDependency

open RootedForest NginxHttpV2Priority NginxHttpV2PriorityShape Function

variable {x q : Ptr} {link : Link Ptr}

/-- The nodes of `streams_index`. -/
def Member (t : PriorityTree) (x : Ptr) : Prop := ∃ bucket, x ∈ t.streamsIndex bucket

def parentOf (t : PriorityTree) (x : Ptr) : Link Ptr := (t.nodes x).parent

structure Relinked (t t' : PriorityTree) : Prop where
  same : t' = { t with nodes := t'.nodes, children := t'.children }
  node : ∀ x, t'.nodes x = { t.nodes x with parent := (t'.nodes x).parent, rank := (t'.nodes x).rank }

theorem relinked_refl (t : PriorityTree) : Relinked t t := ⟨rfl, fun _ => rfl⟩

variable {t t' : PriorityTree} {p : Ptr} {depth : Nat} {owner : Option Ptr}

theorem relinked_trans {t'' : PriorityTree} (first : Relinked t t') (second : Relinked t' t'') :
    Relinked t t'' := by
  constructor
  · rw [second.same, first.same]
  · intro x
    rw [second.node x, first.node x]

theorem relinked_of_reranked (reranked : Reranked t t') : Relinked t t' := by
  constructor
  · rw [reranked.same]
  · intro x
    rw [reranked.node x]

section

variable {t t' : PriorityTree} (relinked : Relinked t t')
include relinked

theorem relinked_index : t'.streamsIndex = t.streamsIndex := by
  rw [relinked.same]

theorem relinked_mask : t'.streamsIndexMask = t.streamsIndexMask := by
  rw [relinked.same]

theorem relinked_member : Member t' = Member t := by
  unfold Member
  rw [relinked_index relinked]

theorem relinked_members : t'.members = t.members := by
  unfold PriorityTree.members
  rw [relinked_index relinked, relinked_mask relinked]

end

theorem reranked_parent (reranked : Reranked t t') : parentOf t' = parentOf t := by
  funext x
  unfold parentOf
  rw [reranked.node x]

/-- The members are the nodes of the buckets, which are as many as the fuel needs. -/
def Covered (t : PriorityTree) : Prop := ∀ x, Member t x → x ∈ t.members

theorem relinked_covered (relinked : Relinked t t') (covered : Covered t) : Covered t' := by
  unfold Covered
  rw [relinked_member relinked, relinked_members relinked]
  exact covered

theorem mem_of_member_members (inList : x ∈ t.members) : Member t x := by
  rcases List.mem_flatMap.mp inList with ⟨bucket, -, inBucket⟩
  exact ⟨bucket, inBucket⟩

section Update

variable {t : PriorityTree}

theorem under_of_below (queues : Queues (Member t) (parentOf t) t.children)
    (below : Below (parentOf t) p x) (xMem : Member t x) : Under t.children p x := by
  induction below with
  | child isParent => exact .child ((queues.queued (some p) _).mpr ⟨xMem, isParent⟩)
  | @step x y isParent _ ih =>
    have inQueue := (queues.queued (some y) x).mpr ⟨xMem, isParent⟩
    exact .step inQueue (ih (queues.inside x y xMem isParent))

theorem depth_le_members (covered : Covered t) (queues : Queues (Member t) (parentOf t) t.children)
    (xMem : Member t x) (isDepth : Depth (parentOf t) (.node x) depth) : depth ≤ t.members.length := by
  apply depth_le_length _ (covered x xMem) isDepth
  intro a inList b isParent
  exact covered b (queues.inside a b (mem_of_member_members inList) isParent)

theorem children_update_ranks (covered : Covered t) (queues : Queues (Member t) (parentOf t) t.children)
    (rooted : ∀ x, Member t x → ∃ depth, Depth (parentOf t) (.node x) depth) (pMember : Member t p)
    (here : Depth (parentOf t) (.node p) (t.nodes p).rank) :
    ∃ t', t.childrenUpdate p = some t' ∧ Reranked t t' ∧
      ∀ x, Member t x → Depth (parentOf t) (.node x) (t.nodes x).rank ∨ x = p ∨ Below (parentOf t) p x →
        Depth (parentOf t) (.node x) (t'.nodes x).rank := by
  have edges : ∀ y, y = p ∨ Under t.children p y → ∀ x ∈ t.children (some y),
      depthOf (parentOf t) x = depthOf (parentOf t) y + 1 ∧ depthOf (parentOf t) x ≤ t.members.length := by
    intro y _ x inQueue
    rcases (queues.queued (some y) x).mp inQueue with ⟨xMem, isParent⟩
    rcases rooted x xMem with ⟨depth, isDepth⟩
    rcases depth_node isDepth with ⟨above, rfl, rest⟩
    rw [isParent] at rest
    rw [depth_of_eq isDepth, depth_of_eq rest]
    exact ⟨rfl, depth_le_members covered queues xMem isDepth⟩
  have isHere : (t.nodes p).rank = depthOf (parentOf t) p := (depth_of_eq here).symm
  have within : depthOf (parentOf t) p ≤ t.members.length := by
    rw [depth_of_eq here]
    exact depth_le_members covered queues pMember here
  rcases children_update_spec (t.members.length + 1)
    (depthOf (parentOf t)) t.members.length t p edges isHere within
    (by omega) with ⟨t', isResult, reranked, towards, done⟩
  refine ⟨t', isResult, reranked, ?_⟩
  intro x xMem before
  rcases rooted x xMem with ⟨depth, isDepth⟩
  have isRank : (t'.nodes x).rank = depthOf (parentOf t) x := by
    rcases before with isRight | rfl | below
    · exact towards_keeps towards (depth_of_eq isRight).symm
    · exact towards_keeps towards isHere
    · exact done x (under_of_below queues below xMem)
  rw [isRank, depth_of_eq isDepth]
  exact isDepth

end Update

section Climb

variable {t : PriorityTree}

theorem climbs_spec (pDepth : Depth (parentOf t) (.node p) (t.nodes p).rank)
    (isDepth : Depth (parentOf t) link depth)
    (ranked : ∀ x, link = .node x ∨ (∃ y, link = .node y ∧ Below (parentOf t) x y) →
      Depth (parentOf t) (.node x) (t.nodes x).rank) {fuel : Nat} (enough : depth < fuel) :
    ∃ above, t.climbs p fuel link = some above ∧
      (above = true ↔ ∃ x, link = .node x ∧ (x = p ∨ Below (parentOf t) p x)) := by
  induction isDepth generalizing fuel with
  | root =>
    cases fuel with
    | zero => omega
    | succ fuel =>
      refine ⟨false, by rw [PriorityTree.climbs], ?_⟩
      constructor
      · nofun
      · rintro ⟨x, isLink, -⟩
        cases isLink
  | @node next above rest ih =>
    cases fuel with
    | zero => omega
    | succ fuel =>
      have nextDepth := ranked next (.inl rfl)
      have restRanked : ∀ x, parentOf t next = .node x ∨
          (∃ y, parentOf t next = .node y ∧ Below (parentOf t) x y) →
          Depth (parentOf t) (.node x) (t.nodes x).rank := by
        rintro x (isParent | ⟨y, isParent, below⟩)
        · exact ranked x (.inr ⟨next, rfl, .child isParent⟩)
        · exact ranked x (.inr ⟨next, rfl, .step isParent below⟩)
      rw [PriorityTree.climbs]
      by_cases deep : (t.nodes next).rank ≥ (t.nodes p).rank
      · rw [if_pos deep]
        by_cases isNode : next = p
        · rw [if_pos isNode]
          exact ⟨true, rfl, fun _ => ⟨next, rfl, .inl isNode⟩, fun _ => rfl⟩
        · rw [if_neg isNode]
          rcases ih restRanked (by omega : above < fuel) with ⟨result, isResult, meaning⟩
          refine ⟨result, isResult, meaning.trans ?_⟩
          constructor
          · rintro ⟨x, isParent, rfl | below⟩
            · exact ⟨next, rfl, .inr (.child isParent)⟩
            · exact ⟨next, rfl, .inr (.step isParent below)⟩
          · rintro ⟨x, isLink, isSame | below⟩
            · cases isLink
              exact absurd isSame isNode
            · cases isLink
              cases below with
              | child isParent => exact ⟨p, isParent, .inl rfl⟩
              | step isParent below => exact ⟨_, isParent, .inr below⟩
      · rw [if_neg deep]
        refine ⟨false, rfl, ?_⟩
        constructor
        · nofun
        · rintro ⟨x, isLink, rfl | below⟩
          · cases isLink
            exact absurd (Nat.le_refl _) deep
          · cases isLink
            have deeper := below_depth below pDepth nextDepth
            omega

end Climb

section Lift

variable {t : PriorityTree}

/-- The tree in which `q` has taken its place next to `p`. -/
def lifted (t : PriorityTree) (p q : Ptr) (rank : Nat) : PriorityTree :=
  ({ t with
    nodes := update t.nodes q { t.nodes q with parent := parentOf t p }
    children := fun owner => insertAfter p q ((t.children owner).erase q) }).setRank q rank

theorem lifted_parent (t : PriorityTree) (p q : Ptr) (rank : Nat) :
    parentOf (lifted t p q rank) = update (parentOf t) q (parentOf t p) := by
  funext x
  by_cases isLifted : x = q
  · subst isLifted
    unfold parentOf lifted PriorityTree.setRank PriorityTree.setNode
    simp only [update_self]
    rfl
  · unfold parentOf lifted PriorityTree.setRank PriorityTree.setNode
    simp only [update_of_ne isLifted]

theorem lifted_node_of_ne (t : PriorityTree) (p : Ptr) (rank : Nat) (differ : x ≠ q) :
    (lifted t p q rank).nodes x = t.nodes x := by
  unfold lifted PriorityTree.setRank PriorityTree.setNode
  simp only [update_of_ne differ]

theorem lifted_relinked (t : PriorityTree) (p q : Ptr) (rank : Nat) : Relinked t (lifted t p q rank) := by
  refine ⟨rfl, ?_⟩
  intro x
  by_cases isLifted : x = q
  · subst isLifted
    unfold lifted PriorityTree.setRank PriorityTree.setNode
    simp only [update_self]
  · rw [lifted_node_of_ne t p rank isLifted]

theorem parent_queue_spec (isDepth : Depth (parentOf t) link depth)
    (ranked : ∀ x, link = .node x → (t.nodes x).rank = depth) :
    ∃ owner, t.parentQueue link = some (owner, depth) ∧ linkOf owner = link := by
  cases isDepth with
  | root => exact ⟨none, rfl, rfl⟩
  | @node a above rest =>
    refine ⟨some a, ?_, rfl⟩
    change some (some a, (t.nodes a).rank) = _
    rw [ranked a rfl]

theorem lift_parent_eq (differ : p ≠ q) {rank : Nat}
    (isQueue : t.parentQueue (parentOf t p) = some (owner, rank)) (notLifted : parentOf t p ≠ .node q)
    (exclusive : Bool) : t.liftParent p q exclusive = if exclusive then some (lifted t p q (rank + 1))
      else (lifted t p q (rank + 1)).childrenUpdate q := by
  have samePlace : update t.nodes q { t.nodes q with parent := (t.nodes p).parent } p = t.nodes p :=
    update_of_ne differ _ _
  have sameQueue : (PriorityTree.setParent { t.removeQueue q with
      children := fun owner => insertAfter p q ((t.removeQueue q).children owner) } q
        (t.nodes p).parent).parentQueue
      (parentOf t p) = some (owner, rank) := by
    rw [← isQueue]
    cases isParent : parentOf t p with
    | unset => rfl
    | root => rfl
    | node a =>
      have notThis : a ≠ q := by
        rintro rfl
        exact notLifted isParent
      unfold PriorityTree.parentQueue PriorityTree.setParent PriorityTree.setNode PriorityTree.removeQueue
      simp only [update_of_ne notThis]
  change ((PriorityTree.setParent _ q (t.nodes p).parent).parentQueue
    (update t.nodes q { t.nodes q with parent := (t.nodes p).parent } p).parent).bind _ = _
  rw [samePlace]
  change ((PriorityTree.setParent _ q (t.nodes p).parent).parentQueue (parentOf t p)).bind _ = _
  rw [sameQueue]
  rfl

theorem lift_parent_spec (covered : Covered t) (queues : Queues (Member t) (parentOf t) t.children)
    (ranked : ∀ x, Member t x → Depth (parentOf t) (.node x) (t.nodes x).rank) (pMember : Member t p)
    (qMember : Member t q) (below : Below (parentOf t) p q) (exclusive : Bool) :
    ∃ t', t.liftParent p q exclusive = some t' ∧ Relinked t t' ∧
    Queues (Member t') (parentOf t') t'.children ∧
      Depth (parentOf t') (.node q) (t'.nodes q).rank ∧ ¬ Below (parentOf t') p q ∧
      ∀ x, Member t x → Depth (parentOf t') (.node x) (t'.nodes x).rank ∨
        exclusive = true ∧ Below (parentOf t') q x := by
  have pDepth := ranked p pMember
  rcases depth_node pDepth with ⟨depth, isRank, above⟩
  have noCycle := not_below_self pDepth
  have differ : p ≠ q := by
    rintro rfl
    exact noCycle below
  let result := lifted t p q (depth + 1)
  have elsewhere : ∀ y, y ≠ q → parentOf result y = parentOf t y := by
    intro y notLifted
    rw [lifted_parent, update_of_ne notLifted]
  -- no node above `p` is `q`
  have keeps : ∀ y, Below (parentOf t) y p → parentOf result y = parentOf t y := by
    intro y yAbove
    apply elsewhere
    rintro rfl
    exact noCycle (below_trans below yAbove)
  have aboveLifted : Depth (parentOf result) (parentOf t p) depth := by
    cases isParent : parentOf t p with
    | unset =>
      rw [isParent] at above
      cases above
    | root =>
      rw [isParent] at above
      cases above
      exact .root
    | node a =>
      rw [isParent] at above
      apply depth_congr above
      rintro y (rfl | yBelow)
      · exact keeps y (.child isParent)
      · exact keeps y (.step isParent yBelow)
  have isQueue : ∃ owner, t.parentQueue (parentOf t p) = some (owner, depth) ∧
      linkOf owner = parentOf t p := by
    apply parent_queue_spec above
    intro x isParent
    rw [isParent] at above
    exact depth_unique (ranked x (queues.inside p x pMember isParent)) above
  rcases isQueue with ⟨owner, isQueue, -⟩
  have notLifted : parentOf t p ≠ .node q := by
    intro isParent
    exact noCycle (below_trans below (.child isParent))
  have changed : ∀ y, parentOf result y = parentOf t y ∨ y = q ∨ parentOf result y = .node q := by
    intro y
    by_cases isLifted : y = q
    · exact .inr (.inl isLifted)
    · exact .inl (elsewhere y isLifted)
  have liftedRank : (result.nodes q).rank = depth + 1 := set_rank_self _ q _
  have qDepth : Depth (parentOf result) (.node q) (result.nodes q).rank := by
    have atLifted : parentOf result q = parentOf t p := by rw [lifted_parent, update_self]
    rw [liftedRank]
    apply Depth.node
    rw [atLifted]
    exact aboveLifted
  have notBelow : ¬ Below (parentOf result) p q := by
    intro still
    have pLifted : Depth (parentOf result) (.node p) (depth + 1) := by
      apply Depth.node
      rw [elsewhere p differ]
      exact aboveLifted
    rw [liftedRank] at qDepth
    exact Nat.lt_irrefl _ (below_depth still pLifted qDepth)
  have relinked : Relinked t result := lifted_relinked t p q _
  have liftedQueues : Queues (Member result) (parentOf result) result.children := by
    rw [lifted_parent]
    exact queues_lift queues pMember qMember differ
  have outside : ∀ x, Member t x → Depth (parentOf result) (.node x) (result.nodes x).rank ∨ x = q ∨
      Below (parentOf result) q x := by
    intro x xMem
    by_cases isLifted : x = q
    · exact .inr (.inl isLifted)
    · rw [lifted_node_of_ne t p _ isLifted]
      rcases depth_outside changed (ranked x xMem) with isDepth | ⟨y, isLink, inside⟩
      · exact .inl isDepth
      · cases isLink
        exact .inr inside
  rw [lift_parent_eq differ isQueue notLifted exclusive]
  cases exclusive with
  | true =>
    refine ⟨result, rfl, relinked, liftedQueues, qDepth, notBelow, ?_⟩
    intro x xMem
    rcases outside x xMem with isDepth | rfl | inside
    · exact .inl isDepth
    · exact .inl qDepth
    · exact .inr ⟨rfl, inside⟩
  | false =>
    have rooted : ∀ x, Member result x → ∃ depth', Depth (parentOf result) (.node x) depth' := by
      intro x xMem
      rcases outside x xMem with isDepth | rfl | inside
      · exact ⟨_, isDepth⟩
      · exact ⟨_, qDepth⟩
      · exact depth_of_above inside qDepth
    rcases children_update_ranks (relinked_covered relinked covered) liftedQueues rooted qMember qDepth
      with ⟨t', isResult, reranked, done⟩
    have sameParent := reranked_parent reranked
    refine ⟨t', isResult, relinked_trans relinked (relinked_of_reranked reranked), ?_, ?_, ?_, ?_⟩
    · rw [relinked_member (relinked_of_reranked reranked), sameParent, reranked_children reranked]
      exact liftedQueues
    · rw [sameParent]
      exact done q qMember (.inr (.inl rfl))
    · rw [sameParent]
      exact notBelow
    · intro x xMem
      left
      rw [sameParent]
      exact done x xMem (outside x xMem)

end Lift

section Attach

variable {t : PriorityTree}

theorem fold_set_parent (list : List Ptr) (t : PriorityTree) (p : Ptr) :
    list.foldl (fun t child => t.setParent child (.node p)) t =
      { t with nodes := fun x => if x ∈ list then { t.nodes x with parent := .node p } else t.nodes x } := by
  induction list generalizing t with
  | nil => simp
  | cons child list ih =>
    rw [List.foldl_cons, ih]
    unfold PriorityTree.setParent PriorityTree.setNode
    congr 1
    funext x
    by_cases isChild : x = child
    · subst isChild
      simp
    · simp [isChild]

section

variable (t : PriorityTree) (p : Ptr) (owner : Option Ptr)

theorem adopt_all_eq : t.adoptAll p owner = { t with
      nodes := fun x => if x ∈ t.children owner then { t.nodes x with parent := .node p } else t.nodes x
      children := update (update t.children (some p) (t.children (some p) ++ t.children owner))
        owner [] } := by
  unfold PriorityTree.adoptAll
  dsimp only
  rw [fold_set_parent]
  rfl

theorem adopt_all_parent :
    parentOf (t.adoptAll p owner) = fun x => if x ∈ t.children owner then .node p else parentOf t x := by
  funext x
  rw [adopt_all_eq]
  unfold parentOf
  dsimp only
  by_cases adopted : x ∈ t.children owner
  · rw [if_pos adopted, if_pos adopted]
  · rw [if_neg adopted, if_neg adopted]

theorem adopt_all_relinked : Relinked t (t.adoptAll p owner) := by
  rw [adopt_all_eq]
  refine ⟨rfl, ?_⟩
  intro x
  dsimp only
  by_cases adopted : x ∈ t.children owner
  · rw [if_pos adopted]
  · rw [if_neg adopted]

theorem adopt_all_rank (x : Ptr) : ((t.adoptAll p owner).nodes x).rank = (t.nodes x).rank := by
  rw [adopt_all_eq]
  dsimp only
  by_cases adopted : x ∈ t.children owner
  · rw [if_pos adopted]
  · rw [if_neg adopted]

end

/-- The tree in which `p` is at the end of its new queue. -/
def joined (t : PriorityTree) (p : Ptr) (owner : Option Ptr) : PriorityTree :=
  { t with
    nodes := update t.nodes p { t.nodes p with parent := linkOf owner }
    children := update (fun other => (t.children other).erase p) owner ((t.children owner).erase p ++ [p]) }

section

variable (t : PriorityTree) (p : Ptr) (owner : Option Ptr)

theorem joined_parent : parentOf (joined t p owner) = update (parentOf t) p (linkOf owner) := by
  funext x
  unfold parentOf joined
  by_cases isNode : x = p
  · subst isNode
    simp only [update_self]
  · simp only [update_of_ne isNode]

theorem joined_relinked : Relinked t (joined t p owner) := by
  refine ⟨rfl, ?_⟩
  intro x
  unfold joined
  by_cases isNode : x = p
  · subst isNode
    simp only [update_self]
  · simp only [update_of_ne isNode]

theorem joined_rank (x : Ptr) : ((joined t p owner).nodes x).rank = (t.nodes x).rank := by
  unfold joined
  by_cases isNode : x = p
  · subst isNode
    simp only [update_self]
  · simp only [update_of_ne isNode]

end

theorem attach_eq {exclusive : Bool} {taken : PriorityTree}
    (isTaken : (if exclusive then t.adoptAll p owner else t) = taken)
    (queues : Queues (Member t) (parentOf taken) taken.children) :
    t.attach p (linkOf owner) owner exclusive = (joined taken p owner).childrenUpdate p := by
  unfold PriorityTree.attach
  rw [isTaken]
  dsimp only
  congr 1
  by_cases isUnset : (taken.nodes p).parent = .unset
  · have nowhere : (fun other => (taken.children other).erase p) = taken.children := by
      funext other
      apply List.erase_of_not_mem
      intro inQueue
      have isParent := ((queues.queued other p).mp inQueue).2
      unfold parentOf at isParent
      rw [isUnset] at isParent
      cases other with
      | none => cases isParent
      | some _ => cases isParent
    have notHere : (taken.children owner).erase p = taken.children owner := congrFun nowhere owner
    rw [if_neg (fun differ => differ isUnset)]
    unfold joined
    rw [nowhere, notHere]
    rfl
  · rw [if_pos isUnset]
    rfl

theorem attach_spec (covered : Covered t) (queues : Queues (Member t) (parentOf t) t.children)
    (pMember : Member t p) (ownerMember : ∀ q, owner = some q → Member t q)
    (differ : owner ≠ some p) (top : Depth (parentOf t) (linkOf owner) depth)
    (isRank : (t.nodes p).rank = depth + 1) (avoids : ∀ q, owner = some q → ¬ Below (parentOf t) p q)
    (exclusive : Bool) (ranked : ∀ x, Member t x → x ≠ p → Depth (parentOf t) (.node x) (t.nodes x).rank ∨
      exclusive = true ∧ ∃ q, owner = some q ∧ Below (parentOf t) q x) :
    ∃ t', t.attach p (linkOf owner) owner exclusive = some t' ∧ Relinked t t' ∧
      Queues (Member t') (parentOf t') t'.children ∧
      ∀ x, Member t x → Depth (parentOf t') (.node x) (t'.nodes x).rank := by
  have isTaken : ∃ taken, (if exclusive then t.adoptAll p owner else t) = taken ∧
      Queues (Member t) (parentOf taken) taken.children ∧ Relinked t taken ∧
      (∀ x, (taken.nodes x).rank = (t.nodes x).rank) ∧
      ∀ x, parentOf taken x = parentOf t x ∧ (exclusive = true → x ∉ t.children owner) ∨
        parentOf taken x = .node p ∧ parentOf t x = linkOf owner := by
    cases exclusive with
    | false =>
      exact ⟨t, rfl, queues, relinked_refl t, fun _ => rfl, fun _ => .inl ⟨rfl, nofun⟩⟩
    | true =>
      refine ⟨_, rfl, ?_, adopt_all_relinked t p owner, adopt_all_rank t p owner, ?_⟩
      · rw [if_pos rfl, adopt_all_parent, adopt_all_eq]
        exact queues_adopt queues pMember differ
      · intro x
        rw [if_pos rfl, adopt_all_parent]
        by_cases adopted : x ∈ t.children owner
        · exact .inr ⟨if_pos adopted, ((queues.queued owner x).mp adopted).2⟩
        · exact .inl ⟨if_neg adopted, fun _ => adopted⟩
  rcases isTaken with ⟨taken, isTaken, takenQueues, takenRelinked, takenRank, takenParent⟩
  rw [attach_eq isTaken takenQueues]
  have sameMember := relinked_member takenRelinked
  have joinedQueues : Queues (Member (joined taken p owner)) (parentOf (joined taken p owner))
      (joined taken p owner).children := by
    rw [joined_parent, relinked_member (joined_relinked taken p owner), sameMember]
    exact queues_move takenQueues pMember ownerMember
  have joinedRank : ∀ x, ((joined taken p owner).nodes x).rank = (t.nodes x).rank := by
    intro x
    rw [joined_rank, takenRank]
  have joinedRelinked := relinked_trans takenRelinked (joined_relinked taken p owner)
  have atNode : parentOf (joined taken p owner) p = linkOf owner := by
    rw [joined_parent, update_self]
  have joinedParent : ∀ x, x ≠ p → parentOf (joined taken p owner) x = parentOf t x ∧
      (exclusive = true → x ∉ t.children owner) ∨
      parentOf (joined taken p owner) x = .node p ∧ parentOf t x = linkOf owner := by
    intro x notNode
    rw [joined_parent, update_of_ne notNode]
    exact takenParent x
  generalize joined taken p owner = result at joinedQueues joinedRank joinedRelinked atNode joinedParent ⊢
  have changed : ∀ y, parentOf result y = parentOf t y ∨ y = p ∨ parentOf result y = .node p := by
    intro y
    by_cases isNode : y = p
    · exact .inr (.inl isNode)
    · rcases joinedParent y isNode with ⟨same, -⟩ | ⟨leads, -⟩
      · exact .inl same
      · exact .inr (.inr leads)
  -- on the way from the new parent to the root nothing changes
  have topAfter : Depth (parentOf result) (linkOf owner) depth := by
    cases owner with
    | none =>
      cases top
      exact .root
    | some q =>
      apply depth_congr top
      intro y onTheWay
      have notNode : y ≠ p := by
        rintro rfl
        rcases onTheWay with rfl | below
        · exact differ rfl
        · exact avoids q rfl below
      rcases joinedParent y notNode with ⟨same, -⟩ | ⟨-, isChild⟩
      · exact same
      · rcases onTheWay with rfl | below
        · exact absurd (.child isChild) (not_below_self top)
        · exact absurd (below_trans (.child isChild) below) (not_below_self top)
  have pDepth : Depth (parentOf result) (.node p) (result.nodes p).rank := by
    rw [joinedRank, isRank]
    apply Depth.node
    rw [atNode]
    exact topAfter
  -- what was below the parent is below the node after an exclusive dependency
  have swallowed : ∀ q x, owner = some q → exclusive = true → Below (parentOf t) q x → Member t x →
      x = p ∨ Below (parentOf result) p x := by
    intro q x isOwner isExclusive below
    induction below with
    | @child x isParent =>
      intro xMem
      by_cases isNode : x = p
      · exact .inl isNode
      · rcases joinedParent x isNode with ⟨-, notThere⟩ | ⟨leads, -⟩
        · subst isOwner
          exact absurd ((queues.queued (some q) x).mpr ⟨xMem, isParent⟩) (notThere isExclusive)
        · exact .inr (.child leads)
    | @step x y isParent _ ih =>
      intro xMem
      by_cases isNode : x = p
      · exact .inl isNode
      · rcases joinedParent x isNode with ⟨same, -⟩ | ⟨leads, -⟩
        · rcases ih (queues.inside x y xMem isParent) with rfl | inside
          · exact .inr (.child (same.trans isParent))
          · exact .inr (.step (same.trans isParent) inside)
        · exact .inr (.child leads)
  have outside : ∀ x, Member t x → Depth (parentOf result) (.node x) (result.nodes x).rank ∨ x = p ∨
      Below (parentOf result) p x := by
    intro x xMem
    by_cases isNode : x = p
    · exact .inr (.inl isNode)
    · rw [joinedRank]
      rcases ranked x xMem isNode with isDepth | ⟨isExclusive, q, isOwner, below⟩
      · rcases depth_outside changed isDepth with still | ⟨y, isLink, inside⟩
        · exact .inl still
        · cases isLink
          exact .inr inside
      · exact .inr (swallowed q x isOwner isExclusive below xMem)
  have resultMember := relinked_member joinedRelinked
  have rooted : ∀ x, Member result x → ∃ depth', Depth (parentOf result) (.node x) depth' := by
    rw [resultMember]
    intro x xMem
    rcases outside x xMem with isDepth | rfl | inside
    · exact ⟨_, isDepth⟩
    · exact ⟨_, pDepth⟩
    · exact depth_of_above inside pDepth
  rcases children_update_ranks (relinked_covered joinedRelinked covered) joinedQueues rooted
    (resultMember ▸ pMember)
    pDepth with ⟨t', isResult, reranked, done⟩
  have sameParent := reranked_parent reranked
  refine ⟨t', isResult, relinked_trans joinedRelinked (relinked_of_reranked reranked), ?_, ?_⟩
  · rw [relinked_member (relinked_of_reranked reranked), sameParent, reranked_children reranked]
    exact joinedQueues
  · intro x xMem
    rw [sameParent]
    exact done x (resultMember ▸ xMem) (outside x xMem)

end Attach

end ServerCore.NginxHttpV2PriorityDependency
