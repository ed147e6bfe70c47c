import ServerCore.NginxHttpV2PriorityDependency

/-!
# The records of the nodes

What `streams_index`, `h2c->closed` and `closed_nodes` say about the nodes, and
the links of the tree, while one node may be on its way into the records. The
node that is looked up or allocated by `ngx_http_v2_get_node_by_id` keeps them,
also when the oldest closed node is taken out of the tree to be used again.
-/

namespace ServerCore.NginxHttpV2PriorityRecords

open RootedForest NginxHttpV2Priority NginxHttpV2PriorityShape NginxHttpV2PriorityDependency

variable {x p : Ptr} {nodes : Ptr → Node}

/-- The records of all nodes, but for the one that is not entered yet. -/
structure Books (t : PriorityTree) (out : Option Ptr) : Prop where
  placed : ∀ bucket x, x ∈ t.streamsIndex bucket → bucket = t.index (t.nodes x).id
  distinct : ∀ bucket, (t.streamsIndex bucket).Nodup
  unique : ∀ x y, Member t x → Member t y → (t.nodes x).id = (t.nodes y).id → x = y
  closedDistinct : t.closed.Nodup
  isClosed : ∀ x, x ∈ t.closed ↔ Member t x ∧ (t.nodes x).hasStream = false ∧ some x ≠ out
  counted : t.closedNodes = t.closed.length % 256
  weighted : ∀ x, Member t x → some x ≠ out → 1 ≤ (t.nodes x).weight ∧ (t.nodes x).weight ≤ 256
  opened : ∀ x, Member t x → (t.nodes x).hasStream = true → (t.nodes x).id ≤ t.lastSid

structure Links (t : PriorityTree) (out : Option Ptr) : Prop where
  queues : Queues (Member t) (parentOf t) t.children
  ranked : ∀ x, Member t x → parentOf t x ≠ .unset → Depth (parentOf t) (.node x) (t.nodes x).rank
  linked : ∀ x, Member t x → some x ≠ out → parentOf t x ≠ .unset

theorem links_weaken {t : PriorityTree} (links : Links t none) (out : Option Ptr) : Links t out :=
  ⟨links.queues, links.ranked, fun x xMem _ => links.linked x xMem nofun⟩

section Books

variable {t t' : PriorityTree} {out : Option Ptr}

theorem books_covered (books : Books t out) : Covered t := by
  intro x ⟨bucket, inBucket⟩
  apply List.mem_flatMap.mpr
  refine ⟨bucket, ?_, inBucket⟩
  rw [books.placed bucket x inBucket]
  exact List.mem_range.mpr (Nat.lt_succ_of_le Nat.and_le_right)

theorem books_relinked (relinked : Relinked t t') (books : Books t out) : Books t' out := by
  have sameMember := relinked_member relinked
  have sameIndex := relinked_index relinked
  have sameId : ∀ x, (t'.nodes x).id = (t.nodes x).id := fun x => by rw [relinked.node x]
  have sameStream : ∀ x, (t'.nodes x).hasStream = (t.nodes x).hasStream := fun x => by rw [relinked.node x]
  have sameWeight : ∀ x, (t'.nodes x).weight = (t.nodes x).weight := fun x => by rw [relinked.node x]
  have sameClosed : t'.closed = t.closed := by rw [relinked.same]
  have sameCount : t'.closedNodes = t.closedNodes := by rw [relinked.same]
  have sameLast : t'.lastSid = t.lastSid := by rw [relinked.same]
  have sameBucket : ∀ sid, t'.index sid = t.index sid := by
    intro sid
    unfold PriorityTree.index
    rw [relinked_mask relinked]
  constructor
  · intro bucket x inBucket
    rw [sameIndex] at inBucket
    rw [sameBucket, sameId]
    exact books.placed bucket x inBucket
  · rw [sameIndex]
    exact books.distinct
  · intro x y
    rw [sameMember, sameId, sameId]
    exact books.unique x y
  · rw [sameClosed]
    exact books.closedDistinct
  · intro x
    rw [sameClosed, sameMember, sameStream]
    exact books.isClosed x
  · rw [sameCount, sameClosed]
    exact books.counted
  · intro x
    rw [sameMember, sameWeight]
    exact books.weighted x
  · intro x
    rw [sameMember, sameStream, sameId, sameLast]
    exact books.opened x

theorem books_requeue (books : Books t out) (isClosed : x ∈ t.closed) :
    Books (t.requeueClosed x) out := by
  have same : (t.closed.erase x ++ [x]).Perm t.closed :=
    (List.perm_append_singleton x _).trans (List.perm_cons_erase isClosed).symm
  constructor
  · exact books.placed
  · exact books.distinct
  · exact books.unique
  · exact same.nodup_iff.mpr books.closedDistinct
  · intro y
    exact same.mem_iff.trans (books.isClosed y)
  · exact books.counted.trans (congrArg (· % 256) same.length_eq.symm)
  · exact books.weighted
  · exact books.opened

theorem books_frame (books : Books t out) (children : Option Ptr → List Ptr)
    (same : ∀ x, Member t x → nodes x = t.nodes x) :
    Books { t with nodes := nodes, children := children } out := by
  constructor
  · intro bucket x inBucket
    change bucket = t.index (nodes x).id
    rw [same x ⟨bucket, inBucket⟩]
    exact books.placed bucket x inBucket
  · exact books.distinct
  · intro x y xMem yMember
    change (nodes x).id = (nodes y).id → x = y
    rw [same x xMem, same y yMember]
    exact books.unique x y xMem yMember
  · exact books.closedDistinct
  · intro x
    change x ∈ t.closed ↔ Member t x ∧ (nodes x).hasStream = false ∧ some x ≠ out
    rw [books.isClosed x]
    constructor
    · rintro ⟨xMem, rest⟩
      rw [same x xMem]
      exact ⟨xMem, rest⟩
    · rintro ⟨xMem, rest⟩
      rw [same x xMem] at rest
      exact ⟨xMem, rest⟩
  · exact books.counted
  · intro x xMem
    change some x ≠ out → 1 ≤ (nodes x).weight ∧ (nodes x).weight ≤ 256
    rw [same x xMem]
    exact books.weighted x xMem
  · intro x xMem
    change (nodes x).hasStream = true → (nodes x).id ≤ t.lastSid
    rw [same x xMem]
    exact books.opened x xMem

theorem links_frame (links : Links t out) (same : ∀ x, Member t x → nodes x = t.nodes x) :
    Links { t with nodes := nodes } out := by
  have sameParent : ∀ x, Member t x → (nodes x).parent = parentOf t x := by
    intro x xMem
    rw [same x xMem]
    rfl
  constructor
  · constructor
    · exact links.queues.distinct
    · intro owner x
      rw [links.queues.queued owner x]
      constructor
      · rintro ⟨xMem, isParent⟩
        exact ⟨xMem, (sameParent x xMem).trans isParent⟩
      · rintro ⟨xMem, isParent⟩
        exact ⟨xMem, (sameParent x xMem).symm.trans isParent⟩
    · intro x y xMem isParent
      exact links.queues.inside x y xMem ((sameParent x xMem).symm.trans isParent)
  · intro x xMem isSet
    have isDepth := links.ranked x xMem (fun isUnset => isSet ((sameParent x xMem).trans isUnset))
    change Depth (fun x => (nodes x).parent) (.node x) (nodes x).rank
    rw [same x xMem]
    apply depth_congr isDepth
    intro y onTheWay
    apply sameParent y
    rcases onTheWay with rfl | below
    · exact xMem
    · exact below_inside links.queues.inside below xMem
  · intro x xMem notOut isUnset
    exact links.linked x xMem notOut ((sameParent x xMem).symm.trans isUnset)

theorem get_node_by_id_some (sid : Nat) (found : t.getNodeById sid = some p) :
    Member t p ∧ (t.nodes p).id = sid := by
  refine ⟨⟨_, List.mem_of_find?_eq_some found⟩, ?_⟩
  have isId := List.find?_some found
  exact of_decide_eq_true isId

theorem get_node_by_id_none (books : Books t out) {sid : Nat} (notFound : t.getNodeById sid = none)
    (xMem : Member t x) : (t.nodes x).id ≠ sid := by
  intro isId
  rcases xMem with ⟨bucket, inBucket⟩
  have isBucket := books.placed bucket x inBucket
  rw [isId] at isBucket
  subst isBucket
  have differ := List.find?_eq_none.mp notFound x inBucket
  exact differ (decide_eq_true isId)

end Books

section Dependency

variable {t t' : PriorityTree} {q : Ptr} {depend : Nat} {exclusive : Bool}

theorem links_relinked (relinked : Relinked t t') (queues : Queues (Member t') (parentOf t') t'.children)
    (ranked : ∀ x, Member t x → Depth (parentOf t') (.node x) (t'.nodes x).rank) : Links t' none := by
  refine ⟨queues, ?_, ?_⟩
  · intro x xMem _
    rw [relinked_member relinked] at xMem
    exact ranked x xMem
  · intro x xMem _ isUnset
    rw [relinked_member relinked] at xMem
    rcases depth_node (ranked x xMem) with ⟨above, -, rest⟩
    rw [isUnset] at rest
    cases rest

theorem ranked_beside (links : Links t (some p)) (xMem : Member t x) (notNode : x ≠ p) :
    Depth (parentOf t) (.node x) (t.nodes x).rank :=
  links.ranked x xMem (links.linked x xMem (fun same => notNode (Option.some.inj same)))

theorem set_dependency_root (books : Books t none) (links : Links t (some p)) (pMember : Member t p)
    (exclusive : Bool) :
    ∃ t', (t.setRank p 1).attach p .root none exclusive = some t' ∧ Books t' none ∧ Links t' none := by
  have reranked := reranked_set t p 1
  have relinked₁ := relinked_of_reranked reranked
  have top : Depth (parentOf (t.setRank p 1)) (linkOf none) 0 := .root
  have isRank : ((t.setRank p 1).nodes p).rank = 0 + 1 := set_rank_self t p 1
  have queues₁ : Queues (Member (t.setRank p 1)) (parentOf (t.setRank p 1)) (t.setRank p 1).children := by
    rw [reranked_parent reranked]
    exact links.queues
  rcases attach_spec (relinked_covered relinked₁ (books_covered books)) queues₁ pMember
    (fun q isOwner => by cases isOwner) (fun same => by cases same) top isRank (nofun)
    exclusive (fun x xMem notNode => by
      rw [reranked_parent reranked, set_rank_of_ne t notNode]
      exact .inl (ranked_beside links xMem notNode)) with ⟨t', isResult, relinked, queues', ranked'⟩
  exact ⟨t', isResult, books_relinked relinked (books_relinked relinked₁ books),
    links_relinked relinked queues' ranked'⟩

/-- The tree when the parent is no longer below the node: all depths are right,
but those below the parent when its children are to be taken. -/
structure Cleared (t t₁ : PriorityTree) (p q : Ptr) (exclusive : Bool) : Prop where
  relinked : Relinked t t₁
  queues : Queues (Member t₁) (parentOf t₁) t₁.children
  depth : Depth (parentOf t₁) (.node q) (t₁.nodes q).rank
  notBelow : ¬Below (parentOf t₁) p q
  ranked : ∀ x, Member t x → x ≠ p → Depth (parentOf t₁) (.node x) (t₁.nodes x).rank ∨
    exclusive = true ∧ Below (parentOf t₁) q x

theorem cleared_itself (links : Links t (some p)) (qDepth : Depth (parentOf t) (.node q) (t.nodes q).rank)
    (notBelow : ¬Below (parentOf t) p q) : Cleared t t p q exclusive :=
  ⟨relinked_refl t, links.queues, qDepth, notBelow, fun _ xMem notNode =>
    .inl (ranked_beside links xMem notNode)⟩

/-- The walk up from the parent decides whether the parent is below the node. -/
theorem climbs_from_parent (books : Books t none) (links : Links t (some p))
    (ranked : ∀ x, Member t x → Depth (parentOf t) (.node x) (t.nodes x).rank) (pMember : Member t p)
    (qMember : Member t q) : ∃ lifts, t.climbs p (t.members.length + 1) (parentOf t q) = some lifts ∧
      (lifts = true ↔ Below (parentOf t) p q) := by
  rcases depth_node (ranked q qMember) with ⟨above, isAbove, aboveDepth⟩
  have onTheWay : ∀ x, Below (parentOf t) x q → Member t x := fun x below =>
    below_inside links.queues.inside below qMember
  have enough : above < t.members.length + 1 := by
    have bound := depth_le_members (books_covered books) links.queues qMember (ranked q qMember)
    omega
  rcases climbs_spec (ranked p pMember) aboveDepth (fun x isAboveNode => by
    apply ranked x
    apply onTheWay x
    rcases isAboveNode with isParent | ⟨y, isParent, below⟩
    · exact .child isParent
    · exact .step isParent below) enough with ⟨lifts, isLifts, meaning⟩
  refine ⟨lifts, isLifts, ?_⟩
  rw [meaning]
  constructor
  · rintro ⟨x, isParent, rfl | below⟩
    · exact .child isParent
    · exact .step isParent below
  · intro below
    cases below with
    | child isParent => exact ⟨p, isParent, .inl rfl⟩
    | step isParent below => exact ⟨_, isParent, .inr below⟩

/-- The parent is moved away when it is below the node. -/
theorem parent_cleared (books : Books t none) (links : Links t (some p)) (pMember : Member t p)
    (qMember : Member t q) (notSame : q ≠ p) (exclusive : Bool) :
    ∃ lifts t₁, (if (t.nodes p).parent ≠ .unset then
        t.climbs p (t.members.length + 1) (t.nodes q).parent else some false) = some lifts ∧
      (if lifts then t.liftParent p q exclusive else some t) = some t₁ ∧ Cleared t t₁ p q exclusive := by
  have qDepth := ranked_beside links qMember notSame
  by_cases isUnset : parentOf t p = .unset
  · refine ⟨false, t, if_neg (fun isSet => isSet isUnset), rfl, cleared_itself links qDepth ?_⟩
    intro below
    rcases depth_of_below below qDepth with ⟨depth, isDepth⟩
    rcases depth_node isDepth with ⟨_, -, rest⟩
    rw [isUnset] at rest
    cases rest
  · have ranked : ∀ x, Member t x → Depth (parentOf t) (.node x) (t.nodes x).rank := by
      intro x xMem
      by_cases isNode : x = p
      · rw [isNode]
        exact links.ranked p pMember isUnset
      · exact ranked_beside links xMem isNode
    rcases climbs_from_parent books links ranked pMember qMember with ⟨lifts, isLifts, isBelow⟩
    refine ⟨lifts, ?_⟩
    rw [if_pos (show (t.nodes p).parent ≠ .unset from isUnset)]
    cases lifts with
    | true =>
      rcases lift_parent_spec (books_covered books) links.queues ranked pMember qMember
        (isBelow.mp rfl) exclusive
        with ⟨t₁, isResult, relinked, queues, depth, notBelow, ranked₁⟩
      exact ⟨t₁, isLifts, isResult, relinked, queues, depth, notBelow, fun x xMem _ => ranked₁ x xMem⟩
    | false =>
      refine ⟨t, isLifts, rfl, cleared_itself links qDepth ?_⟩
      intro below
      cases isBelow.mpr below

theorem cleared_ranked (cleared : Cleared t t' p q exclusive) (notSame : q ≠ p) (rank : Nat) :
    Cleared t (t'.setRank p rank) p q exclusive := by
  have reranked := reranked_set t' p rank
  have sameParent := reranked_parent reranked
  have queues : Queues (Member (t'.setRank p rank)) (parentOf (t'.setRank p rank))
      (t'.setRank p rank).children := by
    rw [sameParent]
    exact cleared.queues
  refine ⟨relinked_trans cleared.relinked (relinked_of_reranked reranked), queues, ?_, ?_, ?_⟩
  · rw [sameParent, set_rank_of_ne t' notSame]
    exact cleared.depth
  · rw [sameParent]
    exact cleared.notBelow
  · intro x xMem notNode
    rw [sameParent, set_rank_of_ne t' notNode]
    exact cleared.ranked x xMem notNode

/-- The queue of closed nodes has no part in the links. -/
theorem requeued_parent (books : Books t none) (qMember : Member t q) :
    ∃ t', (if (t.nodes q).hasStream then t else t.requeueClosed q) = t' ∧ Books t' none ∧
      t'.nodes = t.nodes ∧ t'.children = t.children ∧ t'.streamsIndex = t.streamsIndex := by
  by_cases hasStream : (t.nodes q).hasStream = true
  · exact ⟨t, if_pos hasStream, books, rfl, rfl, rfl⟩
  · refine ⟨t.requeueClosed q, if_neg hasStream, books_requeue books ?_, rfl, rfl, rfl⟩
    exact (books.isClosed q).mpr ⟨qMember, Bool.eq_false_iff.mpr hasStream, nofun⟩

theorem attach_cleared (books : Books t none) (cleared : Cleared t t' p q exclusive) (pMember : Member t p)
    (qMember : Member t q) (notSame : q ≠ p) (isRank : (t'.nodes p).rank = (t'.nodes q).rank + 1) :
    ∃ t'', (if (t'.nodes q).hasStream then t' else t'.requeueClosed q).attach p
      (.node q) (some q) exclusive =
      some t'' ∧ Books t'' none ∧ Links t'' none := by
  have sameMember := relinked_member cleared.relinked
  rcases requeued_parent (books_relinked cleared.relinked books) (sameMember ▸ qMember) with
    ⟨t₃, isRequeued, books₃, sameNodes, sameChildren, sameIndex⟩
  have parent₃ : parentOf t₃ = parentOf t' := by
    unfold parentOf
    rw [sameNodes]
  have member₃ : Member t₃ = Member t := by
    rw [← sameMember]
    unfold Member
    rw [sameIndex]
  have queues₃ : Queues (Member t₃) (parentOf t₃) t₃.children := by
    rw [parent₃, sameChildren, member₃, ← sameMember]
    exact cleared.queues
  have top : Depth (parentOf t₃) (linkOf (some q)) (t'.nodes q).rank := parent₃ ▸ cleared.depth
  rw [isRequeued]
  rw [← sameNodes] at isRank top
  rcases attach_spec (books_covered books₃) queues₃ (member₃ ▸ pMember) (fun q' same => by
      cases same
      exact member₃ ▸ qMember) (fun same => notSame (Option.some.inj same)) top isRank (fun q' same => by
      cases same
      rw [parent₃]
      exact cleared.notBelow) exclusive (fun x xMem notNode => by
      rw [parent₃, sameNodes]
      rcases cleared.ranked x (member₃ ▸ xMem) notNode with isDepth | ⟨isExclusive, below⟩
      · exact .inl isDepth
      · exact .inr ⟨isExclusive, q, rfl, below⟩) with ⟨t'', isResult, relinked, queues, ranked⟩
  exact ⟨t'', isResult, books_relinked relinked books₃, links_relinked relinked queues ranked⟩

theorem set_dependency_spec (books : Books t none) (links : Links t (some p)) (pMember : Member t p)
    (differ : (t.nodes p).id ≠ depend) (exclusive : Bool) :
    ∃ t', t.setDependency p depend exclusive = some t' ∧ Books t' none ∧ Links t' none := by
  unfold PriorityTree.setDependency
  cases found : (if depend ≠ 0 then t.getNodeById depend else none) with
  | none => exact set_dependency_root books links pMember _
  | some q =>
    have foundNode : t.getNodeById depend = some q := by
      by_cases isZero : depend ≠ 0
      · rw [if_pos isZero] at found
        exact found
      · rw [if_neg isZero] at found
        cases found
    rcases get_node_by_id_some depend foundNode with ⟨qMember, isId⟩
    have notSame : q ≠ p := by
      rintro rfl
      exact differ isId
    rcases parent_cleared books links pMember qMember notSame exclusive with
      ⟨lifts, t₁, isLifts, isLifted, cleared₁⟩
    have cleared := cleared_ranked cleared₁ notSame ((t₁.nodes q).rank + 1)
    have isRank : ((t₁.setRank p ((t₁.nodes q).rank + 1)).nodes p).rank =
        ((t₁.setRank p ((t₁.nodes q).rank + 1)).nodes q).rank + 1 := by
      rw [set_rank_self, set_rank_of_ne t₁ notSame]
    dsimp only
    rw [isLifts, Option.bind_eq_bind, Option.bind_some, isLifted, Option.bind_eq_bind, Option.bind_some]
    exact attach_cleared books cleared pMember qMember notSame isRank

end Dependency

end ServerCore.NginxHttpV2PriorityRecords
