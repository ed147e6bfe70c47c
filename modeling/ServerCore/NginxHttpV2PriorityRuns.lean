import ServerCore.NginxHttpV2PriorityRecycling
import ServerCore.TransitionSystem

/-!
# The priority tree over the life of a connection

PRIORITY frames, HEADERS frames and closed streams in any order. After each of
them the nodes of the index are one tree below the root with right ranks, and the
queue of closed nodes holds the nodes without a stream.
-/

namespace ServerCore.NginxHttpV2PriorityRuns

open RootedForest NginxHttpV2Priority NginxHttpV2PriorityShape NginxHttpV2PriorityDependency
open NginxHttpV2PriorityRecords NginxHttpV2PriorityRecycling TransitionSystem List Function

variable {p fresh : Ptr} {t t' : PriorityTree} {closed : List Ptr} {node : Node}
variable {closedNodes lastSid depend : Nat}

section Changes

variable {t : PriorityTree}

variable {out : Option Ptr}

theorem links_set_node (links : Links t out) (sameParent : node.parent = (t.nodes p).parent)
    (sameRank : node.rank = (t.nodes p).rank) : Links (t.setNode p node) out := by
  have isParent : parentOf (t.setNode p node) = parentOf t := by
    funext x
    change (update t.nodes p node x).parent = (t.nodes x).parent
    by_cases isNode : x = p
    · rw [isNode, update_self, sameParent]
    · rw [update_of_ne isNode]
  have isRank : ∀ x, ((t.setNode p node).nodes x).rank = (t.nodes x).rank := by
    intro x
    change (update t.nodes p node x).rank = (t.nodes x).rank
    by_cases isNode : x = p
    · rw [isNode, update_self, sameRank]
    · rw [update_of_ne isNode]
  constructor
  · rw [isParent]
    exact links.queues
  · intro x xMem
    rw [isParent, isRank]
    exact links.ranked x xMem
  · rw [isParent]
    exact links.linked

theorem links_set_closed (links : Links t out) :
    Links { t with closed := closed, closedNodes := closedNodes, lastSid := lastSid } out :=
  ⟨links.queues, links.ranked, links.linked⟩

theorem books_enter (books : Books t out) (pMember : Member t p) (isOut : out = none ∨ out = some p)
    (sameId : node.id = (t.nodes p).id) (weight : 1 ≤ node.weight ∧ node.weight ≤ 256)
    (closedDistinct : closed.Nodup)
    (isClosed : ∀ x, x ∈ closed ↔ x ≠ p ∧ x ∈ t.closed ∨ x = p ∧ node.hasStream = false)
    (counted : closedNodes = closed.length % 256) (later : t.lastSid ≤ lastSid)
    (opened : node.hasStream = true → node.id ≤ lastSid) :
    Books { t.setNode p node with
      closed := closed, closedNodes := closedNodes, lastSid := lastSid } none := by
  have atNode : update t.nodes p node p = node := update_self ..
  have elsewhere : ∀ x, x ≠ p → update t.nodes p node x = t.nodes x := fun x differ =>
    update_of_ne differ _ _
  have isId : ∀ x, (update t.nodes p node x).id = (t.nodes x).id := by
    intro x
    by_cases isNode : x = p
    · rw [isNode, atNode, sameId]
    · rw [elsewhere x isNode]
  have notOut : ∀ x, x ≠ p → some x ≠ out := by
    intro x differ same
    rcases isOut with rfl | rfl
    · cases same
    · exact differ (Option.some.inj same)
  constructor
  · intro bucket x inBucket
    change bucket = t.index (update t.nodes p node x).id
    rw [isId]
    exact books.placed bucket x inBucket
  · exact books.distinct
  · intro x y xMem yMember
    change (update t.nodes p node x).id = (update t.nodes p node y).id → x = y
    rw [isId, isId]
    exact books.unique x y xMem yMember
  · exact closedDistinct
  · intro x
    change x ∈ closed ↔ Member t x ∧ (update t.nodes p node x).hasStream = false ∧ some x ≠ none
    rw [isClosed x]
    by_cases isNode : x = p
    · rw [isNode, atNode]
      constructor
      · rintro (⟨differ, -⟩ | ⟨-, noStream⟩)
        · cases differ rfl
        · exact ⟨pMember, noStream, nofun⟩
      · rintro ⟨-, noStream, -⟩
        exact .inr ⟨rfl, noStream⟩
    · rw [elsewhere x isNode, books.isClosed x]
      constructor
      · rintro (⟨-, xMem, noStream, -⟩ | ⟨same, -⟩)
        · exact ⟨xMem, noStream, nofun⟩
        · exact absurd same isNode
      · rintro ⟨xMem, noStream, -⟩
        exact .inl ⟨isNode, xMem, noStream, notOut x isNode⟩
  · exact counted
  · intro x xMem _
    change 1 ≤ (update t.nodes p node x).weight ∧ (update t.nodes p node x).weight ≤ 256
    by_cases isNode : x = p
    · rw [isNode, atNode]
      exact weight
    · rw [elsewhere x isNode]
      exact books.weighted x xMem (notOut x isNode)
  · intro x xMem
    change (update t.nodes p node x).hasStream = true → (update t.nodes p node x).id ≤ lastSid
    by_cases isNode : x = p
    · rw [isNode, atNode]
      exact opened
    · rw [elsewhere x isNode]
      intro isOpen
      exact le_trans (books.opened x xMem isOpen) later

end Changes

section Steps

variable {t : PriorityTree}

structure Valid (t : PriorityTree) : Prop where
  books : Books t none
  links : Links t none

/-- What is known of a node from `ngx_http_v2_get_node_by_id`, in the tree or new. -/
structure Looked (t : PriorityTree) (p : Ptr) : Prop where
  isMember : Member t p
  links : Links t (some p)
  known : parentOf t p ≠ .unset → Books t none
  isNew : parentOf t p = .unset → Books t (some p) ∧ (t.nodes p).hasStream = false

theorem alloc_looked (valid : Valid t) {sid : Nat} (isFresh : ¬ Member t fresh) :
    ∃ t' p, t.allocNodeById sid fresh = some (t', p) ∧ Looked t' p ∧ (t'.nodes p).id = sid ∧
      t'.lastSid = t.lastSid ∧ ((t'.nodes p).hasStream = true → t' = t) := by
  rcases alloc_node_by_id_spec valid.books valid.links sid isFresh with
    ⟨t', p, isResult, pMember, isId, sameLast, rfl | ⟨books, links, isUnset, noStream⟩⟩
  · refine ⟨t', p, isResult, ⟨pMember, links_weaken valid.links _, fun _ => valid.books, ?_⟩,
      isId, sameLast, fun _ => rfl⟩
    intro isUnset
    exact absurd isUnset (valid.links.linked p pMember (nofun))
  · refine ⟨t', p, isResult,
      ⟨pMember, links, fun isSet => absurd isUnset isSet, fun _ => ⟨books, noStream⟩⟩, isId,
      sameLast, ?_⟩
    intro hasStream
    rw [noStream] at hasStream
    cases hasStream

theorem closed_of_new (books : Books t (some p)) : p ∉ t.closed := by
  intro inClosed
  exact ((books.isClosed p).mp inClosed).2.2 rfl

theorem not_closed_of_open (books : Books t out) (isOpen : (t.nodes p).hasStream = true) : p ∉ t.closed := by
  intro inClosed
  rw [((books.isClosed p).mp inClosed).2.1] at isOpen
  cases isOpen

theorem mem_of_absent (absent : p ∉ closed) (x : Ptr) : x ∈ closed ↔ x ≠ p ∧ x ∈ closed := by
  constructor
  · intro inClosed
    refine ⟨?_, inClosed⟩
    rintro rfl
    exact absent inClosed
  · exact fun both => both.2

theorem mem_append_of_new (isNew : p ∉ closed) (x : Ptr) :
    x ∈ closed ++ [p] ↔ x ≠ p ∧ x ∈ closed ∨ x = p := by
  rw [mem_append, mem_singleton]
  constructor
  · rintro (inClosed | same)
    · left
      refine ⟨?_, inClosed⟩
      rintro rfl
      exact isNew inClosed
    · exact .inr same
  · rintro (⟨-, inClosed⟩ | same)
    · exact .inl inClosed
    · exact .inr same

theorem nodup_append_of_new (apart : closed.Nodup) (isNew : p ∉ closed) : (closed ++ [p]).Nodup := by
  apply apart.append (nodup_singleton p)
  intro x inClosed isLast
  rw [mem_singleton.mp isLast] at inClosed
  exact isNew inClosed

variable {sid : Nat}

theorem state_priority_spec (valid : Valid t) (isStream : sid ≠ 0) {excl : Bool}
    {weight : UInt8} (isFresh : ¬ Member t fresh) :
    ∃ t', t.statePriority sid depend excl weight fresh = some t' ∧ Valid t' := by
  unfold PriorityTree.statePriority
  rw [if_neg isStream]
  by_cases isSelf : depend = sid
  · rw [if_pos isSelf]
    exact ⟨t, rfl, valid⟩
  · rw [if_neg isSelf]
    rcases alloc_looked valid isFresh with ⟨t₁, p, isAlloc, looked, isId, -, -⟩
    have isWeight : 1 ≤ weight.toNat + 1 ∧ weight.toNat + 1 ≤ 256 := by
      have bound := weight.toNat_lt
      omega
    let t₂ := t₁.setNode p { t₁.nodes p with weight := weight.toNat + 1 }
    have atNode : t₂.nodes p = { t₁.nodes p with weight := weight.toNat + 1 } := update_self ..
    have links : Links t₂ (some p) := links_set_node looked.links rfl rfl
    have entered : ∃ t₃, (if (t₂.nodes p).hasStream then t₂
        else if (t₂.nodes p).parent = .unset then
          { t₂ with
            closedNodes := (t₁.closedNodes + 1) % 256
            closed := t₁.closed ++ [p] }
        else t₂.requeueClosed p) = t₃ ∧
        Books t₃ none ∧ Links t₃ (some p) ∧ Member t₃ p ∧ (t₃.nodes p).id = sid := by
      rw [atNode]
      have ownId : (t₂.nodes p).id = sid := by
        rw [atNode]
        exact isId
      by_cases isUnset : parentOf t₁ p = .unset
      · rcases looked.isNew isUnset with ⟨books, noStream⟩
        have notOpen : ¬ (t₁.nodes p).hasStream = true := Bool.eq_false_iff.mp noStream
        rw [if_neg notOpen, if_pos (show (t₁.nodes p).parent = .unset from isUnset)]
        refine ⟨_, rfl, ?_, links_set_closed links, looked.isMember, ownId⟩
        apply books_enter books looked.isMember (.inr rfl) (by rfl) isWeight
          (nodup_append_of_new books.closedDistinct (closed_of_new books)) _ _ le_rfl
        · intro isOpen
          exact books.opened p looked.isMember isOpen
        · intro x
          rw [mem_append_of_new (closed_of_new books)]
          simp [noStream]
        · rw [length_append, length_singleton, books.counted]
          omega
      · have books := looked.known isUnset
        by_cases hasStream : (t₁.nodes p).hasStream = true
        · rw [if_pos hasStream]
          refine ⟨_, rfl, ?_, links, looked.isMember, ownId⟩
          apply books_enter books looked.isMember (.inl rfl) (by rfl) isWeight books.closedDistinct _
            books.counted
            le_rfl
          · intro isOpen
            exact books.opened p looked.isMember isOpen
          · intro x
            simp only [hasStream, Bool.true_eq_false, and_false, or_false]
            exact mem_of_absent (not_closed_of_open books hasStream) x
        · rw [if_neg hasStream, if_neg (show ¬ (t₁.nodes p).parent = .unset from isUnset)]
          have noStream := Bool.eq_false_iff.mpr hasStream
          have inClosed : p ∈ t₁.closed :=
            (books.isClosed p).mpr ⟨looked.isMember, noStream, nofun⟩
          refine ⟨_, rfl, ?_, links_set_closed links, looked.isMember, ownId⟩
          apply books_requeue (t := t₂) _ inClosed
          apply books_enter books looked.isMember (.inl rfl) (by rfl) isWeight books.closedDistinct _
            books.counted
            le_rfl
          · intro isOpen
            exact books.opened p looked.isMember isOpen
          · intro x
            simp only [noStream, and_true]
            constructor
            · intro xClosed
              by_cases isNode : x = p
              · exact .inr isNode
              · exact .inl ⟨isNode, xClosed⟩
            · rintro (⟨-, xClosed⟩ | rfl)
              · exact xClosed
              · exact inClosed
    rw [isAlloc]
    rcases entered with ⟨t₃, isEntered, books₃, links₃, pMember, isId₃⟩
    have notSelf : (t₃.nodes p).id ≠ depend := fun same => isSelf (same.symm.trans isId₃)
    rcases set_dependency_spec books₃ links₃ pMember notSelf excl with ⟨t', isResult, books', links'⟩
    refine ⟨t', ?_, books', links'⟩
    rw [← isResult, ← isEntered]
    rfl

/-- The node with its stream, and no longer in the queue of closed nodes. -/
def opened (t : PriorityTree) (p : Ptr) (node : Node) : PriorityTree :=
  (if (t.nodes p).parent ≠ .unset then
    { t with closedNodes := (t.closedNodes + 255) % 256, closed := t.closed.erase p } else t).setNode p node

theorem opened_node (p : Ptr) (node : Node) : (opened t p node).nodes p = node := update_self ..

theorem opened_set (p : Ptr) (first second : Node) :
    (opened t p first).setNode p second = opened t p second := by
  unfold opened PriorityTree.setNode
  rw [update_idem]

section

variable {p : Ptr} (looked : Looked t p)
include looked

theorem opened_books (noStream : (t.nodes p).hasStream = false)
    (sameId : node.id = (t.nodes p).id) (weight : 1 ≤ node.weight ∧ node.weight ≤ 256)
    (isOpen : node.hasStream = true)
    (last : node.id ≤ t.lastSid) : Books (opened t p node) none := by
  unfold opened
  by_cases isUnset : parentOf t p = .unset
  · have books := (looked.isNew isUnset).1
    rw [if_neg (fun isSet => isSet isUnset)]
    apply books_enter books looked.isMember (.inr rfl) sameId weight books.closedDistinct _ books.counted
      le_rfl (fun _ => last)
    intro x
    simp only [isOpen, Bool.true_eq_false, and_false, or_false]
    exact mem_of_absent (closed_of_new books) x
  · have books := looked.known isUnset
    have inClosed : p ∈ t.closed := (books.isClosed p).mpr ⟨looked.isMember, noStream, nofun⟩
    rw [if_pos (show (t.nodes p).parent ≠ .unset from isUnset)]
    apply books_enter books looked.isMember (.inl rfl) sameId weight (books.closedDistinct.erase p) _ _
      le_rfl (fun _ => last)
    · intro x
      rw [books.closedDistinct.mem_erase_iff]
      simp [isOpen]
    · have counted := books.counted
      have atLeast := length_pos_of_mem inClosed
      change (t.closedNodes + 255) % 256 = (t.closed.erase p).length % 256
      rw [length_erase_of_mem inClosed, counted]
      omega

theorem opened_links (sameParent : node.parent = (t.nodes p).parent)
    (sameRank : node.rank = (t.nodes p).rank) : Links (opened t p node) (some p) := by
  unfold opened
  by_cases isUnset : (t.nodes p).parent ≠ .unset
  · rw [if_pos isUnset]
    exact links_set_node (links_set_closed looked.links) sameParent sameRank
  · rw [if_neg isUnset]
    exact links_set_node looked.links sameParent sameRank

theorem opened_member : Member (opened t p node) p := by
  unfold opened
  by_cases isUnset : (t.nodes p).parent ≠ .unset
  · rw [if_pos isUnset]
    exact looked.isMember
  · rw [if_neg isUnset]
    exact looked.isMember

theorem opened_dependency (noStream : (t.nodes p).hasStream = false) {weight : Nat}
    (isWeight : 1 ≤ weight ∧ weight ≤ 256) (last : (t.nodes p).id ≤ t.lastSid)
    (differ : (t.nodes p).id ≠ depend) (excl : Bool) :
    ∃ t', (opened t p { t.nodes p with hasStream := true, weight := weight }).setDependency
      p depend excl = some t' ∧
      Valid t' := by
  let t₁ := opened t p { t.nodes p with hasStream := true, weight := weight }
  have books : Books t₁ none := opened_books looked noStream rfl isWeight rfl last
  have links : Links t₁ (some p) := opened_links looked rfl rfl
  have differ' : (t₁.nodes p).id ≠ depend := by
    rw [opened_node]
    exact differ
  rcases set_dependency_spec books links (opened_member looked) differ' excl with
    ⟨t', isResult, books', links'⟩
  exact ⟨t', isResult, books', links'⟩

end

theorem state_headers_spec (valid : Valid t) (isOdd : sid % 2 = 1) (isNew : t.lastSid < sid)
    (priority : Option PriorityTree.Priority) (refused : Bool) (isFresh : ¬ Member t fresh) :
    ∃ t', t.stateHeaders sid priority refused fresh = some t' ∧ Valid t' := by
  have valid₀ : Valid { t with lastSid := sid } := by
    refine ⟨⟨valid.books.placed, valid.books.distinct, valid.books.unique, valid.books.closedDistinct,
      valid.books.isClosed, valid.books.counted, valid.books.weighted, ?_⟩, links_set_closed valid.links⟩
    intro x xMem isOpen
    exact le_trans (valid.books.opened x xMem isOpen) (le_of_lt isNew)
  unfold PriorityTree.stateHeaders
  rw [if_neg (by omega)]
  by_cases skipped : refused = true ∨ priority.any (fun priority => decide (priority.depend = sid)) = true
  · rw [if_pos skipped]
    exact ⟨_, rfl, valid₀⟩
  · rw [if_neg skipped]
    rcases alloc_looked valid₀ isFresh with ⟨t₁, p, isAlloc, looked, isId, sameLast, known⟩
    have noStream : (t₁.nodes p).hasStream = false := by
      apply Bool.eq_false_iff.mpr
      intro hasStream
      have same := known hasStream
      subst same
      have bound := valid.books.opened p looked.isMember hasStream
      change (t.nodes p).id = sid at isId
      omega
    have last : (t₁.nodes p).id ≤ t₁.lastSid := by
      rw [isId, sameLast]
    rw [isAlloc]
    have sameNode : (if (t₁.nodes p).parent ≠ .unset then
        { t₁ with closedNodes := (t₁.closedNodes + 255) % 256, closed := t₁.closed.erase p } else
        t₁).nodes p =
        t₁.nodes p := by
      by_cases isUnset : (t₁.nodes p).parent ≠ .unset
      · rw [if_pos isUnset]
      · rw [if_neg isUnset]
    dsimp only [Option.bind_eq_bind, Option.bind_some]
    rw [sameNode]
    let t₂ := opened t₁ p { t₁.nodes p with hasStream := true }
    have withWeight : ∀ weight, t₂.setNode p { t₂.nodes p with weight := weight } =
        opened t₁ p { t₁.nodes p with hasStream := true, weight := weight } := by
      intro weight
      rw [opened_set, opened_node]
    have isParent : (t₂.nodes p).parent = parentOf t₁ p := by
      rw [opened_node]
      rfl
    cases priority with
    | some priority =>
      change ∃ t', (t₂.setNode p { t₂.nodes p with weight := priority.weight.toNat + 1 }).setDependency p
        priority.depend priority.excl = some t' ∧ Valid t'
      rw [withWeight]
      have bound := priority.weight.toNat_lt
      apply opened_dependency looked noStream (by omega) last
      rw [isId]
      intro same
      apply skipped
      right
      exact decide_eq_true same.symm
    | none =>
      change ∃ t', (if (t₂.nodes p).parent = .unset then
        (t₂.setNode p { t₂.nodes p with weight := 16 }).setDependency p 0 false else
        some t₂) = some t' ∧ Valid t'
      rw [withWeight, isParent]
      by_cases isUnset : parentOf t₁ p = .unset
      · rw [if_pos isUnset]
        apply opened_dependency looked noStream (by omega) last
        omega
      · rw [if_neg isUnset]
        have weighted := (looked.known isUnset).weighted p looked.isMember (nofun)
        refine ⟨_, rfl, opened_books looked noStream rfl weighted rfl last, ?_⟩
        have links : Links t₂ (some p) := opened_links looked rfl rfl
        refine ⟨links.queues, links.ranked, ?_⟩
        intro x xMem _ xUnset
        by_cases isNode : x = p
        · rw [isNode] at xUnset
          exact isUnset (isParent.symm.trans xUnset)
        · exact links.linked x xMem (fun same => isNode (Option.some.inj same)) xUnset

theorem close_stream_spec (valid : Valid t) (pMember : Member t p) (isOpen : (t.nodes p).hasStream = true) :
    Valid (t.closeStream p) := by
  have notClosed := not_closed_of_open valid.books isOpen
  have weighted := valid.books.weighted p pMember (nofun)
  have links : Links (t.setNode p { t.nodes p with hasStream := false }) none :=
    links_set_node valid.links rfl rfl
  refine ⟨?_, links_set_closed links⟩
  have isWeight : 1 ≤ ({ t.nodes p with hasStream := false } : Node).weight ∧
    ({ t.nodes p with hasStream := false } : Node).weight ≤ 256 := weighted
  apply books_enter valid.books pMember (.inl rfl) (by rfl) isWeight
    (nodup_append_of_new valid.books.closedDistinct notClosed) _ _ le_rfl
  · nofun
  · intro x
    rw [mem_append_of_new notClosed]
    simp only [and_true]
  · change (t.closedNodes + 1) % 256 = _
    rw [length_append, length_singleton, valid.books.counted]
    omega

end Steps

inductive Event where
  | priority (sid depend : Nat) (excl : Bool) (weight : UInt8) (fresh : Ptr)
  | headers (sid : Nat) (priority : Option PriorityTree.Priority) (refused : Bool) (fresh : Ptr)
  | close (p : Ptr)

/-- What the connection does; memory that is allocated is not that of a node in
the index, and only streams that are open are closed. -/
def step (t : PriorityTree) : Event → Option PriorityTree
  | .priority sid depend excl weight fresh =>
    if fresh ∈ t.members then none else t.statePriority sid depend excl weight fresh
  | .headers sid priority refused fresh =>
    if fresh ∈ t.members then none else t.stateHeaders sid priority refused fresh
  | .close p => if p ∈ t.members ∧ (t.nodes p).hasStream = true then some (t.closeStream p) else none

def newTree (mask : Nat) : PriorityTree := ⟨fun _ => zeroNode, fun _ => [], fun _ => [], [], 0, 0, mask⟩

def h2c : System PriorityTree Event where
  initial t := ∃ mask, t = newTree mask
  next t event t' := step t event = some t'

theorem valid_new {mask : Nat} : Valid (newTree mask) := by
  have noMember : ∀ x, ¬ Member (newTree mask) x := by
    rintro x ⟨bucket, inBucket⟩
    cases inBucket
  refine ⟨⟨?_, fun _ => nodup_nil, ?_, nodup_nil, ?_, rfl, ?_, ?_⟩, ⟨fun _ => nodup_nil, ?_, ?_⟩, ?_, ?_⟩
  · intro bucket x inBucket
    cases inBucket
  · intro x y xMem
    exact absurd xMem (noMember x)
  · intro x
    exact ⟨nofun, fun isClosed => absurd isClosed.1 (noMember x)⟩
  · intro x xMem
    exact absurd xMem (noMember x)
  · intro x xMem
    exact absurd xMem (noMember x)
  · intro owner x
    exact ⟨nofun, fun isQueued => absurd isQueued.1 (noMember x)⟩
  · intro x y xMem
    exact absurd xMem (noMember x)
  · intro x xMem
    exact absurd xMem (noMember x)
  · intro x xMem
    exact absurd xMem (noMember x)

theorem member_of_fresh (valid : Valid t) (isFresh : fresh ∉ t.members) :
    ¬ Member t fresh := fun isMem => isFresh (books_covered valid.books fresh isMem)

theorem valid_step (valid : Valid t) {event : Event} (isStep : step t event = some t') : Valid t' := by
  cases event with
  | priority sid depend excl weight fresh =>
    simp only [step] at isStep
    by_cases isUsed : fresh ∈ t.members
    · rw [if_pos isUsed] at isStep
      cases isStep
    · rw [if_neg isUsed] at isStep
      by_cases isZero : sid = 0
      · unfold PriorityTree.statePriority at isStep
        rw [if_pos isZero] at isStep
        cases isStep
      · rcases state_priority_spec valid isZero (member_of_fresh valid isUsed) with
          ⟨result, isResult, valid'⟩
        rw [isResult] at isStep
        cases isStep
        exact valid'
  | headers sid priority refused fresh =>
    simp only [step] at isStep
    by_cases isUsed : fresh ∈ t.members
    · rw [if_pos isUsed] at isStep
      cases isStep
    · rw [if_neg isUsed] at isStep
      by_cases isBad : sid % 2 = 0 ∨ sid ≤ t.lastSid
      · unfold PriorityTree.stateHeaders at isStep
        rw [if_pos isBad] at isStep
        cases isStep
      · have isOdd : sid % 2 = 1 := by omega
        have isNew : t.lastSid < sid := by omega
        rcases state_headers_spec valid isOdd isNew priority refused (member_of_fresh valid isUsed) with
          ⟨result, isResult, valid'⟩
        rw [isResult] at isStep
        cases isStep
        exact valid'
  | close p =>
    simp only [step] at isStep
    by_cases isOpen : p ∈ t.members ∧ (t.nodes p).hasStream = true
    · rw [if_pos isOpen] at isStep
      cases isStep
      exact close_stream_spec valid (mem_of_member_members isOpen.1) isOpen.2
    · rw [if_neg isOpen] at isStep
      cases isStep

structure PriorityTreeSound (t : PriorityTree) : Prop where
  rooted : ∀ x, Member t x → Depth (parentOf t) (.node x) (t.nodes x).rank
  queued : ∀ x, Member t x → ∀ owner,
    (t.children owner).count x = if parentOf t x = linkOf owner then 1 else 0
  weighted : ∀ x, Member t x → 1 ≤ (t.nodes x).weight ∧ (t.nodes x).weight ≤ 256
  closedOnce : t.closed.Nodup
  isClosed : ∀ x, x ∈ t.closed ↔ Member t x ∧ (t.nodes x).hasStream = false
  counted : t.closedNodes = t.closed.length % 256

theorem sound_of_valid (valid : Valid t) : PriorityTreeSound t := by
  have notNone : ∀ x : Ptr, some x ≠ none := nofun
  refine ⟨fun x xMem => ranked_of_links valid.links xMem, ?_, fun x xMem => valid.books.weighted x xMem
    (notNone x), valid.books.closedDistinct, ?_, valid.books.counted⟩
  · intro x xMem owner
    by_cases isParent : parentOf t x = linkOf owner
    · rw [if_pos isParent]
      apply count_eq_one_of_mem (valid.links.queues.distinct owner)
      exact (valid.links.queues.queued owner x).mpr ⟨xMem, isParent⟩
    · rw [if_neg isParent]
      apply count_eq_zero_of_not_mem
      intro inQueue
      exact isParent ((valid.links.queues.queued owner x).mp inQueue).2
  · intro x
    rw [valid.books.isClosed x]
    exact ⟨fun both => ⟨both.1, both.2.1⟩, fun both => ⟨both.1, both.2, notNone x⟩⟩

theorem valid_reachable (reached : Reachable h2c t) : Valid t := by
  apply reachable_invariant _ _ reached
  · rintro t ⟨mask, rfl⟩
    exact valid_new
  · intro before event after valid isStep
    exact valid_step valid isStep

/-- In every state of every run the nodes are a tree with right ranks, and the
frames that are no connection error are handled. -/
theorem priority_tree_sound {t : PriorityTree} (reached : Reachable h2c t) : PriorityTreeSound t ∧
      (∀ sid depend excl weight fresh, sid ≠ 0 → fresh ∉ t.members →
        ∃ t', t.statePriority sid depend excl weight fresh = some t') ∧
      (∀ sid priority refused fresh, sid % 2 = 1 → t.lastSid < sid → fresh ∉ t.members →
        ∃ t', t.stateHeaders sid priority refused fresh = some t') := by
  have valid := valid_reachable reached
  refine ⟨sound_of_valid valid, ?_, ?_⟩
  · intro sid depend excl weight fresh isStream isFresh
    rcases state_priority_spec valid isStream (member_of_fresh valid isFresh) with ⟨t', isResult, -⟩
    exact ⟨t', isResult⟩
  · intro sid priority refused fresh isOdd isNew isFresh
    rcases state_headers_spec valid isOdd isNew priority refused
      (member_of_fresh valid isFresh) with ⟨t', isResult, -⟩
    exact ⟨t', isResult⟩

theorem reachable_events (events : List Event) (reached : Reachable h2c t)
    (isRun : events.foldlM step t = some t') : Reachable h2c t' := by
  induction events generalizing t with
  | nil =>
    rw [← Option.some.inj isRun]
    exact reached
  | cons event events ih =>
    rcases Option.bind_eq_some_iff.mp isRun with ⟨middle, isStep, isRest⟩
    exact ih (reachable_next reached isStep) isRest

/-- A chain of streams whose first one is made to depend on the last, exclusively,
after the one between them was closed. -/
def turnedChain : List Event :=
  [.headers 1 none false 101, .headers 3 (some ⟨1, false, 31⟩) false 103,
    .headers 5 (some ⟨3, true, 7⟩) false 105,
    .priority 7 3 false 3 107, .close 103, .priority 1 5 true 255 100]

theorem tree_of_turned_chain : ∃ t, Reachable h2c t ∧ PriorityTreeSound t ∧
    t.children none = [105] ∧ t.children (some 105) = [101] ∧ t.children (some 101) = [103] ∧
    t.children (some 103) = [107] ∧ (t.nodes 107).rank = 4 ∧ t.closed = [107, 103] := by
  have evaluated : (turnedChain.foldlM step (newTree 31)).map
      (fun t => ([t.children none, t.children (some 105),
      t.children (some 101), t.children (some 103), t.closed], (t.nodes 107).rank)) =
      some ([[105], [101], [103], [107], [107, 103]], 4) := by
    decide
  rcases Option.map_eq_some_iff.mp evaluated with ⟨t, isRun, values⟩
  have reached := reachable_events turnedChain (reachable_initial ⟨31, rfl⟩) isRun
  simp only [Prod.mk.injEq, List.cons.injEq, and_true] at values
  rcases values with ⟨⟨first, second, third, fourth, closed⟩, rank⟩
  exact ⟨t, reached, (priority_tree_sound reached).1, first, second, third, fourth, rank, closed⟩

end ServerCore.NginxHttpV2PriorityRuns
