import ServerCore.NginxStrRbtreeOrder
import ServerCore.NginxStrRbtreeWalk
import Mathlib.Data.Nat.Log

/-!
# Runs of a string tree

Behind a string tree stands the tree of the ranks of its nodes, to which the runs of
`NginxRbtreeRuns` apply.
-/

namespace ServerCore.NginxStrRbtreeRuns

open NginxRbtree NginxRbtree.Rbtree NginxRbtreeInsert
open NginxRbtreeShape NginxRbtreeKeys NginxRbtreeDelete
open NginxRbtreeRuns (Holds place_length perform_holds)
open NginxEventTimerOrder NginxStrRbtree NginxStrRbtreeOrder NginxStrRbtreeWalk List Option Function

variable {item : Item} {node : StrNode}

def follow (nodes : List StrNode) : Call → List StrNode
  | .insert node => node :: nodes
  | .delete addr => nodes.filter fun other => other.address ≠ addr

/-- A node that is inserted differs from those of the tree by its hash or its string. -/
def Permitted (sentinel : Address) (nodes : List StrNode) : Call → Prop
  | .insert node => node.address ≠ sentinel ∧
      ∀ other ∈ nodes, other.address ≠ node.address ∧ ¬(other.key = node.key ∧ other.str = node.str)
  | .delete addr => ∃ node ∈ nodes, node.address = addr

def AllPermitted (sentinel : Address) : List StrNode → List Call → Prop
  | _, [] => True
  | nodes, call :: calls => Permitted sentinel nodes call ∧ AllPermitted sentinel (follow nodes call) calls

section Ranks

variable (all : List StrNode)

def nodePlace (node : StrNode) : Place := place node.key node.str

def places : Finset Place := (all.map nodePlace).toFinset

def rankOf (node : StrNode) : Nat := rank (places all) (nodePlace node)

def shadow (node : StrNode) : Item := ⟨node.address, rankOf all node⟩

/-- The hash of the nodes of a rank. The numbers behind the ranks stand for the keys that are
in memory before a node is inserted. -/
def hashOf (key : Nat) : Nat :=
  match all.find? fun node => rankOf all node = key with
  | some node => node.key
  | none => key - ((places all).card + 2)

variable {all : List StrNode} {node other : StrNode}

theorem mem_places (mem : node ∈ all) : nodePlace node ∈ places all :=
  mem_toFinset.mpr (mem_map_of_mem mem)

theorem rank_of_injective (mem : node ∈ all) (otherMem : other ∈ all)
    (same : rankOf all node = rankOf all other) : nodePlace node = nodePlace other :=
  rank_injective (places all) (mem_places mem) (mem_places otherMem) same

theorem hash_of_rank (mem : node ∈ all) : hashOf all (rankOf all node) = node.key := by
  unfold hashOf
  cases found : all.find? fun other => rankOf all other = rankOf all node with
  | none => exact absurd (find?_eq_none.mp found node mem) (by simp)
  | some other =>
    have same : rankOf all other = rankOf all node := by simpa using find?_some found
    exact (place_injective.mp (rank_of_injective (mem_of_find?_eq_some found) mem same)).1

theorem hash_of_other {key : Nat} (noRank : ∀ node, rankOf all node ≠ key) :
    hashOf all key = key - ((places all).card + 2) := by
  have none_ : (all.find? fun node => rankOf all node = key) = none :=
    find?_eq_none.mpr fun node _ => by simpa using noRank node
  rw [hashOf, none_]

theorem hash_of_zero : hashOf all 0 = 0 := by
  rw [hash_of_other fun node => Nat.succ_ne_zero _, Nat.zero_sub]

theorem hash_of_large (key : Nat) : hashOf all (key + ((places all).card + 2)) = key := by
  rw [hash_of_other fun node => ?_, Nat.add_sub_cancel]
  have bound := rank_le (places all) (nodePlace node)
  unfold rankOf
  omega

end Ranks

/-- The tree of the ranks that stands behind a tree of these nodes. -/
structure Simulates (all : List StrNode) (tree : StrTree) (ghost : Rbtree) (nodes : List StrNode)
    (items : List Item) : Prop where
  shows : tree.tree = mapKeys (hashOf all) ghost
  holds : Holds ghost items
  same : items.Perm (nodes.map (shadow all))
  str : ∀ node ∈ nodes, tree.str node.address = node.str
  known : ∀ node ∈ nodes, node ∈ all
  apart : (nodes.map nodePlace).Nodup

section Calls

variable {all nodes : List StrNode} {tree : StrTree} {ghost : Rbtree} {items : List Item} {fuel : Nat}

theorem mem_items (sim : Simulates all tree ghost nodes items) :
    item ∈ items ↔ ∃ node ∈ nodes, shadow all node = item := by
  rw [sim.same.mem_iff, List.mem_map]

theorem place_of_shadow (sim : Simulates all tree ghost nodes items) (mem : node ∈ nodes) :
    placeOf (hashOf all) tree.str (shadow all node) = nodePlace node := by
  rw [placeOf, shadow, hash_of_rank (sim.known node mem), sim.str node mem]
  rfl

theorem place_perm {items : List Item} : (NginxRbtreeRuns.place item items).Perm (item :: items) := by
  have whole := takeWhile_append_dropWhile (p := fun other => decide (other.key ≤ item.key)) (l := items)
  exact perm_middle.trans (by rw [whole])

theorem delete_simulates {addr : Address} (enough : items.length + 2 ≤ fuel)
    (present : ∃ node ∈ nodes, node.address = addr) (sim : Simulates all tree ghost nodes items) :
    ∃ after other later, perform fuel tree (.delete addr) = some after ∧ other.sentinel = ghost.sentinel ∧
      Simulates all after other (follow nodes (.delete addr)) later := by
  obtain ⟨node, mem, isNode⟩ := present
  have inside : shadow all node ∈ items := (mem_items sim).mpr ⟨node, mem, rfl⟩
  obtain ⟨other, done, own, holds⟩ :=
    @perform_holds fuel ghost items (.delete addr) enough ⟨_, inside, isNode⟩ sim.holds
  have deleted : ghost.ngxRbtreeDelete fuel (some addr) = some other := done
  refine ⟨{ tree with tree := mapKeys (hashOf all) other }, other, _, ?_, own, rfl, holds, ?_, ?_, ?_, ?_⟩
  · rw [perform, sim.shows, delete_map hash_of_zero, deleted]
    rfl
  · have filtered := sim.same.filter fun item => decide (item.address ≠ addr)
    rwa [List.filter_map] at filtered
  · exact fun other kept => sim.str other (mem_filter.mp kept).1
  · exact fun other kept => sim.known other (mem_filter.mp kept).1
  · exact sim.apart.sublist (filter_sublist.map nodePlace)

theorem insert_simulates (enough : items.length + 2 ≤ fuel) (known : node ∈ all)
    (permitted : Permitted ghost.sentinel nodes (.insert node))
    (sim : Simulates all tree ghost nodes items) :
    ∃ after other later, perform fuel tree (.insert node) = some after ∧ other.sentinel = ghost.sentinel ∧
      Simulates all after other (node :: nodes) later := by
  obtain ⟨foreign, differ⟩ := permitted
  have outside : ∀ item ∈ items, item.address ≠ node.address := by
    intro item mem
    obtain ⟨other, inside, rfl⟩ := (mem_items sim).mp mem
    exact (differ other inside).1
  obtain ⟨other, done, own, holds⟩ :=
    @perform_holds fuel ghost items (.insert (shadow all node)) enough ⟨foreign, outside⟩ sim.holds
  obtain ⟨shape, rep, -, order, -⟩ := sim.holds
  have fresh : node.address ∉ addresses shape := by
    intro inside
    obtain ⟨item, mem, same⟩ := Multiset.mem_map.mp inside
    exact outside item (order ▸ mem) same
  obtain ⟨keyed, stored, keyedOwn, focused⟩ := NginxRbtreeUnlink.focused_store
    (fun new => { new with key := rankOf all node })
    (show Focused ghost [] shape from ⟨rep, by simp⟩) fresh foreign
  have key : (keyed.memory node.address).key = rankOf all node := by
    cases stored
    simp
  let str := update tree.str node.address node.str
  have strOther : ∀ other ∈ nodes, str other.address = other.str := fun other mem =>
    (update_of_ne (differ other mem).1 _ _).trans (sim.str other mem)
  have compares : ∀ item ∈ shape.inorder,
      goesLeft (hashOf all (keyed.memory node.address).key) (str node.address)
        (hashOf all item.key) (str item.address) ↔
        (keyed.memory node.address).key < item.key := by
    intro item mem
    obtain ⟨other, inside, rfl⟩ := (mem_items sim).mp (order ▸ mem)
    have otherKnown := sim.known other inside
    rw [key, goes_left_iff, hash_of_rank known, shadow, hash_of_rank otherKnown, strOther other inside]
    rw [show str node.address = node.str from update_self ..]
    exact (rank_lt_iff (places all) (mem_places known) (mem_places otherKnown)).symm
  have inserted : keyed.ngxRbtreeInsert fuel (some node.address) = some other := by
    simpa only [NginxRbtreeRuns.perform, shadow, stored, bind_eq_bind, bind_some] using done
  have written : tree.tree.store (some node.address) (fun new => { new with key := node.key }) =
      some (mapKeys (hashOf all) keyed) := by
    rw [sim.shows, ← hash_of_rank known, store_key_map, stored]
    rfl
  refine ⟨⟨mapKeys (hashOf all) other, str⟩, other, _, ?_, own, rfl, holds, ?_, ?_, ?_, ?_⟩
  · have step : NginxEventTimer.ngxRbtreeInsertBy (ngxStrRbtreeInsertValue str fuel) fuel
        (mapKeys (hashOf all) keyed) (some node.address) = some (mapKeys (hashOf all) other) := by
      rw [insert_by_map (str_descends str) focused.represents compares, inserted]
      rfl
    rw [perform, written, bind_eq_bind, bind_some]
    exact congrArg (fun after => after.bind fun tree => some (StrTree.mk tree str)) step
  · exact (place_perm).trans (sim.same.cons _)
  · exact forall_mem_cons.mpr ⟨update_self .., strOther⟩
  · exact forall_mem_cons.mpr ⟨known, sim.known⟩
  · refine nodup_cons.mpr ⟨fun mem => ?_, sim.apart⟩
    obtain ⟨other, inside, same⟩ := mem_map.mp mem
    exact (differ other inside).2 (place_injective.mp same)

theorem perform_simulates {call : Call} (enough : items.length + 2 ≤ fuel)
    (known : ∀ node, call = .insert node → node ∈ all) (permitted : Permitted ghost.sentinel nodes call)
    (sim : Simulates all tree ghost nodes items) :
    ∃ after other later, perform fuel tree call = some after ∧ other.sentinel = ghost.sentinel ∧
      Simulates all after other (follow nodes call) later := by
  cases call with
  | insert node => exact insert_simulates enough (known node rfl) permitted sim
  | delete addr => exact delete_simulates enough permitted sim

theorem items_length (sim : Simulates all tree ghost nodes items) : items.length = nodes.length := by
  rw [sim.same.length_eq, length_map]

theorem follow_length (nodes : List StrNode) (call : Call) :
    (follow nodes call).length ≤ nodes.length + 1 := by
  cases call with
  | insert node => exact Nat.le_refl _
  | delete addr => exact (length_filter_le _ nodes).trans (Nat.le_succ _)

theorem calls_simulate (calls : List Call) (enough : nodes.length + calls.length + 2 ≤ fuel)
    (known : ∀ node, Call.insert node ∈ calls → node ∈ all)
    (permitted : AllPermitted ghost.sentinel nodes calls)
    (sim : Simulates all tree ghost nodes items) :
    ∃ after other later, calls.foldlM (perform fuel) tree = some after ∧
      Simulates all after other (calls.foldl follow nodes) later ∧
      (calls.foldl follow nodes).length ≤ nodes.length + calls.length := by
  induction calls generalizing tree ghost nodes items with
  | nil => exact ⟨tree, ghost, items, rfl, sim, Nat.le_refl _⟩
  | cons call calls ih =>
    rw [length_cons] at enough ⊢
    have shorter := follow_length nodes call
    have here : items.length + 2 ≤ fuel := by
      rw [items_length sim]
      omega
    obtain ⟨next, middle, nextItems, done, own, nextSimulates⟩ := perform_simulates here
      (fun node isCall => known node (isCall ▸ mem_cons_self ..)) permitted.1 sim
    obtain ⟨after, other, later, finished, afterSimulates, longer⟩ := ih (by omega)
      (fun node mem => known node (mem_cons_of_mem _ mem)) (own ▸ permitted.2) nextSimulates
    refine ⟨after, other, later, ?_, afterSimulates, longer.trans (by omega)⟩
    rw [foldlM_cons, done]
    exact finished

theorem init_simulates {all : List StrNode} {sentinel : Address} {memory : Address → Node}
    {str : Address → Bytes} :
    Simulates all ⟨ngxRbtreeInit sentinel memory, str⟩ (ngxRbtreeInit sentinel fun addr =>
      { memory addr with key := (memory addr).key + ((places all).card + 2) }) [] [] := by
  refine ⟨?_, NginxRbtreeRuns.init_holds _ _, .nil, by simp, by simp, nodup_nil⟩
  have same : (ngxRbtreeInit sentinel memory).memory = fun addr => mapNode (hashOf all)
      ((ngxRbtreeInit sentinel fun addr =>
        { memory addr with key := (memory addr).key + ((places all).card + 2) }).memory addr) := by
    funext addr
    by_cases isSentinel : addr = sentinel
    · subst isSentinel
      simp [ngxRbtreeInit, mapNode, Node.setColor, hash_of_large]
    · simp [ngxRbtreeInit, mapNode, isSentinel, hash_of_large]
  exact congrArg (Rbtree.mk (some sentinel) sentinel) same

end Calls

section Searched

variable {all nodes : List StrNode} {tree : StrTree} {ghost : Rbtree} {items : List Item} {fuel : Nat}

section

variable (sim : Simulates all tree ghost nodes items)
include sim

theorem places_sorted : items.Pairwise fun first second =>
      placeOf (hashOf all) tree.str first < placeOf (hashOf all) tree.str second := by
  obtain ⟨-, -, -, -, sorted⟩ := sim.holds
  have distinct : items.Pairwise fun first second =>
      placeOf (hashOf all) tree.str first ≠ placeOf (hashOf all) tree.str second := by
    apply pairwise_map.mp
    refine (sim.same.map _).nodup_iff.mpr ?_
    rw [List.map_map]
    exact (map_congr_left fun node mem => place_of_shadow sim mem) ▸ sim.apart
  refine (sorted.and distinct).imp_of_mem fun {first second} isFirst isSecond ⟨notAbove, differ⟩ => ?_
  obtain ⟨node, mem, rfl⟩ := (mem_items sim).mp isFirst
  obtain ⟨other, otherMem, rfl⟩ := (mem_items sim).mp isSecond
  rw [place_of_shadow sim mem, place_of_shadow sim otherMem] at differ ⊢
  refine lt_of_le_of_ne (not_lt.mp fun less => ?_) differ
  exact absurd (rank_lt (places all) (mem_places (sim.known other otherMem)) less)
    (Nat.not_lt_of_le notAbove)

theorem find_shadow (val : Bytes) (hash : Nat) :
    (items.find? fun item => placeOf (hashOf all) tree.str item = place hash val).map Item.address =
      (nodes.find? fun node => node.key = hash ∧ node.str = val).map StrNode.address := by
  have here : ∀ node ∈ nodes, placeOf (hashOf all) tree.str (shadow all node) = place hash val ↔
      node.key = hash ∧ node.str = val := by
    intro node mem
    rw [place_of_shadow sim mem]
    exact place_injective
  cases found : nodes.find? fun node => node.key = hash ∧ node.str = val with
  | none =>
    have noItem : items.find? (fun item => placeOf (hashOf all) tree.str item = place hash val) = none := by
      apply find_none
      intro item mem same
      obtain ⟨node, inside, rfl⟩ := (mem_items sim).mp mem
      exact absurd ((here node inside).mp same) (by simpa using find?_eq_none.mp found node inside)
    rw [noItem]
    rfl
  | some node =>
    have inside := mem_of_find?_eq_some found
    have isNode : node.key = hash ∧ node.str = val := by simpa using find?_some found
    cases other : items.find? fun item => placeOf (hashOf all) tree.str item = place hash val with
    | none =>
      have differs := find?_eq_none.mp other (shadow all node) ((mem_items sim).mpr ⟨node, inside, rfl⟩)
      exact absurd ((here node inside).mpr isNode) (by simpa using differs)
    | some item =>
      obtain ⟨twin, twinInside, rfl⟩ := (mem_items sim).mp (mem_of_find?_eq_some other)
      have isTwin : placeOf (hashOf all) tree.str (shadow all twin) = place hash val := by
        simpa using find?_some other
      have same : nodePlace twin = nodePlace node :=
        place_injective.mpr (((here twin twinInside).mp isTwin).imp (·.trans isNode.1.symm)
          (·.trans isNode.2.symm))
      rw [inj_on_of_nodup_map sim.apart twinInside inside same]
      rfl

theorem lookup_within (enough : ∀ shape : Shape, RedBlack shape → shape.inorder = items → shape.depth < fuel)
    (val : Bytes) (hash : Nat) : ngxStrRbtreeLookup fuel tree val hash =
      some ((nodes.find? fun node => node.key = hash ∧ node.str = val).map StrNode.address) := by
  rw [← find_shadow sim]
  have sorted := places_sorted sim
  have shows := sim.shows
  obtain ⟨shape, rep, redBlack, rfl, -⟩ := sim.holds
  obtain ⟨top, linked⟩ := rep.linked
  have found := lookup_spec val hash fuel (enough shape redBlack rfl) linked rep.foreign sorted
  obtain ⟨base, str⟩ := tree
  subst shows
  rw [ngxStrRbtreeLookup, map_keys_root, rep.root]
  exact found

theorem lookup_found (enough : items.length < fuel) (val : Bytes) (hash : Nat) :
    ngxStrRbtreeLookup fuel tree val hash =
      some ((nodes.find? fun node => node.key = hash ∧ node.str = val).map StrNode.address) :=
  lookup_within sim (fun shape _ order => shape.depth_le_length.trans_lt (order ▸ enough)) val hash

end

end Searched

section Keys

variable {change : Nat → Nat} {ghost : Rbtree} {node : Pointer}

theorem climb_map (fuel : Nat) : climb fuel (mapKeys change ghost) node = climb fuel ghost node := by
  induction fuel generalizing node with
  | zero => rfl
  | succ fuel ih =>
    simp only [climb, load_map, bind_eq_bind, bind_map, comp_def, map_node_left,
      map_node_parent, map_keys_root, ih]
    rfl

theorem next_map (fuel : Nat) : ngxRbtreeNext fuel (mapKeys change ghost) node =
    ngxRbtreeNext fuel ghost node := by
  simp only [ngxRbtreeNext, load_map, bind_eq_bind, bind_map, comp_def, map_node_right,
    min_map, map_keys_sentinel, climb_map]
  rfl

theorem visit_map (fuel turns : Nat) : visit fuel (mapKeys change ghost) turns node =
    visit fuel ghost turns node := by
  induction turns generalizing node with
  | zero => cases node <;> rfl
  | succ turns ih =>
    cases node with
    | none => rfl
    | some addr => simp only [visit, next_map, ih]

theorem inorder_map {visited : List Address} (inorder : Inorder ghost node visited) :
    Inorder (mapKeys change ghost) node visited := by
  induction inorder with
  | empty => exact .empty
  | node filled left right leftIh rightIh => exact .node filled leftIh rightIh

end Keys

/-- After any permitted calls a search gives the node of a hash and a string, or NULL, and the
walk from the least node gives every node once, in the order of the tree, and then NULL. -/
theorem str_tree_searched_and_visited (sentinel : Address) (memory : Address → Node) (str : Address → Bytes)
    (calls : List Call) (fuel : Nat) (enough : calls.length + 2 ≤ fuel)
    (permitted : AllPermitted sentinel [] calls) :
    ∃ tree visited, calls.foldlM (perform fuel) ⟨ngxRbtreeInit sentinel memory, str⟩ = some tree ∧
      (∀ val hash, ngxStrRbtreeLookup fuel tree val hash =
        some (((calls.foldl follow []).find? fun node => node.key = hash ∧
          node.str = val).map StrNode.address)) ∧
      Inorder tree.tree tree.tree.root visited ∧ visited.Nodup ∧
      visited.Perm ((calls.foldl follow []).map StrNode.address) ∧
      (visited ≠ [] → ∃ first, ngxRbtreeMin fuel tree.tree tree.tree.root = some first ∧
        visit fuel tree.tree visited.length first = some visited) := by
  let all := calls.filterMap fun call =>
    match call with
    | .insert node => some node
    | .delete _ => none
  have known : ∀ node, Call.insert node ∈ calls → node ∈ all := fun node mem =>
    mem_filterMap.mpr ⟨_, mem, rfl⟩
  obtain ⟨tree, ghost, items, finished, sim, longer⟩ := @calls_simulate all [] _ _ [] fuel calls
    (by simpa using enough)
    known permitted init_simulates
  have short : items.length < fuel := by
    rw [items_length sim]
    simp only [length_nil] at longer
    omega
  have lookups := lookup_found sim short
  have shows := sim.shows
  have same := sim.same.map Item.address
  obtain ⟨shape, rep, -, rfl, -⟩ := sim.holds
  obtain ⟨top, linked⟩ := rep.linked
  have ordered := inorder_linked linked rep.foreign
  rw [← rep.root] at ordered
  refine ⟨tree, shape.inorder.map Item.address, finished, lookups, ?_, rep.distinct, ?_, fun some_ => ?_⟩
  · rw [shows]
    exact inorder_map ordered
  · rwa [List.map_map] at same
  · have filled : shape ≠ .nil := by
      rintro rfl
      exact some_ rfl
    obtain ⟨first, least, visits⟩ := walk_spec fuel short filled rep
    refine ⟨first, ?_, ?_⟩
    · rw [shows, min_map]
      exact least
    · rw [shows, visit_map, length_map]
      exact visits

theorem str_tree_searched_and_visited_collision :
    ∃ tree visited, [Call.insert ⟨1, 7, [97, 98]⟩, .insert ⟨2, 7, [98]⟩,
      .insert ⟨3, 7, [97, 97]⟩, .delete 2].foldlM
        (perform 6) ⟨ngxRbtreeInit 0 fun _ => ⟨0, none, none, none, .red⟩, fun _ => []⟩ = some tree ∧
      ngxStrRbtreeLookup 6 tree [98] 7 = some none ∧ ngxStrRbtreeLookup 6 tree [97, 97] 7 = some (some 3) ∧
      visited.Perm [3, 1] ∧ (visited ≠ [] → ∃ first, ngxRbtreeMin 6 tree.tree tree.tree.root = some first ∧
        visit 6 tree.tree visited.length first = some visited) := by
  obtain ⟨tree, visited, ran, found, -, -, same, visits⟩ := str_tree_searched_and_visited 0
    (fun _ => ⟨0, none, none, none, .red⟩) (fun _ => [])
    [.insert ⟨1, 7, [97, 98]⟩, .insert ⟨2, 7, [98]⟩, .insert ⟨3, 7, [97, 97]⟩, .delete 2] 6 (by decide)
    (by simp [AllPermitted, Permitted, follow])
  exact ⟨tree, visited, ran, found [98] 7, found [97, 97] 7, same, visits⟩

theorem red_black_depth {shape : Shape} (redBlack : RedBlack shape) :
    shape.depth ≤ 2 * Nat.log 2 (shape.inorder.length + 1) := by
  obtain ⟨isBlack, height, balanced⟩ := redBlack
  obtain ⟨filled, -, shallow⟩ := RedBlackTree.Tree.balanced_bounds balanced
  exact (shallow isBlack).trans (Nat.mul_le_mul_left 2 (Nat.le_log_of_pow_le (by decide) filled))

/-- The loop of a search makes no more turns than twice the logarithm of the number of nodes. -/
theorem str_tree_searched_fast (sentinel : Address) (memory : Address → Node) (str : Address → Bytes)
    (calls : List Call) (fuel : Nat) (enough : calls.length + 2 ≤ fuel)
    (permitted : AllPermitted sentinel [] calls) :
    ∃ tree, calls.foldlM (perform fuel) ⟨ngxRbtreeInit sentinel memory, str⟩ = some tree ∧
      ∀ val hash turns, 2 * Nat.log 2 ((calls.foldl follow []).length + 1) < turns →
        ngxStrRbtreeLookup turns tree val hash =
          some (((calls.foldl follow []).find? fun node => node.key = hash ∧
            node.str = val).map StrNode.address) := by
  obtain ⟨tree, ghost, items, finished, sim, -⟩ := @calls_simulate (calls.filterMap fun call =>
    match call with
    | .insert node => some node
    | .delete _ => none) [] _ _ [] fuel calls (by simpa using enough)
    (fun node mem => mem_filterMap.mpr ⟨_, mem, rfl⟩) permitted init_simulates
  refine ⟨tree, finished, fun val hash turns wide =>
    lookup_within sim (fun shape redBlack order => ?_) val hash⟩
  have shallow := red_black_depth redBlack
  rw [order, items_length sim] at shallow
  exact shallow.trans_lt wide

theorem str_tree_searched_fast_two_nodes :
    ∃ tree, [Call.insert ⟨1, 7, [97, 98]⟩, .insert ⟨2, 7, [98]⟩].foldlM (perform 4)
        ⟨ngxRbtreeInit 0 fun _ => ⟨0, none, none, none, .red⟩, fun _ => []⟩ = some tree ∧
      ngxStrRbtreeLookup 3 tree [98] 7 = some (some 2) := by
  obtain ⟨tree, ran, found⟩ := str_tree_searched_fast 0 (fun _ => ⟨0, none, none, none, .red⟩) (fun _ => [])
    [.insert ⟨1, 7, [97, 98]⟩, .insert ⟨2, 7, [98]⟩] 4 (by decide)
      (by simp [AllPermitted, Permitted, follow])
  exact ⟨tree, ran, found [98] 7 3 (by decide)⟩

end ServerCore.NginxStrRbtreeRuns
