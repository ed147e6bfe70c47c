import ServerCore.NginxRadixTreeHeap

/-!
# Insertions, deletions and searches in a radix tree

What is associated with the prefixes is read off the trie of a tree. Each call is
described by what it makes of it, and the trees that come of calls are those it holds for.
-/

namespace ServerCore.NginxRadixTreeRuns

open BinaryTrie NginxRadixTree NginxRadixTreeHeap List Function

variable {stored : List Bool → Option Nat}
variable {added : List Bool → Prop}

/-- Every value but `NGX_RADIX_NO_VALUE`. -/
def counts (value : Nat) : Bool := value ≠ ngxRadixNoValue

def values (trie : Shape) : List Bool → Option Nat := counted counts trie

/-- A tree in which this is associated with the prefixes, none of which is longer than `width`. -/
def Holds (width : Nat) (tree : Tree) (stored : List Bool → Option Nat) : Prop :=
  ∃ trie free, Sound tree trie free ∧ trie.Within width ∧ values trie = stored

/-- What is associated with a prefix, by the node that it leads to. -/
def associated (tree : Tree) (turns : List Bool) : Option Nat :=
  match locate tree (some tree.root) turns with
  | none => none
  | some node => if counts (tree.nodes node).value then some (tree.nodes node).value else none

def UselessLeaf (tree : Tree) (turns : List Bool) : Prop :=
  ∃ node, locate tree (some tree.root) turns = some node ∧ (tree.nodes node).right = none ∧
    (tree.nodes node).left = none ∧ (turns = [] ∨ (tree.nodes node).value = ngxRadixNoValue)

section Nodes

variable {tree after : Tree} {trie : Shape} {free : List Nat} {place turns : List Bool} {turn : Bool}
  {addr value width : Nat} {right left : Shape} {code : ReturnCode}

section

variable (here : trie.part place = .node addr value right left)
include here

theorem values_at : values trie place = if counts value then some value else none := by
  unfold values counted Trie.get
  rw [here]
  exact Option.filter_some

theorem values_some (isCounted : value ≠ ngxRadixNoValue) : values trie place = some value := by
  rw [values_at here]
  exact if_pos (decide_eq_true isCounted)

theorem values_none (notCounted : ¬value ≠ ngxRadixNoValue) : values trie place = none := by
  rw [values_at here]
  exact if_neg fun isTrue => notCounted (of_decide_eq_true isTrue)

end

theorem values_nil (none_ : trie.part place = .nil) : values trie place = none := by
  unfold values counted Trie.get
  rw [none_]
  rfl

theorem has_place_of_node (here : trie.part place = .node addr value right left) : trie.HasPlace place :=
  Trie.has_place_of_part (Trie.ne_nil_of_eq_node here)

variable {parent : Option Nat}

theorem locate_part (rep : Rep tree.nodes parent trie) (turns : List Bool) :
    locate tree trie.mark? turns = (trie.part turns).mark? := by
  induction turns generalizing parent trie with
  | nil => cases trie <;> rfl
  | cons turn turns ih =>
    cases trie with
    | nil =>
      rw [Trie.part_nil]
      rfl
    | node addr value right left =>
      have isChild : (tree.nodes addr).child turn = (Trie.child (.node addr value right left) turn).mark? :=
        child_mark (by rw [rep.1]) (by rw [rep.1]) addr value turn
      change locate tree ((tree.nodes addr).child turn) turns = _
      rw [isChild]
      exact ih (rep_child rep turn)

section

variable (sound : Sound tree trie free) (here : trie.part place = .node addr value right left)
include sound here

theorem child_at (turn : Bool) : (tree.nodes addr).child turn = (trie.part (place ++ [turn])).mark? := by
  have isNode := node_at sound.rep here
  rw [Trie.part_snoc, here]
  exact child_mark (by rw [isNode]) (by rw [isNode]) addr value turn

theorem value_at : (tree.nodes addr).value = value := by
  rw [node_at sound.rep here]

end

/-- A tree that stands for a trie with these values, whose nodes are those of an older trie
and at most some at the places named. -/
def Grows (width : Nat) (trie : Shape) (added : List Bool → Prop)
    (stored : List Bool → Option Nat) (after : Tree) :
    Prop :=
  ∃ new free, Sound after new free ∧ new.Within width ∧ values new = stored ∧
    ∀ other, new.part other ≠ .nil → trie.part other ≠ .nil ∨ added other

theorem grows_holds (grows : Grows width trie added stored after) : Holds width after stored := by
  obtain ⟨new, free, sound, within, isStored, -⟩ := grows
  exact ⟨new, free, sound, within, isStored⟩

theorem grows_mono {older : Shape} {more : List Bool → Prop}
    (grows : Grows width trie added stored after)
    (nodes : ∀ other, trie.part other ≠ .nil → older.part other ≠ .nil ∨ more other)
    (places : ∀ other, added other → more other) : Grows width older more stored after := by
  obtain ⟨new, free, sound, within, isStored, others⟩ := grows
  refine ⟨new, free, sound, within, isStored, ?_⟩
  intro other some_
  rcases others other some_ with old | isAdded
  · exact nodes other old
  · exact .inr (places other isAdded)

section

variable (sound : Sound tree trie free) (within : trie.Within width)
  (here : trie.part place = .node addr value right left) (newValue : Nat)
include sound within here newValue

theorem set_value_grows (added : List Bool → Prop) : Grows width trie added
      (update (values trie) place (if counts newValue then some newValue else none))
      (tree.write addr { tree.nodes addr with value := newValue }) := by
  have below : ∀ more, Trie.part (.node addr newValue right left) more ≠ .nil →
      trie.part (place ++ more) ≠ .nil := by
    intro more some_
    rw [Trie.part_append, here]
    cases more with
    | nil => exact Trie.ne_nil_of_eq_node rfl
    | cons turn more => cases turn <;> exact some_
  refine ⟨_, free, set_value_sound sound here newValue, ?_, ?_, ?_⟩
  · apply Trie.put_within within
    intro more some_
    rw [← length_append]
    exact within (place ++ more) (below more some_)
  · refine (counted_put counts (has_place_of_node here) fun turn => ?_).trans ?_
    · rw [here]
      cases turn <;> rfl
    · rw [Trie.value?, Option.filter_some]
      rfl
  · intro other some_
    rcases Trie.part_put_some some_ with old | ⟨more, rfl, inNew⟩
    · exact .inl old
    · exact .inl (below more inNew)

theorem set_value_holds : Holds width (tree.write addr { tree.nodes addr with value := newValue })
      (update (values trie) place (if counts newValue then some newValue else none)) :=
  grows_holds (set_value_grows sound within here newValue fun _ => False)

end

theorem alloc_cases (sound : Sound tree trie free) :
    (∃ after, ngxRadixAlloc tree = (none, after) ∧ Sound after trie free) ∨
      ∃ next after rest, ngxRadixAlloc tree = (some next, after) ∧ Owned after trie (next :: rest) ∧
        Chain after.nodes after.free rest ∧ after.nodes = tree.nodes := by
  have fresh : ∀ changed : Tree, changed.root = tree.root → changed.nodes = tree.nodes →
      changed.start = tree.start → changed.free = tree.free → free = [] →
      ∃ next after rest, takeNode changed = (some next, after) ∧ Owned after trie (next :: rest) ∧
        Chain after.nodes after.free rest ∧ after.nodes = tree.nodes := by
    intro changed sameRoot sameNodes sameStart sameFree isEmpty
    subst isEmpty
    refine ⟨changed.start, _, [], rfl, ?_, ?_, sameNodes⟩
    · have nodup := sound.nodup
      have below := sound.below
      rw [append_nil] at nodup below
      refine ⟨sound.root.trans (congrArg some sameRoot.symm), ?_, ?_, ?_⟩
      · exact Eq.subst (motive := fun nodes => Rep nodes none trie) sameNodes.symm sound.rep
      · refine nodup_append.2 ⟨nodup, pairwise_singleton _ _, ?_⟩
        intro mark isMark other isOther same
        rw [mem_singleton.1 isOther, sameStart] at same
        exact Nat.lt_irrefl _ (same ▸ below mark isMark)
      · intro addr isAddr
        rw [sameStart]
        obtain isMark | isNew := mem_append.1 isAddr
        · exact Nat.lt_succ_of_lt (below addr isMark)
        · rw [mem_singleton.1 isNew, sameStart]
          exact Nat.lt_succ_self _
    · exact sameFree.trans sound.chain
  unfold ngxRadixAlloc
  cases isFree : tree.free with
  | some first =>
    cases free with
    | nil =>
      have none_ := sound.chain
      rw [isFree] at none_
      cases none_
    | cons head rest =>
      obtain ⟨isHead, behind⟩ := sound.chain
      rw [isFree] at isHead
      cases isHead
      exact .inr ⟨first, _, rest, rfl, ⟨sound.root, sound.rep, sound.nodup, sound.below⟩, behind, rfl⟩
  | none =>
    have isEmpty : free = [] := by
      cases free with
      | nil => rfl
      | cons head rest =>
        have isHead := sound.chain.1
        rw [isFree] at isHead
        cases isHead
    dsimp only
    by_cases pageUsed : tree.size = 0
    · rw [if_pos pageUsed]
      split
      · exact .inr (fresh _ rfl rfl rfl isFree.symm isEmpty)
      · refine .inl ⟨_, rfl, ⟨⟨sound.root, sound.rep, sound.nodup, sound.below⟩, ?_⟩⟩
        rw [isEmpty]
        exact rfl
    · rw [if_neg pageUsed]
      exact .inr (fresh tree rfl rfl rfl rfl isEmpty)

theorem attach_holds {next : Nat} {rest : List Nat} (owned : Owned tree trie (next :: rest))
    (chain : Chain tree.nodes tree.free rest) (within : trie.Within width) (room : place.length < width)
    (here : trie.part place = .node addr value right left) (empty : trie.part (place ++ [turn]) = .nil) :
    ∃ new, Sound (attach tree next addr turn) new rest ∧ new.Within width ∧ values new = values trie ∧
      new.part (place ++ [turn]) = .node next ngxRadixNoValue .nil .nil ∧
      ∀ other, new.part other ≠ .nil → trie.part other ≠ .nil ∨ other = place ++ [turn] := by
  have has : trie.HasPlace (place ++ [turn]) := Trie.has_place_snoc (Trie.ne_nil_of_eq_node here) turn
  have alone : ∀ more, Trie.part (.node next ngxRadixNoValue .nil .nil) more ≠ .nil → more = [] := by
    intro more some_
    cases more with
    | nil => rfl
    | cons turn more =>
      refine absurd ?_ some_
      cases turn <;> exact Trie.part_nil more
  refine ⟨_, attach_sound owned chain here (by rw [← Trie.part_snoc]; exact empty), ?_, ?_,
    Trie.part_put_same has, ?_⟩
  · apply Trie.put_within within
    intro more some_
    rw [alone more some_, length_append]
    exact room
  · refine (counted_put counts has fun turn => ?_).trans ?_
    · rw [empty]
      cases turn <;> rfl
    · refine (congrArg (update _ _) ?_).trans (update_eq_self _ _)
      exact (values_nil empty).symm
  · intro other some_
    rcases Trie.part_put_some some_ with old | ⟨more, rfl, inNew⟩
    · exact .inl old
    · rw [alone more inNew, append_nil]
      exact .inr rfl

section

variable (newValue : Nat) (sound : Sound tree trie free) (within : trie.Within width)
  (here : trie.part place = .node addr value right left)
include sound within here

theorem extend_grows (empty : ∀ turn more, turns = turn :: more → trie.part (place ++ [turn]) = .nil)
    (room : place.length + turns.length ≤ width) (answer : extend newValue tree addr turns = (code, after)) :
    (code = .ngxOk ∧ Grows width trie (· <+: place ++ turns)
        (update (values trie) (place ++ turns) (if counts newValue then some newValue else none)) after) ∨
      (code = .ngxError ∧ turns ≠ [] ∧
        Grows width trie (fun other => other.length < (place ++ turns).length) (values trie) after) := by
  induction turns generalizing tree trie free place addr value right left with
  | nil =>
    injection answer with isCode isAfter
    subst isCode isAfter
    rw [append_nil]
    exact .inl ⟨rfl, set_value_grows sound within here newValue _⟩
  | cons turn turns ih =>
    rw [NginxRadixTree.extend] at answer
    obtain ⟨failed, isAlloc, failedSound⟩ | ⟨next, taken, rest, isAlloc, owned, chain, sameNodes⟩ :=
      alloc_cases sound
    · rw [isAlloc] at answer
      injection answer with isCode isAfter
      subst isCode isAfter
      exact .inr ⟨rfl, cons_ne_nil _ _, trie, free, failedSound, within, rfl, fun other some_ => .inl some_⟩
    · rw [isAlloc] at answer
      rw [length_cons] at room
      obtain ⟨new, newSound, newWithin, sameValues, isNew, others⟩ :=
        attach_holds owned chain within (by omega) here (empty turn turns rfl)
      have split : place ++ [turn] ++ turns = place ++ turn :: turns := by
        rw [append_assoc, singleton_append]
      have behind := ih newSound newWithin isNew (fun other more _ => ?_)
        (by rw [length_append, length_singleton]; omega) answer
      · rw [sameValues, split] at behind
        rcases behind with ⟨isOk, grows⟩ | ⟨isError, more, grows⟩
        · refine .inl ⟨isOk, grows_mono grows ?_ fun other isAdded => isAdded⟩
          intro other some_
          rcases others other some_ with old | isPlace
          · exact .inl old
          · rw [isPlace, ← split]
            exact .inr (prefix_append _ _)
        · refine .inr ⟨isError, cons_ne_nil _ _, grows_mono grows ?_ fun other isAdded => isAdded⟩
          intro other some_
          rcases others other some_ with old | isPlace
          · exact .inl old
          · have longer := length_pos_iff.mpr more
            rw [isPlace, ← split, @List.length_append _ (place ++ [turn])]
            exact .inr (by omega)
      · rw [Trie.part_append, isNew]
        cases other <;> rfl

theorem insert_from_grows (room : place.length + turns.length ≤ width)
    (answer : insertFrom newValue tree addr turns = (code, after)) :
    (values trie (place ++ turns) ≠ none ∧ code = .ngxBusy ∧ after = tree) ∨
      (values trie (place ++ turns) = none ∧ ((code = .ngxOk ∧ Grows width trie (· <+: place ++ turns)
            (update (values trie) (place ++ turns)
              (if counts newValue then some newValue else none)) after) ∨
          (code = .ngxError ∧
            Grows width trie (fun other => other.length < (place ++ turns).length)
              (values trie) after))) := by
  induction turns generalizing place addr value right left with
  | nil =>
    rw [insertFrom, value_at sound here] at answer
    rw [append_nil]
    by_cases isCounted : value ≠ ngxRadixNoValue
    · rw [if_pos isCounted] at answer
      injection answer with isCode isAfter
      refine .inl ⟨?_, isCode.symm, isAfter.symm⟩
      rw [values_some here isCounted]
      exact Option.some_ne_none value
    · rw [if_neg isCounted] at answer
      injection answer with isCode isAfter
      subst isCode isAfter
      exact .inr ⟨values_none here isCounted, .inl ⟨rfl, set_value_grows sound within here newValue _⟩⟩
  | cons turn turns ih =>
    have isChild := child_at sound here turn
    have split : place ++ turn :: turns = place ++ [turn] ++ turns := by
      rw [append_assoc, singleton_append]
    rw [length_cons] at room
    rw [insertFrom, isChild] at answer
    cases isPart : trie.part (place ++ [turn]) with
    | nil =>
      rw [isPart] at answer
      have empty : ∀ other more, turn :: turns = other :: more → trie.part (place ++ [other]) = .nil := by
        intro other more isTurns
        cases isTurns
        exact isPart
      refine .inr ⟨values_nil ?_, ?_⟩
      · rw [split, Trie.part_append, isPart, Trie.part_nil]
      · rcases extend_grows newValue sound within here empty room answer with done | ⟨isError, -, grows⟩
        · exact .inl done
        · exact .inr ⟨isError, grows⟩
    | node next nextValue nextRight nextLeft =>
      rw [isPart] at answer
      rw [split]
      refine ih isPart ?_ answer
      rw [length_append, length_singleton]
      omega

end

theorem insert_grows {newValue : Nat} (sound : Sound tree trie free) (within : trie.Within width)
    (room : turns.length ≤ width) (answer : insert tree turns newValue = (code, after)) :
    (values trie turns ≠ none ∧ code = .ngxBusy ∧ after = tree) ∨ (values trie turns = none ∧
        ((code = .ngxOk ∧ Grows width trie (· <+: turns)
            (update (values trie) turns (if counts newValue then some newValue else none)) after) ∨
          (code = .ngxError ∧ Grows width trie (fun other => other.length < turns.length)
            (values trie) after))) := by
  cases trie with
  | nil => cases sound.root
  | node addr value right left =>
    have isRoot := sound.root
    cases isRoot
    have here : Trie.part (.node tree.root value right left) [] = .node tree.root value right left := rfl
    exact insert_from_grows newValue sound within here (by rw [length_nil, Nat.zero_add]; exact room) answer

theorem insert_spec {newValue : Nat} (holds : Holds width tree stored)
    (room : turns.length ≤ width) (answer : insert tree turns newValue = (code, after)) :
    (stored turns ≠ none ∧ code = .ngxBusy ∧ after = tree) ∨ (stored turns = none ∧
        ((code = .ngxOk ∧ Holds width after
            (update stored turns (if counts newValue then some newValue else none))) ∨
          (code = .ngxError ∧ Holds width after stored))) := by
  obtain ⟨trie, free, sound, within, rfl⟩ := holds
  rcases insert_grows sound within room answer with busy | ⟨none_, ⟨isOk, grows⟩ | ⟨isError, grows⟩⟩
  · exact .inl busy
  · exact .inr ⟨none_, .inl ⟨isOk, grows_holds grows⟩⟩
  · exact .inr ⟨none_, .inr ⟨isError, grows_holds grows⟩⟩

theorem nil_of_mark {part : Shape} (none_ : part.mark? = none) : part = .nil := by
  cases part with
  | nil => rfl
  | node addr value right left => cases none_

theorem unlink_spec (fuel : Nat) (sound : Sound tree trie free) (within : trie.Within width)
    (here : trie.part place = .node addr value .nil .nil) (deeper : place ≠ [])
    (enough : place.length ≤ fuel) : ∃ after, unlink fuel tree addr = .ok (.ngxOk, after) ∧
      Holds width after (update (values trie) place none) := by
  induction fuel generalizing tree trie free place addr value with
  | zero => exact absurd (length_eq_zero_iff.1 (Nat.le_zero.1 enough)) deeper
  | succ fuel ih =>
    obtain none_ | ⟨front, turn, rfl⟩ := eq_nil_or_concat place
    · exact absurd none_ deeper
    · rw [concat_eq_append] at *
      have isChild : (trie.part front).child turn = .node addr value .nil .nil := by
        rw [← Trie.part_snoc]
        exact here
      cases isFront : trie.part front with
      | nil =>
        rw [isFront] at isChild
        cases isChild
      | node parent frontValue right left =>
        have has := has_place_of_node here
        have isParent : (tree.nodes addr).parent = some parent := by
          rw [node_at sound.rep here, Trie.above_snoc, isFront]
          rfl
        have cut := detach_sound sound isFront isChild
        have cutWithin : (trie.put (front ++ [turn]) .nil).Within width :=
          Trie.put_within within fun more some_ => absurd (Trie.part_nil more) some_
        have cutValues : values (trie.put (front ++ [turn]) .nil) =
            update (values trie) (front ++ [turn]) none := by
          refine counted_put counts has fun other => ?_
          rw [here]
          cases other <;> rfl
        obtain ⟨newRight, newLeft, cutFront⟩ : ∃ newRight newLeft,
            (trie.put (front ++ [turn]) .nil).part front = .node parent frontValue newRight newLeft := by
          rw [Trie.put_snoc, Trie.part_put_same (has_place_of_node isFront), isFront]
          cases turn with
          | true => exact ⟨_, _, rfl⟩
          | false => exact ⟨_, _, rfl⟩
        have isNode := node_at cut.rep cutFront
        have done : Holds width (detach tree addr parent)
            (update (values trie) (front ++ [turn]) none) := ⟨_, _, cut, cutWithin, cutValues⟩
        rw [unlink, isParent]
        dsimp only
        rw [isNode]
        by_cases hasChild : newRight.mark? ≠ none ∨ newLeft.mark? ≠ none
        · rw [if_pos hasChild]
          exact ⟨_, rfl, done⟩
        · rw [if_neg hasChild]
          by_cases isCounted : frontValue ≠ ngxRadixNoValue
          · rw [if_pos isCounted]
            exact ⟨_, rfl, done⟩
          · rw [if_neg isCounted]
            by_cases isRoot : Trie.above none (trie.put (front ++ [turn]) .nil) front = none
            · rw [if_pos isRoot]
              exact ⟨_, rfl, done⟩
            · rw [if_neg isRoot]
              obtain ⟨noRight, noLeft⟩ := not_or.1 hasChild
              have isLeaf := cutFront
              rw [nil_of_mark (not_not.1 noRight), nil_of_mark (not_not.1 noLeft)] at isLeaf
              have notRoot : front ≠ [] := by
                rintro rfl
                exact isRoot rfl
              rw [length_append, length_singleton] at enough
              obtain ⟨after, isUnlinked, holds⟩ := ih cut cutWithin isLeaf notRoot (by omega)
              refine ⟨after, isUnlinked, ?_⟩
              rw [← values_none cutFront isCounted, update_eq_self, cutValues] at holds
              exact holds

theorem holds_associated (holds : Holds width tree stored) : associated tree = stored := by
  obtain ⟨trie, free, sound, -, rfl⟩ := holds
  funext turns
  unfold associated
  rw [← sound.root, locate_part sound.rep]
  cases isPart : trie.part turns with
  | nil => exact (values_nil isPart).symm
  | node addr value right left =>
    change (if counts (tree.nodes addr).value then some (tree.nodes addr).value else none) = _
    rw [value_at sound isPart, values_at isPart]

theorem counts_no_value : counts ngxRadixNoValue = false := decide_eq_false (not_not_intro rfl)

theorem delete_cases (holds : Holds width tree stored) (turns : List Bool) :
    (stored turns = none ∧ ¬UselessLeaf tree turns ∧ delete tree turns = .ok (.ngxError, tree)) ∨
      (stored turns ≠ none ∧ ¬UselessLeaf tree turns ∧ ∃ after, delete tree turns = .ok (.ngxOk, after) ∧
        Holds width after (update stored turns none)) ∨
      (stored turns = none ∧ UselessLeaf tree turns ∧ turns ≠ [] ∧ ∃ after,
        delete tree turns = .ok (.ngxOk, after) ∧ Holds width after (update stored turns none)) ∨
      (UselessLeaf tree turns ∧ turns = [] ∧ delete tree turns = .error .nullPointer) := by
  obtain ⟨trie, free, sound, within, rfl⟩ := holds
  have located := locate_part sound.rep turns
  rw [sound.root] at located
  unfold delete UselessLeaf
  rw [located]
  cases isPart : trie.part turns with
  | nil =>
    refine .inl ⟨values_nil isPart, ?_, rfl⟩
    rintro ⟨node, same, -⟩
    cases same
  | node addr value right left =>
    have isNode := node_at sound.rep isPart
    have uselessIff : (∃ node, (Trie.node addr value right left).mark? = some node ∧
        (tree.nodes node).right = none ∧ (tree.nodes node).left = none ∧
        (turns = [] ∨ (tree.nodes node).value = ngxRadixNoValue)) ↔
        right.mark? = none ∧ left.mark? = none ∧ (turns = [] ∨ value = ngxRadixNoValue) := by
      constructor
      · rintro ⟨node, same, useless⟩
        injection same with same
        rw [← same, isNode] at useless
        exact useless
      · intro useless
        refine ⟨addr, rfl, ?_⟩
        rw [isNode]
        exact useless
    rw [uselessIff]
    dsimp only [Trie.mark?]
    rw [isNode]
    by_cases hasChild : right.mark? ≠ none ∨ left.mark? ≠ none
    · rw [if_pos hasChild]
      have notUseless : ¬(right.mark? = none ∧ left.mark? = none ∧
          (turns = [] ∨ value = ngxRadixNoValue)) := by
        rintro ⟨noRight, noLeft, -⟩
        exact hasChild.elim (absurd noRight) (absurd noLeft)
      by_cases isCounted : value ≠ ngxRadixNoValue
      · rw [if_pos isCounted]
        have holds := set_value_holds sound within isPart ngxRadixNoValue
        rw [isNode, counts_no_value] at holds
        refine .inr (.inl ⟨?_, notUseless, _, rfl, holds⟩)
        rw [values_some isPart isCounted]
        exact Option.some_ne_none value
      · rw [if_neg isCounted]
        exact .inl ⟨values_none isPart isCounted, notUseless, rfl⟩
    · rw [if_neg hasChild]
      obtain ⟨noRight, noLeft⟩ := not_or.1 hasChild
      have noRight := not_not.1 noRight
      have noLeft := not_not.1 noLeft
      have isLeaf := isPart
      rw [nil_of_mark noRight, nil_of_mark noLeft] at isLeaf
      by_cases isRoot : turns = []
      · refine .inr (.inr (.inr ⟨⟨noRight, noLeft, .inl isRoot⟩, isRoot, ?_⟩))
        subst isRoot
        rw [unlink, isNode]
        rfl
      · obtain ⟨after, isUnlinked, holds⟩ :=
          unlink_spec (turns.length + 1) sound within isLeaf isRoot (Nat.le_succ _)
        by_cases isCounted : value ≠ ngxRadixNoValue
        · refine .inr (.inl ⟨?_, ?_, after, isUnlinked, holds⟩)
          · rw [values_some isPart isCounted]
            exact Option.some_ne_none value
          · rintro ⟨-, -, useless⟩
            exact useless.elim isRoot isCounted
        · exact .inr (.inr (.inl ⟨values_none isPart isCounted,
            ⟨noRight, noLeft, .inr (not_not.1 isCounted)⟩,
            isRoot, after, isUnlinked, holds⟩))

theorem find_walk (turnAt : Nat → Bool) (rep : Rep tree.nodes parent trie) (depth i found : Nat)
    (within : trie.Within depth) : findFrom tree turnAt (depth + 1) i found trie.mark? =
      walk counts trie ((List.range' i depth).map turnAt) (some found) := by
  induction depth generalizing trie parent i found with
  | zero =>
    cases trie with
    | nil => rfl
    | node addr value right left =>
      have noChild : Trie.child (.node addr value right left) (turnAt i) = .nil := by
        by_contra some_
        exact absurd (within [turnAt i] some_) (Nat.not_succ_le_zero 0)
      have isChild : (tree.nodes addr).child (turnAt i) = none := by
        rw [child_mark (by rw [rep.1]) (by rw [rep.1]) addr value (turnAt i), noChild]
        rfl
      simp only [Trie.mark?]
      rw [findFrom, isChild, rep.1]
      unfold findFrom
      rw [List.range', map_nil, walk]
      by_cases isCounted : value ≠ ngxRadixNoValue
      · rw [if_pos isCounted, if_pos (show counts value = true from decide_eq_true isCounted)]
      · rw [if_neg isCounted, if_neg fun isTrue : counts value = true =>
          isCounted (of_decide_eq_true isTrue)]
  | succ depth ih =>
    cases trie with
    | nil => rfl
    | node addr value right left =>
      have isChild : (tree.nodes addr).child (turnAt i) =
          (Trie.child (.node addr value right left) (turnAt i)).mark? :=
        child_mark (by rw [rep.1]) (by rw [rep.1]) addr value (turnAt i)
      have childWithin : (Trie.child (.node addr value right left) (turnAt i)).Within depth :=
        fun place some_ => Nat.le_of_succ_le_succ (within (turnAt i :: place) some_)
      simp only [Trie.mark?]
      rw [findFrom, isChild, rep.1]
      rw [ih (rep_child rep (turnAt i)) (i + 1) _ childWithin, List.range', map_cons, walk]
      by_cases isCounted : value ≠ ngxRadixNoValue
      · rw [if_pos isCounted, if_pos (show counts value = true from decide_eq_true isCounted)]
        cases turnAt i <;> rfl
      · rw [if_neg isCounted, if_neg fun isTrue : counts value = true =>
          isCounted (of_decide_eq_true isTrue)]
        cases turnAt i <;> rfl

end Nodes

end ServerCore.NginxRadixTreeRuns
