import ServerCore.NginxStrRbtree
import ServerCore.NginxEventTimerOrder
import Mathlib.Data.List.Lex
import Mathlib.Data.Prod.Lex

/-!
# The order of string nodes

Both functions compare the keys, then the lengths and then the bytes. This is a
linear order, and on finitely many nodes it is the order of numbers: each node
has a rank.
-/

namespace ServerCore.NginxStrRbtreeOrder

open RedBlackTree.Tree
open NginxRbtree
open NginxRbtreeShape NginxRbtreeKeys NginxEventTimerOrder NginxStrRbtree List

variable {key other : Nat} {str val : Bytes}

section Rank

variable {Place : Type*} [LinearOrder Place] (places : Finset Place)

def rank (place : Place) : Nat := (places.filter (· < place)).card + 1

section

variable {place other : Place} (mem : place ∈ places)
include mem

theorem rank_lt (less : place < other) : rank places place < rank places other := by
  apply Nat.succ_lt_succ
  apply Finset.card_lt_card
  refine Finset.ssubset_iff_of_subset ?_ |>.mpr ⟨place, ?_, ?_⟩
  · intro smaller inside
    rw [Finset.mem_filter] at inside ⊢
    exact ⟨inside.1, inside.2.trans less⟩
  · exact Finset.mem_filter.mpr ⟨mem, less⟩
  · exact fun inside => lt_irrefl place (Finset.mem_filter.mp inside).2

theorem rank_lt_iff (otherMem : other ∈ places) :
    rank places place < rank places other ↔ place < other := by
  refine ⟨fun below => ?_, rank_lt places mem⟩
  rcases lt_trichotomy place other with less | rfl | greater
  · exact less
  · exact absurd below (Nat.lt_irrefl _)
  · exact absurd below (Nat.lt_asymm (rank_lt places otherMem greater))

theorem rank_injective (otherMem : other ∈ places)
    (same : rank places place = rank places other) : place = other := by
  rcases lt_trichotomy place other with less | rfl | greater
  · exact absurd same (Nat.ne_of_lt (rank_lt places mem less))
  · rfl
  · exact absurd same (Nat.ne_of_gt (rank_lt places otherMem greater))

end

theorem rank_le (place : Place) : rank places place ≤ places.card + 1 :=
  Nat.succ_le_succ (Finset.card_filter_le _ _)

end Rank

abbrev Place := Nat ×ₗ Nat ×ₗ List Nat

def place (key : Nat) (str : Bytes) : Place := toLex (key, toLex (str.length, str.map UInt8.toNat))

theorem map_to_nat_injective : Function.Injective (List.map UInt8.toNat) :=
  map_injective_iff.mpr fun _ _ => UInt8.toNat_inj.mp

theorem place_injective : place key str = place other val ↔ key = other ∧ str = val := by
  constructor
  · intro same
    injection toLex_inj.mp same with sameKey rest
    injection toLex_inj.mp rest with sameLen sameBytes
    exact ⟨sameKey, map_to_nat_injective sameBytes⟩
  · rintro ⟨rfl, rfl⟩
    rfl

/-- The sign of `ngx_memcmp` is the order of the strings. -/
theorem memcmp_order (length : str.length = val.length) :
    (ngxMemcmp str val < 0 ↔ str.map UInt8.toNat < val.map UInt8.toNat) ∧
    (ngxMemcmp str val = 0 ↔ str = val) := by
  induction str generalizing val with
  | nil =>
    obtain rfl : val = [] := length_eq_zero_iff.mp length.symm
    simp [ngxMemcmp]
  | cons a str ih =>
    cases val with
    | nil => cases length
    | cons b val =>
      obtain ⟨less, equal⟩ := ih (Nat.succ.inj length)
      rw [ngxMemcmp, map_cons, map_cons, cons_lt_cons_iff]
      by_cases same : a = b
      · subst same
        rw [if_pos rfl, less, equal]
        simp
      · have differ : a.toNat ≠ b.toNat := fun isSame => same (UInt8.toNat_inj.mp isSame)
        rw [if_neg same]
        refine ⟨?_, ?_⟩
        · simp only [differ, false_and, or_false]
          omega
        · simp only [List.cons.injEq, same, false_and, iff_false]
          omega

theorem place_lt_iff :
    place key str < place other val ↔ key < other ∨ key = other ∧ (str.length < val.length ∨
      str.length = val.length ∧ str.map UInt8.toNat < val.map UInt8.toNat) := by
  rw [place, place, Prod.Lex.toLex_lt_toLex]
  dsimp only
  rw [Prod.Lex.toLex_lt_toLex]

theorem goes_left_iff (key other : Nat) (str val : Bytes) :
    goesLeft key str other val = true ↔ place key str < place other val := by
  rw [goesLeft, place_lt_iff]
  by_cases sameKey : key = other
  · subst sameKey
    by_cases sameLen : str.length = val.length
    · simp [sameLen, (memcmp_order sameLen).1]
    · simp [sameLen]
  · simp [sameKey]

theorem str_descends (str : Address → Bytes) :
    Descends (fun node key temp other => goesLeft key (str node) other (str temp))
      (ngxStrRbtreeInsertValue str) where
  stuck _ _ _ := rfl
  turn _ _ _ _ := rfl

section Lookup

variable {change : Nat → Nat} {ghost : Rbtree} {str : Address → Bytes}

def placeOf (change : Nat → Nat) (str : Address → Bytes) (item : Item) : Place :=
  place (change item.key) (str item.address)

theorem lookup_turn (tree : StrTree) (val : Bytes) (hash fuel : Nat) {node : Address}
    (filled : some node ≠ some tree.tree.sentinel) : lookupLoop tree val hash (fuel + 1) (some node) =
      if place hash val < place (tree.tree.memory node).key (tree.str node) then
        lookupLoop tree val hash fuel (tree.tree.memory node).left
      else if place hash val = place (tree.tree.memory node).key (tree.str node) then some (some node)
      else lookupLoop tree val hash fuel (tree.tree.memory node).right := by
  rw [lookupLoop, if_neg filled, Option.bind_eq_bind, Option.bind_some]
  simp only [place_injective, place_lt_iff]
  by_cases sameKey : hash = (tree.tree.memory node).key
  · by_cases sameLen : val.length = (tree.str node).length
    · obtain ⟨less, equal⟩ := memcmp_order sameLen
      simp only [sameKey, sameLen, ne_eq, not_true, if_false, lt_irrefl, true_and, false_or, ← less, ← equal]
      rcases lt_trichotomy (ngxMemcmp val (tree.str node)) 0 with below | zero | above
      · simp [below]
      · simp [zero]
      · simp [above, above.ne']
    · have differ : val ≠ tree.str node := fun same => sameLen (congrArg List.length same)
      simp only [sameKey, sameLen, differ, ne_eq, not_true, not_false_eq_true, if_true, if_false, lt_irrefl,
        true_and, false_or, false_and, or_false, and_false]
      split_ifs <;> rfl
  · simp only [sameKey, ne_eq, not_false_eq_true, if_true, false_and, or_false, if_false]
    split_ifs <;> rfl

theorem find_none {items : List Item} {goal : Place}
    (differ : ∀ item ∈ items, placeOf change str item ≠ goal) :
    items.find? (fun item => placeOf change str item = goal) = none :=
  find?_eq_none.mpr fun item mem => by simpa using differ item mem

theorem lookup_spec (val : Bytes) (hash fuel : Nat) {shape : Shape} {parent : Pointer}
    (enough : shape.depth < fuel) (linked : Linked ghost.sentinel ghost.memory parent shape)
    (foreign : ghost.sentinel ∉ addresses shape)
    (sorted : shape.inorder.Pairwise fun first second => placeOf change str first <
      placeOf change str second) :
    lookupLoop ⟨mapKeys change ghost, str⟩ val hash fuel (pointerOf ghost.sentinel shape) =
      some ((shape.inorder.find? fun item => placeOf change str item =
        place hash val).map Item.address) := by
  induction shape generalizing fuel parent with
  | nil =>
    obtain ⟨fuel, rfl⟩ := Nat.exists_eq_add_of_lt enough
    exact if_pos rfl
  | node color left item right leftIh rightIh =>
    obtain ⟨here, leftLinked, rightLinked⟩ := linked
    have split : addresses (.node color left item right) =
        item.address ::ₘ (addresses left + addresses right) :=
      addresses_join .left color left right item
    rw [split, Multiset.mem_cons, Multiset.mem_add, not_or, not_or] at foreign
    obtain ⟨differ, notLeft, notRight⟩ := foreign
    obtain ⟨leftSorted, restSorted, across⟩ := pairwise_append.mp sorted
    obtain ⟨below, rightSorted⟩ := pairwise_cons.mp restSorted
    rw [depth] at enough
    obtain ⟨fuel, rfl⟩ : ∃ rest, fuel = rest + 1 := ⟨fuel - 1, by omega⟩
    have turn := @lookup_turn ⟨mapKeys change ghost, str⟩ val hash fuel item.address
      (fun same => differ (Option.some.inj same).symm)
    simp only [mapKeys, mapNode, here] at turn
    change _ = if place hash val < placeOf change str item then _ else
      if place hash val = placeOf change str item then _ else _ at turn
    rw [pointerOf, inorder, find?_append, find?_cons]
    refine turn.trans ?_
    rcases lt_trichotomy (place hash val) (placeOf change str item) with less | same | greater
    · rw [if_pos less, find_none fun other mem => ((less.trans (below other mem))).ne']
      simp only [less.ne', decide_false, Option.or_none]
      exact leftIh fuel (by omega) leftLinked notLeft leftSorted
    · rw [if_neg same.not_lt, if_pos same,
        find_none fun other mem => same ▸ (across other mem item (mem_cons_self ..)).ne]
      simp [same]
    · rw [if_neg greater.not_gt, if_neg greater.ne',
        find_none fun other mem => ((across other mem item (mem_cons_self ..)).trans greater).ne]
      simp only [greater.ne, decide_false, Option.none_or]
      exact rightIh fuel (by omega) rightLinked notRight rightSorted

end Lookup

end ServerCore.NginxStrRbtreeOrder
