import Mathlib.Data.List.Nodup

/-!
# Circular doubly linked lists

Lists of cells that are linked in both directions through two functions, with a
head cell that is in no order itself. The backward link of the head is never
followed, so it may be anything. The operations state what they write; cells
outside the list may change freely.
-/

namespace ServerCore.CircularList

open List

variable {Cell : Type*} {next prev next' prev' : Cell → Cell}
variable {first target : Cell}

/-- The links from `first` through the given cells to `last`. -/
def Chain (next prev : Cell → Cell) : Cell → List Cell → Cell → Prop
  | first, [], last => next first = last
  | first, cell :: cells, last => next first = cell ∧ prev cell = first ∧ Chain next prev cell cells last

/-- The last of the cells, or `first` if there are none. -/
def endOf : Cell → List Cell → Cell
  | first, [] => first
  | _, cell :: cells => endOf cell cells

theorem end_of_mem (first : Cell) {cells : List Cell} : endOf first cells ∈ first :: cells := by
  induction cells generalizing first with
  | nil => exact mem_cons_self ..
  | cons cell cells ih => exact mem_cons_of_mem first (ih cell)

variable {last : Cell} {cells : List Cell}

theorem chain_append {middle : Cell} {front back : List Cell} :
    Chain next prev first (front ++ middle :: back) last ↔
      Chain next prev first front middle ∧ prev middle = endOf first front ∧
        Chain next prev middle back last := by
  induction front generalizing first with
  | nil => rfl
  | cons cell front ih =>
    rw [cons_append, Chain, ih, Chain, endOf]
    tauto

theorem chain_congr (chain : Chain next prev first cells last)
    (sameNext : ∀ cell ∈ first :: cells, next' cell = next cell)
    (samePrev : ∀ cell ∈ cells, prev' cell = prev cell) : Chain next' prev' first cells last := by
  induction cells generalizing first with
  | nil => exact (sameNext first (mem_cons_self ..)).trans chain
  | cons cell cells ih =>
    refine ⟨(sameNext first (mem_cons_self ..)).trans chain.1,
      (samePrev cell (mem_cons_self ..)).trans chain.2.1, ih chain.2.2 ?_ ?_⟩
    · exact fun other mem => sameNext other (mem_cons_of_mem first mem)
    · exact fun other mem => samePrev other (mem_cons_of_mem cell mem)

theorem chain_retarget (chain : Chain next prev first cells last)
    (distinct : (first :: cells).Nodup) (ended : next' (endOf first cells) = target)
    (sameNext : ∀ cell ∈ first :: cells, cell ≠ endOf first cells → next' cell = next cell)
    (samePrev : ∀ cell ∈ cells, prev' cell = prev cell) : Chain next' prev' first cells target := by
  induction cells generalizing first with
  | nil => exact ended
  | cons cell cells ih =>
    obtain ⟨notFirst, rest⟩ := nodup_cons.mp distinct
    have inner : first ≠ endOf first (cell :: cells) := by
      intro same
      apply notFirst
      rw [same]
      exact end_of_mem cell
    refine ⟨(sameNext first (mem_cons_self ..) inner).trans chain.1,
      (samePrev cell (mem_cons_self ..)).trans chain.2.1, ih chain.2.2 rest ended ?_ ?_⟩
    · exact fun other mem => sameNext other (mem_cons_of_mem first mem)
    · exact fun other mem => samePrev other (mem_cons_of_mem cell mem)

theorem chain_restart {start : Cell}
    (chain : Chain next prev first cells last) (distinct : cells.Nodup) (started : next' start = next first)
    (back : next first ∈ cells → prev' (next first) = start)
    (sameNext : ∀ cell ∈ cells, next' cell = next cell)
    (samePrev : ∀ cell ∈ cells, cell ≠ next first → prev' cell = prev cell) :
    Chain next' prev' start cells last := by
  cases cells with
  | nil => exact started.trans chain
  | cons cell cells =>
    obtain ⟨isFirst, -, rest⟩ := chain
    obtain ⟨notCell, -⟩ := nodup_cons.mp distinct
    rw [isFirst] at started back samePrev
    refine ⟨started, back (mem_cons_self ..), chain_congr rest sameNext ?_⟩
    intro other mem
    exact samePrev other (mem_cons_of_mem cell mem) (ne_of_mem_of_not_mem mem notCell)

structure Ring (next prev : Cell → Cell) (head : Cell) (order : List Cell) : Prop where
  distinct : (head :: order).Nodup
  chain : Chain next prev head order head

section Ring

variable {head item : Cell} {order front back : List Cell}

theorem ring_next_mem (ring : Ring next prev head order) {cell : Cell} (mem : cell ∈ head :: order) :
    next cell ∈ head :: order := by
  have follow : ∀ first cells, Chain next prev first cells head → cell ∈ first :: cells →
      next cell = head ∨ next cell ∈ cells := by
    intro first cells chain inside
    induction cells generalizing first with
    | nil =>
      rw [mem_singleton] at inside
      exact .inl (inside ▸ chain)
    | cons other cells ih =>
      rcases mem_cons.mp inside with rfl | later
      · exact .inr (chain.1 ▸ mem_cons_self ..)
      · exact (ih other chain.2.2 later).imp_right (mem_cons_of_mem other)
  exact mem_cons.mpr (follow head order ring.chain mem)

theorem ring_congr (ring : Ring next prev head order)
    (sameNext : ∀ cell ∈ head :: order, next' cell = next cell)
    (samePrev : ∀ cell ∈ order, prev' cell = prev cell) : Ring next' prev' head order :=
  ⟨ring.distinct, chain_congr ring.chain sameNext samePrev⟩

section

variable (ring : Ring next prev head (front ++ item :: back))
include ring

theorem ring_around : Chain next prev head front item ∧ prev item = endOf head front ∧
      Chain next prev item back head ∧ (head :: front).Nodup ∧ back.Nodup ∧
      prev item ∈ head :: front ∧ next item ∈ head :: back ∧
      (∀ cell ∈ head :: front, cell ∉ back) ∧ item ∉ head :: front ∧ item ∉ back := by
  have distinct := ring.distinct
  rw [← cons_append, nodup_append] at distinct
  obtain ⟨frontDistinct, rest, apart⟩ := distinct
  obtain ⟨itemBack, backDistinct⟩ := nodup_cons.mp rest
  obtain ⟨before, link, after⟩ := chain_append.mp ring.chain
  have prevMem : prev item ∈ head :: front := by
    rw [link]
    exact end_of_mem head
  have nextMem : next item ∈ head :: back := by
    cases back with
    | nil => exact after ▸ mem_cons_self ..
    | cons cell back => exact after.1 ▸ mem_cons_of_mem head (mem_cons_self ..)
  refine ⟨before, link, after, frontDistinct, backDistinct, prevMem, nextMem, ?_, ?_, itemBack⟩
  · intro cell mem inside
    exact apart cell mem cell (mem_cons_of_mem item inside) rfl
  · intro mem
    exact apart item mem item (mem_cons_self ..) rfl

theorem ring_front (ended : next' (prev item) = target)
    (sameNext : ∀ cell ∈ head :: (front ++ back), cell ≠ prev item → next' cell = next cell)
    (samePrev : ∀ cell ∈ front ++ back, cell ≠ next item → prev' cell = prev cell) :
    Chain next' prev' head front target := by
  obtain ⟨before, link, -, distinct, -, -, nextMem, apart, -⟩ := ring_around ring
  rw [link] at ended sameNext
  apply chain_retarget before distinct ended
  · intro cell mem differ
    apply sameNext cell _ differ
    rcases mem_cons.mp mem with rfl | inFront
    · exact mem_cons_self ..
    · exact mem_cons_of_mem head (mem_append_left back inFront)
  · intro cell mem
    apply samePrev cell (mem_append_left back mem)
    rintro rfl
    rcases mem_cons.mp nextMem with isHead | inBack
    · exact (nodup_cons.mp distinct).1 (isHead ▸ mem)
    · exact apart _ (mem_cons_of_mem head mem) inBack

theorem ring_remove (joined : next' (prev item) = next item)
    (joinedBack : next item ∈ back → prev' (next item) = prev item)
    (sameNext : ∀ cell ∈ head :: (front ++ back), cell ≠ prev item → next' cell = next cell)
    (samePrev : ∀ cell ∈ front ++ back, cell ≠ next item → prev' cell = prev cell) :
    Ring next' prev' head (front ++ back) := by
  obtain ⟨-, link, after, -, backDistinct, prevMem, nextMem, apart, -, itemBack⟩ := ring_around ring
  have distinct : (head :: (front ++ back)).Nodup := by
    refine List.Nodup.sublist ?_ ring.distinct
    exact List.Sublist.cons_cons head (List.Sublist.append_left (sublist_cons_self item back) front)
  have toNext : Chain next' prev' head front (next item) := ring_front ring joined sameNext samePrev
  refine ⟨distinct, ?_⟩
  cases back with
  | nil =>
    have isHead : next item = head := after
    rw [append_nil, ← isHead]
    rwa [isHead] at toNext ⊢
  | cons cell back =>
    obtain ⟨isNext, -, rest⟩ := after
    have notBack := (nodup_cons.mp backDistinct).1
    rw [isNext] at toNext joinedBack samePrev
    rw [chain_append]
    refine ⟨toNext, (joinedBack (mem_cons_self ..)).trans link, chain_congr rest ?_ ?_⟩
    · intro other mem
      apply sameNext other (mem_cons_of_mem head (mem_append_right front mem))
      rintro rfl
      exact apart _ prevMem mem
    · intro other mem
      apply samePrev other (mem_append_right front (mem_cons_of_mem cell mem))
      exact ne_of_mem_of_not_mem mem notBack

end

theorem ring_push (ring : Ring next prev head order) (fresh : item ∉ head :: order)
    (pushed : next' head = item) (pushedBack : prev' item = head) (joined : next' item = next head)
    (joinedBack : next head ∈ order → prev' (next head) = item)
    (sameNext : ∀ cell ∈ order, next' cell = next cell)
    (samePrev : ∀ cell ∈ order, cell ≠ next head → prev' cell = prev cell) :
    Ring next' prev' head (item :: order) := by
  obtain ⟨notHead, distinct⟩ := nodup_cons.mp ring.distinct
  obtain ⟨itemHead, itemOrder⟩ := not_or.mp (mt mem_cons.mpr fresh)
  refine ⟨?_, pushed, pushedBack, ?_⟩
  · refine nodup_cons.mpr ⟨?_, nodup_cons.mpr ⟨itemOrder, distinct⟩⟩
    rw [mem_cons, not_or]
    exact ⟨Ne.symm itemHead, notHead⟩
  · exact chain_restart ring.chain distinct joined joinedBack sameNext samePrev

theorem ring_replace {new : Cell} (ring : Ring next prev head (front ++ item :: back))
    (fresh : new ∉ head :: (front ++ item :: back)) (placed : next' (prev item) = new)
    (placedBack : prev' new = prev item) (joined : next' new = next item)
    (joinedBack : next item ∈ back → prev' (next item) = new)
    (sameNext : ∀ cell ∈ head :: (front ++ back), cell ≠ prev item → next' cell = next cell)
    (samePrev : ∀ cell ∈ front ++ back, cell ≠ next item → prev' cell = prev cell) :
    Ring next' prev' head (front ++ new :: back) := by
  obtain ⟨-, link, after, frontDistinct, backDistinct, prevMem, nextMem, apart, -, -⟩ := ring_around ring
  have freshFront : new ∉ head :: front := by
    intro inside
    apply fresh
    rcases mem_cons.mp inside with rfl | inFront
    · exact mem_cons_self ..
    · exact mem_cons_of_mem head (mem_append_left _ inFront)
  have freshBack : new ∉ back := fun inside =>
    fresh (mem_cons_of_mem head (mem_append_right front (mem_cons_of_mem item inside)))
  refine ⟨?_, ?_⟩
  · rw [← cons_append, nodup_append]
    refine ⟨frontDistinct, nodup_cons.mpr ⟨freshBack, backDistinct⟩, ?_⟩
    intro first inFront second inBack same
    subst same
    rcases mem_cons.mp inBack with rfl | later
    · exact freshFront inFront
    · exact apart first inFront later
  · rw [chain_append]
    refine ⟨ring_front ring placed sameNext samePrev, placedBack.trans link,
      chain_restart after backDistinct joined joinedBack ?_ ?_⟩
    · intro cell mem
      apply sameNext cell (mem_cons_of_mem head (mem_append_right front mem))
      rintro rfl
      exact apart _ prevMem mem
    · intro cell mem differ
      exact samePrev cell (mem_append_right front mem) differ

end Ring

end ServerCore.CircularList
