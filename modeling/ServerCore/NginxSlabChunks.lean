import ServerCore.NginxSlabBlocks

/-!
# Pages with chunks

The three kinds of pages keep their bits in different places; what an operation
does to the bits is stated once through `taken`, and what it does to the lists
once for all kinds.
-/

namespace ServerCore.NginxSlabChunks

open CircularList NginxSlab NginxSlabLayout NginxSlabPages NginxSlabBlocks List Function

/-- The changes that an operation on one page of a slot may make elsewhere: to
the links of the slot's list. -/
structure OnPage (pool after : Pool) (layout : Layout) (page shift : Nat) : Prop where
  start : after.start = pool.start
  last : after.last = pool.last
  slab : ∀ other, other ≠ page → (after.cells (.page other)).slab = (pool.cells (.page other)).slab
  type : ∀ other, other ≠ page → (after.cells (.page other)).type = (pool.cells (.page other)).type
  map : ∀ other, other ≠ page → SameMap pool after other
  unlisted : ∀ other, other ≠ page → other ∉ layout.slotOrder shift →
    after.cells (.page other) = pool.cells (.page other)
  freeHead : after.cells .free = pool.cells .free
  heads : ∀ slot, slot ≠ shift - minShift → after.cells (.slot slot) = pool.cells (.slot slot)

section Change

variable {pool after : Pool} {layout : Layout} {page shift hole held : Nat} {old : Kind}
variable {order : List Nat}

theorem paint_one_here (span : Nat → Span) (new : Kind) (page : Nat) :
    paint span ⟨new, page, 1⟩ page = ⟨new, page, 1⟩ := paint_inside ⟨le_rfl, Nat.lt_succ_self page⟩

theorem paint_one_beside (span : Nat → Span) (new : Kind) {other : Nat} (differ : other ≠ page) :
    paint span ⟨new, page, 1⟩ other = span other := by
  apply paint_outside
  unfold Span.covers
  dsimp only
  omega

section

variable (sound : Sound pool layout 0 0) (low : minShift ≤ shift) (high : shift < pagesizeShift)
  (own : layout.span page = ⟨old, page, 1⟩) (isOld : old = .block ∨ old = .slots shift)
  (onPage : OnPage pool after layout page shift)

include own isOld in
theorem old_not_free : (layout.span page).kind ≠ .free := by
  rw [own]
  rcases isOld with rfl | rfl <;> nofun

include own isOld in
theorem old_not_other {kind : Nat} (differ : kind ≠ shift) : (layout.span page).kind ≠ .slots kind := by
  intro isOther
  rw [own] at isOther
  rcases isOld with rfl | rfl
  · cases isOther
  · injection isOther with same
    exact differ same.symm

include sound low high in
theorem kind_in_slot {other : Nat} (mem : other ∈ layout.slotOrder shift) :
    (layout.span other).kind = .slots shift :=
  ((sound.slotMem shift low high other).mp mem).2.1

include sound low high own isOld onPage

theorem change_free_same {other : Nat} (mem : other ∈ layout.freeOrder) :
    after.cells (.page other) = pool.cells (.page other) := by
  have isFree := ((sound.freeMem other).mp mem).2.1
  apply onPage.unlisted
  · rintro rfl
    exact old_not_free own isOld isFree
  · intro inside
    nomatch isFree.symm.trans (kind_in_slot sound low high inside)

theorem change_slot_same {kind other : Nat} (differ : kind ≠ shift)
    (isSlots : (layout.span other).kind = .slots kind) :
    after.cells (.page other) = pool.cells (.page other) := by
  apply onPage.unlisted
  · rintro rfl
    exact old_not_other own isOld differ isSlots
  · intro inside
    have both := isSlots.symm.trans (kind_in_slot sound low high inside)
    injection both with same
    exact differ same

theorem change_described {other : Nat} (below : other < pool.last) (differ : other ≠ page) :
    Described after other (layout.span other) := by
  refine described_congr pool after onPage.start onPage.last (onPage.map other differ)
    (onPage.slab other differ) (onPage.type other differ) ?_
    (sound.described other below (by unfold Within; omega))
  unfold FreeLinks
  split
  · rename_i isFree
    intro _
    apply onPage.unlisted other differ
    intro inside
    nomatch isFree.symm.trans (kind_in_slot sound low high inside)
  · rename_i isBlock
    apply onPage.unlisted other differ
    intro inside
    nomatch isBlock.symm.trans (kind_in_slot sound low high inside)
  · rename_i kind isSlots
    intro full
    by_cases same : kind = shift
    · subst same
      apply onPage.unlisted other differ
      intro inside
      exact ((sound.slotMem kind low high other).mp inside).2.2 full
    · exact change_slot_same sound low high own isOld onPage same isSlots

theorem change_free_ring : Ring (nextOf after) (prevOf after) .free (layout.freeOrder.map .page) := by
  apply ring_congr sound.freeRing
  · intro ref mem
    rcases mem_cons.mp mem with rfl | inOrder
    · exact congrArg Page.next onPage.freeHead
    · obtain ⟨other, inFree, rfl⟩ := mem_map.mp inOrder
      exact congrArg Page.next (change_free_same sound low high own isOld onPage inFree)
  · intro ref mem
    obtain ⟨other, inFree, rfl⟩ := mem_map.mp mem
    exact congrArg Page.prev (change_free_same sound low high own isOld onPage inFree)

theorem change_slot_ring {kind : Nat} (differ : kind ≠ shift) (kindLow : minShift ≤ kind)
    (kindHigh : kind < pagesizeShift) :
    Ring (nextOf after) (prevOf after) (.slot (kind - minShift)) ((layout.slotOrder kind).map .page) := by
  have unchanged : ∀ ref ∈ (layout.slotOrder kind).map Ref.page, after.cells ref = pool.cells ref := by
    intro ref mem
    obtain ⟨other, inside, rfl⟩ := mem_map.mp mem
    exact change_slot_same sound low high own isOld onPage differ
      ((sound.slotMem kind kindLow kindHigh other).mp inside).2.1
  apply ring_congr (sound.slotRing kind kindLow kindHigh)
  · intro ref mem
    rcases mem_cons.mp mem with rfl | inOrder
    · exact congrArg Page.next (onPage.heads _ (by omega))
    · exact congrArg Page.next (unchanged ref inOrder)
  · exact fun ref mem => congrArg Page.prev (unchanged ref mem)

end

theorem slot_change {new : Kind} (sound : Sound pool layout 0 0) (low : minShift ≤ shift)
    (high : shift < pagesizeShift) (below : page < pool.last) (own : layout.span page = ⟨old, page, 1⟩)
    (isOld : old = .block ∨ old = .slots shift) (onPage : OnPage pool after layout page shift)
    (ring : Ring (nextOf after) (prevOf after) (.slot (shift - minShift)) (order.map .page))
    (listed : ∀ other, other ≠ page → (other ∈ order ↔ other ∈ layout.slotOrder shift))
    (here : page ∈ order ↔ new = .slots shift ∧ ¬Full after page shift)
    (state : (new = .slots shift ∧ Described after page ⟨.slots shift, page, 1⟩ ∧ hole = 0 ∧ held = 0) ∨
      (new = .block ∧ hole = page ∧ held = 1)) (pfree : after.pfree = pool.pfree + held) :
    Sound after ⟨paint layout.span ⟨new, page, 1⟩, layout.freeOrder,
      update layout.slotOrder shift order⟩ hole held := by
  have last := onPage.last
  have painted := paint_one_here layout.span new page
  have kept := fun other => @paint_one_beside page layout.span new other
  have newKind : new = .slots shift ∨ new = .block := state.imp And.left And.left
  have oldNotFree := old_not_free own isOld
  have freeRing := change_free_ring sound low high own isOld onPage
  refine ⟨by rw [last]; exact sound.size, ?_, ?_, ?_, ?_, ?_, freeRing, ?_, ?_, ?_, ?_⟩
  · rw [last]
    apply tiled_paint sound.tiled
    · exact below
    · intro other inside
      rw [show other = page by unfold Span.covers at inside; dsimp only at inside; omega, own]
      exact ⟨le_rfl, le_rfl⟩
  · rw [last]
    apply merged_paint sound.merged
    rcases newKind with rfl | rfl <;> nofun
  · intro other inside
    rcases state with ⟨-, -, rfl, rfl⟩ | ⟨rfl, rfl, rfl⟩
    · unfold Within at inside
      omega
    · have isPage : other = hole := by
        unfold Within at inside
        omega
      rw [isPage, last]
      exact ⟨below, painted⟩
  · intro other belowOther kind isSlots
    rw [last] at belowOther
    dsimp only at isSlots ⊢
    by_cases isPage : other = page
    · rw [isPage, painted]
    · rw [kept other isPage] at isSlots ⊢
      exact sound.single other belowOther kind isSlots
  · intro other belowOther outside
    rw [last] at belowOther
    dsimp only
    by_cases isPage : other = page
    · rcases state with ⟨rfl, described, -⟩ | ⟨-, rfl, rfl⟩
      · rw [isPage, painted]
        exact described
      · exact absurd ⟨by omega, by omega⟩ outside
    · rw [kept other isPage]
      exact change_described sound low high own isOld onPage belowOther isPage
  · intro other
    dsimp only
    rw [sound.freeMem other, last]
    by_cases isPage : other = page
    · rw [isPage, painted]
      constructor
      · exact fun before => absurd before.2.1 oldNotFree
      · rintro ⟨-, isFree, -⟩
        rcases newKind with rfl | rfl <;> cases isFree
    · rw [kept other isPage]
  · intro kind kindLow kindHigh
    dsimp only
    by_cases same : kind = shift
    · subst same
      rw [update_self]
      exact ring
    · rw [update_of_ne same]
      exact change_slot_ring sound low high own isOld onPage same kindLow kindHigh
  · intro kind kindLow kindHigh other
    dsimp only
    rw [last]
    by_cases same : kind = shift
    · subst same
      rw [update_self]
      by_cases isPage : other = page
      · rw [isPage, painted, here]
        simp [below]
      · rw [listed other isPage, kept other isPage, sound.slotMem kind low high,
          full_congr pool after low onPage.start (onPage.map other isPage) (onPage.slab other isPage)]
    · rw [update_of_ne same, sound.slotMem kind kindLow kindHigh]
      by_cases isPage : other = page
      · rw [isPage, painted]
        constructor
        · exact fun before => absurd before.2.1 (old_not_other own isOld same)
        · rintro ⟨-, isSlots, -⟩
          rcases newKind with rfl | rfl
          · injection isSlots with both
            exact absurd both.symm same
          · cases isSlots
      · rw [kept other isPage,
          full_congr pool after kindLow onPage.start (onPage.map other isPage) (onPage.slab other isPage)]
  · have change := count_change layout.span (paint layout.span ⟨new, page, 1⟩) .free false false
      (show page + 1 ≤ pool.last by omega) (fun other lower upper => by
        rw [show other = page by omega, painted]
        constructor
        · exact decide_eq_false oldNotFree
        · rcases newKind with rfl | rfl <;> rfl) (fun other _ outside => by
        rw [kept other (by omega)])
    have total := sound.pfree
    simp only [Bool.false_eq_true, if_false, add_zero] at change total
    rw [pfree, last, change, total]

end Change

/-- A pool that differs in the bits of one page, and in nothing else that
counts for the layout. -/
structure Refits (pool after : Pool) (page : Nat) : Prop where
  start : after.start = pool.start
  last : after.last = pool.last
  pfree : after.pfree = pool.pfree
  cells : Resized pool.cells after.cells page
  map : ∀ other, other ≠ page → SameMap pool after other

section Slots

variable {pool after : Pool} {layout : Layout} {page shift : Nat}

theorem slot_span {hole held : Nat} (sound : Sound pool layout hole held) (below : page < pool.last)
    (isSlots : (layout.span page).kind = .slots shift) : layout.span page = ⟨.slots shift, page, 1⟩ := by
  have covered := (sound.tiled page below).1
  have single := sound.single page below shift isSlots
  obtain ⟨⟨kind, head, count⟩, isSpan⟩ : ∃ found, layout.span page = found := ⟨_, rfl⟩
  rw [isSpan] at covered single isSlots ⊢
  unfold Span.covers at covered
  dsimp only at covered single isSlots
  rw [isSlots, single, show head = page by omega]

theorem paint_slot (isSpan : layout.span page = ⟨.slots shift, page, 1⟩) :
    paint layout.span ⟨.slots shift, page, 1⟩ = layout.span := by
  funext other
  unfold paint
  dsimp only
  split_ifs with inside
  · rw [show other = page by omega, isSpan]
  · rfl

theorem slot_nodup (sound : Sound pool layout 0 0) (low : minShift ≤ shift)
    (high : shift < pagesizeShift) : (layout.slotOrder shift).Nodup :=
  List.Nodup.of_map _ (nodup_cons.mp (sound.slotRing shift low high).distinct).2

theorem page_ne {other : Nat} (differ : other ≠ page) : Ref.page other ≠ .page page := by
  simpa using differ

section

variable (sound : Sound pool layout 0 0) (low : minShift ≤ shift) (high : shift < pagesizeShift)
include sound low high

section

variable (listed : page ∈ layout.slotOrder shift) (refits : Refits pool after page)
  (formatted : Formatted after page shift)
include listed refits formatted

theorem refit_sound (notFull : ¬Full after page shift) : ∃ layout', layout'.span = layout.span ∧
    Sound after layout' 0 0 ∧
      page ∈ layout'.slotOrder shift := by
  obtain ⟨below, isSlots, -⟩ := slot_page sound low high listed
  have own := slot_span sound below isSlots
  obtain ⟨sameNext, samePrev, sameType⟩ := resized_same pool refits.cells
  have ring : Ring (nextOf after) (prevOf after) (.slot (shift - minShift))
      ((layout.slotOrder shift).map .page) := by
    rw [show nextOf after = nextOf pool from sameNext, show prevOf after = prevOf pool from samePrev]
    exact sound.slotRing shift low high
  have onPage : OnPage pool after layout page shift := by
    refine ⟨refits.start, refits.last, ?_, fun other _ => sameType _, refits.map, ?_, ?_, ?_⟩
    · exact fun other differ => congrArg Page.slab (refits.cells.other _ (page_ne differ))
    · exact fun other differ _ => refits.cells.other _ (page_ne differ)
    · exact refits.cells.other _ nofun
    · exact fun slot _ => refits.cells.other _ nofun
  refine ⟨_, paint_slot own, slot_change sound low high below own (.inr rfl) onPage
    ring (fun _ _ => Iff.rfl) (by simp [listed, notFull])
    (.inl ⟨rfl, ⟨formatted, fun full => absurd full notFull⟩, rfl, rfl⟩) refits.pfree, ?_⟩
  dsimp only
  rw [update_self]
  exact listed

theorem detach_sound (full : Full after page shift) :
    ∃ cells layout', after.detach (.page page) (typeOf shift) = some (withCells after cells) ∧
      layout'.span = layout.span ∧ Sound (withCells after cells) layout' 0 0 ∧
      ∀ ref, (cells ref).slab = (after.cells ref).slab := by
  obtain ⟨below, isSlots, -⟩ := slot_page sound low high listed
  have own := slot_span sound below isSlots
  obtain ⟨sameNext, samePrev, sameType⟩ := resized_same pool refits.cells
  obtain ⟨front, back, order⟩ := append_of_mem listed
  have ring := sound.slotRing shift low high
  have valid := slot_valid sound low high
  have uniform := slot_types sound low high
  rw [order, map_append, map_cons] at ring valid uniform
  have fresh : page ∉ front ++ back := by
    have distinct := slot_nodup sound low high
    rw [order] at distinct
    exact (nodup_cons.mp (nodup_middle.mp distinct)).1
  have validAfter : ∀ ref, after.valid ref = pool.valid ref := by
    intro ref
    cases ref with
    | page index => exact congrArg (fun last => decide (index < last)) refits.last
    | _ => rfl
  have afterRing : Ring (nextOf after) (prevOf after) (.slot (shift - minShift))
      (front.map .page ++ .page page :: back.map .page) := by
    rw [show nextOf after = nextOf pool from sameNext, show prevOf after = prevOf pool from samePrev]
    exact ring
  obtain ⟨c1, unlinked, newRing, relinks⟩ := unlink_spec afterRing
    (fun ref mem => (validAfter ref).trans (valid ref mem))
    (fun ref mem => (sameType ref).trans (uniform ref mem))
  rw [← map_append] at newRing relinks
  have pageValid : after.valid (.page page) = true := (validAfter _).trans (valid_page below)
  obtain ⟨c2, stored, here, beside⟩ := store_spec c1
    (fun page => { page with next := .null, prev := .null, type := typeOf shift }) pageValid
  have slabs : ∀ ref, (c2 ref).slab = (after.cells ref).slab := by
    intro ref
    by_cases isPage : ref = .page page
    · rw [isPage, here]
      exact relinks.slab _
    · rw [beside ref isPage]
      exact relinks.slab _
  have unchanged : ∀ ref, ref ≠ .page page → ref ∉ Ref.slot (shift - minShift) :: (front ++ back).map .page →
      c2 ref = pool.cells ref := by
    intro ref notPage outside
    rw [beside ref notPage, relinks.other ref outside, refits.cells.other ref notPage]
  have typeSame : ∀ other, other ≠ page → (c2 (.page other)).type = (pool.cells (.page other)).type := by
    intro other differ
    by_cases mem : other ∈ front ++ back
    · rw [beside _ (page_ne differ), relinks.type _ (mem_map_of_mem mem), sameType]
    · rw [unchanged _ (page_ne differ) (by simpa using mem)]
  have onPage : OnPage pool (withCells after c2) layout page shift := by
    refine ⟨refits.start, refits.last, ?_, typeSame, refits.map, ?_, ?_, ?_⟩
    · intro other differ
      exact (slabs _).trans (congrArg Page.slab (refits.cells.other _ (page_ne differ)))
    · intro other differ notListed
      apply unchanged _ (page_ne differ)
      rw [order] at notListed
      simp only [mem_append, mem_cons, not_or] at notListed
      simp [notListed]
    · exact unchanged _ Ref.noConfusion (by simp)
    · exact fun slot differ => unchanged _ Ref.noConfusion (by simp [differ])
  have fullNow : Full (withCells after c2) page shift :=
    (full_congr after (withCells after c2) low rfl (fun _ _ => rfl) (slabs _)).mpr full
  have described : Described (withCells after c2) page ⟨.slots shift, page, 1⟩ := by
    refine ⟨formatted_congr after (withCells after c2) rfl (fun _ _ => rfl) (slabs _) ?_ formatted,
      fun _ => ?_⟩
    · change (c2 (.page page)).type = _
      rw [here, formatted.type]
    · change (c2 (.page page)).next = _
      rw [here]
  have finalRing : Ring (nextOf (withCells after c2)) (prevOf (withCells after c2))
      (.slot (shift - minShift)) ((front ++ back).map .page) := by
    have away : ∀ ref ∈ Ref.slot (shift - minShift) :: (front ++ back).map .page, ref ≠ .page page := by
      intro ref mem isPage
      rw [isPage] at mem
      simp at mem fresh
      tauto
    apply ring_congr newRing
    · exact fun ref mem => congrArg Page.next (beside ref (away ref mem))
    · exact fun ref mem => congrArg Page.prev (beside ref (away ref (mem_cons_of_mem _ mem)))
  refine ⟨c2, _, ?_, paint_slot own, slot_change sound low high below own (.inr rfl)
    onPage finalRing ?_ ?_ (.inl ⟨rfl, described, rfl, rfl⟩) refits.pfree, slabs⟩
  · exact bind_some_of (load_valid after.cells pageValid) (bind_some_of unlinked stored)
  · intro other differ
    rw [order]
    simp only [mem_append, mem_cons]
    tauto
  · simp [fresh, fullNow]

end

theorem attach_sound (below : page < pool.last)
    (isSlots : (layout.span page).kind = .slots shift) (full : Full pool page shift) :
    ∃ cells, pool.attach (shift - minShift) (.page page) (typeOf shift) = some (withCells pool cells) ∧
      (∀ ref, (cells ref).slab = (pool.cells ref).slab) ∧
      (cells (.page page)).type = (pool.cells (.page page)).type ∧
      ∀ after, Refits (withCells pool cells) after page → Formatted after page shift →
        ¬Full after page shift → ∃ layout', layout'.span = layout.span ∧ Sound after layout' 0 0 ∧
          page ∈ layout'.slotOrder shift := by
  have own := slot_span sound below isSlots
  have notListed : page ∉ layout.slotOrder shift := fun mem =>
    ((sound.slotMem shift low high page).mp mem).2.2 full
  have pageType : (pool.cells (.page page)).type = typeOf shift := by
    have described := sound.described page below (by unfold Within; omega)
    rw [own] at described
    exact described.1.type
  obtain ⟨c1, attached, ring, pushes⟩ := attach_spec (sound.slotRing shift low high)
    (show Ref.page page ∉ (layout.slotOrder shift).map .page by simpa using notListed)
    (show shift - minShift < slotCount by unfold minShift slotCount pagesizeShift at *; omega) below
    (fun ref mem => slot_valid sound low high ref (mem_cons_of_mem _ mem))
    (slot_types sound low high)
  have newType := pushes.type (.page page) (mem_cons_self ..)
  refine ⟨c1, attached, pushes.slab, newType.trans pageType.symm, ?_⟩
  intro after refits formatted notFull
  obtain ⟨sameNext, samePrev, sameType⟩ := resized_same (withCells pool c1) refits.cells
  have afterRing : Ring (nextOf after) (prevOf after) (.slot (shift - minShift))
      ((page :: layout.slotOrder shift).map .page) := by
    rw [show nextOf after = nextOf (withCells pool c1) from sameNext,
      show prevOf after = prevOf (withCells pool c1) from samePrev]
    exact ring
  have typeSame : ∀ other, other ≠ page →
      (after.cells (.page other)).type = (pool.cells (.page other)).type := by
    intro other differ
    rw [sameType]
    by_cases mem : other ∈ layout.slotOrder shift
    · exact (pushes.type _ (mem_cons_of_mem _ (mem_map_of_mem mem))).trans
        (slot_types sound low high _ (mem_map_of_mem mem)).symm
    · exact congrArg Page.type (pushes.other _ (by simp [differ, mem]))
  have onPage : OnPage pool after layout page shift := by
    refine ⟨refits.start, refits.last, ?_, typeSame, refits.map, ?_, ?_, ?_⟩
    · intro other differ
      rw [refits.cells.other _ (page_ne differ)]
      exact pushes.slab _
    · intro other differ absent
      rw [refits.cells.other _ (page_ne differ)]
      exact pushes.other _ (by simp [differ, absent])
    · rw [refits.cells.other _ Ref.noConfusion]
      exact pushes.other _ (by simp)
    · intro slot differ
      rw [refits.cells.other _ Ref.noConfusion]
      exact pushes.other _ (by simp [differ])
  refine ⟨_, paint_slot own, slot_change sound low high below own (.inr rfl) onPage
    afterRing ?_ (by simp [notFull]) (.inl ⟨rfl, ⟨formatted, fun isFull => absurd isFull notFull⟩, rfl,
      rfl⟩) refits.pfree, ?_⟩
  · intro other differ
    simp [differ]
  · dsimp only
    rw [update_self]
    exact mem_cons_self ..

theorem enlist_sound (below : page < pool.last) (own : layout.span page = ⟨.block, page, 1⟩)
    (empty : layout.slotOrder shift = []) (refits : Refits pool after page)
    (same : after.cells = pool.cells) (slab : Word) (chunks : Nat) :
    ∃ cells, after.enlist (shift - minShift) page slab (typeOf shift) chunks =
        some ((withCells after cells).setStat (shift - minShift) fun stat =>
          { stat with total := stat.total + chunks, used := stat.used + 1 }) ∧
      (cells (.page page)).slab = slab ∧ (cells (.page page)).type = typeOf shift ∧
      (∀ other, other ≠ page → (cells (.page other)).slab = (pool.cells (.page other)).slab) ∧
      ∀ final, final.start = after.start → final.last = after.last → final.pfree = after.pfree →
        final.memory = after.memory → final.cells = cells → Formatted final page shift →
        ¬Full final page shift →
        ∃ layout', layout'.span = paint layout.span ⟨.slots shift, page, 1⟩ ∧
          Sound final layout' 0 0 := by
  have slotValid : after.valid (.slot (shift - minShift)) = true :=
    decide_eq_true (show shift - minShift < slotCount by
      unfold minShift slotCount pagesizeShift at *; omega)
  have pageValid : after.valid (.page page) = true :=
    valid_page (show page < after.last by rw [refits.last]; exact below)
  obtain ⟨c1, stored1, at1, beside1⟩ := store_spec after.cells (fun _ =>
    ⟨slab, .slot (shift - minShift), .slot (shift - minShift), typeOf shift⟩) pageValid
  obtain ⟨c2, stored2, at2, beside2⟩ := store_spec c1 (Page.setNext (.page page)) slotValid
  have pageCell : c2 (.page page) =
      ⟨slab, .slot (shift - minShift), .slot (shift - minShift), typeOf shift⟩ := by
    rw [beside2 _ Ref.noConfusion, at1]
  have others : ∀ ref, ref ≠ .page page → ref ≠ .slot (shift - minShift) → c2 ref = pool.cells ref := by
    intro ref notPage notSlot
    rw [beside2 ref notSlot, beside1 ref notPage, same]
  refine ⟨c2, bind_some_of stored1 (bind_some_of stored2 rfl), by rw [pageCell], by rw [pageCell], ?_, ?_⟩
  · intro other differ
    rw [others _ (page_ne differ) Ref.noConfusion]
  · intro final start last pfree memory cells formatted notFull
    have ring : Ring (nextOf final) (prevOf final) (.slot (shift - minShift)) ([page].map .page) := by
      refine ⟨by simp, ?_, ?_, ?_⟩
      · change (final.cells (.slot (shift - minShift))).next = .page page
        rw [cells, at2, Page.setNext]
      · change (final.cells (.page page)).prev = .slot (shift - minShift)
        rw [cells, pageCell]
      · change (final.cells (.page page)).next = .slot (shift - minShift)
        rw [cells, pageCell]
    have onPage : OnPage pool final layout page shift := by
      refine ⟨start.trans refits.start, last.trans refits.last, ?_, ?_, ?_, ?_, ?_, ?_⟩
      · intro other differ
        rw [cells, others _ (page_ne differ) Ref.noConfusion]
      · intro other differ
        rw [cells, others _ (page_ne differ) Ref.noConfusion]
      · intro other differ word small
        rw [memory]
        exact refits.map other differ word small
      · intro other differ _
        rw [cells, others _ (page_ne differ) Ref.noConfusion]
      · rw [cells, others _ Ref.noConfusion Ref.noConfusion]
      · intro slot differ
        rw [cells, others _ Ref.noConfusion (by simpa using differ)]
    refine ⟨_, rfl, slot_change sound low high below own (.inl rfl) onPage ring ?_
      (by simp [notFull]) (.inl ⟨rfl, ⟨formatted, fun isFull => absurd isFull notFull⟩, rfl, rfl⟩)
      (pfree.trans refits.pfree)⟩
    intro other differ
    simp [differ, empty]

theorem free_slot_spec (listed : page ∈ layout.slotOrder shift) :
    ∃ after layout', pool.ngxSlabFreePages page 1 = some after ∧ Sound after layout' 0 0 ∧
      Moves pool after layout layout' page 1 ∧ (layout'.span page).kind = .free := by
  obtain ⟨below, isSlots, -⟩ := slot_page sound low high listed
  have own := slot_span sound below isSlots
  obtain ⟨pool0, isPool0⟩ : ∃ pool0, pool0 = { pool with pfree := pool.pfree + 1 } := ⟨_, rfl⟩
  have cells0 : pool0.cells = pool.cells := by rw [isPool0]
  have last0 : pool0.last = pool.last := by rw [isPool0]
  have valid0 : ∀ ref, pool0.valid ref = pool.valid ref := by
    rw [isPool0]
    exact fun ref => rfl
  have pageValid : pool0.valid (.page page) = true := (valid0 _).trans (valid_page below)
  obtain ⟨c1, stored, here, beside⟩ :=
    store_spec pool0.cells (Page.setSlab (BitVec.ofNat 64 1)) pageValid
  have resized : Resized pool.cells c1 page := by
    rw [cells0] at here beside
    refine ⟨beside, ?_, ?_, ?_⟩ <;> rw [here, Page.setSlab]
  obtain ⟨sameNext, samePrev, sameType⟩ := resized_same pool0 resized
  obtain ⟨front, back, order⟩ := append_of_mem listed
  have fresh : page ∉ front ++ back := by
    have distinct := slot_nodup sound low high
    rw [order] at distinct
    exact (nodup_cons.mp (nodup_middle.mp distinct)).1
  have ring := sound.slotRing shift low high
  have valid := slot_valid sound low high
  have uniform := slot_types sound low high
  have nextMem := ring_next_mem ring
    (mem_cons_of_mem _ (mem_map_of_mem listed) : Ref.page page ∈ _)
  rw [order, map_append, map_cons] at ring valid uniform
  have oldRing : Ring (nextOf (withCells pool0 c1)) (prevOf (withCells pool0 c1))
      (.slot (shift - minShift)) (front.map .page ++ .page page :: back.map .page) := by
    rw [sameNext, samePrev]
    exact ring
  obtain ⟨c2, unlinked, newRing, relinks⟩ := unlink_spec oldRing
    (fun ref mem => (valid0 ref).trans (valid ref mem))
    (fun ref mem => (sameType ref).trans (uniform ref mem))
  rw [← map_append] at newRing relinks
  have notNull : (c1 (.page page)).next ≠ .null := by
    rw [resized.next]
    intro isNull
    rw [show nextOf pool (.page page) = .null from isNull] at nextMem
    simp at nextMem
  have unchanged : ∀ ref, ref ≠ .page page → ref ∉ Ref.slot (shift - minShift) :: (front ++ back).map .page →
      c2 ref = pool.cells ref := by
    intro ref notPage outside
    exact (relinks.other ref outside).trans (resized.other ref notPage)
  have slabSame : ∀ other, other ≠ page → (c2 (.page other)).slab = (pool.cells (.page other)).slab := by
    intro other differ
    rw [relinks.slab]
    exact congrArg Page.slab (resized.other _ (page_ne differ))
  have onPage : OnPage pool (withCells pool0 c2) layout page shift := by
    refine ⟨by rw [isPool0], last0, slabSame, ?_, ?_, ?_, ?_, ?_⟩
    · intro other differ
      by_cases mem : other ∈ front ++ back
      · exact (relinks.type _ (mem_map_of_mem mem)).trans (sameType _)
      · exact congrArg Page.type (unchanged _ (page_ne differ) (by simpa using mem))
    · intro other _ word _
      rw [isPool0]
    · intro other differ notListed
      apply unchanged _ (page_ne differ)
      rw [order] at notListed
      simp only [mem_append, mem_cons, not_or] at notListed
      simp [notListed]
    · exact unchanged _ Ref.noConfusion (by simp)
    · exact fun slot differ => unchanged _ Ref.noConfusion (by simp [differ])
  have opened := slot_change sound low high below own (.inr rfl) onPage newRing
    (fun other differ => by rw [order]; simp only [mem_append, mem_cons]; tauto)
    (by simp [fresh]) (.inr ⟨rfl, rfl, rfl⟩) (show pool0.pfree = pool.pfree + 1 by rw [isPool0])
  have pageSlab : (c2 (.page page)).slab = BitVec.ofNat 64 1 := by
    rw [relinks.slab]
    change (c1 (.page page)).slab = _
    rw [here, Page.setSlab]
  have pending : Pending (withCells pool0 c2) ⟨paint layout.span ⟨.block, page, 1⟩, layout.freeOrder,
      update layout.slotOrder shift (front ++ back)⟩ page 1 := by
    refine ⟨opened, by decide, pageSlab, ?_⟩
    intro other inside differ
    unfold Within at inside
    omega
  obtain ⟨after, layout', released, newSound, moves, free⟩ := release_spec pending
  have kept : ∀ other, ¬Within page 1 other →
      paint layout.span ⟨.block, page, 1⟩ other = layout.span other :=
    fun other outside => paint_outside outside
  have apart : ∀ other, ¬Within page 1 other → other ≠ page := by
    rintro other outside rfl
    exact outside ⟨le_rfl, by omega⟩
  refine ⟨after, layout', ?_, newSound, ⟨?_, ?_, ?_, ?_⟩, free page ⟨le_rfl, by omega⟩⟩
  · rw [Pool.ngxSlabFreePages, ← isPool0]
    exact bind_some_of stored (bind_some_of rfl (bind_some_of (load_valid c1 pageValid) (bind_some_of
      ((if_pos notNull).trans unlinked) released)))
  · rw [isPool0] at moves
    exact ⟨moves.base.start, moves.base.finish, moves.base.last, moves.base.memory, moves.base.stats,
      moves.base.log⟩
  · intro other belowOther outside notFree
    have same := moves.kept other (by rw [← last0] at belowOther; exact belowOther) outside
    dsimp only at same
    rw [kept other outside] at same
    exact same notFree
  · intro other belowOther outside isFree
    have same := moves.free other (by rw [← last0] at belowOther; exact belowOther) outside
    dsimp only at same
    rw [kept other outside] at same
    exact same isFree
  · intro other belowOther kind outside isKind
    have same := moves.slab other (by rw [← last0] at belowOther; exact belowOther) kind outside
    dsimp only at same
    rw [kept other outside] at same
    exact (same isKind).trans (slabSame other (apart other outside))

end

end Slots

end ServerCore.NginxSlabChunks
