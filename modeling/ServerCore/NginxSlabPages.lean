import ServerCore.NginxSlabLayout

/-!
# Allocation and release of whole pages

`ngx_slab_alloc_pages` cuts a block off the first run that is long enough, and
`ngx_slab_free_pages` gives a block back and joins it with the runs on both
sides.
-/

namespace ServerCore.NginxSlabPages

open CircularList NginxSlab NginxSlabLayout List Function

set_option autoImplicit false

variable {page pages count head : Nat}

abbrev withCells (pool : Pool) (cells : Ref → Page) : Pool := { pool with cells := cells }

variable {pool : Pool} {ref : Ref} {old new : Ref → Page} {page : Nat}

theorem load_valid (old : Ref → Page) (valid : pool.valid ref = true) :
    (withCells pool old).load ref = some (old ref) := if_pos valid

theorem store_spec (old : Ref → Page) (change : Page → Page) (valid : pool.valid ref = true) :
    ∃ new, (withCells pool old).store ref change = some (withCells pool new) ∧
      new ref = change (old ref) ∧ ∀ other, other ≠ ref → new other = old other :=
  ⟨_, if_pos valid, update_self _ _ _, fun _ differ => update_of_ne differ _ _⟩

theorem bind_some_of {First Last : Type} {step : Option First} {rest : First → Option Last}
    {result : First} {final : Last} (done : step = some result) (finished : rest result = some final) :
    (step >>= rest) = some final := by
  rw [done]
  exact finished

theorem slab_of_store {change : Page → Page}
    (here : new ref = change (old ref)) (beside : ∀ other, other ≠ ref → new other = old other)
    (keeps : (change (old ref)).slab = (old ref).slab) (other : Ref) :
    (new other).slab = (old other).slab := by
  by_cases same : other = ref
  · rw [same, here, keeps]
  · rw [beside other same]

theorem valid_page (below : page < pool.last) : pool.valid (.page page) = true := decide_eq_true below

/-- A change of links inside one list: only its head and its cells change, and
of the cells neither the word `slab` nor the type. -/
structure Relinks (old new : Ref → Page) (head : Ref) (order : List Ref) : Prop where
  slab : ∀ ref, (new ref).slab = (old ref).slab
  type : ∀ ref ∈ order, (new ref).type = (old ref).type
  other : ∀ ref, ref ∉ head :: order → new ref = old ref

section Links

variable {pool : Pool} {head item : Ref} {front back order : List Ref} {type : PageType}

theorem unlink_spec (ring : Ring (nextOf pool) (prevOf pool) head (front ++ item :: back))
    (valid : ∀ ref ∈ head :: (front ++ item :: back), pool.valid ref = true)
    (uniform : ∀ ref ∈ front ++ item :: back, (pool.cells ref).type = type) :
    ∃ cells, pool.unlink (prevOf pool item) item = some (withCells pool cells) ∧
      Ring (nextOf (withCells pool cells)) (prevOf (withCells pool cells)) head (front ++ back) ∧
      Relinks pool.cells cells head (front ++ back) := by
  obtain ⟨-, -, -, -, -, prevMem, nextMem, apart, itemFront, itemBack⟩ := ring_around ring
  have prevItem : prevOf pool item ≠ item := ne_of_mem_of_not_mem prevMem itemFront
  have itemValid : pool.valid item = true := valid item (by simp)
  have prevValid : pool.valid (prevOf pool item) = true := by
    apply valid
    rcases mem_cons.mp prevMem with isHead | inFront
    · simp [isHead]
    · simp [inFront]
  have nextValid : pool.valid (nextOf pool item) = true := by
    apply valid
    rcases mem_cons.mp nextMem with isHead | inBack
    · simp [isHead]
    · simp [inBack]
  have itemType : (pool.cells item).type = type := uniform item (by simp)
  obtain ⟨first, stored, atPrev, besidePrev⟩ :=
    store_spec pool.cells (Page.setNext (nextOf pool item)) prevValid
  have firstItem : first item = pool.cells item := besidePrev item (Ne.symm prevItem)
  obtain ⟨cells, storedLast, atNext, besideNext⟩ :=
    store_spec first (Page.setPrev (prevOf pool item) (pool.cells item).type) nextValid
  refine ⟨cells, ?_, ?_, ?_, ?_, ?_⟩
  · have itemRead : Page.setPrev (prevOf pool item) (pool.cells item).type =
        Page.setPrev (first item).prev (first item).type := by
      rw [firstItem]
      rfl
    have nextRead : nextOf pool item = (first item).next := by
      rw [firstItem]
      rfl
    rw [itemRead, nextRead] at storedLast
    exact bind_some_of (load_valid pool.cells itemValid)
      (bind_some_of stored (bind_some_of (load_valid first itemValid) storedLast))
  · apply ring_remove ring
    · change (cells (prevOf pool item)).next = nextOf pool item
      by_cases both : prevOf pool item = nextOf pool item
      · rw [both] at atPrev ⊢
        rw [atNext, Page.setPrev, atPrev, Page.setNext]
      · rw [besideNext _ both, atPrev, Page.setNext]
    · intro _
      change (cells (nextOf pool item)).prev = prevOf pool item
      rw [atNext, Page.setPrev]
    · intro ref _ differ
      change (cells ref).next = (pool.cells ref).next
      by_cases isNext : ref = nextOf pool item
      · rw [← besidePrev ref differ, isNext, atNext, Page.setPrev]
      · rw [besideNext ref isNext, besidePrev ref differ]
    · intro ref _ differ
      change (cells ref).prev = (pool.cells ref).prev
      rw [besideNext ref differ]
      by_cases isPrev : ref = prevOf pool item
      · rw [isPrev, atPrev, Page.setNext]
      · rw [besidePrev ref isPrev]
  · intro ref
    have firstSlab : (first ref).slab = (pool.cells ref).slab := by
      by_cases isPrev : ref = prevOf pool item
      · rw [isPrev, atPrev, Page.setNext]
      · rw [besidePrev ref isPrev]
    by_cases isNext : ref = nextOf pool item
    · rw [← firstSlab, isNext, atNext, Page.setPrev]
    · rw [besideNext ref isNext, firstSlab]
  · intro ref mem
    have own : (pool.cells ref).type = type := by
      apply uniform
      rcases mem_append.mp mem with inFront | inBack
      · simp [inFront]
      · simp [inBack]
    by_cases isNext : ref = nextOf pool item
    · rw [own, isNext, atNext, Page.setPrev, itemType]
    · rw [besideNext ref isNext]
      by_cases isPrev : ref = prevOf pool item
      · rw [isPrev, atPrev, Page.setNext]
      · rw [besidePrev ref isPrev]
  · intro ref outside
    have notPrev : ref ≠ prevOf pool item := by
      rintro rfl
      apply outside
      rcases mem_cons.mp prevMem with isHead | inFront
      · simp [isHead]
      · simp [inFront]
    have notNext : ref ≠ nextOf pool item := by
      rintro rfl
      apply outside
      rcases mem_cons.mp nextMem with isHead | inBack
      · simp [isHead]
      · simp [inBack]
    rw [besideNext ref notNext, besidePrev ref notPrev]

structure Pushes (old new : Ref → Page) (head item : Ref) (order : List Ref) (type : PageType) :
    Prop where
  slab : ∀ ref, (new ref).slab = (old ref).slab
  type : ∀ ref ∈ item :: order, (new ref).type = type
  other : ∀ ref, ref ∉ head :: item :: order → new ref = old ref

theorem pushes_of_writes (ring : Ring (nextOf pool) (prevOf pool) head order)
    (fresh : item ∉ head :: order) (uniform : ∀ ref ∈ order, (pool.cells ref).type = type)
    (slab : ∀ ref, (new ref).slab = (pool.cells ref).slab) (headNext : (new head).next = item)
    (atItem : (new item).next = nextOf pool head ∧ (new item).prev = head ∧ (new item).type = type)
    (atFirst : nextOf pool head ∈ order → (new (nextOf pool head)).prev = item ∧
      (new (nextOf pool head)).type = type ∧ (new (nextOf pool head)).next = nextOf pool (nextOf pool head))
    (beside : ∀ ref, ref ≠ head → ref ≠ item → ref ≠ nextOf pool head → new ref = pool.cells ref) :
    Ring (nextOf (withCells pool new)) (prevOf (withCells pool new)) head (item :: order) ∧
      Pushes pool.cells new head item order type := by
  have headOrder := (nodup_cons.mp ring.distinct).1
  obtain ⟨itemHead, itemOrder⟩ := not_or.mp (mt mem_cons.mpr fresh)
  refine ⟨?_, slab, ?_, ?_⟩
  · apply ring_push ring fresh headNext atItem.2.1 atItem.1 (fun first => (atFirst first).1)
    · intro ref mem
      by_cases isFirst : ref = nextOf pool head
      · subst isFirst
        exact (atFirst mem).2.2
      · exact congrArg Page.next (beside ref (ne_of_mem_of_not_mem mem headOrder)
          (ne_of_mem_of_not_mem mem itemOrder) isFirst)
    · intro ref mem differ
      exact congrArg Page.prev (beside ref (ne_of_mem_of_not_mem mem headOrder)
        (ne_of_mem_of_not_mem mem itemOrder) differ)
  · intro ref mem
    rcases mem_cons.mp mem with rfl | inOrder
    · exact atItem.2.2
    · by_cases isFirst : ref = nextOf pool head
      · subst isFirst
        exact (atFirst inOrder).2.1
      · rw [beside ref (ne_of_mem_of_not_mem inOrder headOrder)
          (ne_of_mem_of_not_mem inOrder itemOrder) isFirst, uniform ref inOrder]
  · intro ref outside
    simp only [mem_cons, not_or] at outside
    obtain ⟨notHead, notItem, notOrder⟩ := outside
    apply beside ref notHead notItem
    rintro rfl
    rcases mem_cons.mp (ring_next_mem ring (mem_cons_self ..)) with isHead | inOrder
    · exact notHead isHead
    · exact notOrder inOrder

/-- What stands first in a list, or its head, is a cell the new page can be linked to. -/
theorem first_valid {head : Ref} (ring : Ring (nextOf pool) (prevOf pool) head order)
    (headValid : pool.valid head = true) (headItem : head ≠ .page page)
    (valid : ∀ ref ∈ order, pool.valid ref = true) (fresh : Ref.page page ∉ order) :
    ∃ first, first = nextOf pool head ∧ pool.valid first = true ∧ first ≠ .page page := by
  have firstMem : nextOf pool head ∈ head :: order := ring_next_mem ring (mem_cons_self ..)
  refine ⟨_, rfl, ?_⟩
  rcases mem_cons.mp firstMem with isHead | inOrder
  · rw [isHead]
    exact ⟨headValid, headItem⟩
  · exact ⟨valid _ inOrder, ne_of_mem_of_not_mem inOrder fresh⟩

theorem attach_spec {slot : Nat} (ring : Ring (nextOf pool) (prevOf pool) (.slot slot) order)
    (fresh : Ref.page page ∉ order) (slotValid : slot < slotCount) (pageValid : page < pool.last)
    (valid : ∀ ref ∈ order, pool.valid ref = true) (uniform : ∀ ref ∈ order, (pool.cells ref).type = type) :
    ∃ cells, pool.attach slot (.page page) type = some (withCells pool cells) ∧
      Ring (nextOf (withCells pool cells)) (prevOf (withCells pool cells)) (.slot slot)
        (.page page :: order) ∧ Pushes pool.cells cells (.slot slot) (.page page) order type := by
  have headValid : pool.valid (.slot slot) = true := decide_eq_true slotValid
  have itemValid := valid_page pageValid
  obtain ⟨first, isFirst, firstValid, firstItem⟩ := first_valid ring headValid nofun valid fresh
  obtain ⟨c1, stored1, at1, beside1⟩ := store_spec pool.cells (Page.setNext first) itemValid
  obtain ⟨c2, stored2, at2, beside2⟩ := store_spec c1 (Page.setNext (.page page)) headValid
  obtain ⟨c3, stored3, at3, beside3⟩ := store_spec c2 (Page.setPrev (.slot slot) type) itemValid
  obtain ⟨c4, stored4, at4, beside4⟩ := store_spec c3 (Page.setPrev (.page page) type) firstValid
  have item3 : c3 (.page page) = ⟨(pool.cells (.page page)).slab, first, .slot slot, type⟩ := by
    rw [at3, beside2 _ Ref.noConfusion, at1]
    rfl
  have done : pool.attach slot (.page page) type = some (withCells pool c4) := by
    have firstRead : (c3 (.page page)).next = first := by rw [item3]
    rw [isFirst] at stored1
    rw [← firstRead] at stored4
    exact bind_some_of (load_valid pool.cells headValid) (bind_some_of stored1 (bind_some_of stored2
      (bind_some_of stored3 (bind_some_of (load_valid c3 itemValid) stored4))))
  refine ⟨c4, done, pushes_of_writes ring (by simp [fresh]) uniform ?_ ?_ ?_ ?_ ?_⟩
  · intro ref
    rw [slab_of_store at4 beside4 rfl, slab_of_store at3 beside3 rfl, slab_of_store at2 beside2 rfl,
      slab_of_store at1 beside1 rfl]
  · by_cases same : Ref.slot slot = first
    · rw [← same] at at4
      rw [at4, Page.setPrev, beside3 _ Ref.noConfusion, at2, Page.setNext]
    · rw [beside4 _ same, beside3 _ Ref.noConfusion, at2, Page.setNext]
  · rw [beside4 _ (Ne.symm firstItem), item3]
    exact ⟨isFirst, rfl, rfl⟩
  · rw [← isFirst]
    intro inOrder
    have notHead : first ≠ .slot slot :=
      ne_of_mem_of_not_mem inOrder (nodup_cons.mp ring.distinct).1
    rw [at4, beside3 _ firstItem, beside2 _ notHead, beside1 _ firstItem]
    exact ⟨rfl, rfl, rfl⟩
  · rw [← isFirst]
    intro ref notHead notItem notFirst
    rw [beside4 _ notFirst, beside3 _ notItem, beside2 _ notHead, beside1 _ notItem]

theorem push_spec (ring : Ring (nextOf pool) (prevOf pool) .free order)
    (fresh : Ref.page page ∉ order) (pageValid : page < pool.last)
    (valid : ∀ ref ∈ order, pool.valid ref = true) (uniform : ∀ ref ∈ order, (pool.cells ref).type = .page) :
    ∃ cells, pool.pushRun page 0 = some (withCells pool cells) ∧
      Ring (nextOf (withCells pool cells)) (prevOf (withCells pool cells)) .free (.page page :: order) ∧
      Pushes pool.cells cells .free (.page page) order .page := by
  have headValid : pool.valid .free = true := rfl
  have itemValid := valid_page pageValid
  obtain ⟨first, isFirst, firstValid, firstItem⟩ := first_valid ring headValid nofun valid fresh
  obtain ⟨c1, stored1, at1, beside1⟩ := store_spec pool.cells
    (fun run => { run with prev := .free, type := .page, next := first }) itemValid
  obtain ⟨c2, stored2, at2, beside2⟩ := store_spec c1 (Page.setPrev (.page page) .page) firstValid
  obtain ⟨c3, stored3, at3, beside3⟩ := store_spec c2 (Page.setNext (.page page)) headValid
  have done : pool.pushRun page 0 = some (withCells pool c3) := by
    rw [isFirst] at stored1 stored2
    exact bind_some_of rfl (bind_some_of (load_valid pool.cells headValid)
      (bind_some_of stored1 (bind_some_of stored2 stored3)))
  refine ⟨c3, done, pushes_of_writes ring (by simp [fresh]) uniform ?_ ?_ ?_ ?_ ?_⟩
  · intro ref
    rw [slab_of_store at3 beside3 rfl, slab_of_store at2 beside2 rfl]
    by_cases isItem : ref = .page page
    · rw [isItem, at1]
    · rw [beside1 ref isItem]
  · rw [at3, Page.setNext]
  · rw [beside3 _ Ref.noConfusion, beside2 _ (Ne.symm firstItem), at1]
    exact ⟨isFirst, rfl, rfl⟩
  · rw [← isFirst]
    intro inOrder
    have notHead : first ≠ .free := ne_of_mem_of_not_mem inOrder (nodup_cons.mp ring.distinct).1
    rw [beside3 _ notHead, at2, beside1 _ firstItem]
    exact ⟨rfl, rfl, rfl⟩
  · rw [← isFirst]
    intro ref notHead notItem notFirst
    rw [beside3 _ notHead, beside2 _ notFirst, beside1 _ notItem]

theorem split_spec (ring : Ring (nextOf pool) (prevOf pool) .free (front ++ .page page :: back))
    (valid : ∀ ref ∈ .free :: (front ++ .page page :: back), pool.valid ref = true)
    (uniform : ∀ ref ∈ front ++ .page page :: back, (pool.cells ref).type = .page)
    (isCount : (pool.cells (.page page)).slab.toNat = count) (pos : 0 < pages)
    (more : pages < count) (within : page + count ≤ pool.last)
    (inner : ∀ other, page < other → other < page + count → Ref.page other ∉ front ++ .page page :: back) :
    ∃ cells, pool.splitRun page pages = some (withCells pool cells) ∧
      Ring (nextOf (withCells pool cells)) (prevOf (withCells pool cells)) .free
        (front ++ .page (page + pages) :: back) ∧ (cells (.page (page + pages))).slab =
        (pool.cells (.page page)).slab - BitVec.ofNat 64 pages ∧
        (cells (.page (page + pages))).type = .page ∧
      (∀ ref ∈ front ++ back, (cells ref).type = .page) ∧
      (∀ ref, ref ≠ .page (page + pages) → (cells ref).slab = (pool.cells ref).slab) ∧
      (pages ≠ count - 1 → cells (.page (page + (count - 1))) =
        Page.setPrev (.page (page + pages)) .page (pool.cells (.page (page + (count - 1))))) ∧
      ∀ ref, ref ∉ .free :: (front ++ back) → ref ≠ .page (page + pages) →
        ref ≠ .page (page + (count - 1)) → cells ref = pool.cells ref := by
  obtain ⟨-, -, -, -, -, prevMem, nextMem, apart, itemFront, itemBack⟩ := ring_around ring
  have around : ∀ ref, ref ∈ .free :: (front ++ back) → ref ∈ Ref.free :: (front ++ .page page :: back) := by
    intro ref mem
    simp only [mem_cons, mem_append] at mem ⊢
    tauto
  have prevAround : prevOf pool (.page page) ∈ Ref.free :: (front ++ back) := by
    simp only [mem_cons, mem_append] at prevMem ⊢
    tauto
  have nextAround : nextOf pool (.page page) ∈ Ref.free :: (front ++ back) := by
    simp only [mem_cons, mem_append] at nextMem ⊢
    tauto
  have outsidePage : Ref.page page ∉ Ref.free :: (front ++ back) := by
    simp only [mem_cons, mem_append, not_or] at itemFront ⊢
    exact ⟨itemFront.1, itemFront.2, itemBack⟩
  have outsideInner : ∀ other, page < other → other < page + count →
      Ref.page other ∉ Ref.free :: (front ++ back) := by
    intro other low high mem
    have inRing := around _ mem
    rcases mem_cons.mp inRing with isFree | inOrder
    · cases isFree
    · exact inner other low high inOrder
  have restOut := outsideInner (page + pages) (by omega) (by omega)
  have finalOut := outsideInner (page + (count - 1)) (by omega) (by omega)
  have pageValid : pool.valid (.page page) = true := valid_page (by omega)
  have restValid : pool.valid (.page (page + pages)) = true := valid_page (by omega)
  have finalValid : pool.valid (.page (page + (count - 1))) = true := valid_page (by omega)
  have prevValid := valid _ (around _ prevAround)
  have nextValid := valid _ (around _ nextAround)
  have pageRest : Ref.page page ≠ .page (page + pages) := by
    intro same
    injection same with same
    omega
  have pageFinal : Ref.page page ≠ .page (page + (count - 1)) := by
    intro same
    injection same with same
    omega
  obtain ⟨c1, stored1, at1, beside1⟩ :=
    store_spec pool.cells (Page.setPrev (.page (page + pages)) .page) finalValid
  have page1 : c1 (.page page) = pool.cells (.page page) := beside1 _ pageFinal
  obtain ⟨c2, stored2, at2, beside2⟩ := store_spec c1 (fun _ => { pool.cells (.page page) with
    slab := (pool.cells (.page page)).slab - BitVec.ofNat 64 pages }) restValid
  obtain ⟨c3, stored3, at3, beside3⟩ := store_spec c2 (Page.setNext (.page (page + pages))) prevValid
  have page3 : c3 (.page page) = pool.cells (.page page) := by
    rw [beside3 _ (ne_of_mem_of_not_mem prevAround outsidePage).symm, beside2 _ pageRest, page1]
  obtain ⟨c4, stored4, at4, beside4⟩ :=
    store_spec c3 (Page.setPrev (.page (page + pages)) .page) nextValid
  have rest2 : c4 (.page (page + pages)) = { pool.cells (.page page) with
      slab := (pool.cells (.page page)).slab - BitVec.ofNat 64 pages } := by
    rw [beside4 _ (ne_of_mem_of_not_mem nextAround restOut).symm,
      beside3 _ (ne_of_mem_of_not_mem prevAround restOut).symm, at2]
  have old : ∀ ref, ref ≠ .page (page + pages) → ref ≠ .page (page + (count - 1)) →
      c2 ref = pool.cells ref := by
    intro ref notRest notFinal
    rw [beside2 _ notRest, beside1 _ notFinal]
  have oldAround : ∀ ref ∈ Ref.free :: (front ++ back), c2 ref = pool.cells ref := by
    intro ref mem
    exact old ref (ne_of_mem_of_not_mem mem restOut) (ne_of_mem_of_not_mem mem finalOut)
  refine ⟨c4, ?_, ?_, ?_, ?_, ?_, ?_, ?_, ?_⟩
  · have raw : (c1 (.page page)).rawPrev = some (prevOf pool (.page page)) := by
      rw [page1, Page.rawPrev, if_pos (uniform _ (by simp))]
      rfl
    have nextRead : nextOf pool (.page page) = (c3 (.page page)).next := by
      rw [page3]
      rfl
    rw [nextRead] at stored4
    rw [← isCount] at stored1
    rw [← page1] at stored2
    exact bind_some_of (load_valid pool.cells pageValid) (bind_some_of stored1
      (bind_some_of (load_valid c1 pageValid) (bind_some_of stored2 (bind_some_of raw
        (bind_some_of stored3 (bind_some_of (load_valid c3 pageValid) stored4))))))
  · apply ring_replace ring
    · intro mem
      rcases mem_cons.mp mem with isFree | inOrder
      · cases isFree
      · exact inner _ (by omega) (by omega) inOrder
    · change (c4 (prevOf pool (.page page))).next = _
      by_cases both : prevOf pool (.page page) = nextOf pool (.page page)
      · rw [both] at at3 ⊢
        rw [at4, Page.setPrev, at3, Page.setNext]
      · rw [beside4 _ both, at3, Page.setNext]
    · change (c4 (.page (page + pages))).prev = _
      rw [rest2]
      rfl
    · change (c4 (.page (page + pages))).next = _
      rw [rest2]
      rfl
    · intro _
      change (c4 (nextOf pool (.page page))).prev = _
      rw [at4, Page.setPrev]
    · intro ref mem differ
      change (c4 ref).next = (pool.cells ref).next
      by_cases isNext : ref = nextOf pool (.page page)
      · rw [isNext] at differ mem ⊢
        rw [at4, Page.setPrev, beside3 _ differ, oldAround _ mem]
      · rw [beside4 _ isNext, beside3 _ differ, oldAround _ mem]
    · intro ref mem differ
      change (c4 ref).prev = (pool.cells ref).prev
      have inside := oldAround ref (mem_cons_of_mem _ mem)
      rw [beside4 _ differ]
      by_cases isPrev : ref = prevOf pool (.page page)
      · rw [← inside, isPrev, at3, Page.setNext]
      · rw [beside3 _ isPrev, inside]
  · rw [rest2]
  · rw [rest2]
    exact uniform _ (by simp)
  · intro ref mem
    have inside := oldAround ref (mem_cons_of_mem _ mem)
    have own : (pool.cells ref).type = .page := by
      apply uniform
      simp only [mem_append, mem_cons] at mem ⊢
      tauto
    by_cases isNext : ref = nextOf pool (.page page)
    · rw [isNext, at4, Page.setPrev]
    · rw [beside4 _ isNext]
      by_cases isPrev : ref = prevOf pool (.page page)
      · rw [isPrev] at inside own ⊢
        rw [at3, Page.setNext, inside, own]
      · rw [beside3 _ isPrev, inside, own]
  · intro ref notRest
    rw [slab_of_store at4 beside4 rfl, slab_of_store at3 beside3 rfl, beside2 _ notRest,
      slab_of_store at1 beside1 rfl]
  · intro notFinal
    have finalRest : Ref.page (page + (count - 1)) ≠ .page (page + pages) := by
      intro same
      injection same with same
      omega
    rw [beside4 _ (ne_of_mem_of_not_mem nextAround finalOut).symm,
      beside3 _ (ne_of_mem_of_not_mem prevAround finalOut).symm, beside2 _ finalRest, at1]
  · intro ref outside notRest notFinal
    rw [beside4 _ (ne_of_mem_of_not_mem nextAround outside).symm,
      beside3 _ (ne_of_mem_of_not_mem prevAround outside).symm, old ref notRest notFinal]

end Links

section Holes

variable {pool : Pool} {layout : Layout} {hole held : Nat}

variable {cells : Ref → Page} {front back : List Nat}

theorem sound_hole (sound : Sound pool layout hole held)
    (same : ∀ ref, (∀ page, Within hole held page → ref ≠ .page page) → cells ref = pool.cells ref) :
    Sound (withCells pool cells) layout hole held := by
  have samePage : ∀ page, ¬Within hole held page → cells (.page page) = pool.cells (.page page) := by
    intro page outside
    apply same
    rintro other inside isPage
    injection isPage with isPage
    exact outside (isPage ▸ inside)
  have outsideOf : ∀ page < pool.last, (layout.span page).kind ≠ .block → ¬Within hole held page := by
    intro page _ notBlock inside
    rw [(sound.hollow page inside).2] at notBlock
    exact notBlock rfl
  have freeSame : ∀ ref ∈ Ref.free :: layout.freeOrder.map Ref.page, cells ref = pool.cells ref := by
    intro ref mem
    rcases mem_cons.mp mem with rfl | inOrder
    · exact same _ fun page _ => nofun
    · obtain ⟨page, inFree, rfl⟩ := mem_map.mp inOrder
      obtain ⟨below, isFree, -⟩ := (sound.freeMem page).mp inFree
      exact samePage page (outsideOf page below (by simp [isFree]))
  have slots := slots_frame (withCells pool cells) layout.span sound rfl rfl rfl
    (fun slot => same _ fun page _ => nofun)
    (fun page below shift isSlots => samePage page (outsideOf page below (by simp [isSlots])))
    (fun page _ shift => Iff.rfl)
  refine ⟨sound.size, sound.tiled, sound.merged, sound.hollow, sound.single, ?_, ?_, sound.freeMem,
    fun shift low high => (slots shift low high).1, fun shift low high => (slots shift low high).2,
    sound.pfree⟩
  · intro page below outside
    exact described_same pool _ rfl rfl rfl (samePage page outside) (sound.described page below outside)
  · apply ring_congr sound.freeRing
    · exact fun ref mem => congrArg Page.next (freeSame ref mem)
    · exact fun ref mem => congrArg Page.prev (freeSame ref (mem_cons_of_mem _ mem))

theorem free_untouched (sound : Sound pool layout hole held)
    (below : page < pool.last) (outside : ¬Within hole held page)
    (slab : (cells (.page page)).slab = (pool.cells (.page page)).slab)
    (listed : page ∈ layout.freeOrder → (cells (.page page)).type = .page)
    (unlisted : page ∉ layout.freeOrder → cells (.page page) = pool.cells (.page page)) :
    Described (withCells pool cells) page (layout.span page) := by
  have sameType : (cells (.page page)).type = (pool.cells (.page page)).type := by
    by_cases mem : page ∈ layout.freeOrder
    · rw [listed mem, free_types sound _ (mem_map_of_mem mem)]
    · rw [unlisted mem]
  refine described_congr pool (withCells pool cells) rfl rfl (fun _ _ => rfl) slab sameType ?_
    (sound.described page below outside)
  have freeMem := sound.freeMem page
  unfold FreeLinks
  split
  case h_1 isFree =>
      intro differ
      exact unlisted fun mem => differ (freeMem.mp mem).2.2.symm
  case h_2 isBlock =>
      apply unlisted
      intro mem
      nomatch isBlock.symm.trans (freeMem.mp mem).2.1
  case h_3 shift isSlots =>
      intro _
      apply unlisted
      intro mem
      nomatch isSlots.symm.trans (freeMem.mp mem).2.1

/-- Descriptors that differ at most in the word `slab` of one page. -/
structure Resized (old new : Ref → Page) (page : Nat) : Prop where
  other : ∀ ref, ref ≠ .page page → new ref = old ref
  next : (new (.page page)).next = (old (.page page)).next
  prev : (new (.page page)).prev = (old (.page page)).prev
  type : (new (.page page)).type = (old (.page page)).type

theorem resized_same (pool : Pool) (resized : Resized old new page) :
    nextOf (withCells pool new) = nextOf (withCells pool old) ∧
      prevOf (withCells pool new) = prevOf (withCells pool old) ∧
      ∀ ref, (new ref).type = (old ref).type := by
  refine ⟨funext fun ref => ?_, funext fun ref => ?_, fun ref => ?_⟩
  all_goals
    by_cases here : ref = .page page
    · subst here
      first
        | exact resized.next
        | exact resized.prev
        | exact resized.type
  · exact congrArg Page.next (resized.other ref here)
  · exact congrArg Page.prev (resized.other ref here)
  · exact congrArg Page.type (resized.other ref here)

/-- A block takes in the held pages and a free run beside them. -/
structure Absorbs (old : Nat → Span) (new : Span) (hole held head count : Nat) : Prop where
  isBlock : new.kind = .block
  parts : ∀ page, new.covers page ↔ Within hole held page ∨ Within head count page
  wasHole : ∀ page, Within hole held page → old page = ⟨.block, hole, held⟩
  wasRun : ∀ page, Within head count page → old page = ⟨.free, head, count⟩

section Absorb

variable {new : Span} (absorbs : Absorbs layout.span new hole held head count)
include absorbs

theorem absorbs_kinds (page shift : Nat) :
    (paint layout.span new page).kind = .slots shift ↔ (layout.span page).kind = .slots shift := by
  by_cases inside : new.covers page
  · rw [paint_inside inside, absorbs.isBlock]
    rcases (absorbs.parts page).mp inside with inHole | inRun
    · rw [absorbs.wasHole page inHole]
    · rw [absorbs.wasRun page inRun]
      simp
  · rw [paint_outside inside]

theorem absorbs_single (sound : Sound pool layout hole held) (below : page < pool.last) {shift : Nat}
    (isSlots : (paint layout.span new page).kind = .slots shift) :
    (paint layout.span new page).count = 1 := by
  have differs : (paint layout.span new page).kind ≠ new.kind := by
    rw [isSlots, absorbs.isBlock]
    exact Kind.noConfusion
  have same := (paint_of_kind differs).1
  rw [same] at isSlots ⊢
  exact sound.single page below shift isSlots

theorem absorbs_free_mem (sound : Sound pool layout hole held) (positive : 0 < count)
    (order : layout.freeOrder = front ++ head :: back) (page : Nat) : page ∈ front ++ back ↔
      page < pool.last ∧ (paint layout.span new page).kind = .free ∧
      (paint layout.span new page).head = page := by
  have before := sound.freeMem page
  rw [order] at before
  constructor
  · intro mem
    have listed : page ∈ front ++ head :: back := by
      simp only [mem_append, mem_cons] at mem ⊢
      tauto
    obtain ⟨belowPage, isFree, isHead⟩ := before.mp listed
    have outside : ¬new.covers page := by
      intro inside
      rcases (absorbs.parts page).mp inside with inHole | inRun
      · rw [absorbs.wasHole page inHole] at isFree
        cases isFree
      · rw [absorbs.wasRun page inRun] at isHead
        change head = page at isHead
        exact free_apart sound order (isHead ▸ mem)
    rw [paint_outside outside]
    exact ⟨belowPage, isFree, isHead⟩
  · rintro ⟨belowPage, isFree, isHead⟩
    obtain ⟨same, outside⟩ := paint_of_kind (by rw [isFree, absorbs.isBlock]; exact Kind.noConfusion)
    rw [same] at isFree isHead
    have listed := before.mpr ⟨belowPage, isFree, isHead⟩
    have notHead : page ≠ head := by
      rintro rfl
      apply outside
      rw [absorbs.parts]
      exact .inr ⟨Nat.le_refl _, by omega⟩
    simp only [mem_append, mem_cons] at listed ⊢
    tauto

theorem absorbs_count {last : Nat} (bound : head + count ≤ last) :
    countOf .free last layout.span = countOf .free last (paint layout.span new) + count := by
  have change := count_change layout.span (paint layout.span new) .free true false bound
    (fun page low high => by
      rw [paint_inside ((absorbs.parts page).mpr (.inr ⟨low, high⟩)), absorbs.wasRun page ⟨low, high⟩,
        absorbs.isBlock]
      simp) (fun page _ outside => by
      by_cases inside : new.covers page
      · rw [paint_inside inside, absorbs.isBlock]
        rcases (absorbs.parts page).mp inside with inHole | inRun
        · rw [absorbs.wasHole page inHole]
        · exact absurd inRun outside
      · rw [paint_outside inside])
  simpa using change.symm

end Absorb

theorem absorb (sound : Sound pool layout hole held)
    (resized : Resized pool.cells old head) (start : Nat)
    (order : layout.freeOrder = front ++ head :: back) (run : layout.span head = ⟨.free, head, count⟩)
    (place : (held = 0 ∧ start = head) ∨ (start = hole ∧ head = hole + held) ∨
      (start = head ∧ hole = head + count)) :
    ∃ cells, (withCells pool old).unlink (prevOf pool (.page head)) (.page head) =
        some (withCells pool cells) ∧ Sound (withCells pool cells)
        ⟨paint layout.span ⟨.block, start, held + count⟩, front ++ back, layout.slotOrder⟩ start
        (held + count) ∧ ∀ page ∉ front ++ back, cells (.page page) = old (.page page) := by
  obtain ⟨below, pos, bound, covered, -⟩ :=
    free_run sound (show head ∈ layout.freeOrder by simp [order]) run
  have ring := sound.freeRing
  have valid := free_valid sound
  have uniform := free_types sound
  rw [order, map_append, map_cons] at ring valid uniform
  obtain ⟨sameNext, samePrev, sameType⟩ := resized_same pool resized
  have oldRing : Ring (nextOf (withCells pool old)) (prevOf (withCells pool old)) .free
      (front.map .page ++ .page head :: back.map .page) := by
    rw [sameNext, samePrev]
    exact ring
  obtain ⟨cells, unlinked, newRing, relinks⟩ := unlink_spec oldRing valid
    (fun ref mem => (sameType ref).trans (uniform ref mem))
  rw [samePrev] at unlinked
  rw [← map_append] at newRing relinks
  have fresh := free_apart sound order
  have heldBelow : held = 0 ∨ hole + held ≤ pool.last := by
    by_cases none : held = 0
    · exact .inl none
    · have inside := (sound.hollow (hole + (held - 1)) (by unfold Within; omega)).1
      omega
  have unchanged : ∀ page ∉ front ++ back, cells (.page page) = old (.page page) := by
    intro page outside
    apply relinks.other
    simpa using outside
  have unlisted : ∀ page ∉ layout.freeOrder, cells (.page page) = pool.cells (.page page) := by
    intro page absent
    rw [order, mem_append, mem_cons, not_or, not_or] at absent
    rw [unchanged page (by simp [absent]), resized.other _ (by simpa using absent.2.1)]
  obtain ⟨new, isNew⟩ : ∃ new : Span, new = ⟨.block, start, held + count⟩ := ⟨_, rfl⟩
  have absorbs : Absorbs layout.span new hole held head count := by
    refine ⟨by rw [isNew], ?_, fun page inside => (sound.hollow page inside).2,
      fun page inside => covered page inside.1 inside.2⟩
    rw [isNew]
    unfold Span.covers Within
    dsimp only
    omega
  have slots := slots_frame (withCells pool cells) (paint layout.span new) sound rfl rfl rfl
    (fun slot => (relinks.other _ (by simp)).trans (resized.other _ nofun))
    (fun page belowPage shift isSlots => by
      apply unlisted page
      intro listed
      have isFree := ((sound.freeMem page).mp listed).2.1
      rw [isSlots] at isFree
      exact Kind.noConfusion isFree) (fun page _ => absorbs_kinds absorbs page)
  have freeMem := absorbs_free_mem absorbs sound pos order
  rw [← isNew]
  refine ⟨cells, unlinked, ⟨sound.size, ?_, ?_, ?_,
    fun page belowPage shift => absorbs_single absorbs sound belowPage, ?_, newRing,
    freeMem, fun shift low high => (slots shift low high).1,
    fun shift low high => (slots shift low high).2, ?_⟩, unchanged⟩
  · apply tiled_paint sound.tiled
    · rw [isNew]
      change start + (held + count) ≤ pool.last
      omega
    · intro page inside
      rw [isNew]
      rcases (absorbs.parts page).mp inside with inHole | inRun
      · rw [absorbs.wasHole page inHole]
        unfold Within at inHole
        dsimp only
        omega
      · rw [absorbs.wasRun page inRun]
        dsimp only
        omega
  · apply merged_paint sound.merged
    simp [isNew]
  · intro page inside
    have inNew : new.covers page := by
      rw [isNew]
      exact inside
    refine ⟨?_, (paint_inside inNew).trans isNew⟩
    unfold Within at inside
    change page < pool.last
    omega
  · intro page belowPage outside
    have notNew : ¬new.covers page := by
      rw [isNew]
      exact outside
    have notHole : ¬Within hole held page := fun inHole => notNew ((absorbs.parts page).mpr (.inl inHole))
    have notHead : Ref.page page ≠ .page head := by
      intro same
      injection same with same
      apply notNew
      rw [same, absorbs.parts]
      exact .inr ⟨Nat.le_refl _, by omega⟩
    dsimp only
    rw [paint_outside notNew]
    apply free_untouched sound belowPage notHole
    · exact (relinks.slab _).trans (congrArg Page.slab (resized.other _ notHead))
    · intro mem
      rw [order] at mem
      rw [relinks.type _ (by simpa [show page ≠ head by simpa using notHead] using mem), sameType,
        uniform _ (by simpa using mem)]
    · exact unlisted page
  · have total := sound.pfree
    have change := absorbs_count absorbs bound
    change pool.pfree = countOf .free pool.last (paint layout.span new) + (held + count)
    omega

/-- The front of a free run becomes a block, and the pages behind it a shorter run. -/
structure Splits (old span : Nat → Span) (head count pages : Nat) : Prop where
  pos : 0 < pages
  more : pages < count
  was : ∀ page, Within head count page → old page = ⟨.free, head, count⟩
  front : ∀ page, Within head pages page → span page = ⟨.block, head, pages⟩
  rest : ∀ page, Within (head + pages) (count - pages) page →
    span page = ⟨.free, head + pages, count - pages⟩
  away : ∀ page, ¬Within head count page → span page = old page

theorem splits_painted {span : Nat → Span} (pos : 0 < pages) (more : pages < count)
    (was : ∀ page, Within head count page → span page = ⟨.free, head, count⟩) :
    Splits span (paint (paint span ⟨.block, head, pages⟩) ⟨.free, head + pages, count - pages⟩) head
      count pages := by
  refine ⟨pos, more, was, fun page inside => ?_, fun page inside => paint_inside inside, fun page away => ?_⟩
  · have bounds := inside
    unfold Within at bounds
    rw [paint_outside, paint_inside (show Span.covers ⟨.block, head, pages⟩ page from inside)]
    unfold Span.covers
    dsimp only
    omega
  · unfold Within at away
    rw [paint_outside, paint_outside]
    all_goals
      unfold Span.covers
      dsimp only
      omega

section Split

variable {span : Nat → Span} {last : Nat} (splits : Splits layout.span span head count pages)
include splits

theorem splits_place (page : Nat) : Within head pages page ∨ Within (head + pages) (count - pages) page ∨
    ¬Within head count page := by
  have more := splits.more
  unfold Within
  omega

theorem splits_was (inside : Within head pages page ∨ Within (head + pages) (count - pages) page) :
    layout.span page = ⟨.free, head, count⟩ := by
  have more := splits.more
  apply splits.was
  unfold Within at inside ⊢
  omega

theorem splits_kinds (page shift : Nat) :
    (span page).kind = .slots shift ↔ (layout.span page).kind = .slots shift := by
  rcases splits_place splits page with inside | inside | away
  · rw [splits.front page inside, splits_was splits (.inl inside)]
    simp
  · rw [splits.rest page inside, splits_was splits (.inr inside)]
  · rw [splits.away page away]

theorem splits_merged (sound : Sound pool layout 0 0) : Merged pool.last span := by
  intro page below hereFree nextFree
  rcases splits_place splits page with inside | inside | away
  · rw [splits.front page inside] at hereFree
    cases hereFree
  · rcases splits_place splits (page + 1) with nextIn | nextIn | nextAway
    · rw [splits.front (page + 1) nextIn] at nextFree
      cases nextFree
    · rw [splits.rest page inside, splits.rest (page + 1) nextIn]
    · -- the run was as long as the free pages behind it
      have wasFree := splits_was splits (.inr inside)
      rw [splits.away (page + 1) nextAway] at nextFree
      have same := sound.merged page below (by rw [wasFree]) nextFree
      have covers := (sound.tiled (page + 1) below).1
      rw [same, wasFree] at covers
      exact absurd covers nextAway
  · rcases splits_place splits (page + 1) with nextIn | nextIn | nextAway
    · rw [splits.front (page + 1) nextIn] at nextFree
      cases nextFree
    · have pos := splits.pos
      unfold Within at away nextIn
      omega
    · rw [splits.away page away] at hereFree ⊢
      rw [splits.away (page + 1) nextAway] at nextFree ⊢
      exact sound.merged page below hereFree nextFree

theorem splits_single (sound : Sound pool layout 0 0) (below : page < pool.last) {shift : Nat}
    (isSlots : (span page).kind = .slots shift) : (span page).count = 1 := by
  have before := (splits_kinds splits page shift).mp isSlots
  rcases splits_place splits page with inside | inside | away
  · rw [splits_was splits (.inl inside)] at before
    cases before
  · rw [splits_was splits (.inr inside)] at before
    cases before
  · rw [splits.away page away]
    exact sound.single page below shift before

theorem splits_unlisted (sound : Sound pool layout 0 0) (inside : Within head count page)
    (differ : page ≠ head) :
    page ∉ layout.freeOrder := by
  intro mem
  have isHead := ((sound.freeMem page).mp mem).2.2
  rw [splits.was page inside] at isHead
  exact differ isHead.symm

theorem splits_free_mem (sound : Sound pool layout 0 0) (order : layout.freeOrder = front ++ head :: back)
    (bound : head + count ≤ pool.last) (page : Nat) : page ∈ front ++ (head + pages) :: back ↔
      page < pool.last ∧ (span page).kind = .free ∧ (span page).head = page := by
  have before := sound.freeMem page
  have more := splits.more
  constructor
  · intro mem
    by_cases atRest : page = head + pages
    · rw [atRest, splits.rest (head + pages) ⟨by omega, by omega⟩]
      exact ⟨show head + pages < pool.last by omega, rfl, rfl⟩
    · have inOld : page ∈ front ++ back := by
        simp only [mem_append, mem_cons] at mem ⊢
        tauto
      have listed : page ∈ layout.freeOrder := by
        rw [order]
        simp only [mem_append, mem_cons] at inOld ⊢
        tauto
      have away : ¬Within head count page := fun inside =>
        splits_unlisted splits sound inside (ne_of_mem_of_not_mem inOld (free_apart sound order)) listed
      rw [splits.away page away]
      exact before.mp listed
  · rintro ⟨below, isFree, isHead⟩
    rcases splits_place splits page with inside | inside | away
    · rw [splits.front page inside] at isFree
      cases isFree
    · rw [splits.rest page inside] at isHead
      change head + pages = page at isHead
      simp [isHead]
    · rw [splits.away page away] at isFree isHead
      have mem := before.mpr ⟨below, isFree, isHead⟩
      rw [order] at mem
      have notHead : page ≠ head := by
        rintro rfl
        exact away ⟨by omega, by omega⟩
      simp only [mem_append, mem_cons] at mem ⊢
      tauto

theorem splits_count (bound : head + count ≤ last) :
    countOf .free last layout.span = countOf .free last span + pages := by
  have more := splits.more
  have change := count_change layout.span span .free true false (show head + pages ≤ last by omega)
    (fun page low high => by
      rw [splits.front page ⟨low, high⟩, splits_was splits (.inl ⟨low, high⟩)]
      simp) (fun page _ notFront => by
      rcases splits_place splits page with inside | inside | away
      · exact absurd inside notFront
      · rw [splits.rest page inside, splits_was splits (.inr inside)]
      · rw [splits.away page away])
  simpa using change.symm

theorem splits_rest_described {cells : Ref → Page} (sound : Sound pool layout 0 0)
    (bound : head + count ≤ pool.last) (slab : (pool.cells (.page head)).slab = BitVec.ofNat 64 count)
    (restSlab : (cells (.page (head + pages))).slab =
      (pool.cells (.page head)).slab - BitVec.ofNat 64 pages)
    (restType : (cells (.page (head + pages))).type = .page)
    (final : pages ≠ count - 1 → cells (.page (head + (count - 1))) =
      Page.setPrev (.page (head + pages)) .page (pool.cells (.page (head + (count - 1)))))
    (beside : ∀ page, Within head count page → page ≠ head → page ≠ head + pages →
      page ≠ head + (count - 1) → cells (.page page) = pool.cells (.page page))
    (inside : Within (head + pages) (count - pages) page) :
    Described (withCells pool cells) page (span page) := by
  have more := splits.more
  have pos := splits.pos
  have size := sound.size
  have bounds := inside
  unfold Within at bounds
  have described := sound.described page (by omega) (by unfold Within; omega)
  rw [splits_was splits (.inr inside)] at described
  obtain ⟨isPage, -, old⟩ := described
  obtain ⟨oldSlab, oldNext, -⟩ := old (show page ≠ head by omega)
  rw [splits.rest page inside]
  by_cases atRest : page = head + pages
  · subst atRest
    refine ⟨restType, fun _ => ?_, fun differ => absurd rfl differ⟩
    rw [restSlab, slab]
    apply BitVec.eq_of_toNat_eq
    simp only [BitVec.toNat_sub, BitVec.toNat_ofNat]
    omega
  · refine ⟨?_, fun same => absurd same atRest, fun _ => ?_⟩
    · by_cases atFinal : page = head + (count - 1)
      · rw [atFinal]
        exact congrArg Page.type (final (by omega))
      · exact (congrArg Page.type (beside page ⟨by omega, by omega⟩ (by omega) atRest atFinal)).trans isPage
    · by_cases atFinal : page = head + (count - 1)
      · rw [atFinal] at oldSlab oldNext ⊢
        unfold withCells
        dsimp only
        rw [final (by omega)]
        exact ⟨oldSlab, oldNext, fun _ _ => rfl⟩
      · have same := beside page ⟨by omega, by omega⟩ (by omega) atRest atFinal
        refine ⟨(congrArg Page.slab same).trans oldSlab, (congrArg Page.next same).trans oldNext, ?_⟩
        intro isLast _
        dsimp only at isLast
        omega

end Split

theorem split_sound (sound : Sound pool layout 0 0) {head count pages : Nat}
    (order : layout.freeOrder = front ++ head :: back) (run : layout.span head = ⟨.free, head, count⟩)
    (pos : 0 < pages) (more : pages < count) :
    ∃ cells, pool.splitRun head pages = some (withCells pool cells) ∧ Sound (withCells pool cells)
        ⟨paint (paint layout.span ⟨.block, head, pages⟩) ⟨.free, head + pages, count - pages⟩,
          front ++ (head + pages) :: back, layout.slotOrder⟩ head pages ∧
      ∀ page < pool.last, ¬Within head count page → page ∉ layout.freeOrder →
        cells (.page page) = pool.cells (.page page) := by
  obtain ⟨below, -, bound, covered, slab, -⟩ :=
    free_run sound (show head ∈ layout.freeOrder by simp [order]) run
  have size := sound.size
  have isCount : (pool.cells (.page head)).slab.toNat = count := by
    rw [slab, BitVec.toNat_ofNat]
    omega
  have splits := splits_painted pos more fun page inside => covered page inside.1 inside.2
  generalize isSpan : paint (paint layout.span ⟨.block, head, pages⟩)
    ⟨.free, head + pages, count - pages⟩ = span
    at splits ⊢
  have unlisted := fun page => @splits_unlisted _ _ _ page _ _ _ splits sound
  have ring := sound.freeRing
  have valid := free_valid sound
  have uniform := free_types sound
  rw [order, map_append, map_cons] at ring valid uniform
  obtain ⟨cells, done, newRing, restSlab, restType, types, slabs, final, others⟩ :=
    split_spec ring valid uniform isCount pos more bound (by
      intro other low high mem
      have absent := unlisted other ⟨by omega, high⟩ (by omega)
      rw [order] at absent
      apply absent
      simpa using mem)
  have newRing' : Ring (nextOf (withCells pool cells)) (prevOf (withCells pool cells)) .free
      ((front ++ (head + pages) :: back).map .page) := by
    rw [map_append, map_cons]
    exact newRing
  have unchanged : ∀ page, page ∉ front ++ back → page ≠ head + pages → page ≠ head + (count - 1) →
      cells (.page page) = pool.cells (.page page) := by
    intro page absent notRest notFinal
    apply others
    · simpa using absent
    · simpa using notRest
    · simpa using notFinal
  have listed : ∀ page ∈ front ++ back, page ∈ layout.freeOrder := by
    intro page mem
    rw [order]
    simp only [mem_append, mem_cons] at mem ⊢
    tauto
  have outsider : ∀ page < pool.last, ¬Within head count page → page ∉ layout.freeOrder →
      cells (.page page) = pool.cells (.page page) := by
    intro page _ outside absent
    apply unchanged page (fun mem => absent (listed page mem))
    · rintro rfl
      exact outside ⟨by omega, by omega⟩
    · rintro rfl
      exact outside ⟨by omega, by omega⟩
  have slots := slots_frame (withCells pool cells) span sound rfl rfl rfl
    (fun slot => others _ (by simp) (by simp) (by simp)) (fun page belowPage shift isSlots => by
      apply outsider page belowPage
      · intro inside
        rw [splits.was page inside] at isSlots
        cases isSlots
      · intro mem
        have isFree := ((sound.freeMem page).mp mem).2.1
        rw [isSlots] at isFree
        exact Kind.noConfusion isFree) (fun page _ => splits_kinds splits page)
  have freeMem := splits_free_mem splits sound order bound
  have merged := splits_merged splits sound
  refine ⟨cells, done,
    ⟨sound.size, ?_, merged, ?_, fun page belowPage shift => splits_single splits sound belowPage, ?_,
    newRing', freeMem, fun shift low high => (slots shift low high).1,
    fun shift low high => (slots shift low high).2, ?_⟩, outsider⟩
  · rw [← isSpan]
    exact tiled_split sound.tiled (fun page inside => splits.was page inside) bound rfl rfl
      (by dsimp only; omega)
  · intro page inside
    refine ⟨?_, splits.front page inside⟩
    unfold Within at inside
    change page < pool.last
    omega
  · intro page belowPage notFront
    dsimp only
    rcases splits_place splits page with inside | inside | away
    · exact absurd inside notFront
    · exact splits_rest_described splits sound bound slab restSlab restType final (fun page within notHead =>
        unchanged page (fun mem => unlisted page within notHead (listed page mem))) inside
    · rw [splits.away page away]
      have notRest : page ≠ head + pages := by
        rintro rfl
        exact away ⟨by omega, by omega⟩
      apply free_untouched sound belowPage (by unfold Within; omega)
      · exact slabs _ (by simpa using notRest)
      · intro mem
        apply types
        rw [order] at mem
        have notHead : page ≠ head := by
          rintro rfl
          exact away ⟨by omega, by omega⟩
        simpa [notHead] using mem
      · exact outsider page belowPage away
  · have total := sound.pfree
    have change := splits_count splits bound
    change pool.pfree = countOf .free pool.last span + pages
    omega

theorem fill_pages_spec (pool : Pool) (value : Page) (count : Nat) (old : Ref → Page) (page : Nat)
    (fits : page + count ≤ pool.last) :
    ∃ cells, Pool.fillPages value count (withCells pool old) page = some (withCells pool cells) ∧
      (∀ other, Within page count other → cells (.page other) = value) ∧
      ∀ ref, (∀ other, Within page count other → ref ≠ .page other) → cells ref = old ref := by
  induction count generalizing old page with
  | zero =>
    refine ⟨old, rfl, ?_, fun _ _ => rfl⟩
    intro other inside
    unfold Within at inside
    omega
  | succ count ih =>
    obtain ⟨first, stored, here, beside⟩ :=
      store_spec old (fun _ => value) (valid_page (show page < pool.last by omega))
    obtain ⟨cells, filled, inside, outside⟩ := ih first (page + 1) (by omega)
    refine ⟨cells, bind_some_of stored filled, ?_, ?_⟩
    · intro other within
      unfold Within at within
      by_cases atPage : other = page
      · rw [atPage, outside _ (by intro next later; unfold Within at later; simp; omega), here]
      · exact inside other ⟨by omega, by omega⟩
    · intro ref away
      rw [outside ref fun other later => away other ⟨by unfold Within at later; omega,
        by unfold Within at later; omega⟩, beside ref (away page ⟨Nat.le_refl _, by omega⟩)]

theorem fill_hole (sound : Sound pool layout hole held) (cells : Ref → Page)
    (same : ∀ ref, (∀ page, Within hole held page → ref ≠ .page page) → cells ref = pool.cells ref)
    (filled : ∀ page, Within hole held page → Described (withCells pool cells) page ⟨.block, hole, held⟩) :
    Sound { pool with cells := cells, pfree := pool.pfree - held } layout 0 0 := by
  have kept := sound_hole sound same
  refine ⟨kept.size, kept.tiled, kept.merged, ?_, kept.single, ?_, kept.freeRing, kept.freeMem,
    kept.slotRing, kept.slotMem, ?_⟩
  · intro page inside
    unfold Within at inside
    omega
  · intro page below _
    by_cases inside : Within hole held page
    · rw [(sound.hollow page inside).2]
      exact filled page inside
    · exact described_same (withCells pool cells) _ rfl rfl rfl rfl (kept.described page below inside)
  · have total := kept.pfree
    rw [total]
    exact Nat.add_sub_cancel _ _

theorem open_hole (sound : Sound pool layout 0 0)
    (hollow : ∀ page, Within hole held page → page < pool.last ∧ layout.span page = ⟨.block, hole, held⟩) :
    Sound { pool with pfree := pool.pfree + held } layout hole held := by
  refine ⟨sound.size, sound.tiled, sound.merged, hollow, sound.single, ?_, sound.freeRing, sound.freeMem,
    sound.slotRing, sound.slotMem, ?_⟩
  · intro page below _
    exact described_same pool _ rfl rfl rfl rfl (sound.described page below (by unfold Within; omega))
  · have total := sound.pfree
    change pool.pfree + held = countOf .free pool.last layout.span + held
    omega

end Holes

end ServerCore.NginxSlabPages
