import ServerCore.NginxSlabRuns

/-!
# A block that is freed twice

After a block was freed, its first page is either still cut into chunks, with
the bit of the block clear, or part of a run of free pages, merged with its
neighbours or not.
-/

namespace ServerCore.NginxSlabDoubleFree

open BitMask TransitionSystem NginxSlab NginxSlabLayout NginxSlabPages
open NginxSlabBits NginxSlabCalls NginxSlabPlaced NginxSlabRuns

section Refused

variable {pool : Pool} {layout : Layout} {page shift chunk p : Nat}

theorem count_not_marked {count : Nat} (small : count < 2 ^ 63) :
    BitVec.ofNat 64 count &&& slabPageStart = 0 := by
  apply eq_zero_iff.mpr
  intro j _
  rw [BitVec.getLsbD_and, slabPageStart, BitVec.getLsbD_twoPow]
  by_cases top : 63 = j
  · rw [← top, BitVec.getLsbD_ofNat, Nat.testBit_lt_two_pow small]
    rfl
  · simp [top]

theorem free_page_not_marked (sound : Sound pool layout 0 0) (below : page < pool.last)
    (isFree : (layout.span page).kind = .free) :
    (pool.cells (.page page)).type = .page ∧ (pool.cells (.page page)).slab &&& slabPageStart = 0 := by
  have described := sound.described page below (by unfold Within; omega)
  have bounded := (sound.tiled page below).2.1
  have size := sound.size
  unfold Described at described
  rw [isFree] at described
  obtain ⟨isPage, atHead, behind⟩ := described
  refine ⟨isPage, ?_⟩
  by_cases head : page = (layout.span page).head
  · rw [atHead head]
    apply count_not_marked
    omega
  · rw [(behind head).1]
    decide

theorem refuse_free_page (sound : Sound pool layout 0 0) (based : Based pool) (below : page < pool.last)
    (isFree : (layout.span page).kind = .free) (low : pool.pageAddr page ≤ p)
    (high : p < pool.pageAddr page + pagesize) : pool.ngxSlabFreeLocked p = some (pool.slabError
      (if p % pagesize = 0 then .pageIsAlreadyFree else .pointerToWrongChunk)) := by
  obtain ⟨isPage, notMarked⟩ := free_page_not_marked sound below isFree
  have within := based.within
  have base := page_addr_eq pool page
  unfold pagesize at high within
  have notOutside : ¬(p < pool.start ∨ p > pool.finish) := by omega
  have number : (p - pool.start) >>> pagesizeShift = page := by
    rw [Nat.shiftRight_eq_div_pow]
    unfold pagesizeShift
    omega
  rw [Pool.ngxSlabFreeLocked, if_neg notOutside]
  dsimp only
  rw [number, load_valid pool.cells (valid_page below), Option.bind_eq_bind, Option.bind_some, isPage]
  rw [Pool.freeBlock, and_page]
  by_cases aligned : p % pagesize = 0
  · rw [if_neg (not_not.mpr aligned), if_pos notMarked, if_pos aligned]
  · rw [if_pos aligned, if_neg aligned]

theorem refuse_small (formatted : Formatted pool page shift) (isSmall : shift < slabExactShift)
    (clear : taken pool page shift chunk = false) (addr : Addressed pool page shift chunk p) :
    pool.freeSmall p page (pool.cells (.page page)) = some (pool.slabError .chunkIsAlreadyFree) := by
  rw [taken_small pool isSmall] at clear
  rw [Pool.freeSmall, formatted_small_shift formatted isSmall]
  rw [and_size, addr.aligned, if_neg (by simp), and_page, addr.index, addr.base,
    if_neg (not_not.mpr ((and_bit_eq_zero (by omega)).mpr clear))]

theorem refuse_exact (inside : chunk < capacity slabExactShift)
    (clear : taken pool page slabExactShift chunk = false)
    (addr : Addressed pool page slabExactShift chunk p) :
    pool.freeExact p page (pool.cells (.page page)) = some (pool.slabError .chunkIsAlreadyFree) := by
  have inWord : chunk < 64 := inside
  rw [Pool.freeExact]
  rw [show slabExactSize - 1 = 1 <<< slabExactShift - 1 from rfl, and_size, addr.aligned,
    if_neg (by simp), and_page, addr.index,
    if_neg (not_not.mpr ((and_bit_eq_zero inWord).mpr clear))]

theorem refuse_big (formatted : Formatted pool page shift) (isBig : slabExactShift < shift)
    (inside : chunk < capacity shift) (clear : taken pool page shift chunk = false)
    (addr : Addressed pool page shift chunk p) :
    pool.freeBig p page (pool.cells (.page page)) = some (pool.slabError .chunkIsAlreadyFree) := by
  have bound := capacity_big isBig
  have inWord : chunk + slabMapShift < 64 := by
    unfold slabMapShift
    omega
  rw [taken_big pool isBig, Nat.add_comm] at clear
  rw [Pool.freeBig, formatted_big_shift formatted isBig]
  rw [and_size, addr.aligned, if_neg (by simp), and_page, addr.index,
    if_neg (not_not.mpr ((and_bit_eq_zero inWord).mpr clear))]

theorem refuse_chunk (sound : Sound pool layout 0 0) (based : Based pool) (below : page < pool.last)
    (isSlots : (layout.span page).kind = .slots shift) (inside : chunk < capacity shift)
    (clear : taken pool page shift chunk = false) :
    pool.ngxSlabFreeLocked (pool.pageAddr page + chunk <<< shift) =
      some (pool.slabError .chunkIsAlreadyFree) := by
  have formatted := slot_formatted sound below isSlots
  have high := formatted.high
  have within := based.within
  obtain ⟨p, isAddr⟩ : ∃ p, p = pool.pageAddr page + chunk <<< shift := ⟨_, rfl⟩
  have addr : Addressed pool page shift chunk p := by
    rw [isAddr]
    exact addressed based.aligned high inside
  have notOutside : ¬(p < pool.start ∨ p > pool.finish) := by
    obtain ⟨bound, -⟩ := chunk_offset high inside
    have positive := Nat.two_pow_pos shift
    have base := page_addr_eq pool page
    unfold pagesize at within bound
    omega
  rw [← isAddr, Pool.ngxSlabFreeLocked, if_neg notOutside]
  dsimp only
  rw [addr.number, load_valid pool.cells (valid_page below), Option.bind_eq_bind, Option.bind_some,
    formatted.type]
  rcases Nat.lt_trichotomy shift slabExactShift with isSmall | rfl | isBig
  · rw [type_small isSmall]
    exact refuse_small formatted isSmall clear addr
  · exact refuse_exact inside clear addr
  · rw [type_big isBig]
    exact refuse_big formatted isBig inside clear addr

end Refused

section Twice

variable {pool after : Pool} {layout layout' : Layout} {page shift chunk count : Nat}

def alreadyFree : List Message := [.pageIsAlreadyFree, .pointerToWrongChunk, .chunkIsAlreadyFree]

theorem block_twice (sound : Sound pool layout 0 0) (based : Based pool) (below : page < pool.last)
    (own : layout.span page = ⟨.block, page, count⟩) :
    ∃ after, pool.ngxSlabFreeLocked (pool.pageAddr page) = some after ∧
      after.ngxSlabFreeLocked (pool.pageAddr page) = some (after.slabError .pageIsAlreadyFree) := by
  obtain ⟨after, layout', freed, newSound, moves, isFree⟩ := free_pages_spec sound based below own
  have beside := beside_of_moves moves
  have covered := (sound.tiled page below).1
  have aligned : pool.pageAddr page % pagesize = 0 := by
    have base := page_addr_eq pool page
    have start := based.aligned
    unfold pagesize at start ⊢
    omega
  rw [own] at covered
  refine ⟨after, freed, ?_⟩
  rw [← page_addr_same page beside.start] at aligned ⊢
  have refused := refuse_free_page newSound (based_beside beside based) (by rw [beside.last]; exact below)
    (isFree page covered) (Nat.le_refl _) (by unfold pagesize; omega)
  rw [if_pos aligned] at refused
  exact refused

theorem chunk_twice (sound : Sound pool layout 0 0) (based : Based pool) (below : page < pool.last)
    (isSlots : (layout.span page).kind = .slots shift) (usable : reserved shift ≤ chunk)
    (inside : chunk < capacity shift) (set : taken pool page shift chunk = true) :
    ∃ after, pool.ngxSlabFreeLocked (pool.pageAddr page + chunk <<< shift) = some after ∧
      ∃ message ∈ alreadyFree, after.ngxSlabFreeLocked (pool.pageAddr page + chunk <<< shift) =
        some (after.slabError message) := by
  have high := (slot_formatted sound below isSlots).high
  obtain ⟨after, layout', freed, newSound, beside, outcome⟩ :=
    free_chunk_spec sound based below isSlots usable inside set
  have newBased := based_beside beside based
  have newBelow : page < after.last := by rw [beside.last]; exact below
  refine ⟨after, freed, ?_⟩
  rw [← page_addr_same page beside.start]
  rcases outcome with ⟨sameSpan, clear, -⟩ | ⟨isFree, -⟩
  · refine ⟨.chunkIsAlreadyFree, by decide, ?_⟩
    exact refuse_chunk newSound newBased newBelow (by rw [sameSpan, isSlots]) inside clear
  · obtain ⟨lower, upper⟩ := chunk_in_page after page high inside
    refine ⟨_, ?_, refuse_free_page newSound newBased newBelow isFree lower upper⟩
    split_ifs <;> decide

end Twice

/-- In every state that any calls lead to, freeing a block in use a second time
adds one error to the log and changes nothing else of the pool. -/
theorem double_free_detected {slots finish : Nat} (pages : 1 ≤ Pool.initLast slots finish)
    (finite : finish < 2 ^ 64) {state : State} (reached : Reachable (slabSystem slots finish) state)
    {p size : Nat} (mem : (p, size) ∈ state.live) : ∃ once, state.pool.ngxSlabFreeLocked p = some once ∧
      ∃ message ∈ alreadyFree, once.ngxSlabFreeLocked p = some { once with log := message :: once.log } := by
  obtain ⟨layout, held⟩ := reachable_held pages finite reached
  have sound := held.tallied.sound
  have based := held.tallied.based
  obtain ⟨page, below, placed⟩ := (held.placed p (extentOf size)).mpr ⟨size, mem, rfl⟩
  rcases placed_at_cases sound below placed with ⟨count, own, rfl, -⟩ |
      ⟨shift, chunk, isSlots, -, usable, inside, set, rfl, -⟩
  · obtain ⟨once, freed, refused⟩ := block_twice sound based below own
    exact ⟨once, freed, .pageIsAlreadyFree, by decide, refused⟩
  · rw [← Nat.shiftLeft_eq]
    exact chunk_twice sound based below isSlots usable inside set

theorem double_free_of_a_chunk : ∃ state, Reachable (slabSystem 0 16384) state ∧
    (8224, 10) ∈ state.live ∧ ∃ once, state.pool.ngxSlabFreeLocked 8224 = some once ∧
    ∃ message ∈ alreadyFree,
        once.ngxSlabFreeLocked 8224 = some { once with log := message :: once.log } := by
  obtain ⟨state, reached, isLive⟩ := two_blocks_reachable
  have mem : (8224, 10) ∈ state.live := by
    rw [isLive]
    exact List.mem_cons_self
  exact ⟨state, reached, mem, double_free_detected (by decide) (by decide) reached mem⟩

end ServerCore.NginxSlabDoubleFree
