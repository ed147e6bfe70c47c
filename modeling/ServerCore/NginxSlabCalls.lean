import ServerCore.NginxSlabBits

/-!
# Chunks taken and given back

Each allocation from a page is reduced to one change of a bit and the
decision whether the page leaves the list; each release to one change of a
bit and the decision whether the page is given back.
-/

namespace ServerCore.NginxSlabCalls

open BitMask CircularList NginxSlab NginxSlabLayout NginxSlabPages NginxSlabBlocks NginxSlabChunks
open NginxSlabBits List Option Function

variable {cells : Ref → Page}
variable {chunk bitmap map n : Nat}

/-- What is left of a change of one chunk's bit when links and counters are not
looked at. -/
structure Touches (pool after : Pool) (page shift chunk : Nat) (value : Bool) : Prop where
  start : after.start = pool.start
  finish : after.finish = pool.finish
  last : after.last = pool.last
  log : after.log = pool.log
  slab : ∀ other, other ≠ page → (after.cells (.page other)).slab = (pool.cells (.page other)).slab
  map : ∀ other, other ≠ page → SameMap pool after other
  here : taken after page shift chunk = value
  beside : ∀ other < capacity shift, other ≠ chunk →
    taken after page shift other = taken pool page shift other

section Base

variable {pool after final : Pool} {layout : Layout} {page shift chunk hole held : Nat} {value : Bool}

theorem sound_same (sound : Sound pool layout hole held) (start : after.start = pool.start)
    (last : after.last = pool.last) (pfree : after.pfree = pool.pfree) (cells : after.cells = pool.cells)
    (memory : after.memory = pool.memory) : Sound after layout hole held := by
  obtain ⟨size, tiled, merged, hollow, single, described, freeRing, freeMem, slotRing, slotMem,
    counted⟩ := sound
  have sameNext : nextOf after = nextOf pool := by
    funext ref
    rw [nextOf, cells, nextOf]
  have samePrev : prevOf after = prevOf pool := by
    funext ref
    rw [prevOf, cells, prevOf]
  rw [← last] at size tiled merged hollow single described freeMem slotMem counted
  rw [← sameNext, ← samePrev] at freeRing slotRing
  refine ⟨size, tiled, merged, hollow, single, ?_, freeRing, freeMem, slotRing, ?_, by rw [pfree, counted]⟩
  · intro page below outside
    exact described_same pool after start last memory (by rw [cells]) (described page below outside)
  · intro shift low high page
    rw [slotMem shift low high page, full_congr pool after low start (same_map_of_memory memory)
      (by rw [cells])]

theorem page_addr_same (page : Nat) (start : after.start = pool.start) :
    after.pageAddr page = pool.pageAddr page := by
  rw [Pool.pageAddr, start, Pool.pageAddr]

theorem taken_relinked (same : (cells (.page page)).slab = (pool.cells (.page page)).slab) :
    taken (withCells pool cells) page shift chunk = taken pool page shift chunk := by
  change (if _ then _ else if _ then (cells (.page page)).slab.getLsbD chunk
    else (cells (.page page)).slab.getLsbD (slabMapShift + chunk)) = _
  rw [same]
  rfl

theorem touches_of_marks (marks : Marks pool after page shift chunk value)
    (finish : after.finish = pool.finish) (log : after.log = pool.log)
    (slabs : ∀ ref, (cells ref).slab = (after.cells ref).slab) :
    Touches pool (withCells after cells) page shift chunk value := by
  refine ⟨marks.refits.start, finish, marks.refits.last, log, ?_, marks.refits.map, ?_, ?_⟩
  · intro other differ
    exact (slabs _).trans (congrArg Page.slab (marks.refits.cells.other _ (page_ne differ)))
  · rw [taken_relinked (slabs _), marks.here]
  · intro other below differ
    rw [taken_relinked (slabs _), marks.beside other below differ]

end Base

section Claim

variable {pool after : Pool} {layout : Layout} {page shift chunk : Nat}

theorem claim_chunk (sound : Sound pool layout 0 0) (low : minShift ≤ shift)
    (high : shift < pagesizeShift) (listed : page ∈ layout.slotOrder shift)
    (marks : Marks pool after page shift chunk true) (cond : Prop) [Decidable cond]
    (isFull : cond ↔ Full after page shift) :
    ∃ cells layout', after.onlyIf cond (fun pool => pool.detach (.page page) (typeOf shift)) =
        some (withCells after cells) ∧
      layout'.span = layout.span ∧ Sound (withCells after cells) layout' 0 0 ∧
      ∀ ref, (cells ref).slab = (after.cells ref).slab := by
  by_cases full : Full after page shift
  · obtain ⟨cells, layout', detached, sameSpan, newSound, slabs⟩ :=
      detach_sound sound low high listed marks.refits marks.formatted full
    exact ⟨cells, layout', (if_pos (isFull.mpr full)).trans detached, sameSpan, newSound, slabs⟩
  · obtain ⟨layout', sameSpan, newSound, -⟩ :=
      refit_sound sound low high listed marks.refits marks.formatted full
    exact ⟨after.cells, layout', if_neg (fun holds => full (isFull.mp holds)), sameSpan, newSound,
      fun _ => rfl⟩

def Allocates (pool : Pool) (layout : Layout) (page shift : Nat)
    (result : Option (Option (Pool × Nat))) : Prop :=
  ∃ after chunk layout', result = some (some (after, pool.pageAddr page + chunk <<< shift)) ∧
    chunk < capacity shift ∧ taken pool page shift chunk = false ∧ layout'.span = layout.span ∧
    Sound after layout' 0 0 ∧ Touches pool after page shift chunk true ∧
    after.stats = (pool.countUsed (shift - minShift)).stats

theorem type_small (isSmall : shift < slabExactShift) : typeOf shift = .small := if_pos isSmall

theorem type_big (isBig : slabExactShift < shift) : typeOf shift = .big := by
  rw [typeOf, if_neg (by omega), if_neg (by omega)]

section

variable (sound : Sound pool layout 0 0)
include sound

theorem alloc_small_spec (low : minShift ≤ shift) (high : shift < pagesizeShift)
    (isSmall : shift < slabExactShift) (listed : page ∈ layout.slotOrder shift) :
    Allocates pool layout page shift (pool.allocSmall (shift - minShift) shift page) := by
  obtain ⟨-, -, notFull, formatted⟩ := slot_page sound low high listed
  have size := capacity_small low isSmall
  have search := scan_words_spec (fun n => pool.memory (pool.pageAddr page + 8 * n))
    (Pool.mapWords shift) 0
  rw [Pool.allocSmall]
  cases found : Pool.scanWords (fun n => pool.memory (pool.pageAddr page + 8 * n))
      (Pool.mapWords shift) 0 with
  | none =>
    rw [found] at search
    exact absurd ((full_small low isSmall).mpr fun n below => search n (Nat.zero_le _) (by omega)) notFull
  | some result =>
    obtain ⟨n, i, m⟩ := result
    rw [found] at search
    obtain ⟨inMap, inWord, rfl, clear, before⟩ := search
    obtain ⟨chunk, isChunk⟩ : ∃ chunk, chunk = n * 64 + i := ⟨_, rfl⟩
    have quotient : chunk / 64 = n := by omega
    have remainder : chunk % 64 = i := by omega
    have notTaken : taken pool page shift chunk = false := by
      rw [taken_small pool isSmall, quotient, remainder]
      exact clear
    have usable : reserved shift ≤ chunk := by
      by_contra inside
      rw [formatted.reserve chunk (by omega)] at notTaken
      cases notTaken
    have marks := marks_stat (marks_small formatted isSmall (by omega) usable
      (fun j => by
        rw [quotient, remainder]
        exact set_bit inWord j)) (shift - minShift) fun stat => { stat with used := stat.used + 1 }
    rw [quotient] at marks
    obtain ⟨cells, layout', done, sameSpan, newSound, slabs⟩ := claim_chunk sound low high listed marks
      (((pool.setWord (pool.pageAddr page + 8 * n)
          (pool.memory (pool.pageAddr page + 8 * n) ||| (1 : Word) <<< i)).countUsed
            (shift - minShift)).memory (pool.pageAddr page + 8 * n) = slabBusy ∧
        ∀ k < Pool.mapWords shift, n < k → ((pool.setWord (pool.pageAddr page + 8 * n)
          (pool.memory (pool.pageAddr page + 8 * n) ||| (1 : Word) <<< i)).countUsed
            (shift - minShift)).memory (pool.pageAddr page + 8 * k) = slabBusy) (by
        rw [full_small low isSmall]
        constructor
        · intro rest k below
          rcases lt_trichotomy k n with less | rfl | more
          · have apart : pool.pageAddr page + 8 * k ≠ pool.pageAddr page + 8 * n := by omega
            exact (update_of_ne apart _ _).trans (before k (Nat.zero_le _) less)
          · exact rest.1
          · exact rest.2 k below more
        · exact fun busy => ⟨busy n (by omega), fun k below _ => busy k below⟩)
    refine ⟨_, chunk, layout', ?_, by omega, notTaken, sameSpan, newSound,
      touches_of_marks marks rfl rfl slabs, rfl⟩
    rw [type_small isSmall] at done
    rw [isChunk]
    exact bind_some_of done rfl

theorem alloc_exact_spec (listed : page ∈ layout.slotOrder slabExactShift) :
    Allocates pool layout page slabExactShift
      (pool.allocExact (slabExactShift - minShift) slabExactShift page) := by
  obtain ⟨below, -, notFull, formatted⟩ := slot_page sound (by decide) (by decide) listed
  have search := scan_word_spec (pool.cells (.page page)).slab
  rw [Pool.allocExact, load_valid pool.cells (valid_page below), bind_eq_bind, bind_some]
  cases found : Pool.scanBits (pool.cells (.page page)).slab slabBusy 65 1 0 with
  | none =>
    rw [found] at search
    apply absurd (full_exact.mpr _) notFull
    rw [slabBusy, eq_all_ones_iff]
    intro j inside
    have set := search j (Nat.zero_le _) inside
    rwa [zero_add] at set
  | some result =>
    obtain ⟨i, m⟩ := result
    rw [found] at search
    obtain ⟨inWord, rfl, clear⟩ := search
    rw [zero_add] at clear ⊢
    obtain ⟨c1, stored, here, beside⟩ := store_spec pool.cells
      (Page.setSlab ((pool.cells (.page page)).slab ||| (1 : Word) <<< i)) (valid_page below)
    have resized : Resized pool.cells c1 page := by
      refine ⟨beside, ?_, ?_, ?_⟩ <;> rw [here, Page.setSlab]
    have marks : Marks pool (withCells pool c1) page slabExactShift i true := by
      apply marks_exact formatted resized
      intro j
      rw [here]
      exact set_bit inWord j
    obtain ⟨cells, layout', done, sameSpan, newSound, slabs⟩ :=
      claim_chunk sound (by decide) (by decide) listed marks
        ((pool.cells (.page page)).slab ||| (1 : Word) <<< i = slabBusy) (by
          rw [full_exact]
          change _ ↔ (c1 (.page page)).slab = slabBusy
          rw [here, Page.setSlab])
    refine ⟨(withCells (withCells pool c1) cells).countUsed (slabExactShift - minShift), i, layout', ?_,
      inWord, clear, sameSpan, sound_same newSound rfl rfl rfl rfl rfl, ?_, rfl⟩
    · exact bind_some_of stored (bind_some_of done rfl)
    · have touches := touches_of_marks marks rfl rfl slabs
      exact ⟨touches.start, touches.finish, touches.last, touches.log, touches.slab, touches.map,
        touches.here, touches.beside⟩

theorem alloc_big_spec (high : shift < pagesizeShift)
    (isBig : slabExactShift < shift) (listed : page ∈ layout.slotOrder shift) :
    Allocates pool layout page shift (pool.allocBig (shift - minShift) shift page) := by
  have low : minShift ≤ shift := by
    unfold slabExactShift at isBig
    unfold minShift
    omega
  obtain ⟨below, -, notFull, formatted⟩ := slot_page sound low high listed
  have bound := capacity_big isBig
  have search := scan_bits_spec (pool.cells (.page page)).slab (bigMask shift) slabMapShift (capacity shift)
    65 (big_mask_get isBig) (by unfold slabMapShift; omega) (by omega) (Nat.zero_le _)
  rw [add_zero] at search
  rw [Pool.allocBig]
  rw [load_valid pool.cells (valid_page below), bind_eq_bind, bind_some]
  dsimp only
  rw [← bigMask]
  cases found : Pool.scanBits (pool.cells (.page page)).slab (bigMask shift) 65
      ((1 : Word) <<< slabMapShift) 0 with
  | none =>
    rw [found] at search
    apply absurd _ notFull
    intro chunk inside
    rw [taken_big pool isBig]
    exact search chunk (Nat.zero_le _) inside
  | some result =>
    obtain ⟨i, m⟩ := result
    rw [found] at search
    obtain ⟨inside, rfl, clear⟩ := search
    obtain ⟨c1, stored, here, beside⟩ := store_spec pool.cells
      (Page.setSlab ((pool.cells (.page page)).slab ||| (1 : Word) <<< (slabMapShift + i)))
      (valid_page below)
    have resized : Resized pool.cells c1 page := by
      refine ⟨beside, ?_, ?_, ?_⟩ <;> rw [here, Page.setSlab]
    have marks : Marks pool (withCells pool c1) page shift i true := by
      apply marks_big formatted isBig resized inside
      intro j
      rw [here]
      exact set_bit (by unfold slabMapShift; omega) j
    obtain ⟨cells, layout', done, sameSpan, newSound, slabs⟩ :=
      claim_chunk sound low high listed marks
        (((pool.cells (.page page)).slab ||| (1 : Word) <<< (slabMapShift + i)) &&& slabMapMask =
          bigMask shift) (by
          rw [full_big marks.formatted isBig]
          change _ ↔ (c1 (.page page)).slab &&& slabMapMask = bigMask shift
          rw [here, Page.setSlab])
    refine ⟨(withCells (withCells pool c1) cells).countUsed (shift - minShift), i, layout', ?_,
      inside, ?_, sameSpan, sound_same newSound rfl rfl rfl rfl rfl, ?_, rfl⟩
    · rw [type_big isBig] at done
      exact bind_some_of stored (bind_some_of done rfl)
    · rw [taken_big pool isBig]
      exact clear
    · have touches := touches_of_marks marks rfl rfl slabs
      exact ⟨touches.start, touches.finish, touches.last, touches.log, touches.slab, touches.map,
        touches.here, touches.beside⟩

theorem alloc_chunk_spec (low : minShift ≤ shift)
    (high : shift < pagesizeShift) (listed : page ∈ layout.slotOrder shift) :
    Allocates pool layout page shift (pool.allocChunk (shift - minShift) shift (.page page)) := by
  rw [Pool.allocChunk]
  rcases lt_trichotomy shift slabExactShift with isSmall | rfl | isBig
  · rw [if_pos isSmall]
    exact alloc_small_spec sound low high isSmall listed
  · exact alloc_exact_spec sound listed
  · rw [if_neg (by omega), if_neg (by omega)]
    exact alloc_big_spec sound high isBig listed

end

end Claim

/-- The pages outside a range keep their spans and bits, or stay free. -/
structure Beside (pool after : Pool) (layout layout' : Layout) (head count : Nat) : Prop where
  start : after.start = pool.start
  finish : after.finish = pool.finish
  last : after.last = pool.last
  log : after.log = pool.log
  kept : ∀ page < pool.last, ¬Within head count page → (layout.span page).kind ≠ .free →
    layout'.span page = layout.span page
  free : ∀ page < pool.last, ¬Within head count page → (layout.span page).kind = .free →
    (layout'.span page).kind = .free
  slab : ∀ page < pool.last, ∀ shift, ¬Within head count page → (layout.span page).kind = .slots shift →
    (after.cells (.page page)).slab = (pool.cells (.page page)).slab
  map : ∀ page < pool.last, ¬Within head count page → SameMap pool after page

section Beside

variable {pool mid after : Pool} {layout layout₁ layout' : Layout} {page shift chunk head count : Nat}
variable {value : Bool}

theorem beside_of_moves (moves : Moves pool after layout layout' head count) :
    Beside pool after layout layout' head count :=
  ⟨moves.base.start, moves.base.finish, moves.base.last, moves.base.log, moves.kept, moves.free,
    moves.slab, fun _ _ _ => same_map_of_memory moves.base.memory⟩

theorem within_one {other : Nat} (outside : ¬Within page 1 other) : other ≠ page := by
  rintro rfl
  exact outside ⟨le_rfl, by omega⟩

theorem beside_of_touches (touches : Touches pool after page shift chunk value)
    (same : layout'.span = layout.span) : Beside pool after layout layout' page 1 := by
  refine ⟨touches.start, touches.finish, touches.last, touches.log, ?_, ?_, ?_, ?_⟩
  · exact fun _ _ _ _ => by rw [same]
  · exact fun _ _ _ isFree => by rw [same, isFree]
  · exact fun other _ _ outside _ => touches.slab other (within_one outside)
  · exact fun other _ outside => touches.map other (within_one outside)

theorem beside_trans (first : Beside pool mid layout layout₁ head count)
    (second : Beside mid after layout₁ layout' head count) :
    Beside pool after layout layout' head count := by
  have last := first.last
  refine ⟨second.start.trans first.start, second.finish.trans first.finish, second.last.trans last,
    second.log.trans first.log, ?_, ?_, ?_, ?_⟩
  · intro other below outside notFree
    have same := first.kept other below outside notFree
    rw [second.kept other (by omega) outside (by rw [same]; exact notFree), same]
  · intro other below outside isFree
    exact second.free other (by omega) outside (first.free other below outside isFree)
  · intro other below shift outside isSlots
    have same := first.kept other below outside (by rw [isSlots]; exact nofun)
    rw [second.slab other (by omega) shift outside (by rw [same, isSlots]),
      first.slab other below shift outside isSlots]
  · intro other below outside n small
    have same := first.map other below outside n small
    have next := second.map other (by omega) outside n small
    rw [page_addr_same other first.start] at next
    exact next.trans same

theorem beside_taken (beside : Beside pool after layout layout' head count) (below : page < pool.last)
    (outside : ¬Within head count page) (isSlots : (layout.span page).kind = .slots shift)
    (low : minShift ≤ shift) (inside : chunk < capacity shift) :
    taken after page shift chunk = taken pool page shift chunk := by
  have bound := capacity_le low
  exact taken_congr beside.start (beside.map page below outside)
    (beside.slab page below shift outside isSlots) fun _ => by omega

end Beside

section Fresh

variable {pool : Pool} {layout : Layout} {page shift : Nat}

theorem reserved_succ_lt (low : minShift ≤ shift) (high : shift < pagesizeShift) :
    reserved shift + 1 < capacity shift := by
  unfold pagesizeShift at high
  interval_cases shift <;> decide

theorem zero_words_memory (bitmap : Nat) (words : List Nat) (pool : Pool) (addr : Nat) :
    (words.foldl (fun pool i => pool.setWord (bitmap + 8 * i) 0) pool).memory addr =
      if ∃ i ∈ words, addr = bitmap + 8 * i then 0 else pool.memory addr := by
  induction words generalizing pool with
  | nil => simp
  | cons first rest ih =>
    rw [foldl_cons, ih]
    by_cases later : ∃ i ∈ rest, addr = bitmap + 8 * i
    · obtain ⟨i, mem, same⟩ := later
      rw [if_pos ⟨i, mem, same⟩, if_pos ⟨i, mem_cons_of_mem _ mem, same⟩]
    · rw [if_neg later]
      change update pool.memory (bitmap + 8 * first) 0 addr = _
      by_cases here : addr = bitmap + 8 * first
      · rw [here, update_self, if_pos ⟨first, mem_cons_self .., rfl⟩]
      · rw [update_of_ne here, if_neg]
        rintro ⟨i, mem, same⟩
        rcases mem_cons.mp mem with rfl | inRest
        · exact here same
        · exact later ⟨i, inRest, same⟩

theorem zero_words_base {words : List Nat} (pool : Pool) :
    ∃ memory, words.foldl (fun pool i => pool.setWord (bitmap + 8 * i) 0) pool =
      { pool with memory := memory } := by
  induction words generalizing pool with
  | nil => exact ⟨pool.memory, rfl⟩
  | cons first rest ih => exact ih _

theorem init_bitmap_base : ∃ memory, pool.initBitmap bitmap map n = { pool with memory := memory } :=
  zero_words_base _

theorem init_bitmap_first (bitmap map n : Nat) :
    (pool.initBitmap bitmap map n).memory bitmap = ((2 : Word) <<< n) - 1 := by
  rw [Pool.initBitmap, zero_words_memory, if_neg]
  · exact update_self ..
  · rintro ⟨i, mem, same⟩
    rw [mem_range'_1] at mem
    omega

theorem init_bitmap_rest {i : Nat} (pos : 0 < i) (below : i < map) :
    (pool.initBitmap bitmap map n).memory (bitmap + 8 * i) = 0 := by
  rw [Pool.initBitmap, zero_words_memory, if_pos]
  refine ⟨i, ?_, rfl⟩
  rw [mem_range'_1]
  omega

theorem init_bitmap_outside (bitmap map n : Nat) {addr : Nat}
    (outside : ∀ i < max map 1, addr ≠ bitmap + 8 * i) :
    (pool.initBitmap bitmap map n).memory addr = pool.memory addr := by
  rw [Pool.initBitmap, zero_words_memory, if_neg]
  · exact update_of_ne (fun same => outside 0 (by omega) (by omega)) _ _
  · rintro ⟨i, mem, same⟩
    rw [mem_range'_1] at mem
    exact outside i (by omega) same

/-- The bits of a new page: those of the bitmap itself and of the first chunk. -/
def Opened (pool : Pool) (page shift : Nat) : Prop :=
  ∀ chunk < capacity shift, taken pool page shift chunk = decide (chunk ≤ reserved shift)

theorem opened_not_full (low : minShift ≤ shift) (high : shift < pagesizeShift)
    (opened : Opened pool page shift) : ¬Full pool page shift := by
  intro full
  have room := reserved_succ_lt low high
  have set := full (reserved shift + 1) room
  rw [opened _ room] at set
  simp at set

theorem opened_small (low : minShift ≤ shift) (isSmall : shift < slabExactShift)
    (first : pool.memory (pool.pageAddr page) = ((2 : Word) <<< Pool.mapChunks shift) - 1)
    (rest : ∀ i, 0 < i → i < Pool.mapWords shift → pool.memory (pool.pageAddr page + 8 * i) = 0) :
    Opened pool page shift := by
  intro chunk below
  have size := capacity_small low isSmall
  have few : Pool.mapChunks shift + 1 ≤ 64 := by
    unfold minShift at low
    unfold slabExactShift at isSmall
    interval_cases shift <;> decide
  rw [taken_small pool isSmall, reserved, if_pos isSmall]
  by_cases inFirst : chunk < 64
  · rw [show chunk / 64 = 0 by omega, show chunk % 64 = chunk by omega, mul_zero, add_zero, first,
      show (2 : Word) <<< Pool.mapChunks shift = (1 : Word) <<< (Pool.mapChunks shift + 1) by
        rfl, low_bits few]
    simp [Nat.lt_succ_iff]
  · rw [rest (chunk / 64) (by omega) (by omega)]
    simp
    omega

theorem opened_exact (slab : (pool.cells (.page page)).slab = 1) : Opened pool page slabExactShift := by
  intro chunk below
  rw [taken_exact, slab]
  change ((1 : Word) <<< 0).getLsbD chunk = decide (chunk ≤ 0)
  simp

theorem of_nat_get {number j : Nat} (small : number < 16) (beyond : 4 ≤ j) :
    (BitVec.ofNat 64 number).getLsbD j = false := by
  rw [BitVec.getLsbD_ofNat, Nat.testBit_lt_two_pow, Bool.and_false]
  calc number < 2 ^ 4 := small
    _ ≤ 2 ^ j := Nat.pow_le_pow_right (by decide) beyond

theorem fresh_big_get (high : shift < pagesizeShift)
    (slab : (pool.cells (.page page)).slab = (1 : Word) <<< slabMapShift ||| BitVec.ofNat 64 shift) :
    (pool.cells (.page page)).slab.getLsbD (slabMapShift + chunk) = decide (chunk = 0) := by
  unfold pagesizeShift at high
  rw [slab, BitVec.getLsbD_or, of_nat_get (by omega) (by unfold slabMapShift; omega),
    get_bit (by decide)]
  simp

theorem opened_big (high : shift < pagesizeShift) (isBig : slabExactShift < shift)
    (slab : (pool.cells (.page page)).slab = (1 : Word) <<< slabMapShift ||| BitVec.ofNat 64 shift) :
    Opened pool page shift := by
  intro chunk below
  rw [taken_big pool isBig, fresh_big_get high slab, reserved, if_neg (by omega)]
  simp

/-- The word `slab` of a new page. -/
def freshSlab (shift : Nat) : Word :=
  if shift < slabExactShift then BitVec.ofNat 64 shift
  else if shift = slabExactShift then 1
  else (1 : Word) <<< slabMapShift ||| BitVec.ofNat 64 shift

theorem formatted_opened (low : minShift ≤ shift) (high : shift < pagesizeShift)
    (type : (pool.cells (.page page)).type = typeOf shift)
    (slab : (pool.cells (.page page)).slab = freshSlab shift) (opened : Opened pool page shift) :
    Formatted pool page shift := by
  refine ⟨low, high, type, ?_, ?_, ?_, ?_⟩
  · intro isSmall
    rw [slab, freshSlab, if_pos isSmall]
  · intro isBig
    rw [slab, freshSlab, if_neg (by omega), if_neg (by omega)]
    unfold pagesizeShift at high
    interval_cases shift <;> decide
  · intro isBig chunk beyond
    rw [freshSlab, if_neg (by omega), if_neg (by omega)] at slab
    have pos := reserved_lt low high
    rw [taken_big pool isBig, fresh_big_get high slab]
    exact decide_eq_false (by omega)
  · intro chunk inside
    rw [opened chunk (lt_trans inside (reserved_lt low high))]
    exact decide_eq_true (le_of_lt inside)

/-- What a new page of a slot is: it was free, and all its usable chunks but
the first one are. -/
structure NewPage (pool after : Pool) (layout layout' : Layout) (page shift : Nat) : Prop where
  below : page < pool.last
  wasFree : (layout.span page).kind = .free
  own : layout'.span page = ⟨.slots shift, page, 1⟩
  sound : Sound after layout' 0 0
  opened : Opened after page shift
  beside : Beside pool after layout layout' page 1
  stats : after.stats = (pool.setStat (shift - minShift) fun stat =>
    { stat with total := stat.total + (capacity shift - reserved shift), used := stat.used + 1 }).stats

variable {mid written : Pool} {layout₁ : Layout}

theorem open_page (low : minShift ≤ shift) (high : shift < pagesizeShift)
    (empty : layout.slotOrder shift = []) (before : Sound pool layout 0 0)
    (sound : Sound mid layout₁ 0 0) (moves : Moves pool mid layout layout₁ page 1)
    (below : page < pool.last) (wasFree : (layout.span page).kind = .free)
    (own : layout₁.span page = ⟨.block, page, 1⟩)
    (isWritten : ∃ memory, written = { mid with memory := memory })
    (map : ∀ other, other ≠ page → SameMap mid written other)
    (opens : ∀ final : Pool, final.start = mid.start → final.memory = written.memory →
      (final.cells (.page page)).slab = freshSlab shift → Opened final page shift) :
    ∃ after layout', written.enlist (shift - minShift) page (freshSlab shift) (typeOf shift)
        (capacity shift - reserved shift) = some after ∧ after.start = pool.start ∧
      NewPage pool after layout layout' page shift := by
  obtain ⟨memory, isMemory⟩ := isWritten
  have sameLast := moves.base.last
  have noneListed : layout₁.slotOrder shift = [] := by
    apply eq_nil_iff_forall_not_mem.mpr
    intro other mem
    obtain ⟨below', isSlots, notFull⟩ := (sound.slotMem shift low high other).mp mem
    rw [sameLast] at below'
    have outside : ¬Within page 1 other := by
      intro inside
      rw [show other = page by unfold Within at inside; omega, own] at isSlots
      cases isSlots
    have notFree : (layout.span other).kind ≠ .free := by
      intro isFree
      rw [moves.free other below' outside isFree] at isSlots
      cases isSlots
    have same := moves.kept other below' outside notFree
    rw [same] at isSlots
    have listed : other ∈ layout.slotOrder shift := by
      rw [before.slotMem shift low high]
      refine ⟨below', isSlots, fun full => notFull ?_⟩
      exact (full_congr pool mid low moves.base.start (same_map_of_memory moves.base.memory)
        (moves.slab other below' shift outside isSlots)).mpr full
    rw [empty] at listed
    cases listed
  have refits : Refits mid written page := by
    rw [isMemory] at map ⊢
    exact ⟨rfl, rfl, rfl, ⟨fun _ _ => rfl, rfl, rfl, rfl⟩, map⟩
  obtain ⟨cells, done, slab, type, others, complete⟩ := enlist_sound sound low high
    (by rw [sameLast]; exact below) own noneListed refits (by rw [isMemory]) (freshSlab shift)
    (capacity shift - reserved shift)
  obtain ⟨after, isAfter⟩ : ∃ after, after = (withCells written cells).setStat (shift - minShift)
    fun stat => { stat with
      total := stat.total + (capacity shift - reserved shift), used := stat.used + 1 } := ⟨_, rfl⟩
  have startAfter : after.start = mid.start := by rw [isAfter]; exact refits.start
  have opened : Opened after page shift := opens after startAfter (by rw [isAfter]; rfl)
    (by rw [isAfter]; exact slab)
  have formatted : Formatted after page shift := formatted_opened low high (by rw [isAfter]; exact type)
    (by rw [isAfter]; exact slab) opened
  obtain ⟨layout', isSpan, newSound⟩ := complete after (by rw [isAfter]; rfl) (by rw [isAfter]; rfl)
    (by rw [isAfter]; rfl) (by rw [isAfter]; rfl) (by rw [isAfter]; rfl) formatted
    (opened_not_full low high opened)
  have outsideSpan : ∀ other, ¬Within page 1 other → layout'.span other = layout₁.span other := by
    intro other outside
    rw [isSpan]
    exact paint_outside outside
  refine ⟨after, layout', by rw [done, isAfter], startAfter.trans moves.base.start, below, wasFree, ?_,
    newSound, opened, ?_, ?_⟩
  · rw [isSpan]
    exact paint_inside ⟨le_rfl, Nat.lt_succ_self _⟩
  · apply beside_trans (beside_of_moves moves)
    have isLast : after.last = mid.last := by rw [isAfter]; exact refits.last
    refine ⟨startAfter, by rw [isAfter, isMemory]; rfl, isLast,
      by rw [isAfter, isMemory]; rfl, ?_, ?_, ?_, ?_⟩
    · exact fun other _ outside _ => outsideSpan other outside
    · exact fun other _ outside isFree => by rw [outsideSpan other outside, isFree]
    · intro other _ _ outside _
      rw [isAfter]
      exact others other (within_one outside)
    · intro other _ outside n small
      rw [isAfter]
      exact map other (within_one outside) n small
  · rw [isAfter, isMemory]
    change update mid.stats _ _ = update pool.stats _ _
    rw [moves.base.stats]

def Refused (pool after : Pool) (slot : Nat) : Prop :=
  ∃ log, (log = pool.log ∨ log = .noMemory :: pool.log) ∧
    after = ({ pool with log := log }).setStat slot fun stat => { stat with fails := stat.fails + 1 }

theorem alloc_new_page_spec (sound : Sound pool layout 0 0) (low : minShift ≤ shift)
    (high : shift < pagesizeShift) (empty : layout.slotOrder shift = []) :
    ∃ after addr, pool.allocNewPage (shift - minShift) shift = some (after, addr) ∧
      ((∃ page layout', addr = pool.pageAddr page + reserved shift <<< shift ∧
          NewPage pool after layout layout' page shift) ∨
        (addr = 0 ∧ Refused pool after (shift - minShift))) := by
  have search := alloc_pages_spec sound (show 0 < 1 by decide)
  rw [Pool.allocNewPage]
  obtain ⟨result, isResult⟩ : ∃ result, result = pool.ngxSlabAllocPages 1 := ⟨_, rfl⟩
  rw [← isResult] at search ⊢
  match result, search with
  | some (after, none), search =>
    refine ⟨_, 0, rfl, .inr ⟨rfl, ?_⟩⟩
    rcases search with rfl | rfl
    · exact ⟨_, .inl rfl, rfl⟩
    · exact ⟨_, .inr rfl, rfl⟩
  | some (mid, some page), search =>
    obtain ⟨layout₁, midSound, moves, blocks⟩ := search
    obtain ⟨below, wasFree, own⟩ := blocks page ⟨le_rfl, Nat.lt_succ_self _⟩
    rw [bind_eq_bind, bind_some]
    dsimp only
    have slabIs : ∀ {other : Nat}, freshSlab other = if other < slabExactShift then BitVec.ofNat 64 other
      else if other = slabExactShift then 1
      else (1 : Word) <<< slabMapShift ||| BitVec.ofNat 64 other := rfl
    rcases lt_trichotomy shift slabExactShift with isSmall | rfl | isBig
    · rw [if_pos isSmall]
      have far : ∀ other, other ≠ page → SameMap mid (mid.initBitmap (mid.pageAddr page)
          (Pool.mapWords shift) (Pool.mapChunks shift)) other := by
        intro other differ n small
        apply init_bitmap_outside
        have words : Pool.mapWords shift ≤ 8 := by
          have size := capacity_small low isSmall
          have bound := capacity_le low
          omega
        rw [page_addr_eq, page_addr_eq]
        omega
      obtain ⟨after, layout', done, start, fresh⟩ := open_page low high empty sound midSound moves below
        wasFree own init_bitmap_base far (by
          intro final sameStart sameMemory _
          have addr := page_addr_same page sameStart
          apply opened_small low isSmall
          · rw [addr, sameMemory, init_bitmap_first]
          · intro i pos inside
            rw [addr, sameMemory, init_bitmap_rest pos inside])
      refine ⟨after, _, ?_, .inl ⟨page, layout', rfl, fresh⟩⟩
      rw [slabIs, if_pos isSmall, type_small isSmall, reserved, if_pos isSmall] at done
      rw [reserved, if_pos isSmall, ← page_addr_same page start]
      exact bind_some_of done rfl
    · obtain ⟨after, layout', done, start, fresh⟩ := open_page low high empty sound midSound moves below
        wasFree own ⟨mid.memory, rfl⟩ (fun _ _ _ _ => rfl) (fun _ _ _ slab => opened_exact slab)
      refine ⟨after, _, ?_, .inl ⟨page, layout', rfl, fresh⟩⟩
      rw [← page_addr_same page start]
      exact bind_some_of done rfl
    · rw [if_neg (by omega), if_neg (by omega)]
      obtain ⟨after, layout', done, start, fresh⟩ := open_page low high empty sound midSound moves below
        wasFree own ⟨mid.memory, rfl⟩ (fun _ _ _ _ => rfl) (by
          intro final _ _ slab
          rw [slabIs, if_neg (by omega), if_neg (by omega)] at slab
          exact opened_big high isBig slab)
      refine ⟨after, _, ?_, .inl ⟨page, layout', rfl, fresh⟩⟩
      rw [slabIs, if_neg (by omega), if_neg (by omega), type_big isBig, reserved, if_neg (by omega)] at done
      rw [reserved, if_neg (by omega), Nat.zero_shiftLeft, add_zero, ← page_addr_same page start]
      exact bind_some_of done rfl

end Fresh

section Release

variable {pool mid : Pool} {layout layout₁ : Layout} {page shift chunk : Nat}

theorem next_null_iff_full (sound : Sound pool layout 0 0) (low : minShift ≤ shift)
    (high : shift < pagesizeShift) (below : page < pool.last)
    (isSlots : (layout.span page).kind = .slots shift) :
    (pool.cells (.page page)).next = .null ↔ Full pool page shift := by
  constructor
  · intro isNull
    by_contra notFull
    have listed := (sound.slotMem shift low high page).mpr ⟨below, isSlots, notFull⟩
    have nextMem := ring_next_mem (sound.slotRing shift low high)
      (mem_cons_of_mem _ (mem_map_of_mem listed) : Ref.page page ∈ _)
    rw [show nextOf pool (.page page) = .null from isNull] at nextMem
    simp at nextMem
  · intro full
    have described := sound.described page below (by unfold Within; omega)
    unfold Described at described
    rw [isSlots] at described
    exact described.2 full

theorem slot_formatted (sound : Sound pool layout 0 0) (below : page < pool.last)
    (isSlots : (layout.span page).kind = .slots shift) : Formatted pool page shift := by
  have described := sound.described page below (by unfold Within; omega)
  unfold Described at described
  rw [isSlots] at described
  exact described.1

theorem release_chunk (sound : Sound pool layout 0 0) (low : minShift ≤ shift)
    (high : shift < pagesizeShift) (below : page < pool.last)
    (isSlots : (layout.span page).kind = .slots shift) (inside : chunk < capacity shift) {cond : Prop}
    [Decidable cond] (isFull : cond ↔ Full pool page shift) : ∃ cells, pool.onlyIf cond (fun pool =>
        pool.attach (shift - minShift) (.page page) (typeOf shift)) = some (withCells pool cells) ∧
      (∀ ref, (cells ref).slab = (pool.cells ref).slab) ∧ Formatted (withCells pool cells) page shift ∧
      ∀ mid, Marks (withCells pool cells) mid page shift chunk false →
        ∃ layout', layout'.span = layout.span ∧ Sound mid layout' 0 0 ∧ page ∈ layout'.slotOrder shift := by
  have formatted := slot_formatted sound below isSlots
  have cleared : ∀ cells mid, Marks (withCells pool cells) mid page shift chunk false →
      ¬Full mid page shift := by
    intro cells mid marks full
    have set := full chunk inside
    rw [marks.here] at set
    cases set
  by_cases full : Full pool page shift
  · obtain ⟨cells, attached, slabs, type, complete⟩ := attach_sound sound low high below isSlots full
    refine ⟨cells, (if_pos (isFull.mpr full)).trans attached, slabs, ?_, ?_⟩
    · exact formatted_congr pool (withCells pool cells) rfl (fun _ _ => rfl) (slabs _) type formatted
    · exact fun mid marks => complete mid marks.refits marks.formatted (cleared cells mid marks)
  · refine ⟨pool.cells, if_neg (fun holds => full (isFull.mp holds)), fun _ => rfl, formatted, ?_⟩
    intro mid marks
    have listed := (sound.slotMem shift low high page).mpr ⟨below, isSlots, full⟩
    exact refit_sound sound low high listed marks.refits marks.formatted (cleared _ mid marks)

def SomeUsed (pool : Pool) (page shift : Nat) : Prop :=
  ∃ other, reserved shift ≤ other ∧ other < capacity shift ∧ taken pool page shift other = true

def OtherUsed (pool : Pool) (page shift chunk : Nat) : Prop :=
  ∃ other, reserved shift ≤ other ∧ other < capacity shift ∧ other ≠ chunk ∧
    taken pool page shift other = true

def Releases (pool : Pool) (layout : Layout) (page shift chunk : Nat) (result : Option Pool) : Prop :=
  ∃ after layout', result = some after ∧ Sound after layout' 0 0 ∧
    Beside pool after layout layout' page 1 ∧
    ((layout'.span page = layout.span page ∧ taken after page shift chunk = false ∧
        (∀ other < capacity shift, other ≠ chunk →
          taken after page shift other = taken pool page shift other) ∧
        OtherUsed pool page shift chunk ∧ after.stats = (pool.countFree (shift - minShift)).stats) ∨
      ((layout'.span page).kind = .free ∧ ¬OtherUsed pool page shift chunk ∧
        after.stats = ((pool.setStat (shift - minShift) fun stat =>
          { stat with total := stat.total - (capacity shift - reserved shift) }).countFree
            (shift - minShift)).stats))

theorem finish_release (low : minShift ≤ shift) (high : shift < pagesizeShift)
    (slabs : ∀ ref, (cells ref).slab = (pool.cells ref).slab)
    (marks : Marks (withCells pool cells) mid page shift chunk false)
    (finish : mid.finish = pool.finish) (log : mid.log = pool.log) (stats : mid.stats = pool.stats)
    (sameSpan : layout₁.span = layout.span) (sound : Sound mid layout₁ 0 0)
    (listed : page ∈ layout₁.slotOrder shift) (cond : Prop) [Decidable cond]
    (isUsed : cond ↔ SomeUsed mid page shift) :
    Releases pool layout page shift chunk (if cond then some (mid.countFree (shift - minShift))
      else mid.freeSlotPage (shift - minShift) page (capacity shift - reserved shift)) := by
  have bits : ∀ other < capacity shift, other ≠ chunk →
      taken mid page shift other = taken pool page shift other := by
    intro other inside differ
    rw [marks.beside other inside differ, taken_relinked (slabs _)]
  have used : cond ↔ OtherUsed pool page shift chunk := by
    rw [isUsed]
    constructor
    · rintro ⟨other, usable, inside, set⟩
      have differ : other ≠ chunk := by
        rintro rfl
        rw [marks.here] at set
        cases set
      exact ⟨other, usable, inside, differ, (bits other inside differ).symm.trans set⟩
    · rintro ⟨other, usable, inside, differ, set⟩
      exact ⟨other, usable, inside, (bits other inside differ).trans set⟩
  have touches : Touches pool mid page shift chunk false := by
    refine ⟨marks.refits.start, finish, marks.refits.last, log, ?_, marks.refits.map, marks.here, bits⟩
    intro other differ
    exact (congrArg Page.slab (marks.refits.cells.other _ (page_ne differ))).trans (slabs _)
  have first := beside_of_touches touches sameSpan
  by_cases isOther : OtherUsed pool page shift chunk
  · rw [if_pos (used.mpr isOther)]
    refine ⟨_, layout₁, rfl, sound_same sound rfl rfl rfl rfl rfl, ?_,
      .inl ⟨by rw [sameSpan], marks.here, bits, isOther, ?_⟩⟩
    · exact ⟨first.start, first.finish, first.last, first.log, first.kept, first.free, first.slab, first.map⟩
    · change update mid.stats _ _ = update pool.stats _ _
      rw [stats]
  · rw [if_neg (fun holds => isOther (used.mp holds))]
    obtain ⟨after, layout', freed, newSound, moves, isFree⟩ := free_slot_spec sound low high listed
    have both := beside_trans first (beside_of_moves moves)
    refine ⟨_, layout', bind_some_of freed rfl, sound_same newSound rfl rfl rfl rfl rfl, ?_,
      .inr ⟨isFree, isOther, ?_⟩⟩
    · exact ⟨both.start, both.finish, both.last, both.log, both.kept, both.free, both.slab, both.map⟩
    · have same : after.stats = pool.stats := moves.base.stats.trans stats
      change update (update after.stats _ _) _ _ =
        update (update pool.stats _ _) _ _
      rw [Pool.setStat, Pool.setStat, same]

end Release

section Free

variable {pool : Pool} {layout : Layout} {page shift chunk p : Nat}

theorem chunk_offset (high : shift < pagesizeShift) (inside : chunk < capacity shift) :
    chunk * 2 ^ shift + 2 ^ shift ≤ pagesize ∧ pagesize % 2 ^ shift = 0 := by
  have divides : 2 ^ shift ∣ pagesize := by
    rw [show pagesize = 2 ^ 12 from rfl]
    exact Nat.pow_dvd_pow 2 (by unfold pagesizeShift at high; omega)
  refine ⟨?_, Nat.mod_eq_zero_of_dvd divides⟩
  unfold capacity at inside
  rw [Nat.shiftRight_eq_div_pow] at inside
  calc chunk * 2 ^ shift + 2 ^ shift = (chunk + 1) * 2 ^ shift := by rw [add_mul, one_mul]
    _ ≤ pagesize / 2 ^ shift * 2 ^ shift := Nat.mul_le_mul_right _ inside
    _ ≤ pagesize := Nat.div_mul_le_self _ _

theorem and_page (number : Nat) : number &&& (pagesize - 1) = number % pagesize :=
  Nat.and_two_pow_sub_one_eq_mod number 12

theorem and_size (number shift : Nat) : number &&& (1 <<< shift - 1) = number % 2 ^ shift := by
  rw [Nat.one_shiftLeft]
  exact Nat.and_two_pow_sub_one_eq_mod number shift

structure Addressed (pool : Pool) (page shift chunk p : Nat) : Prop where
  offset : p % pagesize = chunk * 2 ^ shift
  aligned : p % 2 ^ shift = 0
  index : (p % pagesize) >>> shift = chunk
  base : p - p % pagesize = pool.pageAddr page
  number : (p - pool.start) >>> pagesizeShift = page
  above : pool.start ≤ p

theorem addressed (aligned : pool.start % pagesize = 0) (high : shift < pagesizeShift)
    (inside : chunk < capacity shift) :
    Addressed pool page shift chunk (pool.pageAddr page + chunk <<< shift) := by
  obtain ⟨bound, whole⟩ := chunk_offset high inside
  have pos := Nat.two_pow_pos shift
  have start := page_addr_eq pool page
  rw [Nat.shiftLeft_eq]
  have offset : (pool.pageAddr page + chunk * 2 ^ shift) % pagesize = chunk * 2 ^ shift := by
    unfold pagesize at bound aligned ⊢
    omega
  refine ⟨offset, ?_, ?_, ?_, ?_, ?_⟩
  · rw [← Nat.mod_mod_of_dvd _ (Nat.dvd_of_mod_eq_zero whole), offset, Nat.mul_mod_left]
  · rw [offset, Nat.shiftRight_eq_div_pow, Nat.mul_div_cancel _ pos]
  · rw [offset, Nat.add_sub_cancel]
  · unfold pagesize at bound
    unfold pagesizeShift
    omega
  · omega

theorem ne_zero_iff {word : Word} : word ≠ 0 ↔ ∃ j < 64, word.getLsbD j = true := by
  rw [ne_eq, eq_zero_iff]
  simp

theorem used_small (low : minShift ≤ shift) (isSmall : shift < slabExactShift) :
    (pool.memory (pool.pageAddr page) &&& ~~~(((1 : Word) <<< Pool.mapChunks shift) - 1) ≠ 0 ∨
      ∃ i < Pool.mapWords shift, 1 ≤ i ∧ pool.memory (pool.pageAddr page + 8 * i) ≠ 0) ↔
      SomeUsed pool page shift := by
  have size := capacity_small low isSmall
  have few : Pool.mapChunks shift ≤ 8 ∧ 1 ≤ Pool.mapWords shift := by
    unfold minShift at low
    unfold slabExactShift at isSmall
    interval_cases shift <;> decide
  have isReserved : reserved shift = Pool.mapChunks shift := if_pos isSmall
  have first : ∀ j < 64, (pool.memory (pool.pageAddr page) &&&
      ~~~(((1 : Word) <<< Pool.mapChunks shift) - 1)).getLsbD j =
        ((pool.memory (pool.pageAddr page)).getLsbD j && !decide (j < Pool.mapChunks shift)) := by
    intro j inside
    rw [BitVec.getLsbD_and, BitVec.getLsbD_not, low_bits (by omega)]
    simp [inside]
  constructor
  · rintro (inFirst | ⟨i, below, pos, inRest⟩)
    · obtain ⟨j, inside, set⟩ := ne_zero_iff.mp inFirst
      rw [first j inside] at set
      simp only [Bool.and_eq_true, Bool.not_eq_true', decide_eq_false_iff_not] at set
      refine ⟨j, by omega, by omega, ?_⟩
      rw [taken_small pool isSmall, show j / 64 = 0 by omega, show j % 64 = j by omega]
      exact set.1
    · obtain ⟨j, inside, set⟩ := ne_zero_iff.mp inRest
      refine ⟨64 * i + j, by omega, by omega, ?_⟩
      rw [taken_small pool isSmall, show (64 * i + j) / 64 = i by omega,
        show (64 * i + j) % 64 = j by omega]
      exact set
  · rintro ⟨other, usable, inside, set⟩
    rw [taken_small pool isSmall] at set
    by_cases inFirst : other < 64
    · rw [show other / 64 = 0 by omega, show other % 64 = other by omega, mul_zero,
        add_zero] at set
      refine .inl (ne_zero_iff.mpr ⟨other, inFirst, ?_⟩)
      rw [first other inFirst, set]
      simp
      omega
    · exact .inr ⟨other / 64, by omega, by omega, ne_zero_iff.mpr ⟨other % 64, by omega, set⟩⟩

theorem used_exact (pool : Pool) {page : Nat} :
    (pool.cells (.page page)).slab ≠ 0 ↔ SomeUsed pool page slabExactShift := by
  rw [ne_zero_iff]
  constructor
  · rintro ⟨j, inside, set⟩
    exact ⟨j, Nat.zero_le _, inside, set⟩
  · rintro ⟨other, -, inside, set⟩
    exact ⟨other, inside, set⟩

theorem used_big (formatted : Formatted pool page shift) (isBig : slabExactShift < shift) :
    (pool.cells (.page page)).slab &&& slabMapMask ≠ 0 ↔ SomeUsed pool page shift := by
  have bound := capacity_big isBig
  rw [ne_zero_iff]
  constructor
  · rintro ⟨j, inside, set⟩
    rw [BitVec.getLsbD_and, map_mask_get inside] at set
    simp only [Bool.and_eq_true, decide_eq_true_eq] at set
    have here : taken pool page shift (j - slabMapShift) = true := by
      rw [taken_big pool isBig, show slabMapShift + (j - slabMapShift) = j by omega]
      exact set.1
    refine ⟨j - slabMapShift, ?_, ?_, here⟩
    · rw [reserved, if_neg (by omega)]
      exact Nat.zero_le _
    · by_contra beyond
      rw [formatted.upper isBig _ (by omega)] at here
      cases here
  · rintro ⟨other, -, inside, set⟩
    rw [taken_big pool isBig] at set
    refine ⟨slabMapShift + other, by unfold slabMapShift; omega, ?_⟩
    rw [BitVec.getLsbD_and, map_mask_get (by unfold slabMapShift; omega), set]
    simp

theorem formatted_small_shift (formatted : Formatted pool page shift) (isSmall : shift < slabExactShift) :
    ((pool.cells (.page page)).slab &&& slabShiftMask).toNat = shift := by
  rw [formatted.small isSmall]
  unfold slabExactShift at isSmall
  interval_cases shift <;> decide

theorem formatted_big_shift (formatted : Formatted pool page shift) (isBig : slabExactShift < shift) :
    ((pool.cells (.page page)).slab &&& slabShiftMask).toNat = shift := by
  have high := formatted.high
  rw [formatted.big isBig, BitVec.toNat_ofNat]
  unfold pagesizeShift at high
  omega

theorem free_small_spec (sound : Sound pool layout 0 0) (low : minShift ≤ shift)
    (high : shift < pagesizeShift) (isSmall : shift < slabExactShift) (below : page < pool.last)
    (isSlots : (layout.span page).kind = .slots shift) (usable : reserved shift ≤ chunk)
    (inside : chunk < capacity shift) (isTaken : taken pool page shift chunk = true)
    (addr : Addressed pool page shift chunk p) :
    Releases pool layout page shift chunk (pool.freeSmall p page (pool.cells (.page page))) := by
  have formatted := slot_formatted sound below isSlots
  rw [taken_small pool isSmall] at isTaken
  rw [Pool.freeSmall, formatted_small_shift formatted isSmall]
  dsimp only
  rw [and_size, addr.aligned, if_neg (by simp), and_page, addr.index, addr.base,
    if_pos (by
      rw [ne_eq, and_bit_eq_zero (by omega), isTaken]
      decide)]
  obtain ⟨cells, attached, slabs, newFormatted, complete⟩ := release_chunk sound low high below isSlots
    inside (next_null_iff_full sound low high below isSlots)
  rw [type_small isSmall] at attached
  rw [attached, bind_eq_bind, bind_some]
  have marks := marks_small newFormatted isSmall inside usable
    fun j => @clear_bit _ (pool.memory (pool.pageAddr page + 8 * (chunk / 64))) _ (by omega) j
  obtain ⟨layout₁, sameSpan, midSound, listed⟩ := complete _ marks
  have done := finish_release low high slabs marks rfl rfl rfl sameSpan midSound listed _
    (used_small low isSmall)
  rw [show reserved shift = Pool.mapChunks shift from if_pos isSmall] at done
  exact done

theorem free_exact_spec (sound : Sound pool layout 0 0) (below : page < pool.last)
    (isSlots : (layout.span page).kind = .slots slabExactShift) (inside : chunk < capacity slabExactShift)
    (isTaken : taken pool page slabExactShift chunk = true)
    (addr : Addressed pool page slabExactShift chunk p) :
    Releases pool layout page slabExactShift chunk (pool.freeExact p page (pool.cells (.page page))) := by
  have inWord : chunk < 64 := inside
  rw [taken_exact] at isTaken
  rw [Pool.freeExact]
  dsimp only
  rw [show slabExactSize - 1 = 1 <<< slabExactShift - 1 from rfl, and_size, addr.aligned,
    if_neg (by simp), and_page, addr.index, if_pos (by
      rw [ne_eq, and_bit_eq_zero inWord, isTaken]
      decide)]
  obtain ⟨cells, attached, slabs, newFormatted, complete⟩ := release_chunk sound (by decide) (by decide)
    below isSlots inside full_exact.symm
  rw [show typeOf slabExactShift = .exact from rfl] at attached
  rw [attached, bind_eq_bind, bind_some]
  obtain ⟨c2, stored, here, beside⟩ := store_spec cells
    (Page.setSlab ((pool.cells (.page page)).slab &&& ~~~((1 : Word) <<< chunk))) (valid_page below)
  have resized : Resized cells c2 page := by
    refine ⟨beside, ?_, ?_, ?_⟩ <;> rw [here, Page.setSlab]
  have slab : (c2 (.page page)).slab = (pool.cells (.page page)).slab &&& ~~~((1 : Word) <<< chunk) := by
    rw [here, Page.setSlab]
  have marks : Marks (withCells pool cells) (withCells pool c2) page slabExactShift chunk false := by
    apply marks_exact newFormatted resized
    intro j
    rw [slab, clear_bit inWord]
    rw [slabs]
  obtain ⟨layout₁, sameSpan, midSound, listed⟩ := complete _ marks
  have done := finish_release (by decide) (by decide) slabs marks rfl rfl rfl sameSpan midSound listed
    ((pool.cells (.page page)).slab &&& ~~~((1 : Word) <<< chunk) ≠ 0) (by
      rw [← slab]
      exact used_exact (withCells pool c2))
  rw [stored, bind_some]
  exact done

theorem free_big_spec (sound : Sound pool layout 0 0) (high : shift < pagesizeShift)
    (isBig : slabExactShift < shift) (below : page < pool.last)
    (isSlots : (layout.span page).kind = .slots shift) (inside : chunk < capacity shift)
    (isTaken : taken pool page shift chunk = true) (addr : Addressed pool page shift chunk p) :
    Releases pool layout page shift chunk (pool.freeBig p page (pool.cells (.page page))) := by
  have formatted := slot_formatted sound below isSlots
  have low := formatted.low
  have bound := capacity_big isBig
  have inWord : chunk + slabMapShift < 64 := by unfold slabMapShift; omega
  rw [taken_big pool isBig, add_comm] at isTaken
  rw [Pool.freeBig, formatted_big_shift formatted isBig]
  dsimp only
  rw [and_size, addr.aligned, if_neg (by simp), and_page, addr.index, if_pos (by
      rw [ne_eq, and_bit_eq_zero inWord, isTaken]
      decide)]
  obtain ⟨cells, attached, slabs, newFormatted, complete⟩ := release_chunk sound low high
    below isSlots inside
    (next_null_iff_full sound low high below isSlots)
  rw [type_big isBig] at attached
  rw [attached, bind_eq_bind, bind_some]
  obtain ⟨c2, stored, here, beside⟩ := store_spec cells (Page.setSlab
    ((pool.cells (.page page)).slab &&& ~~~((1 : Word) <<< (chunk + slabMapShift)))) (valid_page below)
  have resized : Resized cells c2 page := by
    refine ⟨beside, ?_, ?_, ?_⟩ <;> rw [here, Page.setSlab]
  have slab : (c2 (.page page)).slab =
      (pool.cells (.page page)).slab &&& ~~~((1 : Word) <<< (chunk + slabMapShift)) := by
    rw [here, Page.setSlab]
  have marks : Marks (withCells pool cells) (withCells pool c2) page shift chunk false := by
    apply marks_big newFormatted isBig resized inside
    intro j
    rw [slab, clear_bit inWord, add_comm]
    rw [slabs]
  obtain ⟨layout₁, sameSpan, midSound, listed⟩ := complete _ marks
  have done := finish_release low high slabs marks rfl rfl rfl sameSpan midSound listed
    ((pool.cells (.page page)).slab &&& ~~~((1 : Word) <<< (chunk + slabMapShift)) &&& slabMapMask ≠ 0) (by
      rw [← slab]
      exact used_big marks.formatted isBig)
  rw [stored, bind_some]
  rw [show reserved shift = 0 from if_neg (by omega)] at done
  exact done

/-- The place of the page area: aligned, inside the pool and addressed by words. -/
structure Based (pool : Pool) : Prop where
  positive : 0 < pool.start
  pages : 0 < pool.last
  aligned : pool.start % pagesize = 0
  within : pool.start + pool.last * pagesize ≤ pool.finish
  finite : pool.finish < 2 ^ 64

theorem free_chunk_spec (sound : Sound pool layout 0 0) (based : Based pool) (below : page < pool.last)
    (isSlots : (layout.span page).kind = .slots shift) (usable : reserved shift ≤ chunk)
    (inside : chunk < capacity shift) (isTaken : taken pool page shift chunk = true) :
    Releases pool layout page shift chunk
      (pool.ngxSlabFreeLocked (pool.pageAddr page + chunk <<< shift)) := by
  obtain ⟨-, -, aligned, within, -⟩ := based
  have formatted := slot_formatted sound below isSlots
  have low := formatted.low
  have high := formatted.high
  obtain ⟨p, isAddr⟩ : ∃ p, p = pool.pageAddr page + chunk <<< shift := ⟨_, rfl⟩
  have addr : Addressed pool page shift chunk p := by
    rw [isAddr]
    exact addressed aligned high inside
  have notOutside : ¬(p < pool.start ∨ p > pool.finish) := by
    obtain ⟨bound, -⟩ := chunk_offset high inside
    have pos := Nat.two_pow_pos shift
    have base := page_addr_eq pool page
    unfold pagesize at within bound
    omega
  rw [← isAddr, Pool.ngxSlabFreeLocked, if_neg notOutside]
  dsimp only
  rw [addr.number, load_valid pool.cells (valid_page below), bind_eq_bind, bind_some,
    formatted.type]
  rcases lt_trichotomy shift slabExactShift with isSmall | rfl | isBig
  · rw [type_small isSmall]
    exact free_small_spec sound low high isSmall below isSlots usable inside isTaken addr
  · exact free_exact_spec sound below isSlots inside isTaken addr
  · rw [type_big isBig]
    exact free_big_spec sound high isBig below isSlots inside isTaken addr

theorem free_pages_spec (sound : Sound pool layout 0 0) (based : Based pool) (below : page < pool.last)
    {count : Nat} (own : layout.span page = ⟨.block, page, count⟩) :
    ∃ after layout', pool.ngxSlabFreeLocked (pool.pageAddr page) = some after ∧ Sound after layout' 0 0 ∧
      Moves pool after layout layout' page count ∧
      ∀ other, Within page count other → (layout'.span other).kind = .free := by
  obtain ⟨-, -, aligned, within, finite⟩ := based
  obtain ⟨covered, bounded, same⟩ := sound.tiled page below
  rw [own] at covered bounded same
  dsimp only at bounded
  have pos : 0 < count := by
    unfold Span.covers at covered
    dsimp only at covered
    omega
  have block : ∀ other, Within page count other → other < pool.last ∧
      layout.span other = ⟨.block, page, count⟩ := by
    intro other inside
    refine ⟨?_, same other inside⟩
    unfold Within at inside
    omega
  obtain ⟨after, layout', freed, newSound, moves, free⟩ := free_block_spec sound pos block
  refine ⟨after, layout', ?_, newSound, moves, free⟩
  have described := sound.described page below (by unfold Within; omega)
  rw [own] at described
  obtain ⟨isPage, -, slab⟩ := described
  rw [if_pos rfl] at slab
  have base := page_addr_eq pool page
  have size := sound.size
  have notOutside : ¬(pool.pageAddr page < pool.start ∨ pool.pageAddr page > pool.finish) := by
    unfold pagesize at within
    omega
  have number : (pool.pageAddr page - pool.start) >>> pagesizeShift = page := by
    unfold pagesizeShift
    omega
  have countLow : ∀ j, 63 ≤ j → (BitVec.ofNat 64 count).getLsbD j = false := by
    intro j beyond
    rw [BitVec.getLsbD_ofNat, Nat.testBit_lt_two_pow, Bool.and_false]
    calc count < 2 ^ 63 := by omega
      _ ≤ 2 ^ j := Nat.pow_le_pow_right (by decide) beyond
  have startBit : ∀ j, slabPageStart.getLsbD j = decide (j = 63) := by
    intro j
    rw [slabPageStart, BitVec.getLsbD_twoPow]
    simp [eq_comm]
  have slabBits : ∀ j, (pool.cells (.page page)).slab.getLsbD j =
      ((BitVec.ofNat 64 count).getLsbD j || decide (j = 63)) := by
    intro j
    rw [slab, BitVec.getLsbD_or, startBit]
  have marked : ¬(pool.cells (.page page)).slab &&& slabPageStart = 0 := by
    rw [← ne_eq, ne_zero_iff]
    refine ⟨63, by decide, ?_⟩
    rw [BitVec.getLsbD_and, slabBits, startBit]
    simp
  have cleared : (pool.cells (.page page)).slab &&& ~~~slabPageStart = BitVec.ofNat 64 count := by
    apply BitVec.eq_of_getLsbD_eq
    intro j inside
    rw [BitVec.getLsbD_and, BitVec.getLsbD_not, slabBits, startBit]
    by_cases top : j = 63
    · rw [top, countLow 63 le_rfl]
      rfl
    · simp [top, inside]
  have isCount : ((pool.cells (.page page)).slab &&& ~~~slabPageStart).toNat = count := by
    rw [cleared, BitVec.toNat_ofNat]
    omega
  have notBusy : ¬(pool.cells (.page page)).slab = slabBusy := by
    intro busy
    have all : ((pool.cells (.page page)).slab &&& ~~~slabPageStart).toNat = 2 ^ 63 - 1 := by
      rw [busy]
      decide
    unfold pagesize at within
    omega
  rw [Pool.ngxSlabFreeLocked, if_neg notOutside]
  dsimp only
  rw [number, load_valid pool.cells (valid_page below), bind_eq_bind, bind_some, isPage]
  have aligned' : pool.pageAddr page % pagesize = 0 := by
    unfold pagesize at aligned ⊢
    omega
  rw [Pool.freeBlock, and_page, aligned', if_neg (by simp), if_neg marked, if_neg notBusy, isCount]
  exact freed

end Free

end ServerCore.NginxSlabCalls
