import ServerCore.NginxSlabCalls

/-!
# The blocks that a slab pool has handed out

A layout and the bits of its pages say which blocks are in use: the blocks of
pages, and the chunks with their bit set behind a bitmap. Blocks in use do not
overlap, and each operation adds or removes one of them.
-/

namespace ServerCore.NginxSlabPlaced

open NginxSlab NginxSlabLayout NginxSlabBlocks NginxSlabBits NginxSlabCalls Function

variable {count other : Nat}

/-- A block in use that begins in a page, as its address and its length. -/
def PlacedAt (pool : Pool) (layout : Layout) (page addr extent : Nat) : Prop :=
  match (layout.span page).kind with
  | .free => False
  | .block => page = (layout.span page).head ∧ addr = pool.pageAddr page ∧
      extent = (layout.span page).count * pagesize
  | .slots shift => ∃ chunk, reserved shift ≤ chunk ∧ chunk < capacity shift ∧
      taken pool page shift chunk = true ∧ addr = pool.pageAddr page + chunk <<< shift ∧
      extent = 2 ^ shift

def Placed (pool : Pool) (layout : Layout) (addr extent : Nat) : Prop :=
  ∃ page < pool.last, PlacedAt pool layout page addr extent

section Geometry

variable {pool : Pool} {layout : Layout} {page other shift addr extent address' extent' : Nat}

theorem placed_at_free (isFree : (layout.span page).kind = .free) :
    ¬PlacedAt pool layout page addr extent := by
  unfold PlacedAt
  rw [isFree]
  exact id

theorem placed_at_block (own : layout.span page = ⟨.block, page, count⟩) :
    PlacedAt pool layout page addr extent ↔ addr = pool.pageAddr page ∧ extent = count * pagesize := by
  unfold PlacedAt
  rw [own]
  simp

theorem placed_at_slots (isSlots : (layout.span page).kind = .slots shift) :
    PlacedAt pool layout page addr extent ↔ ∃ chunk, reserved shift ≤ chunk ∧
      chunk < capacity shift ∧ taken pool page shift chunk = true ∧
      addr = pool.pageAddr page + chunk <<< shift ∧ extent = 2 ^ shift := by
  unfold PlacedAt
  rw [isSlots]

section

variable (sound : Sound pool layout 0 0) (below : page < pool.last)
    (placed : PlacedAt pool layout page addr extent)
include sound below placed

theorem placed_at_cases : (∃ count, layout.span page = ⟨.block, page, count⟩ ∧ addr = pool.pageAddr page ∧
        extent = count * pagesize ∧ 0 < count ∧ page + count ≤ pool.last) ∨
      (∃ shift chunk, (layout.span page).kind = .slots shift ∧ Formatted pool page shift ∧
        reserved shift ≤ chunk ∧ chunk < capacity shift ∧ taken pool page shift chunk = true ∧
        addr = pool.pageAddr page + chunk * 2 ^ shift ∧ extent = 2 ^ shift ∧
        chunk * 2 ^ shift + 2 ^ shift ≤ pagesize) := by
  cases isKind : (layout.span page).kind with
  | free => exact absurd placed (placed_at_free isKind)
  | block =>
    left
    obtain ⟨covered, bounded, -⟩ := sound.tiled page below
    obtain ⟨⟨kind, head, count⟩, isSpan⟩ : ∃ found, layout.span page = found := ⟨_, rfl⟩
    unfold PlacedAt at placed
    rw [isSpan] at placed isKind covered bounded
    subst isKind
    obtain ⟨rfl, isAddr, isExtent⟩ := placed
    unfold Span.covers at covered
    dsimp only at covered bounded isAddr isExtent isSpan
    exact ⟨count, isSpan, isAddr, isExtent, by omega, bounded⟩
  | slots shift =>
    right
    have formatted := slot_formatted sound below isKind
    obtain ⟨chunk, usable, inside, set, isAddr, isExtent⟩ := (placed_at_slots isKind).mp placed
    rw [Nat.shiftLeft_eq] at isAddr
    exact ⟨shift, chunk, rfl, formatted, usable, inside, set, isAddr, isExtent,
      (chunk_offset formatted.high inside).1⟩

theorem placed_at_page :
    pool.pageAddr page ≤ addr ∧ addr < pool.pageAddr page + pagesize ∧ 0 < extent := by
  rcases placed_at_cases sound below placed with ⟨count, -, rfl, rfl, pos, -⟩ |
      ⟨shift, chunk, -, -, -, -, -, rfl, rfl, bound⟩
  · unfold pagesize
    omega
  · have pos := Nat.two_pow_pos shift
    omega

theorem placed_at_inside : pool.start ≤ addr ∧ addr + extent ≤ pool.start + pool.last * pagesize := by
  have base := page_addr_eq pool page
  rcases placed_at_cases sound below placed with ⟨count, -, rfl, rfl, -, bounded⟩ |
      ⟨shift, chunk, -, -, -, -, -, rfl, rfl, bound⟩
  · unfold pagesize
    omega
  · unfold pagesize at *
    omega

end

theorem placed_at_before (sound : Sound pool layout 0 0) (below : page < pool.last)
    (below' : other < pool.last) (less : page < other) (placed : PlacedAt pool layout page addr extent)
    (otherPlaced : PlacedAt pool layout other address' extent') : addr + extent ≤ address' := by
  have base := page_addr_eq pool page
  have otherBase := page_addr_eq pool other
  have later := (placed_at_page sound below' otherPlaced).1
  rcases placed_at_cases sound below placed with ⟨count, own, rfl, rfl, pos, bounded⟩ |
      ⟨shift, chunk, -, -, -, -, -, rfl, rfl, bound⟩
  · have beyond : page + count ≤ other := by
      by_contra inside
      have same := (sound.tiled page below).2.2 other (by
        rw [own]
        exact ⟨by dsimp only; omega, by dsimp only; omega⟩)
      unfold PlacedAt at otherPlaced
      rw [same, own] at otherPlaced
      have isHead := otherPlaced.1
      dsimp only at isHead
      omega
    unfold pagesize
    omega
  · unfold pagesize at *
    omega

theorem placed_disjoint (sound : Sound pool layout 0 0) (placed : Placed pool layout addr extent)
    (otherPlaced : Placed pool layout address' extent') :
    (addr = address' ∧ extent = extent') ∨ addr + extent ≤ address' ∨ address' + extent' ≤ addr := by
  obtain ⟨page, below, here⟩ := placed
  obtain ⟨other, below', there⟩ := otherPlaced
  rcases lt_trichotomy page other with less | rfl | more
  · exact .inr (.inl (placed_at_before sound below below' less here there))
  · rcases placed_at_cases sound below here with ⟨count, own, rfl, rfl, -, -⟩ |
        ⟨shift, chunk, isSlots, -, -, -, -, rfl, rfl, bound⟩
    · obtain ⟨rfl, rfl⟩ := (placed_at_block own).mp there
      exact .inl ⟨rfl, rfl⟩
    · obtain ⟨chunk', -, -, -, isAddr, rfl⟩ := (placed_at_slots isSlots).mp there
      rw [Nat.shiftLeft_eq] at isAddr
      subst isAddr
      rcases lt_trichotomy chunk chunk' with less | rfl | more
      · have step : (chunk + 1) * 2 ^ shift ≤ chunk' * 2 ^ shift := Nat.mul_le_mul_right _ less
        rw [add_mul] at step
        omega
      · exact .inl ⟨rfl, rfl⟩
      · have step : (chunk' + 1) * 2 ^ shift ≤ chunk * 2 ^ shift := Nat.mul_le_mul_right _ more
        rw [add_mul] at step
        omega
  · exact .inr (.inr (placed_at_before sound below' below more there here))

def bitmapBytes (shift : Nat) : Nat := 8 * Pool.mapWords shift

theorem bitmap_reserved (low : minShift ≤ shift) (isSmall : shift < slabExactShift) :
    bitmapBytes shift ≤ reserved shift * 2 ^ shift ∧ bitmapBytes shift ≤ pagesize := by
  unfold slabExactShift at isSmall
  interval_cases shift <;> decide

theorem placed_bitmap (sound : Sound pool layout 0 0) (placed : Placed pool layout addr extent)
    (below : page < pool.last) (isSlots : (layout.span page).kind = .slots shift)
    (isSmall : shift < slabExactShift) :
    addr + extent ≤ pool.pageAddr page ∨ pool.pageAddr page + bitmapBytes shift ≤ addr := by
  obtain ⟨other, below', there⟩ := placed
  obtain ⟨fits, inPage⟩ := bitmap_reserved (slot_formatted sound below isSlots).low isSmall
  have base := page_addr_eq pool page
  have otherBase := page_addr_eq pool other
  obtain ⟨lower, -⟩ := placed_at_page sound below' there
  rcases lt_trichotomy page other with less | rfl | more
  · right
    unfold pagesize at inPage
    omega
  · right
    obtain ⟨chunk, usable, -, -, rfl, -⟩ := (placed_at_slots isSlots).mp there
    have step : reserved shift * 2 ^ shift ≤ chunk * 2 ^ shift := Nat.mul_le_mul_right _ usable
    rw [Nat.shiftLeft_eq]
    omega
  · left
    rcases placed_at_cases sound below' there with ⟨count, own, rfl, rfl, -, -⟩ |
        ⟨shift', chunk, -, -, -, -, -, rfl, rfl, bound⟩
    · have beyond : other + count ≤ page := by
        by_contra inside
        have same := (sound.tiled other below').2.2 page (by
          rw [own]
          exact ⟨by dsimp only; omega, by dsimp only; omega⟩)
        rw [same, own] at isSlots
        cases isSlots
      unfold pagesize
      omega
    · unfold pagesize at bound
      omega

end Geometry

/-- A pool whose pages and counters agree: no page of a slot is without a chunk
in use, and only failed allocations have been logged. -/
structure Tallied (pool : Pool) (layout : Layout) : Prop where
  sound : Sound pool layout 0 0
  based : Based pool
  inUse : ∀ page < pool.last, ∀ shift, (layout.span page).kind = .slots shift → SomeUsed pool page shift
  total : ∀ shift, minShift ≤ shift → shift < pagesizeShift →
    (pool.stats (shift - minShift)).total =
      countOf (.slots shift) pool.last layout.span * (capacity shift - reserved shift)
  quiet : ∀ message ∈ pool.log, message = .noMemory

/-- The counter `used` of every slot, after a block of one kind came or went. -/
def Counts (pool after : Pool) (kind : Kind) (change : Nat → Nat) : Prop :=
  ∀ shift, minShift ≤ shift → shift < pagesizeShift →
    (after.stats (shift - minShift)).used =
      if kind = .slots shift then change (pool.stats (shift - minShift)).used
      else (pool.stats (shift - minShift)).used

structure Adds (pool after : Pool) (layout layout' : Layout) (kind : Kind) (addr extent : Nat) :
    Prop where
  tallied : Tallied after layout'
  placed : ∀ address' extent', Placed after layout' address' extent' ↔
    Placed pool layout address' extent' ∨ (address' = addr ∧ extent' = extent)
  fresh : ∀ extent', ¬Placed pool layout addr extent'
  used : Counts pool after kind (· + 1)

structure Drops (pool after : Pool) (layout layout' : Layout) (kind : Kind) (addr : Nat) : Prop where
  tallied : Tallied after layout'
  placed : ∀ address' extent', Placed after layout' address' extent' ↔
    Placed pool layout address' extent' ∧ address' ≠ addr
  used : Counts pool after kind (· - 1)

section Frame

variable {pool after : Pool} {layout layout' : Layout} {head count page shift addr extent : Nat}

section

variable (beside : Beside pool after layout layout' head count)
include beside

theorem based_beside (based : Based pool) : Based after := by
  obtain ⟨pos, pages, aligned, within, finite⟩ := based
  rw [← beside.start] at pos aligned within
  rw [← beside.last] at pages within
  rw [← beside.finish] at within finite
  exact ⟨pos, pages, aligned, within, finite⟩

theorem kind_frame (below : page < pool.last)
    (outside : ¬Within head count page) : (layout'.span page).kind = (layout.span page).kind := by
  by_cases isFree : (layout.span page).kind = .free
  · rw [beside.free page below outside isFree, isFree]
  · rw [beside.kept page below outside isFree]

theorem placed_frame (sound : Sound pool layout 0 0)
    (below : page < pool.last) (outside : ¬Within head count page) :
    PlacedAt after layout' page addr extent ↔ PlacedAt pool layout page addr extent := by
  have same := page_addr_same page beside.start
  cases isKind : (layout.span page).kind with
  | free =>
    constructor
    · exact fun placed => absurd placed (placed_at_free (beside.free page below outside isKind))
    · exact fun placed => absurd placed (placed_at_free isKind)
  | block =>
    have kept := beside.kept page below outside (by rw [isKind]; exact nofun)
    unfold PlacedAt
    rw [kept, isKind, same]
  | slots shift =>
    have kept := beside.kept page below outside (by rw [isKind]; exact nofun)
    have low := (slot_formatted sound below isKind).low
    rw [placed_at_slots (by rw [kept, isKind]), placed_at_slots isKind, same]
    constructor
    · rintro ⟨chunk, usable, inside, set, rest⟩
      rw [beside_taken beside below outside isKind low inside] at set
      exact ⟨chunk, usable, inside, set, rest⟩
    · rintro ⟨chunk, usable, inside, set, rest⟩
      rw [← beside_taken beside below outside isKind low inside] at set
      exact ⟨chunk, usable, inside, set, rest⟩

theorem in_use_frame (tallied : Tallied pool layout)
    (below : page < pool.last) (outside : ¬Within head count page)
    (isSlots : (layout'.span page).kind = .slots shift) : SomeUsed after page shift := by
  rw [kind_frame beside below outside] at isSlots
  have low := (slot_formatted tallied.sound below isSlots).low
  obtain ⟨chunk, usable, inside, set⟩ := tallied.inUse page below shift isSlots
  rw [← beside_taken beside below outside isSlots low inside] at set
  exact ⟨chunk, usable, inside, set⟩

end

theorem tallied_beside (tallied : Tallied pool layout) (beside : Beside pool after layout layout' head count)
    (sound : Sound after layout' 0 0) (here : ∀ page < pool.last, Within head count page → ∀ shift,
      (layout'.span page).kind = .slots shift → SomeUsed after page shift)
    (total : ∀ shift, minShift ≤ shift → shift < pagesizeShift → (after.stats (shift - minShift)).total =
      countOf (.slots shift) after.last layout'.span * (capacity shift - reserved shift)) :
    Tallied after layout' := by
  refine ⟨sound, based_beside beside tallied.based, ?_, total, ?_⟩
  · intro page below shift isSlots
    rw [beside.last] at below
    by_cases within : Within head count page
    · exact here page below within shift isSlots
    · exact in_use_frame beside tallied below within isSlots
  · rw [beside.log]
    exact tallied.quiet

theorem within_one_eq (within : Within page 1 other) : other = page := by
  unfold Within at within
  omega

theorem in_use_here (isSlots : (layout'.span page).kind = .slots shift) (used : SomeUsed after page shift) :
    ∀ other < pool.last, Within page 1 other → ∀ kind, (layout'.span other).kind = .slots kind →
      SomeUsed after other kind := by
  intro other _ within kind isKind
  rw [within_one_eq within] at isKind ⊢
  rw [isSlots] at isKind
  cases isKind
  exact used

theorem placed_here (sound : Sound pool layout 0 0) (below : page < pool.last)
    (low : pool.pageAddr page ≤ addr) (high : addr < pool.pageAddr page + pagesize) :
    Placed pool layout addr extent ↔ PlacedAt pool layout page addr extent := by
  constructor
  · rintro ⟨other, below', placed⟩
    obtain ⟨lower, upper, -⟩ := placed_at_page sound below' placed
    have base := page_addr_eq pool page
    have otherBase := page_addr_eq pool other
    have same : other = page := by
      unfold pagesize at high upper
      omega
    rw [← same]
    exact placed
  · exact fun placed => ⟨page, below, placed⟩

theorem placed_page_change (beside : Beside pool after layout layout' page 1)
    (sound : Sound pool layout 0 0) (below : page < pool.last) : Placed after layout' addr extent ↔
      (∃ other < pool.last, other ≠ page ∧ PlacedAt pool layout other addr extent) ∨
        PlacedAt after layout' page addr extent := by
  have last := beside.last
  have apart : ∀ other, other ≠ page → ¬Within page 1 other := fun other => mt within_one_eq
  constructor
  · rintro ⟨other, below', placed⟩
    rw [last] at below'
    by_cases same : other = page
    · rw [same] at placed
      exact .inr placed
    · exact .inl ⟨other, below', same,
        (placed_frame beside sound below' (apart other same)).mp placed⟩
  · rintro (⟨other, below', differ, placed⟩ | placed)
    · exact ⟨other, by omega, (placed_frame beside sound below' (apart other differ)).mpr placed⟩
    · exact ⟨page, by omega, placed⟩

end Frame

section Counters

variable {pool after : Pool} {layout layout' : Layout} {head count page shift : Nat} {stat : Stat}

theorem counts_update {change : Nat → Nat} (low : minShift ≤ shift)
    (stats : after.stats = update pool.stats (shift - minShift) stat)
    (used : stat.used = change (pool.stats (shift - minShift)).used) :
    Counts pool after (.slots shift) change := by
  intro other otherLow _
  rw [stats]
  by_cases same : other = shift
  · rw [same, update_self, if_pos rfl, used]
  · rw [update_of_ne (by omega), if_neg (fun equal => same (by injection equal with h; exact h.symm))]

section

variable (beside : Beside pool after layout layout' head count) (fits : head + count ≤ pool.last)
include beside fits

theorem count_beside {kind : Kind} (was becomes : Bool)
    (inside : ∀ page, Within head count page → decide ((layout.span page).kind = kind) = was ∧
      decide ((layout'.span page).kind = kind) = becomes) :
    countOf kind after.last layout'.span + (if was then count else 0) =
      countOf kind pool.last layout.span + (if becomes then count else 0) := by
  rw [beside.last]
  exact count_change layout.span layout'.span kind was becomes fits
    (fun page low high => inside page ⟨low, high⟩)
    (fun page below outside => kind_frame beside below outside)

theorem total_kept (tallied : Tallied pool layout) (otherLow : minShift ≤ other)
    (otherHigh : other < pagesizeShift) (inside : ∀ page, Within head count page →
      ((layout'.span page).kind = .slots other ↔ (layout.span page).kind = .slots other))
    (uniform : ∀ page, Within head count page → (layout.span page).kind = (layout.span head).kind)
    (same : (after.stats (other - minShift)).total = (pool.stats (other - minShift)).total) :
    (after.stats (other - minShift)).total =
      countOf (.slots other) after.last layout'.span * (capacity other - reserved other) := by
  have change := count_beside beside fits (decide ((layout.span head).kind = .slots other))
    (decide ((layout.span head).kind = .slots other)) (by
      intro page within
      refine ⟨by rw [uniform page within], ?_⟩
      rw [decide_eq_decide, inside page within, uniform page within])
  rw [same, tallied.total other otherLow otherHigh]
  congr 1
  omega

end

theorem total_update {slot : Nat} (stats : after.stats = update pool.stats slot stat)
    (same : stat.total = (pool.stats slot).total) :
    (after.stats other).total = (pool.stats other).total := by
  rw [stats]
  by_cases isSlot : other = slot
  · rw [isSlot, update_self, same]
  · rw [update_of_ne isSlot]

theorem total_other (beside : Beside pool after layout layout' page 1) (below : page < pool.last)
    (tallied : Tallied pool layout) (otherLow : minShift ≤ other) (otherHigh : other < pagesizeShift)
    (was : (layout.span page).kind ≠ .slots other) (becomes : (layout'.span page).kind ≠ .slots other)
    (same : (after.stats (other - minShift)).total = (pool.stats (other - minShift)).total) :
    (after.stats (other - minShift)).total =
      countOf (.slots other) after.last layout'.span * (capacity other - reserved other) := by
  apply total_kept beside below tallied otherLow otherHigh
  · intro within here
    rw [within_one_eq here]
    exact iff_of_false becomes was
  · intro within here
    rw [within_one_eq here]
  · exact same

end Counters

section Effects

variable {pool after : Pool} {layout layout' : Layout} {page shift chunk : Nat}

theorem chunk_in_page (pool : Pool) (page : Nat) (high : shift < pagesizeShift)
    (inside : chunk < capacity shift) :
    pool.pageAddr page ≤ pool.pageAddr page + chunk <<< shift ∧
      pool.pageAddr page + chunk <<< shift < pool.pageAddr page + pagesize := by
  have pos := Nat.two_pow_pos shift
  obtain ⟨bound, -⟩ := chunk_offset high inside
  rw [Nat.shiftLeft_eq]
  omega

theorem chunk_of_address
    (same : pool.pageAddr page + chunk <<< shift = pool.pageAddr page + other <<< shift) :
    chunk = other := by
  rw [Nat.shiftLeft_eq, Nat.shiftLeft_eq] at same
  exact Nat.eq_of_mul_eq_mul_right (Nat.two_pow_pos shift) (Nat.add_left_cancel same)

section

variable (tallied : Tallied pool layout)
include tallied

theorem adds_chunk (below : page < pool.last) (isSlots : (layout.span page).kind = .slots shift)
    (usable : reserved shift ≤ chunk) (inside : chunk < capacity shift)
    (clear : taken pool page shift chunk = false) (sameSpan : layout'.span = layout.span)
    (sound : Sound after layout' 0 0) (touches : Touches pool after page shift chunk true)
    (stats : after.stats = (pool.countUsed (shift - minShift)).stats) :
    Adds pool after layout layout' (.slots shift) (pool.pageAddr page + chunk <<< shift) (2 ^ shift) := by
  have formatted := slot_formatted tallied.sound below isSlots
  have beside := beside_of_touches touches sameSpan
  have isSlots' : (layout'.span page).kind = .slots shift := by rw [sameSpan, isSlots]
  have addr := page_addr_same page touches.start
  have used : SomeUsed after page shift := ⟨chunk, usable, inside, touches.here⟩
  refine ⟨tallied_beside tallied beside sound (in_use_here isSlots' used) ?_, ?_, ?_, ?_⟩
  · intro other low high
    apply total_kept beside below tallied low high
    · exact fun _ _ => by rw [sameSpan]
    · intro within here
      rw [within_one_eq here]
    · exact total_update stats rfl
  · intro address' extent'
    rw [placed_page_change beside tallied.sound below, placed_at_slots isSlots', addr]
    constructor
    · rintro (⟨other, below', -, placed⟩ | ⟨other, usable', inside', set, rfl, rfl⟩)
      · exact .inl ⟨other, below', placed⟩
      · by_cases same : other = chunk
        · exact .inr ⟨by rw [same], rfl⟩
        · rw [touches.beside other inside' same] at set
          exact .inl ⟨page, below, (placed_at_slots isSlots).mpr ⟨other, usable', inside', set, rfl, rfl⟩⟩
    · rintro (⟨other, below', placed⟩ | ⟨rfl, rfl⟩)
      · by_cases same : other = page
        · rw [same, placed_at_slots isSlots] at placed
          obtain ⟨other', usable', inside', set, rest⟩ := placed
          have differ : other' ≠ chunk := by
            rintro rfl
            rw [clear] at set
            cases set
          rw [← touches.beside other' inside' differ] at set
          exact .inr ⟨other', usable', inside', set, rest⟩
        · exact .inl ⟨other, below', same, placed⟩
      · exact .inr ⟨chunk, usable, inside, touches.here, rfl, rfl⟩
  · intro extent' placed
    obtain ⟨lower, upper⟩ := chunk_in_page pool page formatted.high inside
    rw [placed_here tallied.sound below lower upper, placed_at_slots isSlots] at placed
    obtain ⟨other, -, -, set, same, -⟩ := placed
    rw [← chunk_of_address same, clear] at set
    cases set
  · exact counts_update formatted.low stats rfl

theorem adds_page (low : minShift ≤ shift) (high : shift < pagesizeShift)
    (fresh : NewPage pool after layout layout' page shift) :
    Adds pool after layout layout' (.slots shift) (pool.pageAddr page + reserved shift <<< shift)
      (2 ^ shift) := by
  have beside := fresh.beside
  have below := fresh.below
  have room := reserved_lt low high
  have isSlots : (layout'.span page).kind = .slots shift := by rw [fresh.own]
  have first : taken after page shift (reserved shift) = true := by
    rw [fresh.opened _ room]
    exact decide_eq_true le_rfl
  have only : ∀ other, reserved shift ≤ other → other < capacity shift →
      taken after page shift other = true → other = reserved shift := by
    intro other usable inside set
    rw [fresh.opened other inside] at set
    exact le_antisymm (of_decide_eq_true set) usable
  have used : SomeUsed after page shift := ⟨reserved shift, le_rfl, room, first⟩
  refine ⟨tallied_beside tallied beside fresh.sound (in_use_here isSlots used) ?_, ?_, ?_, ?_⟩
  · intro other otherLow otherHigh
    have stats := fresh.stats
    by_cases same : other = shift
    · subst same
      have change := count_beside beside below false true (by
        intro within here
        rw [within_one_eq here, fresh.wasFree, isSlots]
        exact ⟨rfl, decide_eq_true rfl⟩)
      rw [if_neg (by decide), if_pos rfl, add_zero] at change
      rw [change, add_mul, one_mul, ← tallied.total other low high, stats]
      change (update pool.stats _ _ _).total = _
      rw [update_self]
    · apply total_other beside below tallied otherLow otherHigh
      · rw [fresh.wasFree]
        nofun
      · rw [isSlots]
        exact fun equal => same (Kind.slots.inj equal).symm
      · rw [stats]
        exact congrArg Stat.total (update_of_ne (by omega) ..)
  · intro address' extent'
    rw [placed_page_change beside tallied.sound below, placed_at_slots isSlots,
      page_addr_same page beside.start]
    constructor
    · rintro (⟨other, below', -, placed⟩ | ⟨other, usable, inside, set, rfl, rfl⟩)
      · exact .inl ⟨other, below', placed⟩
      · rw [only other usable inside set]
        exact .inr ⟨rfl, rfl⟩
    · rintro (⟨other, below', placed⟩ | ⟨rfl, rfl⟩)
      · refine .inl ⟨other, below', ?_, placed⟩
        rintro rfl
        exact placed_at_free fresh.wasFree placed
      · exact .inr ⟨reserved shift, le_rfl, room, first, rfl, rfl⟩
  · intro extent' placed
    obtain ⟨lower, upper⟩ := chunk_in_page pool page high room
    rw [placed_here tallied.sound below lower upper] at placed
    exact placed_at_free fresh.wasFree placed
  · exact counts_update low fresh.stats rfl

theorem adds_block {pages : Nat} (pos : 0 < pages)
    (sound : Sound after layout' 0 0) (moves : Moves pool after layout layout' page pages)
    (blocks : ∀ other, Within page pages other → other < pool.last ∧ (layout.span other).kind = .free ∧
      layout'.span other = ⟨.block, page, pages⟩) :
    Adds pool after layout layout' .block (pool.pageAddr page) (pages * pagesize) := by
  have beside := beside_of_moves moves
  have last := beside.last
  have first : Within page pages page := ⟨le_rfl, by omega⟩
  have fits : page + pages ≤ pool.last := by
    have bound := (blocks (page + (pages - 1)) ⟨by omega, by omega⟩).1
    omega
  obtain ⟨below, wasFree, own⟩ := blocks page first
  refine ⟨tallied_beside tallied beside sound ?_ ?_, ?_, ?_, ?_⟩
  · intro other _ within kind isKind
    rw [(blocks other within).2.2] at isKind
    cases isKind
  · intro other otherLow otherHigh
    apply total_kept beside fits tallied otherLow otherHigh
    · intro within here
      rw [(blocks within here).2.2, (blocks within here).2.1]
      constructor <;> exact nofun
    · intro within here
      rw [(blocks within here).2.1, wasFree]
    · rw [moves.base.stats]
  · intro address' extent'
    constructor
    · rintro ⟨other, below', placed⟩
      rw [last] at below'
      by_cases within : Within page pages other
      · right
        unfold PlacedAt at placed
        rw [(blocks other within).2.2, page_addr_same other beside.start] at placed
        obtain ⟨isHead, isAddr, isExtent⟩ := placed
        rw [show other = page from isHead] at isAddr
        exact ⟨isAddr, isExtent⟩
      · exact .inl ⟨other, below', (placed_frame beside tallied.sound below' within).mp placed⟩
    · rintro (⟨other, below', placed⟩ | ⟨rfl, rfl⟩)
      · refine ⟨other, by omega, (placed_frame beside tallied.sound below' ?_).mpr placed⟩
        intro within
        exact placed_at_free (blocks other within).2.1 placed
      · refine ⟨page, by omega, (placed_at_block own).mpr ⟨?_, rfl⟩⟩
        rw [page_addr_same page beside.start]
  · intro extent' placed
    rw [placed_here tallied.sound below le_rfl (by unfold pagesize; omega)] at placed
    exact placed_at_free wasFree placed
  · intro other _ _
    rw [if_neg nofun, moves.base.stats]

theorem drops_chunk (below : page < pool.last)
    (isSlots : (layout.span page).kind = .slots shift) (usable : reserved shift ≤ chunk)
    (inside : chunk < capacity shift) (set : taken pool page shift chunk = true) {result : Option Pool}
    (releases : Releases pool layout page shift chunk result) : ∃ after layout', result = some after ∧
      Drops pool after layout layout' (.slots shift) (pool.pageAddr page + chunk <<< shift) := by
  have formatted := slot_formatted tallied.sound below isSlots
  have low := formatted.low
  obtain ⟨after, layout', isResult, sound, beside, outcome⟩ := releases
  refine ⟨after, layout', isResult, ?_⟩
  have addr := page_addr_same page beside.start
  have elsewhere : ∀ {other address' extent' : Nat}, other < pool.last → other ≠ page →
      PlacedAt pool layout other address' extent' → address' ≠ pool.pageAddr page + chunk <<< shift := by
    rintro other address' extent' below' differ placed rfl
    obtain ⟨lower, upper⟩ := chunk_in_page pool page formatted.high inside
    obtain ⟨lower', upper', -⟩ := placed_at_page tallied.sound below' placed
    have base := page_addr_eq pool page
    have otherBase := page_addr_eq pool other
    unfold pagesize at upper upper'
    omega
  rcases outcome with ⟨sameSpan, clear, bits, ⟨used, usedLow, usedHigh, usedDiffer, usedSet⟩, stats⟩ |
      ⟨isFree, noOther, stats⟩
  · have isSlots' : (layout'.span page).kind = .slots shift := by rw [sameSpan, isSlots]
    have someUsed : SomeUsed after page shift :=
      ⟨used, usedLow, usedHigh, (bits used usedHigh usedDiffer).trans usedSet⟩
    refine ⟨tallied_beside tallied beside sound (in_use_here isSlots' someUsed) ?_, ?_, ?_⟩
    · intro other otherLow otherHigh
      apply total_kept beside below tallied otherLow otherHigh
      · intro within here
        rw [within_one_eq here, sameSpan]
      · intro within here
        rw [within_one_eq here]
      · exact total_update stats rfl
    · intro address' extent'
      rw [placed_page_change beside tallied.sound below, placed_at_slots isSlots', addr]
      constructor
      · rintro (⟨other, below', differ, placed⟩ | ⟨other, usable', inside', set', rfl, rfl⟩)
        · exact ⟨⟨other, below', placed⟩, elsewhere below' differ placed⟩
        · have differ : other ≠ chunk := by
            rintro rfl
            rw [clear] at set'
            cases set'
          rw [bits other inside' differ] at set'
          exact ⟨⟨page, below, (placed_at_slots isSlots).mpr ⟨other, usable', inside', set', rfl, rfl⟩⟩,
            fun same => differ (chunk_of_address same)⟩
      · rintro ⟨⟨other, below', placed⟩, notHere⟩
        by_cases same : other = page
        · rw [same, placed_at_slots isSlots] at placed
          obtain ⟨other', usable', inside', set', rfl, rfl⟩ := placed
          have differ : other' ≠ chunk := by
            rintro rfl
            exact notHere rfl
          rw [← bits other' inside' differ] at set'
          exact .inr ⟨other', usable', inside', set', rfl, rfl⟩
        · exact .inl ⟨other, below', same, placed⟩
    · exact counts_update low stats rfl
  · have merged : after.stats = update pool.stats (shift - minShift)
        { (pool.stats (shift - minShift)) with
          total := (pool.stats (shift - minShift)).total - (capacity shift - reserved shift)
          used := (pool.stats (shift - minShift)).used - 1 } := by
      rw [stats]
      change update (update pool.stats _ _) _ _ = _
      rw [update_idem, Pool.setStat]
      dsimp only
      rw [update_self]
    refine ⟨tallied_beside tallied beside sound ?_ ?_, ?_, ?_⟩
    · intro other _ within kind isKind
      rw [within_one_eq within, isFree] at isKind
      cases isKind
    · intro other otherLow otherHigh
      by_cases same : other = shift
      · subst same
        have change := count_beside beside below true false (by
          intro within here
          rw [within_one_eq here, isFree, isSlots]
          exact ⟨decide_eq_true rfl, rfl⟩)
        simp only [if_true, Bool.false_eq_true, if_false, add_zero] at change
        have before := tallied.total other otherLow otherHigh
        rw [← change, add_mul, one_mul] at before
        rw [merged, update_self]
        dsimp only
        omega
      · apply total_other beside below tallied otherLow otherHigh
        · rw [isSlots]
          exact fun equal => same (Kind.slots.inj equal).symm
        · rw [isFree]
          simp
        · rw [merged, update_of_ne (by omega)]
    · intro address' extent'
      rw [placed_page_change beside tallied.sound below]
      constructor
      · rintro (⟨other, below', differ, placed⟩ | placed)
        · exact ⟨⟨other, below', placed⟩, elsewhere below' differ placed⟩
        · exact absurd placed (placed_at_free isFree)
      · rintro ⟨⟨other, below', placed⟩, notHere⟩
        refine .inl ⟨other, below', ?_, placed⟩
        rintro rfl
        obtain ⟨other', usable', inside', set', rfl, rfl⟩ := (placed_at_slots isSlots).mp placed
        apply noOther
        refine ⟨other', usable', inside', ?_, set'⟩
        rintro rfl
        exact notHere rfl
    · exact counts_update low merged rfl

theorem drops_block (below : page < pool.last)
    (own : layout.span page = ⟨.block, page, count⟩) (sound : Sound after layout' 0 0)
    (moves : Moves pool after layout layout' page count)
    (isFree : ∀ other, Within page count other → (layout'.span other).kind = .free) :
    Drops pool after layout layout' .block (pool.pageAddr page) := by
  have beside := beside_of_moves moves
  have last := beside.last
  obtain ⟨-, bounded, same⟩ := tallied.sound.tiled page below
  rw [own] at bounded same
  have block : ∀ other, Within page count other → layout.span other = ⟨.block, page, count⟩ :=
    fun other within => same other within
  refine ⟨tallied_beside tallied beside sound ?_ ?_, ?_, ?_⟩
  · intro other _ within kind isKind
    rw [isFree other within] at isKind
    cases isKind
  · intro other otherLow otherHigh
    apply total_kept beside bounded tallied otherLow otherHigh
    · intro within here
      rw [block within here, isFree within here]
      constructor <;> exact nofun
    · intro within here
      rw [block within here, own]
    · rw [moves.base.stats]
  · intro address' extent'
    constructor
    · rintro ⟨other, below', placed⟩
      rw [last] at below'
      by_cases within : Within page count other
      · exact absurd placed (placed_at_free (isFree other within))
      · have before := (placed_frame beside tallied.sound below' within).mp placed
        refine ⟨⟨other, below', before⟩, ?_⟩
        rintro rfl
        obtain ⟨lower, upper, -⟩ := placed_at_page tallied.sound below' before
        have base := page_addr_eq pool page
        have otherBase := page_addr_eq pool other
        have covered := (tallied.sound.tiled page below).1
        rw [own] at covered
        unfold Span.covers at covered
        unfold Within at within
        unfold pagesize at upper
        dsimp only at covered
        omega
    · rintro ⟨⟨other, below', placed⟩, notHere⟩
      refine ⟨other, by omega, (placed_frame beside tallied.sound below' ?_).mpr placed⟩
      intro within
      unfold PlacedAt at placed
      rw [block other within] at placed
      obtain ⟨isHead, isAddr, -⟩ := placed
      rw [show other = page from isHead] at isAddr
      exact notHere isAddr
  · intro other _ _
    rw [if_neg nofun, moves.base.stats]

end

end Effects

end ServerCore.NginxSlabPlaced
