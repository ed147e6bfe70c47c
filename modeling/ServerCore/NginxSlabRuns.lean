import ServerCore.TransitionSystem
import ServerCore.NginxSlabPlaced

/-!
# Runs of the slab allocator

A pool together with the blocks that its clients hold. A client may allocate
any number of bytes, free a block that it holds, and write words inside one.
-/

namespace ServerCore.NginxSlabRuns

open CircularList TransitionSystem NginxSlab NginxSlabLayout NginxSlabPages NginxSlabBlocks
open NginxSlabBits NginxSlabCalls NginxSlabPlaced List Option Function

variable {size count slots finish page : Nat} {layout : Layout}

/-- The blocks in `live` are addresses with the size that was asked for. -/
structure State where
  pool : Pool
  live : List (Nat × Nat)

inductive Call where
  | alloc (size : Nat)
  | free (p : Nat)
  | write (addr : Nat) (word : Word)

/-- The number of pages for more than `ngx_slab_max_size` bytes. -/
def pagesOf (size : Nat) : Nat := size >>> pagesizeShift + if size % pagesize ≠ 0 then 1 else 0

/-- The full size of a block: a whole number of pages, or the chunk size. -/
def extentOf (size : Nat) : Nat :=
  if size > slabMaxSize then pagesOf size * pagesize else 2 ^ Pool.shiftOf size

def kindOf (size : Nat) : Kind :=
  if size > slabMaxSize then .block else .slots (Pool.shiftOf size)

/-- NULL is no block, and a block is freed or written by those who hold it. -/
def slabNext (state : State) : Call → State → Prop
  | .alloc size, final => ∃ pool p, state.pool.ngxSlabAllocLocked size = some (pool, p) ∧
      final = ⟨pool, if p = 0 then state.live else (p, size) :: state.live⟩
  | .free p, final => (∃ size, (p, size) ∈ state.live) ∧
      ∃ pool, state.pool.ngxSlabFreeLocked p = some pool ∧
        final = ⟨pool, state.live.eraseP fun block => block.1 = p⟩
  | .write addr word, final => (∃ block ∈ state.live, block.1 ≤ addr ∧
      addr + 8 ≤ block.1 + extentOf block.2) ∧ addr % 8 = 0 ∧
      final = ⟨state.pool.setWord addr word, state.live⟩

/-- A pool from `ngx_slab_init` whose memory holds anything. -/
def slabSystem (slots finish : Nat) : System State Call where
  initial state := ∃ memory, state = ⟨Pool.ngxSlabInit slots finish memory, []⟩
  next := slabNext

structure Held (state : State) (layout : Layout) : Prop where
  tallied : Tallied state.pool layout
  placed : ∀ addr extent, Placed state.pool layout addr extent ↔
    ∃ size, (addr, size) ∈ state.live ∧ extentOf size = extent
  distinct : (state.live.map Prod.fst).Nodup
  used : ∀ shift, minShift ≤ shift → shift < pagesizeShift →
    (state.pool.stats (shift - minShift)).used =
      state.live.countP fun block => decide (kindOf block.2 = .slots shift)

theorem shift_from_spec (fuel s shift : Nat) (pos : 0 < s) (bound : s < 2 ^ (fuel + 1)) :
    ∃ steps, Pool.shiftFrom fuel s shift = shift + steps ∧ 2 ^ steps ≤ s ∧ s < 2 ^ (steps + 1) := by
  induction fuel generalizing s shift with
  | zero => exact ⟨0, rfl, pos, bound⟩
  | succ fuel ih =>
    rw [Pool.shiftFrom, Nat.shiftRight_eq_div_pow, pow_one]
    by_cases more : s / 2 = 0
    · rw [if_neg (not_not.mpr more)]
      exact ⟨0, rfl, pos, by omega⟩
    · rw [if_pos more]
      obtain ⟨steps, isShift, lower, upper⟩ := ih (s / 2) (shift + 1) (by omega)
        (by omega)
      refine ⟨steps + 1, by omega, ?_, ?_⟩
      · omega
      · omega

theorem shift_of_spec (small : size ≤ slabMaxSize) :
    minShift ≤ Pool.shiftOf size ∧ Pool.shiftOf size < pagesizeShift ∧ size ≤ 2 ^ Pool.shiftOf size := by
  unfold slabMaxSize at small
  rw [Pool.shiftOf]
  by_cases more : size > minSize
  · rw [if_pos more]
    unfold minSize at more
    obtain ⟨steps, isShift, lower, upper⟩ := shift_from_spec 64 (size - 1) 1 (by omega)
      (by calc size - 1 < 2 ^ 11 := by omega
            _ ≤ 2 ^ (64 + 1) := Nat.pow_le_pow_right (by decide) (by decide))
    rw [isShift]
    have low : 2 < steps + 1 := by
      by_contra few
      have bound : 2 ^ (steps + 1) ≤ 2 ^ 2 := Nat.pow_le_pow_right (by decide) (by omega)
      omega
    have high : steps < 11 := by
      by_contra many
      have bound : 2 ^ 11 ≤ 2 ^ steps := Nat.pow_le_pow_right (by decide) (by omega)
      omega
    unfold minShift pagesizeShift
    rw [add_comm]
    omega
  · rw [if_neg more]
    unfold minSize at more
    exact ⟨by decide, by decide, show size ≤ 8 by omega⟩

theorem pages_of_spec (large : size > slabMaxSize) :
    0 < pagesOf size ∧ size ≤ pagesOf size * pagesize := by
  unfold pagesOf pagesize pagesizeShift
  split <;> omega

theorem extent_of_le : size ≤ extentOf size := by
  unfold extentOf
  split
  · exact (pages_of_spec (by assumption)).2
  · exact (shift_of_spec (by omega)).2.2

variable {shift : Nat} {state : State}

theorem kind_of_extent (high : shift < pagesizeShift) (same : extentOf size = 2 ^ shift) :
    kindOf size = .slots shift := by
  unfold extentOf at same
  unfold kindOf
  have bound : 2 ^ shift ≤ 2 ^ 11 :=
    Nat.pow_le_pow_right (by decide) (by unfold pagesizeShift at high; omega)
  split at same
  · rename_i large
    have pos := (pages_of_spec large).1
    unfold pagesize at same
    omega
  · rename_i small
    rw [if_neg small, Nat.pow_right_injective (le_refl 2) same]

theorem kind_of_pages (pos : 0 < count) (same : extentOf size = count * pagesize) :
    kindOf size = .block := by
  unfold extentOf at same
  unfold kindOf
  split at same
  · rename_i large
    rw [if_pos large]
  · rename_i small
    obtain ⟨-, high, -⟩ := shift_of_spec (not_lt.mp small)
    have bound : 2 ^ Pool.shiftOf size ≤ 2 ^ 11 :=
      Nat.pow_le_pow_right (by decide) (by unfold pagesizeShift at high; omega)
    unfold pagesize at same
    omega

section Alloc

variable {pool after : Pool} {layout layout' : Layout} {live : List (Nat × Nat)} {size : Nat}

structure SameCore (pool after : Pool) : Prop where
  start : after.start = pool.start
  finish : after.finish = pool.finish
  last : after.last = pool.last
  pfree : after.pfree = pool.pfree
  cells : after.cells = pool.cells
  memory : after.memory = pool.memory

theorem placed_core (core : SameCore pool after) (addr extent : Nat) :
    Placed after layout addr extent ↔ Placed pool layout addr extent := by
  obtain ⟨start, finish, last, pfree, logNomem, stats, cells, memory, log⟩ := pool
  obtain ⟨sameStart, sameFinish, sameLast, samePfree, sameCells, sameMemory⟩ := core
  subst sameStart sameFinish sameLast samePfree sameCells sameMemory
  exact Iff.rfl

theorem tallied_core (core : SameCore pool after) (tallied : Tallied pool layout)
    (total : ∀ slot, (after.stats slot).total = (pool.stats slot).total)
    (quiet : ∀ message ∈ after.log, message = .noMemory) : Tallied after layout := by
  obtain ⟨start, finish, last, pfree, logNomem, stats, cells, memory, log⟩ := pool
  obtain ⟨sameStart, sameFinish, sameLast, samePfree, sameCells, sameMemory⟩ := core
  subst sameStart sameFinish sameLast samePfree sameCells sameMemory
  obtain ⟨sound, ⟨pos, pages, aligned, within, finite⟩, inUse, totals, -⟩ := tallied
  refine ⟨sound_same sound rfl rfl rfl rfl rfl, ⟨pos, pages, aligned, within, finite⟩, inUse, ?_, quiet⟩
  intro shift low high
  rw [total]
  exact totals shift low high

theorem held_core {after : Pool} (held : Held ⟨pool, live⟩ layout) (core : SameCore pool after)
    (total : ∀ slot, (after.stats slot).total = (pool.stats slot).total)
    (used : ∀ slot, (after.stats slot).used = (pool.stats slot).used)
    (quiet : ∀ message ∈ after.log, message = .noMemory) : Held ⟨after, live⟩ layout := by
  refine ⟨tallied_core core held.tallied total quiet, ?_, held.distinct, ?_⟩
  · intro addr extent
    rw [placed_core core]
    exact held.placed addr extent
  · intro shift low high
    rw [used]
    exact held.used shift low high

theorem held_stat (held : Held ⟨pool, live⟩ layout) {slot : Nat} {change : Stat → Stat}
    (total : ∀ stat, (change stat).total = stat.total) (used : ∀ stat, (change stat).used = stat.used) :
    Held ⟨pool.setStat slot change, live⟩ layout := by
  refine held_core held ⟨rfl, rfl, rfl, rfl, rfl, rfl⟩ ?_ ?_ held.tallied.quiet
  · intro other
    change (update pool.stats _ _ other).total = _
    by_cases same : other = slot
    · rw [same, update_self, total]
    · rw [update_of_ne same]
  · intro other
    change (update pool.stats _ _ other).used = _
    by_cases same : other = slot
    · rw [same, update_self, used]
    · rw [update_of_ne same]

theorem held_log (held : Held ⟨pool, live⟩ layout) {log : List Message}
    (isLog : log = pool.log ∨ log = .noMemory :: pool.log) :
    Held ⟨{ pool with log := log }, live⟩ layout := by
  refine held_core held ⟨rfl, rfl, rfl, rfl, rfl, rfl⟩ (fun _ => rfl) (fun _ => rfl) ?_
  intro message mem
  rcases isLog with rfl | rfl
  · exact held.tallied.quiet message mem
  · rcases mem_cons.mp mem with rfl | older
    · rfl
    · exact held.tallied.quiet message older

section

variable {addr : Nat} (held : Held ⟨pool, live⟩ layout)
  (adds : Adds pool after layout layout' (kindOf size) addr (extentOf size))
include held adds

theorem held_adds : Held ⟨after, (addr, size) :: live⟩ layout' := by
  refine ⟨adds.tallied, ?_, ?_, ?_⟩
  · intro address' extent'
    rw [adds.placed, held.placed]
    simp only [mem_cons, Prod.mk.injEq]
    constructor
    · rintro (⟨other, mem, same⟩ | ⟨rfl, rfl⟩)
      · exact ⟨other, .inr mem, same⟩
      · exact ⟨size, .inl ⟨rfl, rfl⟩, rfl⟩
    · rintro ⟨other, ⟨rfl, rfl⟩ | mem, same⟩
      · exact .inr ⟨rfl, same.symm⟩
      · exact .inl ⟨other, mem, same⟩
  · rw [map_cons, nodup_cons]
    refine ⟨?_, held.distinct⟩
    intro mem
    obtain ⟨⟨address', other⟩, inLive, rfl⟩ := mem_map.mp mem
    exact adds.fresh (extentOf other) ((held.placed _ _).mpr ⟨other, inLive, rfl⟩)
  · intro shift low high
    rw [adds.used shift low high, countP_cons]
    have before := held.used shift low high
    by_cases same : kindOf size = .slots shift
    · rw [if_pos same, if_pos (decide_eq_true same), before]
    · rw [if_neg same, if_neg (by simpa using same), before, add_zero]

theorem held_adds_live (above : pool.start ≤ addr) :
    Held ⟨after, if addr = 0 then live else (addr, size) :: live⟩ layout' := by
  have pos := held.tallied.based.positive
  dsimp only at pos
  rw [if_neg (by omega)]
  exact held_adds held adds

end

theorem alloc_pages_held (held : Held ⟨pool, live⟩ layout) (large : size > slabMaxSize) :
    ∃ after p layout', pool.ngxSlabAllocLocked size = some (after, p) ∧
      Held ⟨after, if p = 0 then live else (p, size) :: live⟩ layout' := by
  have tallied := held.tallied
  obtain ⟨pos, -⟩ := pages_of_spec large
  have search := alloc_pages_spec tallied.sound pos
  obtain ⟨result, isResult⟩ : ∃ result, result = pool.ngxSlabAllocPages (pagesOf size) := ⟨_, rfl⟩
  rw [Pool.ngxSlabAllocLocked, if_pos large, ← pagesOf]
  rw [← isResult] at search ⊢
  cases result with
  | none => cases search
  | some taken =>
    obtain ⟨after, found⟩ := taken
    cases found with
    | none =>
      refine ⟨after, 0, layout, rfl, ?_⟩
      rcases search with rfl | rfl
      · exact held
      · exact held_log held (.inr rfl)
    | some page =>
      obtain ⟨layout', sound, moves, blocks⟩ := search
      refine ⟨after, after.pageAddr page, layout', rfl, ?_⟩
      rw [page_addr_same page moves.base.start]
      have adds := adds_block tallied pos sound moves blocks
      apply held_adds_live held
      · rw [kindOf, if_pos large, extentOf, if_pos large]
        exact adds
      · exact Nat.le_add_right _ _

theorem slot_first (sound : Sound pool layout 0 0) (low : minShift ≤ shift) (high : shift < pagesizeShift) :
    (layout.slotOrder shift = [] ∧ nextOf pool (.slot (shift - minShift)) = .slot (shift - minShift)) ∨
      ∃ page, page ∈ layout.slotOrder shift ∧ nextOf pool (.slot (shift - minShift)) = .page page ∧
        nextOf pool (.page page) ≠ .page page := by
  have ring := sound.slotRing shift low high
  cases order : layout.slotOrder shift with
  | nil =>
    rw [order] at ring
    exact .inl ⟨rfl, ring.chain⟩
  | cons page rest =>
    rw [order] at ring
    refine .inr ⟨page, mem_cons_self .., ring.chain.1, ?_⟩
    have distinct := ring.distinct
    cases rest with
    | nil =>
      rw [show nextOf pool (.page page) = .slot (shift - minShift) from ring.chain.2.2]
      nofun
    | cons next rest =>
      rw [show nextOf pool (.page page) = .page next from ring.chain.2.2.1]
      intro same
      injection same with same
      rw [same] at distinct
      simp at distinct

theorem alloc_chunk_held (held : Held ⟨pool, live⟩ layout) (small : size ≤ slabMaxSize) :
    ∃ after p layout', pool.ngxSlabAllocLocked size = some (after, p) ∧
      Held ⟨after, if p = 0 then live else (p, size) :: live⟩ layout' := by
  obtain ⟨low, high, -⟩ := shift_of_spec small
  have notLarge : ¬size > slabMaxSize := not_lt.mpr small
  have isKind : kindOf size = .slots (Pool.shiftOf size) := if_neg notLarge
  have isExtent : extentOf size = 2 ^ Pool.shiftOf size := if_neg notLarge
  obtain ⟨shift, isShift⟩ : ∃ shift, shift = Pool.shiftOf size := ⟨_, rfl⟩
  rw [← isShift] at low high isKind isExtent
  obtain ⟨asked, isAsked⟩ : ∃ asked, asked = pool.setStat (shift - minShift)
    fun stat => { stat with reqs := stat.reqs + 1 } := ⟨_, rfl⟩
  have askedHeld : Held ⟨asked, live⟩ layout := by
    rw [isAsked]
    exact held_stat held (fun _ => rfl) (fun _ => rfl)
  have tallied := askedHeld.tallied
  have sound := tallied.sound
  have slotValid : asked.valid (.slot (shift - minShift)) = true :=
    slot_valid sound low high _ (mem_cons_self ..)
  rw [Pool.ngxSlabAllocLocked, if_neg notLarge, ← isShift]
  dsimp only
  rw [← isAsked, load_valid asked.cells slotValid, bind_eq_bind, bind_some]
  rcases slot_first sound low high with ⟨empty, isNext⟩ | ⟨page, listed, isNext, differ⟩
  · have isEmpty : (asked.cells (.slot (shift - minShift))).next = .slot (shift - minShift) := isNext
    rw [isEmpty, load_valid asked.cells slotValid, bind_some, if_neg (not_not.mpr isEmpty)]
    obtain ⟨after, p, done, outcome⟩ := alloc_new_page_spec sound low high empty
    rcases outcome with ⟨page, layout', rfl, fresh⟩ | ⟨rfl, log, isLog, isAfter⟩
    · refine ⟨after, _, layout', done, held_adds_live askedHeld ?_ ?_⟩
      · rw [isKind, isExtent]
        exact adds_page tallied low high fresh
      · rw [page_addr_eq, add_assoc]
        exact Nat.le_add_right _ _
    · refine ⟨after, 0, layout, done, ?_⟩
      rw [if_pos rfl, isAfter]
      exact held_stat (held_log askedHeld isLog) (fun _ => rfl) (fun _ => rfl)
  · obtain ⟨below, isSlots, -, formatted⟩ := slot_page sound low high listed
    have notAlone : (asked.cells (.page page)).next ≠ .page page := differ
    rw [show (asked.cells (.slot (shift - minShift))).next = .page page from isNext,
      load_valid asked.cells (valid_page below), bind_some, if_pos notAlone]
    obtain ⟨after, chunk, layout', done, inside, clear, sameSpan, newSound, touches, stats⟩ :=
      alloc_chunk_spec sound low high listed
    rw [done]
    refine ⟨after, _, layout', rfl, held_adds_live askedHeld ?_ ?_⟩
    · have usable : reserved shift ≤ chunk := by
        by_contra inMap
        rw [formatted.reserve chunk (by omega)] at clear
        cases clear
      rw [isKind, isExtent]
      exact adds_chunk tallied below isSlots usable inside clear sameSpan newSound touches stats
    · rw [page_addr_eq, add_assoc]
      exact Nat.le_add_right _ _

theorem alloc_held (held : Held ⟨pool, live⟩ layout) :
    ∃ after p layout', pool.ngxSlabAllocLocked size = some (after, p) ∧
      Held ⟨after, if p = 0 then live else (p, size) :: live⟩ layout' := by
  by_cases large : size > slabMaxSize
  · exact alloc_pages_held held large
  · exact alloc_chunk_held held (not_lt.mp large)

end Alloc

section Free

variable {pool after : Pool} {layout layout' : Layout} {live : List (Nat × Nat)} {size p : Nat}

theorem held_drops (held : Held ⟨pool, live⟩ layout) (mem : (p, size) ∈ live)
    (drops : Drops pool after layout layout' (kindOf size) p) :
    Held ⟨after, live.eraseP fun block => block.1 = p⟩ layout' := by
  obtain ⟨found, front, back, -, isFound, isLive, erased⟩ := exists_of_eraseP
    (p := fun block : Nat × Nat => decide (block.1 = p)) mem (decide_eq_true rfl)
  have distinct := held.distinct
  rw [erased]
  rw [isLive, map_append, map_cons] at distinct
  have notIn := (nodup_middle.mp distinct)
  rw [nodup_cons, ← map_append] at notIn
  have isAddr : found.1 = p := of_decide_eq_true isFound
  have gone : ∀ other, (p, other) ∉ front ++ back := by
    intro other inRest
    apply notIn.1
    rw [isAddr]
    exact mem_map.mpr ⟨_, inRest, rfl⟩
  have isBlock : found = (p, size) := by
    rw [isLive, mem_append, mem_cons] at mem
    by_contra differ
    apply gone size
    rw [mem_append]
    rcases mem with inFront | same | inBack
    · exact .inl inFront
    · exact absurd same.symm differ
    · exact .inr inBack
  refine ⟨drops.tallied, ?_, notIn.2, ?_⟩
  · intro addr extent
    have before := held.placed addr extent
    rw [drops.placed, before, isLive, isBlock]
    constructor
    · rintro ⟨⟨other, inLive, same⟩, differ⟩
      refine ⟨other, ?_, same⟩
      simp only [mem_append, mem_cons, Prod.mk.injEq] at inLive ⊢
      tauto
    · rintro ⟨other, inRest, same⟩
      refine ⟨⟨other, ?_, same⟩, ?_⟩
      · simp only [mem_append, mem_cons] at inRest ⊢
        tauto
      · rintro rfl
        exact gone other inRest
  · intro shift low high
    rw [drops.used shift low high]
    have before := held.used shift low high
    dsimp only at before ⊢
    rw [isLive, isBlock, countP_append, countP_cons] at before
    rw [countP_append]
    by_cases same : kindOf size = .slots shift
    · rw [if_pos (decide_eq_true same)] at before
      rw [if_pos same]
      omega
    · rw [if_neg (by simpa using same)] at before
      rw [if_neg same]
      omega

theorem free_held (held : Held ⟨pool, live⟩ layout) (mem : (p, size) ∈ live) :
    ∃ after layout', pool.ngxSlabFreeLocked p = some after ∧
      Held ⟨after, live.eraseP fun block => block.1 = p⟩ layout' := by
  have tallied := held.tallied
  obtain ⟨page, below, placed⟩ := (held.placed p (extentOf size)).mpr ⟨size, mem, rfl⟩
  rcases placed_at_cases tallied.sound below placed with ⟨count, own, rfl, isExtent, pos, -⟩ |
      ⟨shift, chunk, isSlots, formatted, usable, inside, set, rfl, isExtent, -⟩
  · obtain ⟨after, layout', freed, sound, moves, isFree⟩ :=
      free_pages_spec tallied.sound tallied.based below own
    have drops := drops_block tallied below own sound moves isFree
    rw [← kind_of_pages pos isExtent] at drops
    exact ⟨after, layout', freed, held_drops held mem drops⟩
  · have releases := free_chunk_spec tallied.sound tallied.based below isSlots usable inside set
    obtain ⟨after, layout', freed, drops⟩ := drops_chunk tallied below isSlots usable inside set releases
    rw [← kind_of_extent formatted.high isExtent] at drops
    rw [Nat.shiftLeft_eq] at freed drops
    exact ⟨after, layout', freed, held_drops held mem drops⟩

end Free

section Write

variable {pool after : Pool} {layout : Layout} {live : List (Nat × Nat)} {addr : Nat} {word : Word}

theorem sound_bits (sound : Sound pool layout 0 0) (cells : after.cells = pool.cells)
    (last : after.last = pool.last) (pfree : after.pfree = pool.pfree)
    (bits : ∀ page < pool.last, ∀ shift, (layout.span page).kind = .slots shift →
      ∀ chunk < capacity shift, taken after page shift chunk = taken pool page shift chunk) :
    Sound after layout 0 0 := by
  obtain ⟨size, tiled, merged, hollow, single, described, freeRing, freeMem, slotRing, slotMem,
    counted⟩ := sound
  have sameNext : nextOf after = nextOf pool := by
    funext ref
    rw [nextOf, cells, nextOf]
  have samePrev : prevOf after = prevOf pool := by
    funext ref
    rw [prevOf, cells, prevOf]
  have full : ∀ page < pool.last, ∀ shift, (layout.span page).kind = .slots shift →
      (Full after page shift ↔ Full pool page shift) := by
    intro page below shift isSlots
    constructor
    · exact fun set chunk inside =>
        (bits page below shift isSlots chunk inside).symm.trans (set chunk inside)
    · exact fun set chunk inside => (bits page below shift isSlots chunk inside).trans (set chunk inside)
  rw [← sameNext, ← samePrev] at freeRing slotRing
  refine ⟨by rw [last]; exact size, by rw [last]; exact tiled, by rw [last]; exact merged,
    by rw [last]; exact hollow, by rw [last]; exact single, ?_, freeRing, by rw [last]; exact freeMem,
    slotRing, ?_, by rw [last, pfree]; exact counted⟩
  · intro page below outside
    rw [last] at below
    have before := described page below outside
    unfold Described at before ⊢
    rw [cells, last]
    cases isKind : (layout.span page).kind with
    | free | block => rw [isKind] at before; exact before
    | slots shift =>
      rw [isKind] at before
      obtain ⟨⟨low, high, type, small, big, upper, reserve⟩, null⟩ := before
      dsimp only
      rw [full page below shift isKind]
      refine ⟨⟨low, high, by rw [cells]; exact type, by rw [cells]; exact small, by rw [cells]; exact big,
        ?_, ?_⟩, null⟩
      · intro isBig chunk beyond
        rw [taken_big after isBig, cells, ← taken_big pool isBig]
        exact upper isBig chunk beyond
      · intro chunk inside
        rw [bits page below shift isKind chunk (lt_trans inside (reserved_lt low high))]
        exact reserve chunk inside
  · intro shift low high page
    rw [slotMem shift low high page, last]
    constructor
    · rintro ⟨below, isSlots, notFull⟩
      exact ⟨below, isSlots, fun set => notFull ((full page below shift isSlots).mp set)⟩
    · rintro ⟨below, isSlots, notFull⟩
      exact ⟨below, isSlots, fun set => notFull ((full page below shift isSlots).mpr set)⟩

theorem placed_bits {extent : Nat} (start : after.start = pool.start) (last : after.last = pool.last)
    (bits : ∀ page < pool.last, ∀ shift, (layout.span page).kind = .slots shift →
      ∀ chunk < capacity shift, taken after page shift chunk = taken pool page shift chunk) :
    Placed after layout addr extent ↔ Placed pool layout addr extent := by
  unfold Placed
  rw [last]
  apply exists_congr
  intro page
  apply and_congr_right
  intro below
  cases isKind : (layout.span page).kind with
  | free => exact iff_of_false (placed_at_free isKind) (placed_at_free isKind)
  | block =>
    unfold PlacedAt
    rw [isKind, page_addr_same page start]
  | slots shift =>
    rw [placed_at_slots isKind, placed_at_slots isKind, page_addr_same page start]
    apply exists_congr
    intro chunk
    apply and_congr_right
    intro _
    apply and_congr_right
    intro inside
    rw [bits page below shift isKind chunk inside]

theorem write_held (held : Held ⟨pool, live⟩ layout)
    (inBlock : ∃ block ∈ live, block.1 ≤ addr ∧ addr + 8 ≤ block.1 + extentOf block.2) :
    Held ⟨pool.setWord addr word, live⟩ layout := by
  have tallied := held.tallied
  dsimp only at tallied
  obtain ⟨⟨p, size⟩, mem, lower, upper⟩ := inBlock
  have placed := (held.placed p (extentOf size)).mpr ⟨size, mem, rfl⟩
  dsimp only at placed lower upper
  have bits : ∀ page < pool.last, ∀ shift, (layout.span page).kind = .slots shift →
      ∀ chunk < capacity shift,
        taken (pool.setWord addr word) page shift chunk = taken pool page shift chunk := by
    intro page below shift isSlots chunk inside
    rcases lt_or_ge shift slabExactShift with isSmall | notSmall
    · have apart := placed_bitmap tallied.sound placed below isSlots isSmall
      have size := capacity_small (slot_formatted tallied.sound below isSlots).low isSmall
      rw [taken_small _ isSmall, taken_small _ isSmall]
      change (update pool.memory addr word (pool.pageAddr page + 8 * (chunk / 64))).getLsbD _ = _
      rw [update_of_ne]
      unfold bitmapBytes at apart
      omega
    · have notLess : ¬shift < slabExactShift := not_lt.mpr notSmall
      unfold taken
      rw [if_neg notLess, if_neg notLess]
      rfl
  have sound : Sound (pool.setWord addr word) layout 0 0 :=
    sound_bits tallied.sound rfl rfl rfl bits
  refine ⟨⟨sound, ?_, ?_, tallied.total, tallied.quiet⟩, ?_, held.distinct, held.used⟩
  · obtain ⟨pos, pages, aligned, within, finite⟩ := tallied.based
    exact ⟨pos, pages, aligned, within, finite⟩
  · intro page below shift isSlots
    obtain ⟨chunk, usable, inside, set⟩ := tallied.inUse page below shift isSlots
    exact ⟨chunk, usable, inside, (bits page below shift isSlots chunk inside).trans set⟩
  · intro address' extent'
    rw [← held.placed address' extent']
    exact placed_bits rfl rfl bits

end Write

section Init

variable {slots finish : Nat} {memory : Nat → Word}

def initLayout (last : Nat) : Layout where
  span := fun _ => ⟨.free, 0, last⟩
  freeOrder := [0]
  slotOrder := fun _ => []

theorem init_based (memory : Nat → Word) (pages : 1 ≤ Pool.initLast slots finish)
    (finite : finish < 2 ^ 64) :
    Based (Pool.ngxSlabInit slots finish memory) := by
  have aligned : Pool.initStart slots finish % pagesize = 0 := by
    exact Nat.mul_mod_left ..
  have above : slots + Pool.initPages slots finish * Pool.pageCellSize + 504 ≤
      Pool.initStart slots finish := by
    unfold Pool.initStart Pool.alignPtr slotCount Pool.statSize Pool.pageCellSize pagesize
    omega
  have within : Pool.initLast slots finish * pagesize ≤ finish - Pool.initStart slots finish := by
    calc Pool.initLast slots finish * pagesize
        ≤ (finish - Pool.initStart slots finish) / pagesize * pagesize :=
          Nat.mul_le_mul_right _ (Nat.min_le_right _ _)
      _ ≤ finish - Pool.initStart slots finish := Nat.div_mul_le_self _ _
  refine ⟨?_, pages, aligned, ?_, finite⟩
  · change 0 < Pool.initStart slots finish
    omega
  · change Pool.initStart slots finish + Pool.initLast slots finish * pagesize ≤ finish
    unfold pagesize at within ⊢
    omega

theorem init_sound (pages : 1 ≤ Pool.initLast slots finish) (finite : finish < 2 ^ 64) :
    Sound (Pool.ngxSlabInit slots finish memory) (initLayout (Pool.initLast slots finish)) 0 0 := by
  obtain ⟨-, -, -, within, -⟩ := init_based memory pages finite
  change Pool.initStart slots finish + Pool.initLast slots finish * pagesize ≤ finish at within
  unfold pagesize at within
  have covers : ∀ page < Pool.initLast slots finish,
      Span.covers ⟨.free, 0, Pool.initLast slots finish⟩ page := by
    intro page below
    exact ⟨Nat.zero_le _, by dsimp only; omega⟩
  have noPage : ∀ page, ¬Within 0 0 page := by
    intro page inside
    unfold Within at inside
    omega
  refine ⟨?_, ?_, ?_, ?_, ?_, ?_, ?_, ?_, ?_, ?_, ?_⟩
  · change Pool.initLast slots finish < 2 ^ 63
    omega
  · intro page below
    refine ⟨covers page below, ?_, fun _ _ => rfl⟩
    change 0 + Pool.initLast slots finish ≤ Pool.initLast slots finish
    omega
  · exact fun _ _ _ _ => rfl
  · exact fun page inside => absurd inside (noPage page)
  · exact nofun
  · intro page below _
    cases page with
    | zero => exact ⟨rfl, fun _ => rfl, fun differ => absurd rfl differ⟩
    | succ page =>
      refine ⟨rfl, fun isHead => absurd isHead (Nat.succ_ne_zero page), fun _ => ⟨rfl, rfl, ?_⟩⟩
      intro atEnd notLast
      change page + 1 + 1 = 0 + Pool.initLast slots finish at atEnd
      change page + 1 + 1 < Pool.initLast slots finish at notLast
      omega
  · exact ⟨by simp [initLayout], rfl, rfl, rfl⟩
  · intro page
    constructor
    · intro mem
      rw [mem_singleton.mp mem]
      exact ⟨pages, rfl, rfl⟩
    · rintro ⟨-, -, isHead⟩
      exact mem_singleton.mpr isHead.symm
  · intro shift _ _
    exact ⟨by simp [initLayout], rfl⟩
  · intro shift _ _ page
    constructor
    · exact nofun
    · exact fun ⟨_, isSlots, _⟩ => Kind.noConfusion isSlots
  · unfold countOf initLayout
    rw [Finset.filter_true_of_mem (fun _ _ => rfl), Finset.card_range]
    rfl

theorem init_held (pages : 1 ≤ Pool.initLast slots finish) (finite : finish < 2 ^ 64) :
    Held ⟨Pool.ngxSlabInit slots finish memory, []⟩ (initLayout (Pool.initLast slots finish)) := by
  refine ⟨⟨init_sound pages finite, init_based memory pages finite, ?_, ?_, ?_⟩, ?_, nodup_nil, ?_⟩
  · exact nofun
  · intro shift _ _
    change 0 = countOf _ _ _ * _
    unfold countOf
    rw [Finset.filter_false_of_mem (nofun), Finset.card_empty, zero_mul]
  · exact nofun
  · intro addr extent
    constructor
    · rintro ⟨page, -, placed⟩
      exact absurd placed (placed_at_free rfl)
    · rintro ⟨size, mem, -⟩
      cases mem
  · exact fun _ _ _ => rfl

end Init

theorem next_held {before after : State} {call : Call}
    (held : ∃ layout, Held before layout) (step : (slabSystem slots finish).next before call after) :
    ∃ layout, Held after layout := by
  obtain ⟨layout, held⟩ := held
  cases call with
  | alloc size =>
    obtain ⟨pool, p, done, rfl⟩ := step
    obtain ⟨after, p', layout', done', held'⟩ := alloc_held held
    rw [done] at done'
    injection done' with same
    injection same with isPool isAddr
    subst isPool isAddr
    exact ⟨layout', held'⟩
  | free p =>
    obtain ⟨⟨size, mem⟩, pool, done, rfl⟩ := step
    obtain ⟨after, layout', done', held'⟩ := free_held held mem
    rw [done] at done'
    cases done'
    exact ⟨layout', held'⟩
  | write addr word =>
    obtain ⟨inBlock, -, rfl⟩ := step
    exact ⟨layout, write_held held inBlock⟩

theorem reachable_held (pages : 1 ≤ Pool.initLast slots finish)
    (finite : finish < 2 ^ 64) (reached : Reachable (slabSystem slots finish) state) :
    ∃ layout, Held state layout := by
  apply reachable_invariant _ _ reached
  · rintro state ⟨memory, rfl⟩
    exact ⟨_, init_held pages finite⟩
  · exact fun before call after held step => next_held held step

/-- The slot of a page, read from its descriptor as `ngx_slab_free_locked` does. -/
def slotShift (pool : Pool) (page : Nat) : Option Nat :=
  match (pool.cells (.page page)).type with
  | .page => none
  | .exact => some slabExactShift
  | _ => some ((pool.cells (.page page)).slab &&& slabShiftMask).toNat

theorem slot_shift_eq {pool : Pool} (sound : Sound pool layout 0 0)
    (below : page < pool.last) {shift : Nat} :
    slotShift pool page = some shift ↔ (layout.span page).kind = .slots shift := by
  have described := sound.described page below (by unfold Within; omega)
  unfold Described at described
  unfold slotShift
  cases isKind : (layout.span page).kind with
  | free | block =>
    rw [isKind] at described
    rw [described.1]
    exact iff_of_false (some_ne_none shift).symm nofun
  | slots own =>
    rw [isKind] at described
    obtain ⟨⟨low, high, type, small, big, -, -⟩, -⟩ := described
    have same : slotShift pool page = some own := by
      unfold slotShift
      rw [type]
      rcases lt_trichotomy own slabExactShift with isSmall | rfl | isBig
      · rw [type_small isSmall, small isSmall]
        unfold slabExactShift at isSmall
        interval_cases own <;> rfl
      · rfl
      · rw [type_big isBig]
        dsimp only
        rw [big isBig, BitVec.toNat_ofNat]
        unfold pagesizeShift at high
        congr 1
        omega
    change slotShift pool page = some shift ↔ _
    rw [same, Option.some.injEq, Kind.slots.injEq]

def Apart (first second : Nat × Nat) : Prop :=
  first.1 + extentOf first.2 ≤ second.1 ∨ second.1 + extentOf second.2 ≤ first.1

/-- The bitmap at the start of a page with chunks of less than 64 bytes is not
touched by a block. -/
def SparesBitmaps (pool : Pool) (block : Nat × Nat) : Prop :=
  ∀ page < pool.last, ∀ shift, slotShift pool page = some shift → shift < slabExactShift →
    block.1 + extentOf block.2 ≤ pool.pageAddr page ∨ pool.pageAddr page + bitmapBytes shift ≤ block.1

theorem held_apart (held : Held state layout) : state.live.Pairwise Apart := by
  have inLive : ∀ block ∈ state.live, Placed state.pool layout block.1 (extentOf block.2) :=
    fun block mem => (held.placed _ _).mpr ⟨block.2, mem, rfl⟩
  have distinct := pairwise_map.mp held.distinct
  apply List.Pairwise.imp_of_mem _ distinct
  intro first second firstIn secondIn differ
  rcases placed_disjoint held.tallied.sound (inLive first firstIn) (inLive second secondIn) with
      ⟨same, -⟩ | before | behind
  · exact absurd same differ
  · exact .inl before
  · exact .inr behind

/-- In every state that any calls lead to, the blocks in use do not overlap,
are large enough, and lie in the page area outside the bitmaps; and every call
that is permitted returns. -/
theorem slab_blocks_never_overlap {slots finish : Nat} (pages : 1 ≤ Pool.initLast slots finish)
    (finite : finish < 2 ^ 64) {state : State} (reached : Reachable (slabSystem slots finish) state) :
    state.live.Pairwise Apart ∧
    (∀ block ∈ state.live, block.2 ≤ extentOf block.2 ∧ state.pool.start ≤ block.1 ∧
      block.1 + extentOf block.2 ≤ state.pool.start + state.pool.last * pagesize ∧
      SparesBitmaps state.pool block) ∧ state.pool.start + state.pool.last * pagesize ≤ state.pool.finish ∧
    (∀ size, ∃ after p, state.pool.ngxSlabAllocLocked size = some (after, p)) ∧
    (∀ block ∈ state.live, ∃ after, state.pool.ngxSlabFreeLocked block.1 = some after) := by
  obtain ⟨layout, held⟩ := reachable_held pages finite reached
  have sound := held.tallied.sound
  refine ⟨held_apart held, ?_, held.tallied.based.within, ?_, ?_⟩
  · rintro ⟨p, size⟩ mem
    have placed := (held.placed p (extentOf size)).mpr ⟨size, mem, rfl⟩
    obtain ⟨page, below, here⟩ := placed
    obtain ⟨lower, upper⟩ := placed_at_inside sound below here
    refine ⟨extent_of_le, lower, upper, ?_⟩
    intro other below' shift isShift isSmall
    rw [slot_shift_eq sound below'] at isShift
    exact placed_bitmap sound ⟨page, below, here⟩ below' isShift isSmall
  · intro size
    obtain ⟨after, p, -, done, -⟩ := alloc_held held
    exact ⟨after, p, done⟩
  · rintro ⟨p, size⟩ mem
    obtain ⟨after, -, done, -⟩ := free_held held mem
    exact ⟨after, done⟩

/-- The addresses of two allocations and the pool after the first block is freed. -/
def twoBlocks : Option (Pool × Nat × Nat) := do
  let (pool, first) ← (Pool.ngxSlabInit 0 16384 fun _ => 0).ngxSlabAllocLocked 100
  let (pool, second) ← pool.ngxSlabAllocLocked 10
  let pool ← pool.ngxSlabFreeLocked first
  some (pool, first, second)

theorem two_blocks_reachable : ∃ state, Reachable (slabSystem 0 16384) state ∧
    state.live = [(8224, 10)] := by
  have run : twoBlocks.map (fun result => result.2) = some (4096, 8224) := by decide
  obtain ⟨⟨pool, first, second⟩, isRun, addresses⟩ := map_eq_some_iff.mp run
  unfold twoBlocks at isRun
  obtain ⟨⟨pool₁, first'⟩, alloc₁, isRun⟩ := bind_eq_some_iff.mp isRun
  obtain ⟨⟨pool₂, second'⟩, alloc₂, isRun⟩ := bind_eq_some_iff.mp isRun
  obtain ⟨pool₃, free₁, isRun⟩ := bind_eq_some_iff.mp isRun
  simp only [Option.some.injEq, Prod.mk.injEq] at isRun addresses
  obtain ⟨-, rfl, rfl⟩ := isRun
  obtain ⟨rfl, rfl⟩ := addresses
  have reached₀ : Reachable (slabSystem 0 16384) ⟨Pool.ngxSlabInit 0 16384 fun _ => 0, []⟩ :=
    reachable_initial ⟨_, rfl⟩
  have step₁ : (slabSystem 0 16384).next ⟨Pool.ngxSlabInit 0 16384 fun _ => 0, []⟩ (.alloc 100)
    ⟨pool₁, [(4096, 100)]⟩ := ⟨pool₁, 4096, alloc₁, rfl⟩
  have step₂ : (slabSystem 0 16384).next ⟨pool₁, [(4096, 100)]⟩ (.alloc 10)
    ⟨pool₂, [(8224, 10), (4096, 100)]⟩ := ⟨pool₂, 8224, alloc₂, rfl⟩
  have step₃ : (slabSystem 0 16384).next ⟨pool₂, [(8224, 10), (4096, 100)]⟩ (.free 4096)
    ⟨pool₃, [(8224, 10)]⟩ := ⟨⟨100, by simp⟩, pool₃, free₁, rfl⟩
  exact ⟨_, reachable_next (reachable_next (reachable_next reached₀ step₁) step₂) step₃, rfl⟩

theorem slab_blocks_of_two_calls : ∃ state, Reachable (slabSystem 0 16384) state ∧
    state.live = [(8224, 10)] ∧ state.live.Pairwise Apart ∧ state.pool.start ≤ 8224 := by
  obtain ⟨state, reached, isLive⟩ := two_blocks_reachable
  obtain ⟨apart, inside, -⟩ := slab_blocks_never_overlap (by decide) (by decide) reached
  refine ⟨state, reached, isLive, apart, ?_⟩
  exact (inside (8224, 10) (by rw [isLive]; exact mem_cons_self ..)).2.1

def FreePage (state : State) (page : Nat) : Prop :=
  page < state.pool.last ∧ slotShift state.pool page = none ∧
    ∀ block ∈ state.live, block.2 > slabMaxSize →
      ¬(block.1 ≤ state.pool.pageAddr page ∧ state.pool.pageAddr page < block.1 + extentOf block.2)

instance (state : State) : DecidablePred (FreePage state) := fun page =>
  inferInstanceAs (Decidable (page < state.pool.last ∧ slotShift state.pool page = none ∧
    ∀ block ∈ state.live, block.2 > slabMaxSize →
      ¬(block.1 ≤ state.pool.pageAddr page ∧ state.pool.pageAddr page < block.1 + extentOf block.2)))

theorem free_page_iff (held : Held state layout) :
    FreePage state page ↔ page < state.pool.last ∧ (layout.span page).kind = .free := by
  have sound := held.tallied.sound
  constructor
  · rintro ⟨below, noSlot, noBlock⟩
    refine ⟨below, ?_⟩
    cases isKind : (layout.span page).kind with
    | free => rfl
    | slots shift =>
      rw [(slot_shift_eq sound below).mpr isKind] at noSlot
      cases noSlot
    | block =>
      exfalso
      obtain ⟨covered, bounded, same⟩ := sound.tiled page below
      obtain ⟨⟨kind, head, count⟩, isSpan⟩ : ∃ found, layout.span page = found := ⟨_, rfl⟩
      rw [isSpan] at covered bounded same isKind
      subst isKind
      unfold Span.covers at covered
      dsimp only at covered bounded
      have own : layout.span head = ⟨.block, head, count⟩ := by
        apply same head
        exact ⟨le_rfl, by dsimp only; omega⟩
      obtain ⟨size, mem, isExtent⟩ := (held.placed _ _).mp
        ⟨head, by omega, (placed_at_block own).mpr ⟨rfl, rfl⟩⟩
      have base := page_addr_eq state.pool page
      have headBase := page_addr_eq state.pool head
      have large : size > slabMaxSize := by
        by_contra small
        have isBlock := kind_of_pages (show 0 < count by omega) isExtent
        rw [kindOf, if_neg small] at isBlock
        cases isBlock
      apply noBlock _ mem large
      rw [isExtent]
      unfold pagesize
      omega
  · rintro ⟨below, isFree⟩
    refine ⟨below, ?_, ?_⟩
    · cases isShift : slotShift state.pool page with
      | none => rfl
      | some shift =>
        rw [slot_shift_eq sound below, isFree] at isShift
        cases isShift
    · rintro ⟨p, size⟩ mem large ⟨lower, upper⟩
      obtain ⟨other, below', placed⟩ := (held.placed p (extentOf size)).mpr ⟨size, mem, rfl⟩
      have base := page_addr_eq state.pool page
      have otherBase := page_addr_eq state.pool other
      rcases placed_at_cases sound below' placed with ⟨count, own, rfl, isExtent, -, -⟩ |
          ⟨shift, chunk, -, formatted, -, -, -, -, isExtent, -⟩
      · have same := (sound.tiled other below').2.2 page (by
          rw [own]
          rw [isExtent] at upper
          unfold pagesize at upper
          exact ⟨by dsimp only; omega, by dsimp only; omega⟩)
        rw [same, own] at isFree
        cases isFree
      · have isKind := kind_of_extent formatted.high isExtent
        rw [kindOf, if_pos large] at isKind
        cases isKind

/-- Free pages next to each other that cannot be made longer on either side. -/
def MaximalRun (state : State) (head count : Nat) : Prop :=
  0 < count ∧ (∀ page, head ≤ page → page < head + count → FreePage state page) ∧
    (head = 0 ∨ ¬FreePage state (head - 1)) ∧ ¬FreePage state (head + count)

/-- The free list, from `pool->free` around: the heads of all maximal runs,
each with the length of its run. -/
def FreeList (state : State) (order : List Nat) : Prop :=
  Ring (nextOf state.pool) (prevOf state.pool) .free (order.map .page) ∧
    (∀ head, head ∈ order ↔ ∃ count, MaximalRun state head count) ∧
    ∀ head count, MaximalRun state head count →
      (state.pool.cells (.page head)).slab = BitVec.ofNat 64 count

/-- The list of a slot: pages of that slot, each with a free chunk. -/
def SlotList (pool : Pool) (shift : Nat) (order : List Nat) : Prop :=
  Ring (nextOf pool) (prevOf pool) (.slot (shift - minShift)) (order.map .page) ∧
    ∀ page ∈ order, page < pool.last ∧ slotShift pool page = some shift ∧
      ∃ chunk < capacity shift, taken pool page shift chunk = false

section

variable {state : State} {layout : Layout} (held : Held state layout)
include held

theorem held_maximal_run {head : Nat} : MaximalRun state head count ↔
      head < state.pool.last ∧ layout.span head = ⟨.free, head, count⟩ := by
  have sound := held.tallied.sound
  constructor
  · rintro ⟨pos, inside, left, right⟩
    obtain ⟨below, isFree⟩ := (free_page_iff held).mp (inside head le_rfl (by omega))
    refine ⟨below, ?_⟩
    obtain ⟨covered, bounded, same⟩ := sound.tiled head below
    obtain ⟨⟨kind, first, length⟩, isSpan⟩ : ∃ found, layout.span head = found := ⟨_, rfl⟩
    rw [isSpan] at isFree covered bounded same
    subst isFree
    unfold Span.covers at covered same
    dsimp only at covered bounded same
    have freeIn : ∀ page, first ≤ page → page < first + length → FreePage state page := by
      intro page low high
      rw [free_page_iff held, same page ⟨low, high⟩]
      exact ⟨by omega, rfl⟩
    have isFirst : first = head := by
      by_contra differ
      rcases left with isZero | notFree
      · omega
      · exact notFree (freeIn (head - 1) (by omega) (by omega))
    subst isFirst
    -- Pages of the run past the span would be merged into it.
    have joined : ∀ more, first + more < first + count → layout.span (first + more) =
        ⟨.free, first, length⟩ := by
      intro more
      induction more with
      | zero => exact fun _ => isSpan
      | succ more ih =>
        intro less
        have before := ih (by omega)
        obtain ⟨belowNext, nextFree⟩ := (free_page_iff held).mp (inside (first + (more + 1)) (by omega) less)
        rw [← before]
        exact sound.merged (first + more) belowNext (by rw [before]) nextFree
    have longer : count ≤ length := by
      have atEnd := joined (count - 1) (by omega)
      have own := (sound.tiled (first + (count - 1)) ((free_page_iff held).mp
        (inside (first + (count - 1)) (by omega) (by omega))).1).1
      rw [atEnd] at own
      unfold Span.covers at own
      dsimp only at own
      omega
    have shorter : length ≤ count := by
      by_contra more
      exact right (freeIn (first + count) (by omega) (by omega))
    rw [isSpan, le_antisymm longer shorter]
  · rintro ⟨below, own⟩
    obtain ⟨covered, bounded, same⟩ := sound.tiled head below
    rw [own] at covered bounded same
    unfold Span.covers at covered same
    dsimp only at covered bounded same
    refine ⟨by omega, ?_, ?_, ?_⟩
    · intro page low high
      rw [free_page_iff held, same page ⟨low, high⟩]
      exact ⟨by omega, rfl⟩
    · by_cases isZero : head = 0
      · exact .inl isZero
      · right
        intro isFree
        obtain ⟨belowLeft, leftFree⟩ := (free_page_iff held).mp isFree
        have joined := sound.merged (head - 1) (by omega) leftFree (by
          rw [show head - 1 + 1 = head by omega, own])
        rw [show head - 1 + 1 = head by omega, own] at joined
        have left := (sound.tiled (head - 1) belowLeft).1
        rw [← joined] at left
        unfold Span.covers at left
        dsimp only at left
        omega
    · intro isFree
      obtain ⟨belowRight, rightFree⟩ := (free_page_iff held).mp isFree
      have last := same (head + count - 1) ⟨by omega, by omega⟩
      have joined := sound.merged (head + count - 1) (by omega) (by rw [last]) (by
        rw [show head + count - 1 + 1 = head + count by omega]
        exact rightFree)
      rw [show head + count - 1 + 1 = head + count by omega, last] at joined
      have right := (sound.tiled (head + count) belowRight).1
      rw [joined] at right
      unfold Span.covers at right
      dsimp only at right
      omega

theorem held_free_list : FreeList state layout.freeOrder := by
  have sound := held.tallied.sound
  refine ⟨sound.freeRing, ?_, ?_⟩
  · intro head
    rw [sound.freeMem head]
    constructor
    · rintro ⟨below, isFree, isHead⟩
      refine ⟨(layout.span head).count, (held_maximal_run held).mpr ⟨below, ?_⟩⟩
      calc layout.span head =
        ⟨(layout.span head).kind, (layout.span head).head, (layout.span head).count⟩ := rfl
        _ = ⟨.free, head, (layout.span head).count⟩ := by rw [isFree, isHead]
    · rintro ⟨count, run⟩
      obtain ⟨below, own⟩ := (held_maximal_run held).mp run
      rw [own]
      exact ⟨below, rfl, rfl⟩
  · intro head count run
    obtain ⟨below, own⟩ := (held_maximal_run held).mp run
    have described := sound.described head below (by unfold Within; omega)
    rw [own] at described
    exact described.2.1 rfl

theorem held_slot_list (low : minShift ≤ shift) (high : shift < pagesizeShift) :
    SlotList state.pool shift (layout.slotOrder shift) := by
  have sound := held.tallied.sound
  refine ⟨sound.slotRing shift low high, ?_⟩
  intro page listed
  obtain ⟨below, isSlots, notFull, -⟩ := slot_page sound low high listed
  refine ⟨below, (slot_shift_eq sound below).mpr isSlots, ?_⟩
  unfold Full at notFull
  simp only [not_forall] at notFull
  obtain ⟨chunk, inside, clear⟩ := notFull
  exact ⟨chunk, inside, by simpa using clear⟩

theorem held_drained (drained : state.live = []) :
    (∀ page < state.pool.last, (layout.span page).kind = .free) ∧ MaximalRun state 0 state.pool.last := by
  have sound := held.tallied.sound
  have noBlock : ∀ addr extent, ¬Placed state.pool layout addr extent := by
    intro addr extent placed
    obtain ⟨size, mem, -⟩ := (held.placed addr extent).mp placed
    rw [drained] at mem
    cases mem
  have allFree : ∀ page < state.pool.last, (layout.span page).kind = .free := by
    intro page below
    have isFree : FreePage state page := by
      refine ⟨below, ?_, ?_⟩
      · cases isShift : slotShift state.pool page with
        | none => rfl
        | some shift =>
          rw [slot_shift_eq sound below] at isShift
          obtain ⟨chunk, usable, inside, set⟩ := held.tallied.inUse page below shift isShift
          exact absurd ⟨page, below, (placed_at_slots isShift).mpr ⟨chunk, usable, inside, set, rfl, rfl⟩⟩
            (noBlock _ _)
      · intro block mem
        rw [drained] at mem
        cases mem
    exact ((free_page_iff held).mp isFree).2
  refine ⟨allFree, held.tallied.based.pages, ?_, .inl rfl, ?_⟩
  · intro page _ high
    exact (free_page_iff held).mpr ⟨by omega, allFree page (by omega)⟩
  · intro isFree
    have below := isFree.1
    omega

end

/-- The counters and lists of a pool, told from its descriptors and the blocks
in use. -/
structure Accounts (state : State) : Prop where
  pfree : state.pool.pfree = ((Finset.range state.pool.last).filter (FreePage state)).card
  used : ∀ shift, minShift ≤ shift → shift < pagesizeShift →
    (state.pool.stats (shift - minShift)).used =
      state.live.countP fun block => block.2 ≤ slabMaxSize ∧ Pool.shiftOf block.2 = shift
  total : ∀ shift, minShift ≤ shift → shift < pagesizeShift →
    (state.pool.stats (shift - minShift)).total =
      ((Finset.range state.pool.last).filter fun page => slotShift state.pool page = some shift).card *
        (capacity shift - reserved shift)
  slotLists : ∀ shift, minShift ≤ shift → shift < pagesizeShift →
    ∃ order, SlotList state.pool shift order
  neverBusy : .pageIsBusy ∉ state.pool.log
  freeList : ∃ order, FreeList state order
  drained : state.live = [] → FreeList state [0] ∧
    (state.pool.cells (.page 0)).slab = BitVec.ofNat 64 state.pool.last ∧
    ∀ shift, minShift ≤ shift → shift < pagesizeShift →
      (state.pool.stats (shift - minShift)).used = 0 ∧ (state.pool.stats (shift - minShift)).total = 0

section

variable {state : State} {layout : Layout} (held : Held state layout)
include held

theorem held_total (low : minShift ≤ shift) (high : shift < pagesizeShift) :
    (state.pool.stats (shift - minShift)).total =
      ((Finset.range state.pool.last).filter fun page => slotShift state.pool page = some shift).card *
        (capacity shift - reserved shift) := by
  rw [held.tallied.total shift low high, countOf]
  congr 2
  apply Finset.filter_congr
  intro page mem
  rw [slot_shift_eq held.tallied.sound (Finset.mem_range.mp mem)]

theorem held_used (low : minShift ≤ shift) (high : shift < pagesizeShift) :
    (state.pool.stats (shift - minShift)).used =
      state.live.countP fun block => block.2 ≤ slabMaxSize ∧ Pool.shiftOf block.2 = shift := by
  rw [held.used shift low high]
  apply countP_congr
  intro block _
  rw [decide_eq_true_iff, decide_eq_true_iff, kindOf]
  by_cases large : block.2 > slabMaxSize
  · rw [if_pos large]
    exact iff_of_false Kind.noConfusion fun both => not_lt.mpr both.1 large
  · rw [if_neg large, Kind.slots.injEq]
    exact ⟨fun same => ⟨not_lt.mp large, same⟩, fun both => both.2⟩

theorem held_accounts : Accounts state := by
  have sound := held.tallied.sound
  refine ⟨?_, fun _ => held_used held, fun _ => held_total held, ?_, ?_,
    ⟨_, held_free_list held⟩, ?_⟩
  · rw [sound.pfree, countOf, add_zero]
    congr 1
    apply Finset.filter_congr
    intro page mem
    rw [free_page_iff held]
    exact ⟨fun isFree => ⟨Finset.mem_range.mp mem, isFree⟩, fun both => both.2⟩
  · exact fun shift low high => ⟨_, held_slot_list held low high⟩
  · exact fun mem => Message.noConfusion (held.tallied.quiet _ mem)
  · intro drained
    obtain ⟨allFree, run⟩ := held_drained held drained
    have whole := ((held_maximal_run held).mp run).2
    have list := held_free_list held
    have atZero : ∀ head ∈ layout.freeOrder, head = 0 := by
      intro head mem
      obtain ⟨below, -, isHead⟩ := (sound.freeMem head).mp mem
      have same := (sound.tiled 0 held.tallied.based.pages).2.2 head (by
        rw [whole]
        exact ⟨Nat.zero_le _, by dsimp only; omega⟩)
      rw [same, whole] at isHead
      exact isHead.symm
    have only : layout.freeOrder = [0] := by
      have distinct : layout.freeOrder.Nodup :=
        List.Nodup.of_map _ (nodup_cons.mp sound.freeRing.distinct).2
      have listed := (list.2.1 0).mpr ⟨_, run⟩
      cases order : layout.freeOrder with
      | nil =>
        rw [order] at listed
        cases listed
      | cons first rest =>
        rw [order] at distinct atZero
        have firstZero := atZero first (mem_cons_self ..)
        cases rest with
        | nil => rw [firstZero]
        | cons second rest =>
          have secondZero := atZero second (mem_cons_of_mem _ (mem_cons_self ..))
          rw [firstZero, secondZero] at distinct
          simp at distinct
    rw [only] at list
    refine ⟨list, list.2.2 0 _ run, ?_⟩
    intro shift low high
    constructor
    · rw [held.used shift low high, drained, countP_nil]
    · rw [held.tallied.total shift low high, countOf, Finset.filter_false_of_mem, Finset.card_empty,
        zero_mul]
      intro page mem isSlots
      rw [allFree page (Finset.mem_range.mp mem)] at isSlots
      cases isSlots

end

/-- In every state that any calls lead to, the counters and the lists are right,
and when all blocks are freed the pool is one run of free pages again. -/
theorem slab_accounts_right {slots finish : Nat} (pages : 1 ≤ Pool.initLast slots finish)
    (finite : finish < 2 ^ 64) {state : State} (reached : Reachable (slabSystem slots finish) state) :
    Accounts state := by
  obtain ⟨layout, held⟩ := reachable_held pages finite reached
  exact held_accounts held

theorem slab_accounts_of_two_calls : ∃ state, Reachable (slabSystem 0 16384) state ∧
    (state.pool.stats 1).used = 1 := by
  obtain ⟨state, reached, isLive⟩ := two_blocks_reachable
  refine ⟨state, reached, ?_⟩
  have used := (slab_accounts_right (by decide) (by decide) reached).used 4 (by decide) (by decide)
  rw [isLive] at used
  exact used.trans (by decide)

/-- More than a page is refused exactly when every run in the free list is too short. -/
theorem large_refused_iff {slots finish : Nat} {state : State} (pages : 1 ≤ Pool.initLast slots finish)
    (finite : finish < 2 ^ 64) (reached : Reachable (slabSystem slots finish) state) {size : Nat}
    (large : size > slabMaxSize) : ∃ order, FreeList state order ∧
      ((∃ after, state.pool.ngxSlabAllocLocked size = some (after, 0)) ↔
        ∀ head ∈ order, (state.pool.cells (.page head)).slab.toNat < pagesOf size) := by
  obtain ⟨layout, held⟩ := reachable_held pages finite reached
  have sound := held.tallied.sound
  have search := alloc_pages_spec sound (pages_of_spec large).1
  refine ⟨layout.freeOrder, held_free_list held, ?_⟩
  rw [← @alloc_pages_from_none _ _ (state.pool.last + 1) _ _ sound [] rfl
    (Nat.lt_succ_of_le (free_order_length sound)), ← start_free sound, ← Pool.ngxSlabAllocPages,
    Pool.ngxSlabAllocLocked, if_pos large, ← pagesOf]
  generalize state.pool.ngxSlabAllocPages (pagesOf size) = result at search ⊢
  rcases result with _ | ⟨after, _ | page⟩
  · exact search.elim
  · simp
  · obtain ⟨_, _, moves, _⟩ := search
    have pos := held.tallied.based.positive
    have addr := page_addr_eq after page
    rw [moves.base.start] at addr
    simp
    omega

theorem large_refused_iff_of_two_blocks : ∃ state order, FreeList state order ∧
    ((∃ after, state.pool.ngxSlabAllocLocked 5000 = some (after, 0)) ↔
      ∀ head ∈ order, (state.pool.cells (.page head)).slab.toNat < pagesOf 5000) := by
  obtain ⟨state, reached, -⟩ := two_blocks_reachable
  exact ⟨state, large_refused_iff (by decide) (by decide) reached (by decide)⟩

end ServerCore.NginxSlabRuns
