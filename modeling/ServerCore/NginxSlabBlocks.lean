import ServerCore.NginxSlabPages

/-!
# Blocks of pages

What `ngx_slab_alloc_pages` and `ngx_slab_free_pages` do to a sound pool: they
turn free pages into a block and back, and leave every other block, every page
with chunks and the lists of the slots as they are.
-/

namespace ServerCore.NginxSlabBlocks

open CircularList NginxSlab NginxSlabLayout NginxSlabPages List Option

variable {rest : List Nat} {head pages fuel hole held length : Nat}

structure SameBase (pool after : Pool) : Prop where
  start : after.start = pool.start
  finish : after.finish = pool.finish
  last : after.last = pool.last
  memory : after.memory = pool.memory
  stats : after.stats = pool.stats
  log : after.log = pool.log

/-- A change of the pages from `head` on: the others keep their spans, or stay
free in another run. -/
structure Moves (pool after : Pool) (layout layout' : Layout) (head count : Nat) : Prop where
  base : SameBase pool after
  kept : ∀ page < pool.last, ¬Within head count page → (layout.span page).kind ≠ .free →
    layout'.span page = layout.span page
  free : ∀ page < pool.last, ¬Within head count page → (layout.span page).kind = .free →
    (layout'.span page).kind = .free
  slab : ∀ page < pool.last, ∀ shift, ¬Within head count page → (layout.span page).kind = .slots shift →
    (after.cells (.page page)).slab = (pool.cells (.page page)).slab

section Take

variable {pool : Pool} {layout : Layout}

section

variable (sound : Sound pool layout 0 0) {head count pages : Nat} (mem : head ∈ layout.freeOrder)
  (run : layout.span head = ⟨.free, head, count⟩) (pos : 0 < pages) (enough : pages ≤ count)
include sound mem run pos enough

theorem carve :
    ∃ cells layout', pool.cutRun (pool.cells (.page head)) head pages = some (withCells pool cells) ∧
      Sound (withCells pool cells) layout' head pages ∧
      Moves pool (withCells pool cells) layout layout' head pages := by
  obtain ⟨below, -, bounded, covered, slab, type⟩ := free_run sound mem run
  have size := sound.size
  have isCount : (pool.cells (.page head)).slab.toNat = count := by
    rw [slab, BitVec.toNat_ofNat]
    omega
  have slotsKept : ∀ page < pool.last, ∀ shift, (layout.span page).kind = .slots shift →
      page ∉ layout.freeOrder ∧ ¬Within head count page := by
    intro page _ shift isSlots
    constructor
    · intro listed
      nomatch isSlots.symm.trans ((sound.freeMem page).mp listed).2.1
    · intro inside
      rw [covered page inside.1 inside.2] at isSlots
      cases isSlots
  obtain ⟨front, back, order⟩ := append_of_mem mem
  rw [Pool.cutRun, isCount]
  by_cases more : count > pages
  · rw [if_pos more]
    obtain ⟨cells, done, newSound, unchanged⟩ := split_sound sound order run pos more
    refine ⟨cells, _, done, newSound, ⟨rfl, rfl, rfl, rfl, rfl, rfl⟩, ?_, ?_, ?_⟩
    · intro page belowPage outside notFree
      have away : ¬Within head count page := by
        intro inside
        rw [covered page inside.1 inside.2] at notFree
        exact notFree rfl
      unfold Within at away
      dsimp only
      rw [paint_outside, paint_outside]
      · exact outside
      · unfold Span.covers
        dsimp only
        omega
    · intro page belowPage outside isFree
      dsimp only
      by_cases inRest : Span.covers ⟨.free, head + pages, count - pages⟩ page
      · rw [paint_inside inRest]
      · rw [paint_outside inRest, paint_outside (show ¬Span.covers ⟨.block, head, pages⟩ page from outside),
          isFree]
    · intro page belowPage shift _ isSlots
      obtain ⟨unlisted, away⟩ := slotsKept page belowPage shift isSlots
      exact congrArg Page.slab (unchanged page belowPage away unlisted)
  · have all : pages = count := by omega
    subst all
    rw [if_neg more]
    obtain ⟨cells, done, newSound, unchanged⟩ :=
      absorb sound ⟨fun _ _ => rfl, rfl, rfl, rfl⟩ head order run (.inl ⟨rfl, rfl⟩)
    rw [zero_add] at newSound
    have raw : (pool.cells (.page head)).rawPrev = some (prevOf pool (.page head)) := if_pos type
    refine ⟨cells, _, bind_some_of raw done, newSound, ⟨rfl, rfl, rfl, rfl, rfl, rfl⟩, ?_, ?_, ?_⟩
    · intro page _ outside _
      exact paint_outside outside
    · intro page _ outside isFree
      dsimp only
      rw [paint_outside (show ¬Span.covers ⟨.block, head, pages⟩ page from outside), isFree]
    · intro page belowPage shift _ isSlots
      obtain ⟨unlisted, -⟩ := slotsKept page belowPage shift isSlots
      apply congrArg Page.slab
      apply unchanged
      intro there
      apply unlisted
      rw [order]
      simp only [mem_append, mem_cons] at there ⊢
      tauto

theorem take_pages_spec :
    ∃ after layout', pool.takePages head pages = some after ∧ Sound after layout' 0 0 ∧
      Moves pool after layout layout' head pages ∧
      ∀ page, Within head pages page → page < pool.last ∧ layout'.span page = ⟨.block, head, pages⟩ := by
  obtain ⟨cells, layout', carved, newSound, moves⟩ := carve sound mem run pos enough
  have hollow := newSound.hollow
  have fits := (hollow (head + (pages - 1)) ⟨by omega, by omega⟩).1
  change head + (pages - 1) < pool.last at fits
  have headValid : pool.valid (.page head) = true := valid_page (by omega)
  obtain ⟨c1, stored, here, beside⟩ := store_spec cells (fun _ =>
    ⟨BitVec.ofNat 64 pages ||| slabPageStart, .null, .null, .page⟩) headValid
  obtain ⟨c2, marked, inside, outside⟩ :=
    fill_pages_spec { pool with pfree := pool.pfree - pages } ⟨slabBusy, .null, .null, .page⟩
      (pages - 1) c1 (head + 1) (show head + 1 + (pages - 1) ≤ pool.last by omega)
  have first : c2 (.page head) = ⟨BitVec.ofNat 64 pages ||| slabPageStart, .null, .null, .page⟩ := by
    rw [outside, here]
    intro other within
    unfold Within at within
    simp
    omega
  have unchanged : ∀ ref, (∀ page, Within head pages page → ref ≠ .page page) → c2 ref = cells ref := by
    intro ref away
    rw [outside ref fun other within => away other ⟨by unfold Within at within; omega,
      by unfold Within at within; omega⟩, beside ref (away head ⟨le_rfl, by omega⟩)]
  have finalSound := fill_hole newSound c2 unchanged (by
    intro page within
    unfold Within at within
    by_cases atHead : page = head
    · subst atHead
      unfold Described
      dsimp only
      rw [first]
      simp
    · have busy := inside page ⟨by omega, by omega⟩
      unfold Described
      dsimp only
      rw [busy]
      simp [atHead])
  refine ⟨_, layout', ?_, finalSound, ⟨⟨rfl, rfl, rfl, rfl, rfl, rfl⟩, moves.kept, moves.free, ?_⟩,
    hollow⟩
  · exact bind_some_of (load_valid pool.cells headValid) (bind_some_of carved (bind_some_of stored marked))
  · intro page below shift away isSlots
    change (c2 (.page page)).slab = _
    rw [unchanged, ← moves.slab page below shift away isSlots]
    intro other within same
    injection same with same
    exact away (same ▸ within)

end

/-- Where the loop over the free list is, when `rest` is still before it. -/
def firstOf : List Nat → Ref
  | [] => .free
  | head :: _ => .page head

theorem next_of_first (sound : Sound pool layout 0 0) {front : List Nat}
    (order : layout.freeOrder = front ++ head :: rest) : (pool.cells (.page head)).next = firstOf rest := by
  have ring := sound.freeRing
  rw [order, map_append, map_cons] at ring
  obtain ⟨-, -, after, -⟩ := ring_around ring
  cases rest with
  | nil => exact after
  | cons next rest => exact after.1

theorem free_order_length (sound : Sound pool layout 0 0) : layout.freeOrder.length ≤ pool.last := by
  have apart : layout.freeOrder.Nodup :=
    List.Nodup.of_map _ (nodup_cons.mp sound.freeRing.distinct).2
  have subset : layout.freeOrder ⊆ List.range pool.last := by
    intro page mem
    exact mem_range.mpr (free_page sound mem).1
  have shorter := (apart.subperm subset).length_le
  rwa [length_range] at shorter

def Found (pool : Pool) (layout : Layout) (pages : Nat) : Option (Pool × Option Nat) → Prop
  | some (after, some head) => ∃ layout', Sound after layout' 0 0 ∧
      Moves pool after layout layout' head pages ∧
      ∀ page, Within head pages page → page < pool.last ∧ (layout.span page).kind = .free ∧
        layout'.span page = ⟨.block, head, pages⟩
  | some (after, none) => after = pool ∨ after = pool.slabError .noMemory
  | none => False

section

variable (sound : Sound pool layout 0 0)
include sound

theorem alloc_pages_from_spec (pos : 0 < pages) (front : List Nat) (order : layout.freeOrder = front ++ rest)
    (enough : rest.length < fuel) :
    Found pool layout pages (Pool.allocPagesFrom fuel pool (firstOf rest) pages) := by
  induction rest generalizing front fuel with
  | nil =>
    cases fuel with
    | zero => omega
    | succ fuel =>
      rw [firstOf, Pool.allocPagesFrom]
      cases pool.logNomem with
      | true => exact .inr rfl
      | false => exact .inl rfl
  | cons head rest ih =>
    cases fuel with
    | zero => omega
    | succ fuel =>
      have mem : head ∈ layout.freeOrder := by simp [order]
      obtain ⟨below, count, run, -, bounded, covered, slab, -⟩ := free_page sound mem
      have size := sound.size
      have isCount : (pool.cells (.page head)).slab.toNat = count := by
        rw [slab, BitVec.toNat_ofNat]
        omega
      have turn : Pool.allocPagesFrom (fuel + 1) pool (.page head) pages =
          if count ≥ pages then (pool.takePages head pages).bind fun after => some (after, some head)
          else Pool.allocPagesFrom fuel pool (firstOf rest) pages := by
        rw [Pool.allocPagesFrom, load_valid pool.cells (valid_page below), bind_eq_bind,
          bind_some, isCount, next_of_first sound order]
        rfl
      rw [firstOf, turn]
      by_cases long : count ≥ pages
      · rw [if_pos long]
        obtain ⟨after, layout', taken, newSound, moves, blocks⟩ :=
          take_pages_spec sound mem run pos long
        rw [taken, bind_some]
        refine ⟨layout', newSound, moves, ?_⟩
        intro page inside
        obtain ⟨belowPage, isBlock⟩ := blocks page inside
        refine ⟨belowPage, ?_, isBlock⟩
        unfold Within at inside
        rw [covered page inside.1 (by omega)]
      · rw [if_neg long]
        exact ih (front ++ [head]) (by rw [order, append_cons]) (by simp at enough; omega)

theorem start_free : (pool.cells .free).next = firstOf layout.freeOrder := by
  have chain := sound.freeRing.chain
  cases isOrder : layout.freeOrder <;> rw [isOrder] at chain
  · exact chain
  · exact chain.1

theorem alloc_pages_spec (pos : 0 < pages) :
    Found pool layout pages (pool.ngxSlabAllocPages pages) := by
  have shorter := free_order_length sound
  rw [Pool.ngxSlabAllocPages, start_free sound]
  exact alloc_pages_from_spec sound pos [] (nil_append _).symm (by omega)

theorem alloc_pages_from_none {front : List Nat}
    (order : layout.freeOrder = front ++ rest) (enough : rest.length < fuel) :
    (∃ after, Pool.allocPagesFrom fuel pool (firstOf rest) pages = some (after, none)) ↔
      ∀ head ∈ rest, (pool.cells (.page head)).slab.toNat < pages := by
  induction rest generalizing front fuel with
  | nil =>
    cases enough <;> exact iff_of_true ⟨_, rfl⟩ nofun
  | cons head rest ih =>
    obtain ⟨fuel, rfl⟩ := Nat.exists_eq_succ_of_ne_zero (Nat.ne_of_gt (Nat.zero_lt_of_lt enough))
    have below := (free_page sound (show head ∈ layout.freeOrder by simp [order])).1
    rw [forall_mem_cons, firstOf, Pool.allocPagesFrom,
      load_valid pool.cells (valid_page below), bind_eq_bind,
      bind_some, next_of_first sound order]
    by_cases long : (pool.cells (.page head)).slab.toNat ≥ pages
    · rw [if_pos long]
      refine iff_of_false ?_ fun short => Nat.not_lt.mpr long short.1
      rintro ⟨after, taken⟩
      cases took : pool.takePages head pages <;> simp [took] at taken
    · rw [if_neg long, and_iff_right (Nat.lt_of_not_le long)]
      exact @ih _ (front ++ [head]) (by rw [order, append_cons]) (Nat.lt_of_succ_lt_succ enough)

end

end Take

/-- A block on its way to the free list: its first page has its length, and
the others are zero. -/
structure Pending (pool : Pool) (layout : Layout) (head count : Nat) : Prop where
  sound : Sound pool layout head count
  positive : 0 < count
  slab : (pool.cells (.page head)).slab = BitVec.ofNat 64 count
  inner : ∀ page, Within head count page → page ≠ head → (pool.cells (.page page)).slab = 0 ∧
    (pool.cells (.page page)).next = .null ∧ (pool.cells (.page page)).type = .page

section Release

variable {pool : Pool} {layout : Layout} {head count page : Nat}

section

variable (pending : Pending pool layout head count)
include pending

theorem pending_block (inside : Within head count page) : (layout.span page).kind = .block := by
  rw [(pending.sound.hollow page inside).2]

theorem pending_fits : head + count ≤ pool.last := by
  have pos := pending.positive
  have below := (pending.sound.hollow (head + (count - 1)) ⟨by omega, by omega⟩).1
  omega

theorem set_last_spec : ∃ cells, pool.onlyIf (count - 1 ≠ 0) (fun pool =>
        pool.store (.page (head + (count - 1))) (Page.setPrev (.page head) .page)) =
        some (withCells pool cells) ∧
      (∀ ref, (∀ page, Within head count page → ref ≠ .page page) → cells ref = pool.cells ref) ∧
      (cells (.page head)).slab = BitVec.ofNat 64 count ∧
      ∀ page, Within head count page → page ≠ head → (cells (.page page)).slab = 0 ∧
        (cells (.page page)).next = .null ∧ (cells (.page page)).type = .page ∧
        (page + 1 = head + count → (cells (.page page)).prev = .page head) := by
  have pos := pending.positive
  have fits := pending_fits pending
  by_cases single : count = 1
  · refine ⟨pool.cells, if_neg (by omega), fun _ _ => rfl, pending.slab, ?_⟩
    intro page inside differ
    unfold Within at inside
    omega
  · obtain ⟨cells, stored, here, beside⟩ := store_spec pool.cells (Page.setPrev (.page head) .page)
      (valid_page (show head + (count - 1) < pool.last by omega))
    refine ⟨cells, (if_pos (by omega)).trans stored, ?_, ?_, ?_⟩
    · intro ref away
      exact beside ref (away _ ⟨by omega, by omega⟩)
    · rw [beside _ (by simp; omega), pending.slab]
    · intro page inside differ
      obtain ⟨slab, next, type⟩ := pending.inner page inside differ
      by_cases atLast : page = head + (count - 1)
      · rw [atLast] at slab next ⊢
        rw [here]
        exact ⟨slab, next, rfl, fun _ => rfl⟩
      · rw [beside _ (by simpa using atLast)]
        exact ⟨slab, next, type, fun isLast => absurd isLast (by omega)⟩

theorem push_sound (left : ∀ page, page + 1 = head → (layout.span page).kind ≠ .free)
    (right : head + count < pool.last → (layout.span (head + count)).kind ≠ .free) :
    ∃ cells, pool.pushRun head (count - 1) = some (withCells pool cells) ∧ Sound (withCells pool cells)
        ⟨paint layout.span ⟨.free, head, count⟩, head :: layout.freeOrder, layout.slotOrder⟩ 0 0 ∧
      ∀ page, ¬Within head count page → page ∉ layout.freeOrder →
        cells (.page page) = pool.cells (.page page) := by
  have sound := pending.sound
  have pos := pending.positive
  have fits := pending_fits pending
  obtain ⟨c1, setLast, same1, slab1, inner1⟩ := set_last_spec pending
  have sound1 := sound_hole sound same1
  have unlisted : ∀ page, Within head count page → page ∉ layout.freeOrder := by
    intro page inside mem
    nomatch (pending_block pending inside).symm.trans ((sound.freeMem page).mp mem).2.1
  have headInside : Within head count head := ⟨le_rfl, by omega⟩
  obtain ⟨cells, pushed, newRing, pushes⟩ := push_spec sound1.freeRing
    (show Ref.page head ∉ layout.freeOrder.map .page by simpa using unlisted head headInside)
    (show head < pool.last by omega)
    (fun ref mem => free_valid sound1 ref (mem_cons_of_mem _ mem)) (free_types sound1)
  have away1 : ∀ page, ¬Within head count page → c1 (.page page) = pool.cells (.page page) := by
    intro page outside
    apply same1
    intro other inside isPage
    injection isPage with isPage
    exact outside (isPage ▸ inside)
  have cells1 : ∀ page, page ≠ head → page ∉ layout.freeOrder → cells (.page page) = c1 (.page page) := by
    intro page notHead notListed
    apply pushes.other
    simp [notHead, notListed]
  have unchanged : ∀ page, ¬Within head count page → page ∉ layout.freeOrder →
      cells (.page page) = pool.cells (.page page) := by
    intro page outside notListed
    rw [cells1 page _ notListed, away1 page outside]
    rintro rfl
    exact outside headInside
  obtain ⟨new, isNew⟩ : ∃ new : Span, new = ⟨.free, head, count⟩ := ⟨_, rfl⟩
  have covers : ∀ page, new.covers page ↔ Within head count page := by
    intro page
    rw [isNew]
    rfl
  have painted : ∀ page, Within head count page → paint layout.span new page = new :=
    fun page inside => paint_inside ((covers page).mpr inside)
  have kept : ∀ page, ¬Within head count page → paint layout.span new page = layout.span page :=
    fun page outside => paint_outside fun inside => outside ((covers page).mp inside)
  have kinds : ∀ page < pool.last, ∀ shift, (paint layout.span new page).kind = .slots shift ↔
      (layout.span page).kind = .slots shift := by
    intro page _ shift
    by_cases inside : Within head count page
    · rw [painted page inside, isNew, pending_block pending inside]
      simp
    · rw [kept page inside]
  have slots := slots_frame (withCells pool cells) (paint layout.span new) sound rfl rfl rfl
    (fun slot => (pushes.other _ (by simp)).trans (same1 _ fun page _ => nofun))
    (fun page below shift isSlots => by
      apply unchanged
      · intro inside
        nomatch isSlots.symm.trans (pending_block pending inside)
      · intro listed
        exact Kind.noConfusion (isSlots.symm.trans ((sound.freeMem page).mp listed).2.1)) kinds
  rw [← isNew]
  refine ⟨cells, ?_, ⟨sound.size, ?_, ?_, ?_, ?_, ?_, newRing, ?_,
    fun shift low high => (slots shift low high).1, fun shift low high => (slots shift low high).2, ?_⟩,
    unchanged⟩
  · exact bind_some_of setLast pushed
  · apply tiled_paint sound.tiled
    · rw [isNew]
      exact fits
    · intro page inside
      rw [(sound.hollow page ((covers page).mp inside)).2, isNew]
      exact ⟨le_rfl, le_rfl⟩
  · intro page below hereFree nextFree
    dsimp only at hereFree nextFree ⊢
    by_cases inside : Within head count page
    · by_cases nextInside : Within head count (page + 1)
      · rw [painted page inside, painted (page + 1) nextInside]
      · rw [kept (page + 1) nextInside] at nextFree
        have edge : page + 1 = head + count := by
          unfold Within at inside nextInside
          omega
        rw [edge] at nextFree below
        exact absurd nextFree (right below)
    · by_cases nextInside : Within head count (page + 1)
      · rw [kept page inside] at hereFree
        have edge : page + 1 = head := by
          unfold Within at inside nextInside
          omega
        exact absurd hereFree (left page edge)
      · rw [kept page inside] at hereFree ⊢
        rw [kept (page + 1) nextInside] at nextFree ⊢
        exact sound.merged page below hereFree nextFree
  · intro page inside
    unfold Within at inside
    omega
  · intro page below shift isSlots
    have before := (kinds page below shift).mp isSlots
    have outside : ¬Within head count page := by
      intro inside
      nomatch before.symm.trans (pending_block pending inside)
    change (paint layout.span new page).count = 1
    rw [kept page outside]
    exact sound.single page below shift before
  · intro page below _
    dsimp only
    by_cases inside : Within head count page
    · rw [painted page inside, isNew]
      by_cases atHead : page = head
      · rw [atHead]
        refine ⟨pushes.type _ (mem_cons_self ..), fun _ => ?_, fun differ => absurd rfl differ⟩
        exact (pushes.slab _).trans slab1
      · obtain ⟨slab, next, type, prev⟩ := inner1 page inside atHead
        have here := cells1 page atHead (unlisted page inside)
        refine ⟨(congrArg Page.type here).trans type, fun same => absurd same atHead, fun _ => ?_⟩
        exact ⟨(congrArg Page.slab here).trans slab, (congrArg Page.next here).trans next,
          fun isLast _ => (congrArg Page.prev here).trans (prev isLast)⟩
    · rw [kept page inside]
      apply free_untouched sound below inside
      · exact (pushes.slab _).trans (congrArg Page.slab (away1 page inside))
      · intro mem
        exact pushes.type _ (mem_cons_of_mem _ (mem_map_of_mem mem))
      · exact unchanged page inside
  · intro page
    have before := sound.freeMem page
    dsimp only
    by_cases inside : Within head count page
    · rw [painted page inside, isNew, mem_cons]
      constructor
      · rintro (rfl | listed)
        · exact ⟨show page < pool.last by omega, rfl, rfl⟩
        · exact absurd listed (unlisted page inside)
      · rintro ⟨-, -, isHead⟩
        exact .inl isHead.symm
    · have notHead : page ≠ head := by
        rintro rfl
        exact inside headInside
      rw [kept page inside, mem_cons, before]
      simp [notHead]
  · have change := count_change layout.span (paint layout.span new) .free false true fits
      (fun page low high => by
        rw [painted page ⟨low, high⟩, pending_block pending ⟨low, high⟩, isNew]
        simp) (fun page _ outside => by rw [kept page outside])
    have total := sound.pfree
    simp only [if_true, Bool.false_eq_true, if_false] at change
    change pool.pfree = countOf .free pool.last (paint layout.span new) + 0
    omega

end

structure Joins (pool after : Pool) (layout layout' : Layout) (head count head' count' : Nat) :
    Prop where
  base : SameBase pool after
  wider : ∀ page, Within head count page → Within head' count' page
  gained : ∀ page, Within head' count' page →
    Within head count page ∨ (layout.span page).kind = .free
  kept : ∀ page < pool.last, ¬Within head count page → (layout.span page).kind ≠ .free →
    layout'.span page = layout.span page
  free : ∀ page < pool.last, (layout.span page).kind = .free →
    (layout'.span page).kind = .free ∨ Within head' count' page
  slab : ∀ page < pool.last, ∀ shift, (layout.span page).kind = .slots shift →
    (after.cells (.page page)).slab = (pool.cells (.page page)).slab

theorem joins_refl {pool : Pool} {layout : Layout} {count : Nat} :
    Joins pool pool layout layout head count head count where
  base := ⟨rfl, rfl, rfl, rfl, rfl, rfl⟩
  wider := fun _ inside => inside
  gained := fun _ inside => .inl inside
  kept := fun _ _ _ _ => rfl
  free := fun _ _ isFree => .inl isFree
  slab := fun _ _ _ _ => rfl

theorem listed_next (sound : Sound pool layout hole held)
    (mem : page ∈ layout.freeOrder) : (pool.cells (.page page)).next ≠ .null := by
  have inRing := ring_next_mem sound.freeRing
    (mem_cons_of_mem _ (mem_map_of_mem mem) : Ref.page page ∈ _)
  intro isNull
  rw [show nextOf pool (.page page) = .null from isNull] at inRing
  simp at inRing

theorem join_run (pending : Pending pool layout head count) {run first : Nat}
    (mem : run ∈ layout.freeOrder) (isRun : layout.span run = ⟨.free, run, length⟩)
    (place : (first = head ∧ run = head + count) ∨ (first = run ∧ head = run + length))
    {c1 : Ref → Page} (resized : Resized pool.cells c1 first)
    (slab : (c1 (.page first)).slab = BitVec.ofNat 64 (count + length)) :
    ∃ c2 c3 layout', (withCells pool c1).unlink (prevOf pool (.page run)) (.page run) =
        some (withCells pool c2) ∧
      (withCells pool c2).store (.page (head + run - first)) (fun _ => ⟨0, .null, .null, .page⟩) =
        some (withCells pool c3) ∧ Pending (withCells pool c3) layout' first (count + length) ∧
      Joins pool (withCells pool c3) layout layout' head count first (count + length) := by
  have sound := pending.sound
  have pos := pending.positive
  have fits := pending_fits pending
  obtain ⟨below, lengthPositive, bounded, covered, -⟩ := free_run sound mem isRun
  obtain ⟨front, back, order⟩ := append_of_mem mem
  have fresh := free_apart sound order
  have notListed : ∀ page, Within head count page → page ∉ front ++ back := by
    intro page inside there
    have listed : page ∈ layout.freeOrder := by
      rw [order]
      simp only [mem_append, mem_cons] at there ⊢
      tauto
    nomatch (pending_block pending inside).symm.trans ((sound.freeMem page).mp listed).2.1
  have notListedRun : ∀ page, Within run length page → page ∉ front ++ back := by
    intro page inside there
    have listed : page ∈ layout.freeOrder := by
      rw [order]
      simp only [mem_append, mem_cons] at there ⊢
      tauto
    have isHead := ((sound.freeMem page).mp listed).2.2
    rw [covered page inside.1 inside.2] at isHead
    change run = page at isHead
    exact fresh (isHead ▸ there)
  have parts : ∀ page, Within first (count + length) page ↔
      Within head count page ∨ Within run length page := by
    unfold Within
    omega
  have absorbed : ∃ c2, (withCells pool c1).unlink (prevOf pool (.page run)) (.page run) =
        some (withCells pool c2) ∧
      Sound (withCells pool c2)
        ⟨paint layout.span ⟨.block, first, count + length⟩, front ++ back, layout.slotOrder⟩ first
        (count + length) ∧
      ∀ page ∉ front ++ back, c2 (.page page) = c1 (.page page) := by
    rcases place with ⟨isFirst, isNext⟩ | ⟨isFirst, isPrev⟩
    · subst isFirst
      have written : Sound (withCells pool c1) layout first count := by
        apply sound_hole sound
        intro ref away
        exact resized.other ref (away first ⟨le_rfl, by omega⟩)
      have same : c1 (.page run) = pool.cells (.page run) := resized.other _ (by simp; omega)
      obtain ⟨c2, unlinked, newSound, unchanged⟩ := absorb written ⟨fun _ _ => rfl, rfl, rfl, rfl⟩ first
        order isRun (.inr (.inl ⟨rfl, isNext⟩))
      refine ⟨c2, ?_, newSound, unchanged⟩
      have read : prevOf (withCells pool c1) (.page run) = prevOf pool (.page run) :=
        congrArg Page.prev same
      rw [read] at unlinked
      exact unlinked
    · subst isFirst
      exact absorb sound resized first order isRun (.inr (.inr ⟨rfl, isPrev⟩))
  obtain ⟨c2, unlinked, newSound, unchanged⟩ := absorbed
  have secondInside : Within first (count + length) (head + run - first) := by
    unfold Within
    omega
  have firstInside : Within first (count + length) first := ⟨le_rfl, by omega⟩
  have differ : first ≠ head + run - first := by omega
  obtain ⟨c3, stored, here, beside⟩ := store_spec c2 (fun _ => ⟨0, .null, .null, .page⟩)
    (valid_page (show head + run - first < pool.last by omega))
  have newHole : ∀ page, Within first (count + length) page → page ∉ front ++ back := by
    intro page inside
    rcases (parts page).mp inside with inHole | inRun
    · exact notListed page inHole
    · exact notListedRun page inRun
  have old : ∀ page, page ∉ front ++ back → page ≠ first → page ≠ head + run - first →
      c3 (.page page) = pool.cells (.page page) := by
    intro page absent notFirst notSecond
    rw [beside _ (by simpa using notSecond), unchanged page absent,
      resized.other _ (by simpa using notFirst)]
  refine ⟨c2, c3, ⟨paint layout.span ⟨.block, first, count + length⟩, front ++ back, layout.slotOrder⟩,
    unlinked, stored, ⟨?_, by omega, ?_, ?_⟩, ⟨rfl, rfl, rfl, rfl, rfl, rfl⟩, ?_, ?_, ?_, ?_, ?_⟩
  · apply sound_hole newSound
    intro ref away
    exact beside ref (away _ secondInside)
  · change (c3 (.page first)).slab = _
    rw [beside _ (by simpa using differ), unchanged first (newHole first firstInside), slab]
  · intro page inside notFirst
    change (c3 (.page page)).slab = 0 ∧ (c3 (.page page)).next = .null ∧ (c3 (.page page)).type = .page
    by_cases second : page = head + run - first
    · rw [second, here]
      exact ⟨rfl, rfl, rfl⟩
    · rw [old page (newHole page inside) notFirst second]
      rcases (parts page).mp inside with inHole | inRun
      · exact pending.inner page inHole (by omega)
      · have described := sound.described page (by unfold Within at inRun; omega) (by
          unfold Within at inRun ⊢
          omega)
        rw [covered page inRun.1 inRun.2] at described
        obtain ⟨type, -, rest⟩ := described
        obtain ⟨zero, next, -⟩ := rest (show page ≠ run by omega)
        exact ⟨zero, next, type⟩
  · exact fun page inside => (parts page).mpr (.inl inside)
  · intro page inside
    rcases (parts page).mp inside with inHole | inRun
    · exact .inl inHole
    · exact .inr (by rw [covered page inRun.1 inRun.2])
  · intro page _ outside notFree
    apply paint_outside
    intro inside
    rcases (parts page).mp inside with inHole | inRun
    · exact outside inHole
    · rw [covered page inRun.1 inRun.2] at notFree
      exact notFree rfl
  · intro page _ isFree
    by_cases inside : Within first (count + length) page
    · exact .inr inside
    · left
      dsimp only
      rw [paint_outside (show ¬Span.covers ⟨.block, first, count + length⟩ page from inside), isFree]
  · intro page belowPage shift isSlots
    have away : ¬Within first (count + length) page := by
      intro inside
      rcases (parts page).mp inside with inHole | inRun
      · nomatch isSlots.symm.trans (pending_block pending inHole)
      · rw [covered page inRun.1 inRun.2] at isSlots
        cases isSlots
    apply congrArg Page.slab
    apply old page
    · intro there
      have listed : page ∈ layout.freeOrder := by
        rw [order]
        simp only [mem_append, mem_cons] at there ⊢
        tauto
      nomatch isSlots.symm.trans ((sound.freeMem page).mp listed).2.1
    · rintro rfl
      exact away firstInside
    · rintro rfl
      exact away secondInside

theorem slab_nat (size : pool.last < 2 ^ 63) (fits : page + length ≤ pool.last)
    {slab : Word} (isSlab : slab = BitVec.ofNat 64 length) : slab.toNat = length := by
  rw [isSlab, BitVec.toNat_ofNat]
  omega

theorem not_joined (sound : Sound pool layout hole held)
    (below : page < pool.last) (outside : ¬Within hole held page)
    (notFree : (layout.span page).kind ≠ .free) (isPage : (pool.cells (.page page)).type = .page) :
    (pool.cells (.page page)).next = .null ∧ (pool.cells (.page page)).slab ≠ 0 := by
  have described := sound.described page below outside
  unfold Described at described
  split at described
  · rename_i isFree
    exact absurd isFree notFree
  · obtain ⟨-, next, slab⟩ := described
    refine ⟨next, ?_⟩
    rw [slab]
    intro isZero
    have top := congrArg (fun word : Word => word.getLsbD 63) isZero
    split at top
    · simp [slabPageStart] at top
    · simp [slabBusy] at top
  · rename_i shift isSlots
    have type := described.1.type
    rw [isPage] at type
    unfold typeOf at type
    split_ifs at type

section

variable (pending : Pending pool layout head count)
include pending

theorem join_next_spec :
    ∃ after layout' count', pool.joinNext head pages = some (after, pages + (count' - count)) ∧
      Pending after layout' head count' ∧ Joins pool after layout layout' head count head count' ∧
      count ≤ count' ∧ (head + count' < pool.last → (layout'.span (head + count')).kind ≠ .free) := by
  have sound := pending.sound
  have pos := pending.positive
  have fits := pending_fits pending
  have size := sound.size
  have isCount := slab_nat size fits pending.slab
  have headValid : pool.valid (.page head) = true := valid_page (by omega)
  have unfolded : pool.joinNext head pages = if head + count < pool.last then
      (pool.load (.page (head + count))).bind fun after =>
        if after.type = .page ∧ after.next ≠ .null then
          (pool.store (.page head) (Page.setSlab ((pool.cells (.page head)).slab + after.slab))).bind
            fun first => (first.unlink after.prev (.page (head + count))).bind fun second =>
              (second.store (.page (head + count)) fun _ => ⟨0, .null, .null, .page⟩).bind fun third =>
                some (third, pages + after.slab.toNat)
        else some (pool, pages)
      else some (pool, pages) := by
    rw [Pool.joinNext, load_valid pool.cells headValid, bind_eq_bind, bind_some, isCount]
    rfl
  rw [unfolded]
  by_cases inside : head + count < pool.last
  · rw [if_pos inside, load_valid pool.cells (valid_page inside), bind_some]
    by_cases isFree : (layout.span (head + count)).kind = .free
    · obtain ⟨covered, bounded, same⟩ := sound.tiled (head + count) inside
      have isHead : (layout.span (head + count)).head = head + count := by
        by_contra earlier
        have before := same (head + (count - 1)) (by
          unfold Span.covers at covered ⊢
          omega)
        rw [(sound.hollow (head + (count - 1)) ⟨by omega, by omega⟩).2] at before
        rw [← before] at isFree
        cases isFree
      have mem : head + count ∈ layout.freeOrder := (sound.freeMem _).mpr ⟨inside, isFree, isHead⟩
      obtain ⟨-, length, isRun, lengthPositive, runFits, run, slab, type⟩ := free_page sound mem
      rw [if_pos ⟨type, listed_next sound mem⟩]
      obtain ⟨c1, stored, here, beside⟩ := store_spec pool.cells
        (Page.setSlab ((pool.cells (.page head)).slab + (pool.cells (.page (head + count))).slab)) headValid
      have resized : Resized pool.cells c1 head := by
        refine ⟨beside, ?_, ?_, ?_⟩ <;> rw [here, Page.setSlab]
      obtain ⟨c2, c3, layout', unlinked, zeroed, newPending, joins⟩ := join_run pending mem isRun
        (.inl ⟨rfl, rfl⟩) resized (by rw [here, Page.setSlab, pending.slab, slab, ← BitVec.ofNat_add])
      rw [show head + (head + count) - head = head + count by omega] at zeroed
      refine ⟨withCells pool c3, layout', count + length, ?_, newPending, joins, by omega, ?_⟩
      · rw [slab_nat size runFits slab, show count + length - count = length by omega]
        exact bind_some_of stored (bind_some_of unlinked (bind_some_of zeroed rfl))
      · intro belowNext stillFree
        by_cases wasFree : (layout.span (head + (count + length))).kind = .free
        · -- the run behind the hole had no free page behind it
          have lastFree := run (head + count + (length - 1)) (by omega) (by omega)
          have merged := sound.merged (head + count + (length - 1)) (by omega) (by rw [lastFree]) (by
            rw [show head + count + (length - 1) + 1 = head + (count + length) by omega]
            exact wasFree)
          have covers := (sound.tiled (head + count + (length - 1) + 1) (by omega)).1
          rw [merged, lastFree] at covers
          unfold Span.covers at covers
          dsimp only at covers
          omega
        · rw [joins.kept _ belowNext (by unfold Within; omega) wasFree] at stillFree
          exact wasFree stillFree
    · have skipped : ¬((pool.cells (.page (head + count))).type = .page ∧
          (pool.cells (.page (head + count))).next ≠ .null) := by
        rintro ⟨isPage, notNull⟩
        exact notNull (not_joined sound inside (by unfold Within; omega) isFree isPage).1
      rw [if_neg skipped]
      exact ⟨pool, layout, count, by rw [Nat.sub_self, add_zero], pending, joins_refl,
        le_rfl, fun _ => isFree⟩
  · rw [if_neg inside]
    exact ⟨pool, layout, count, by rw [Nat.sub_self, add_zero], pending, joins_refl,
      le_rfl, fun below => absurd below inside⟩

theorem join_prev_spec :
    ∃ after layout' head' count', pool.joinPrev head pages = some (after, head', pages + (count' - count)) ∧
      Pending after layout' head' count' ∧ Joins pool after layout layout' head count head' count' ∧
      count ≤ count' ∧ head' + count' = head + count ∧
      ∀ page, page + 1 = head' → (layout'.span page).kind ≠ .free := by
  have sound := pending.sound
  have pos := pending.positive
  have fits := pending_fits pending
  have size := sound.size
  have headValid : pool.valid (.page head) = true := valid_page (by omega)
  have skip : ∀ result, result = some (pool, head, pages) →
      (∀ page, page + 1 = head → (layout.span page).kind ≠ .free) →
      ∃ after layout' head' count', result = some (after, head', pages + (count' - count)) ∧
        Pending after layout' head' count' ∧ Joins pool after layout layout' head count head' count' ∧
        count ≤ count' ∧ head' + count' = head + count ∧
        ∀ page, page + 1 = head' → (layout'.span page).kind ≠ .free := by
    intro result isResult left
    exact ⟨pool, layout, head, count, by rw [isResult, Nat.sub_self, add_zero], pending,
      joins_refl, le_rfl, rfl, left⟩
  rw [Pool.joinPrev]
  by_cases inside : head > 0
  · rw [if_pos inside]
    have belowPrev : head - 1 < pool.last := by omega
    have outsidePrev : ¬Within head count (head - 1) := by
      unfold Within
      omega
    rw [load_valid pool.cells (valid_page belowPrev), bind_eq_bind, bind_some]
    by_cases isFree : (layout.span (head - 1)).kind = .free
    · obtain ⟨⟨kind, run, length⟩, isSpan⟩ : ∃ found, layout.span (head - 1) = found := ⟨_, rfl⟩
      obtain ⟨covered, bounded, same⟩ := sound.tiled (head - 1) belowPrev
      have described := sound.described (head - 1) belowPrev outsidePrev
      rw [isSpan] at isFree covered bounded same described
      subst isFree
      unfold Span.covers at covered same
      dsimp only at covered same bounded
      have edge : head = run + length := by
        by_contra longer
        have inRun := same head ⟨by omega, by omega⟩
        rw [(sound.hollow head ⟨le_rfl, by omega⟩).2] at inRun
        nomatch congrArg Span.kind inRun
      have isRun := same run ⟨le_rfl, by omega⟩
      have mem : run ∈ layout.freeOrder := by
        apply (sound.freeMem run).mpr
        rw [isRun]
        exact ⟨by omega, rfl, rfl⟩
      obtain ⟨belowRun, lengthPositive, runFits, runCovered, slab, type⟩ := free_run sound mem isRun
      obtain ⟨prevType, atHead, notHead⟩ := described
      have join : (if (pool.cells (.page (head - 1))).slab = 0 then (pool.cells (.page (head - 1))).prev
          else .page (head - 1)) = .page run := by
        by_cases short : head - 1 = run
        · rw [short, if_neg]
          rw [slab]
          intro isZero
          have zero := congrArg BitVec.toNat isZero
          simp at zero
          omega
        · obtain ⟨zero, -, prev⟩ := notHead short
          rw [if_pos zero]
          exact prev (by dsimp only; omega) (by omega)
      rw [if_pos prevType]
      dsimp only
      rw [join, load_valid pool.cells (valid_page belowRun), bind_some,
        if_pos (listed_next sound mem)]
      obtain ⟨c1, stored, here, beside⟩ := store_spec pool.cells
        (Page.setSlab ((pool.cells (.page run)).slab + (pool.cells (.page head)).slab)) (valid_page belowRun)
      have resized : Resized pool.cells c1 run := by
        refine ⟨beside, ?_, ?_, ?_⟩ <;> rw [here, Page.setSlab]
      obtain ⟨c2, c3, layout', unlinked, zeroed, newPending, joins⟩ := join_run pending mem isRun
        (.inr ⟨rfl, edge⟩) resized (by
          rw [here, Page.setSlab, pending.slab, slab, ← BitVec.ofNat_add, add_comm])
      rw [show head + run - run = head by omega] at zeroed
      refine ⟨withCells pool c3, layout', run, count + length, ?_, newPending, joins, by omega, by omega,
        ?_⟩
      · rw [show count + length - count = length by omega]
        have total := slab_nat size runFits slab
        refine bind_some_of (load_valid pool.cells headValid) (bind_some_of stored (bind_some_of unlinked
          (bind_some_of zeroed ?_)))
        rw [total]
      · intro page next stillFree
        by_cases wasFree : (layout.span page).kind = .free
        · have merged := sound.merged page (by omega) wasFree (by rw [next, isRun])
          have covers := (sound.tiled page (by omega)).1
          rw [← merged, next, isRun] at covers
          unfold Span.covers at covers
          dsimp only at covers
          omega
        · rw [joins.kept page (by omega) (by unfold Within; omega) wasFree] at stillFree
          exact wasFree stillFree
    · have left : ∀ page, page + 1 = head → (layout.span page).kind ≠ .free := by
        intro page next
        rw [show page = head - 1 by omega]
        exact isFree
      by_cases isPage : (pool.cells (.page (head - 1))).type = .page
      · obtain ⟨next, slab⟩ := not_joined sound belowPrev outsidePrev isFree isPage
        apply skip _ _ left
        rw [if_pos isPage, if_neg slab]
        dsimp only
        rw [load_valid pool.cells (valid_page belowPrev), bind_some, if_neg (not_not.mpr next)]
      · apply skip _ _ left
        rw [if_neg isPage]
  · rw [if_neg inside]
    exact skip _ rfl fun page next => by omega

theorem release_spec : ∃ after layout', (do
        let (pool, pages) ← pool.joinNext head (count - 1)
        let (pool, page, pages) ← pool.joinPrev head pages
        pool.pushRun page pages) = some after ∧
      Sound after layout' 0 0 ∧ Moves pool after layout layout' head count ∧
      ∀ page, Within head count page → (layout'.span page).kind = .free := by
  have pos := pending.positive
  obtain ⟨pool1, layout1, count1, joined1, pending1, joins1, longer1, right1⟩ :=
    join_next_spec pending
  obtain ⟨pool2, layout2, head2, count2, joined2, pending2, joins2, longer2, edge2, left2⟩ :=
    join_prev_spec pending1
  have last1 := joins1.base.last
  have last2 := joins2.base.last
  have right2 : head2 + count2 < pool2.last → (layout2.span (head2 + count2)).kind ≠ .free := by
    rw [edge2, last2, last1]
    intro below
    have notFree := right1 below
    rw [joins2.kept _ (by omega) (by unfold Within; omega) notFree]
    exact notFree
  obtain ⟨cells, pushed, sound, unchanged⟩ := push_sound pending2 left2 right2
  have lost : ∀ page, Within head2 count2 page → Within head count page ∨
      (layout.span page).kind = .free := by
    intro page inside
    rcases joins2.gained page inside with inside1 | isFree
    · exact joins1.gained page inside1
    · by_cases away : Within head count page
      · exact .inl away
      · right
        by_contra notFree
        have below : page < pool.last := by
          have bound := pending_fits pending2
          unfold Within at inside
          omega
        rw [joins1.kept page below away notFree] at isFree
        exact notFree isFree
  have kept : ∀ page < pool.last, ¬Within head count page → (layout.span page).kind ≠ .free →
      layout2.span page = layout.span page ∧ ¬Within head2 count2 page := by
    intro page below outside notFree
    have same1 := joins1.kept page below outside notFree
    have outside1 : ¬Within head count1 page := fun inside =>
      (joins1.gained page inside).elim outside notFree
    have same2 := joins2.kept page (by omega) outside1 (by rwa [same1])
    exact ⟨same2.trans same1, fun inside => (lost page inside).elim outside notFree⟩
  refine ⟨withCells pool2 cells, _, ?_, sound, ⟨⟨?_, ?_, ?_, ?_, ?_, ?_⟩, ?_, ?_, ?_⟩, ?_⟩
  · have final : count - 1 + (count1 - count) + (count2 - count1) = count2 - 1 := by omega
    rw [final] at joined2
    exact bind_some_of joined1 (bind_some_of joined2 pushed)
  · exact joins2.base.start.trans joins1.base.start
  · exact joins2.base.finish.trans joins1.base.finish
  · exact last2.trans last1
  · exact joins2.base.memory.trans joins1.base.memory
  · exact joins2.base.stats.trans joins1.base.stats
  · exact joins2.base.log.trans joins1.base.log
  · intro page below outside notFree
    obtain ⟨same, away⟩ := kept page below outside notFree
    dsimp only
    rw [paint_outside (show ¬Span.covers ⟨.free, head2, count2⟩ page from away), same]
  · intro page below outside isFree
    dsimp only
    by_cases inside : Within head2 count2 page
    · rw [paint_inside (show Span.covers ⟨.free, head2, count2⟩ page from inside)]
    · rw [paint_outside (show ¬Span.covers ⟨.free, head2, count2⟩ page from inside)]
      have free1 : (layout1.span page).kind = .free := by
        rcases joins1.free page below isFree with still | joined
        · exact still
        · exact absurd (joins2.wider page joined) inside
      rcases joins2.free page (by omega) free1 with still | joined
      · exact still
      · exact absurd joined inside
  · intro page below shift outside isSlots
    have notFree : (layout.span page).kind ≠ .free := by simp [isSlots]
    obtain ⟨same, away⟩ := kept page below outside notFree
    have same1 := joins1.kept page below outside notFree
    have isSlots1 : (layout1.span page).kind = .slots shift := by rw [same1, isSlots]
    have unlisted : page ∉ layout2.freeOrder := by
      intro mem
      have isFree := ((pending2.sound.freeMem page).mp mem).2.1
      rw [same] at isFree
      exact notFree isFree
    change (cells (.page page)).slab = _
    rw [unchanged page away unlisted, joins2.slab page (by omega) shift isSlots1,
      joins1.slab page below shift isSlots]
  · intro page inside
    have inside2 := joins2.wider page (joins1.wider page inside)
    dsimp only
    rw [paint_inside (show Span.covers ⟨.free, head2, count2⟩ page from inside2)]

end

theorem free_block_spec (sound : Sound pool layout 0 0) (pos : 0 < count)
    (block : ∀ page, Within head count page → page < pool.last ∧ layout.span page = ⟨.block, head, count⟩) :
    ∃ after layout', pool.ngxSlabFreePages head count = some after ∧ Sound after layout' 0 0 ∧
      Moves pool after layout layout' head count ∧
      ∀ page, Within head count page → (layout'.span page).kind = .free := by
  obtain ⟨pool0, isPool0⟩ : ∃ pool0, pool0 = { pool with pfree := pool.pfree + count } := ⟨_, rfl⟩
  have opened : Sound pool0 layout head count := by
    rw [isPool0]
    exact open_hole sound block
  have cells0 : pool0.cells = pool.cells := by rw [isPool0]
  have last0 : pool0.last = pool.last := by rw [isPool0]
  have fits := (block (head + (count - 1)) ⟨by omega, by omega⟩).1
  have headValid : pool0.valid (.page head) = true := valid_page (by omega)
  obtain ⟨c1, stored, here, beside⟩ :=
    store_spec pool0.cells (Page.setSlab (BitVec.ofNat 64 count)) headValid
  obtain ⟨c2, zeroed, inside, outside⟩ := fill_pages_spec pool0 ⟨0, .null, .null, .page⟩ (count - 1) c1
    (head + 1) (by omega)
  have first : c2 (.page head) = Page.setSlab (BitVec.ofNat 64 count) (pool.cells (.page head)) := by
    rw [outside, here, cells0]
    intro other within
    unfold Within at within
    simp
    omega
  have next : (c2 (.page head)).next = .null := by
    have described := sound.described head (block head ⟨le_rfl, by omega⟩).1 (by unfold Within; omega)
    rw [(block head ⟨le_rfl, by omega⟩).2] at described
    rw [first]
    exact described.2.1
  have pending : Pending (withCells pool0 c2) layout head count := by
    refine ⟨?_, pos, ?_, ?_⟩
    · apply sound_hole opened
      intro ref away
      rw [outside ref fun other within => away other ⟨by unfold Within at within; omega,
        by unfold Within at within; omega⟩, beside ref (away head ⟨le_rfl, by omega⟩)]
    · change (c2 (.page head)).slab = _
      rw [first]
      rfl
    · intro page within differ
      change (c2 (.page page)).slab = 0 ∧ (c2 (.page page)).next = .null ∧ (c2 (.page page)).type = .page
      rw [inside page ⟨by unfold Within at within; omega, by unfold Within at within; omega⟩]
      exact ⟨rfl, rfl, rfl⟩
  obtain ⟨after, layout', released, newSound, moves, free⟩ := release_spec pending
  refine ⟨after, layout', ?_, newSound, ⟨?_, ?_, ?_, ?_⟩, free⟩
  · rw [Pool.ngxSlabFreePages, ← isPool0]
    refine bind_some_of stored (bind_some_of zeroed (bind_some_of (load_valid c2 headValid) (bind_some_of
      (if_neg (not_not.mpr next)) released)))
  · rw [isPool0] at moves
    exact ⟨moves.base.start, moves.base.finish, moves.base.last, moves.base.memory, moves.base.stats,
      moves.base.log⟩
  · intro page below
    exact moves.kept page (by rw [last0]; exact below)
  · intro page below
    exact moves.free page (by rw [last0]; exact below)
  · intro page below shift away isSlots
    rw [moves.slab page (by rw [last0]; exact below) shift away isSlots]
    change (c2 (.page page)).slab = _
    rw [outside, beside, cells0]
    · rintro same
      injection same with same
      exact away ⟨by omega, by omega⟩
    · intro other within same
      injection same with same
      unfold Within at within
      exact away ⟨by omega, by omega⟩

end Release

end ServerCore.NginxSlabBlocks
