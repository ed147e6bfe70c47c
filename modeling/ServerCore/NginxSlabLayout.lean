import ServerCore.CircularList
import ServerCore.NginxSlab
import Mathlib.Order.Interval.Finset.Nat
import Mathlib.Tactic.IntervalCases

/-!
# The layout of a slab pool

The pages of a pool are tiled by spans: runs of free pages, blocks of allocated
pages, and single pages that are cut into chunks. `Sound` ties the descriptors
in memory to such a tiling and to the order of the lists they are linked in. It
leaves out a range of pages whose descriptors an operation is about to write.
-/

namespace ServerCore.NginxSlabLayout

open CircularList NginxSlab List

variable {span : Nat → Span} {page head count : Nat}

inductive Kind where
  | free
  | block
  | slots (shift : Nat)
  deriving DecidableEq

/-- The pages from `head` on that belong together. -/
structure Span where
  kind : Kind
  head : Nat
  count : Nat
  deriving DecidableEq

def Span.covers (span : Span) (page : Nat) : Prop := span.head ≤ page ∧ page < span.head + span.count

structure Layout where
  span : Nat → Span
  freeOrder : List Nat
  slotOrder : Nat → List Nat

/-- Every page is in the span that it names, and all pages of a span name it. -/
def Tiled (last : Nat) (span : Nat → Span) : Prop :=
  ∀ page < last, (span page).covers page ∧ (span page).head + (span page).count ≤ last ∧
    ∀ other, (span page).covers other → span other = span page

def Merged (last : Nat) (span : Nat → Span) : Prop :=
  ∀ page, page + 1 < last → (span page).kind = .free → (span (page + 1)).kind = .free →
    span (page + 1) = span page

def countOf (kind : Kind) (last : Nat) (span : Nat → Span) : Nat :=
  ((Finset.range last).filter fun page => (span page).kind = kind).card

/-- The spans with a new one in the place of the pages that it covers. -/
def paint (span : Nat → Span) (new : Span) (page : Nat) : Span :=
  if new.head ≤ page ∧ page < new.head + new.count then new else span page

variable {new : Span}

theorem paint_inside (inside : new.covers page) :
    paint span new page = new := if_pos inside

theorem paint_outside (outside : ¬new.covers page) :
    paint span new page = span page := if_neg outside

theorem paint_of_kind (differs : (paint span new page).kind ≠ new.kind) :
    paint span new page = span page ∧ ¬new.covers page := by
  have outside : ¬new.covers page := by
    intro inside
    rw [paint_inside inside] at differs
    exact differs rfl
  exact ⟨paint_outside outside, outside⟩

theorem merged_paint {last : Nat} (merged : Merged last span)
    (notFree : new.kind ≠ .free) : Merged last (paint span new) := by
  intro page below hereFree nextFree
  obtain ⟨here, -⟩ := paint_of_kind (by rw [hereFree]; exact Ne.symm notFree)
  obtain ⟨next, -⟩ := paint_of_kind (by rw [nextFree]; exact Ne.symm notFree)
  rw [here] at hereFree ⊢
  rw [next] at nextFree ⊢
  exact merged page below hereFree nextFree

theorem tiled_paint {last : Nat} (tiled : Tiled last span)
    (fits : new.head + new.count ≤ last) (whole : ∀ page, new.covers page →
      new.head ≤ (span page).head ∧ (span page).head + (span page).count ≤ new.head + new.count) :
    Tiled last (paint span new) := by
  intro page below
  by_cases inside : new.covers page
  · rw [paint_inside inside]
    exact ⟨inside, fits, fun other covered => paint_inside covered⟩
  · rw [paint_outside inside]
    obtain ⟨own, bounded, same⟩ := tiled page below
    refine ⟨own, bounded, fun other covered => ?_⟩
    rw [paint_outside, same other covered]
    intro both
    have around := whole other both
    rw [same other covered] at around
    apply inside
    unfold Span.covers at own ⊢
    omega

theorem tiled_split {last : Nat} {old front rest : Span} (tiled : Tiled last span)
    (covered : ∀ page, old.covers page → span page = old) (fits : old.head + old.count ≤ last)
    (start : front.head = old.head) (joint : rest.head = front.head + front.count)
    (total : front.count + rest.count = old.count) : Tiled last (paint (paint span front) rest) := by
  intro page below
  by_cases inRest : rest.covers page
  · rw [paint_inside inRest]
    exact ⟨inRest, by omega, fun other both => paint_inside both⟩
  · rw [paint_outside inRest]
    by_cases inFront : front.covers page
    · rw [paint_inside inFront]
      refine ⟨inFront, by omega, fun other both => ?_⟩
      rw [paint_outside, paint_inside both]
      unfold Span.covers at both ⊢
      omega
    · rw [paint_outside inFront]
      obtain ⟨own, bounded, same⟩ := tiled page below
      refine ⟨own, bounded, fun other both => ?_⟩
      have outside : ¬old.covers other := by
        intro inOld
        have isOld := same other both
        rw [covered other inOld] at isOld
        rw [← isOld] at own
        unfold Span.covers at own inRest inFront
        omega
      rw [paint_outside, paint_outside, same other both]
      · unfold Span.covers at outside ⊢
        omega
      · unfold Span.covers at outside ⊢
        omega

theorem count_change {last : Nat} (span other : Nat → Span) (kind : Kind)
    (was becomes : Bool) (fits : head + count ≤ last) (inside : ∀ page, head ≤ page → page < head + count →
      (decide ((span page).kind = kind) = was ∧ decide ((other page).kind = kind) = becomes))
    (outside : ∀ page < last, ¬(head ≤ page ∧ page < head + count) → (other page).kind = (span page).kind) :
    countOf kind last other + (if was then count else 0) =
      countOf kind last span + (if becomes then count else 0) := by
  have split : ∀ form : Nat → Span, ∀ value : Bool,
      (∀ page, head ≤ page → page < head + count → decide ((form page).kind = kind) = value) →
      countOf kind last form = ((Finset.range last).filter fun page =>
        (form page).kind = kind ∧ ¬(head ≤ page ∧ page < head + count)).card +
          if value then count else 0 := by
    intro form value uniform
    rw [countOf, ← Finset.card_filter_add_card_filter_not (s := (Finset.range last).filter fun page =>
      (form page).kind = kind) (fun page => ¬(head ≤ page ∧ page < head + count)), Finset.filter_filter]
    congr 1
    rw [Finset.filter_filter]
    cases value with
    | false =>
      rw [if_neg (by decide), Finset.card_eq_zero, Finset.filter_eq_empty_iff]
      intro page _ both
      have differs := uniform page (not_not.mp both.2).1 (not_not.mp both.2).2
      simp [both.1] at differs
    | true =>
      have interval : ((Finset.range last).filter fun page => (form page).kind = kind ∧
          ¬¬(head ≤ page ∧ page < head + count)) = Finset.Ico head (head + count) := by
        ext page
        rw [Finset.mem_filter, Finset.mem_range, Finset.mem_Ico, not_not]
        constructor
        · exact fun both => both.2.2
        · intro within
          have same := uniform page within.1 within.2
          exact ⟨by omega, of_decide_eq_true same, within⟩
      rw [interval, Nat.card_Ico, if_pos rfl]
      omega
  have same : ((Finset.range last).filter fun page =>
      (other page).kind = kind ∧ ¬(head ≤ page ∧ page < head + count)) =
      (Finset.range last).filter fun page =>
        (span page).kind = kind ∧ ¬(head ≤ page ∧ page < head + count) := by
    apply Finset.filter_congr
    intro page mem
    constructor
    · exact fun both => ⟨(outside page (Finset.mem_range.mp mem) both.2).symm.trans both.1, both.2⟩
    · exact fun both => ⟨(outside page (Finset.mem_range.mp mem) both.2).trans both.1, both.2⟩
  rw [split other becomes (fun page low high => (inside page low high).2),
    split span was (fun page low high => (inside page low high).1), same]
  omega

/-- The number of chunks of a page, those of a bitmap inside it included. -/
def capacity (shift : Nat) : Nat := pagesize >>> shift

def reserved (shift : Nat) : Nat := if shift < slabExactShift then Pool.mapChunks shift else 0

def typeOf (shift : Nat) : PageType :=
  if shift < slabExactShift then .small else if shift = slabExactShift then .exact else .big

/-- Whether the bit of a chunk is set: in the bitmap inside the page, in the
word `slab`, or in the upper half of it. -/
def taken (pool : Pool) (page shift chunk : Nat) : Bool :=
  if shift < slabExactShift then
    (pool.memory (pool.pageAddr page + 8 * (chunk / 64))).getLsbD (chunk % 64)
  else if shift = slabExactShift then (pool.cells (.page page)).slab.getLsbD chunk
  else (pool.cells (.page page)).slab.getLsbD (slabMapShift + chunk)

def Full (pool : Pool) (page shift : Nat) : Prop :=
  ∀ chunk < capacity shift, taken pool page shift chunk = true

structure Formatted (pool : Pool) (page shift : Nat) : Prop where
  low : minShift ≤ shift
  high : shift < pagesizeShift
  type : (pool.cells (.page page)).type = typeOf shift
  small : shift < slabExactShift → (pool.cells (.page page)).slab = BitVec.ofNat 64 shift
  big : slabExactShift < shift → (pool.cells (.page page)).slab &&& slabShiftMask = BitVec.ofNat 64 shift
  upper : slabExactShift < shift → ∀ chunk, capacity shift ≤ chunk → taken pool page shift chunk = false
  reserve : ∀ chunk < reserved shift, taken pool page shift chunk = true

def Described (pool : Pool) (page : Nat) (span : Span) : Prop :=
  match span.kind with
  | .free => (pool.cells (.page page)).type = .page ∧
      (page = span.head → (pool.cells (.page page)).slab = BitVec.ofNat 64 span.count) ∧
      (page ≠ span.head → (pool.cells (.page page)).slab = 0 ∧ (pool.cells (.page page)).next = .null ∧
        (page + 1 = span.head + span.count → page + 1 < pool.last →
          (pool.cells (.page page)).prev = .page span.head))
  | .block => (pool.cells (.page page)).type = .page ∧ (pool.cells (.page page)).next = .null ∧
      (pool.cells (.page page)).slab =
        if page = span.head then BitVec.ofNat 64 span.count ||| slabPageStart else slabBusy
  | .slots shift => Formatted pool page shift ∧
      (Full pool page shift → (pool.cells (.page page)).next = .null)

def nextOf (pool : Pool) (ref : Ref) : Ref := (pool.cells ref).next

def prevOf (pool : Pool) (ref : Ref) : Ref := (pool.cells ref).prev

def Within (head count page : Nat) : Prop := head ≤ page ∧ page < head + count

/-- The descriptors and lists of a pool, except for the descriptors of the
`held` pages from `hole` on: they are one block, and counted as free. -/
structure Sound (pool : Pool) (layout : Layout) (hole held : Nat) : Prop where
  size : pool.last < 2 ^ 63
  tiled : Tiled pool.last layout.span
  merged : Merged pool.last layout.span
  hollow : ∀ page, Within hole held page → page < pool.last ∧ layout.span page = ⟨.block, hole, held⟩
  single : ∀ page < pool.last, ∀ shift, (layout.span page).kind = .slots shift →
    (layout.span page).count = 1
  described : ∀ page < pool.last, ¬Within hole held page → Described pool page (layout.span page)
  freeRing : Ring (nextOf pool) (prevOf pool) .free (layout.freeOrder.map .page)
  freeMem : ∀ page, page ∈ layout.freeOrder ↔
    page < pool.last ∧ (layout.span page).kind = .free ∧ (layout.span page).head = page
  slotRing : ∀ shift, minShift ≤ shift → shift < pagesizeShift →
    Ring (nextOf pool) (prevOf pool) (.slot (shift - minShift)) ((layout.slotOrder shift).map .page)
  slotMem : ∀ shift, minShift ≤ shift → shift < pagesizeShift → ∀ page,
    page ∈ layout.slotOrder shift ↔
      page < pool.last ∧ (layout.span page).kind = .slots shift ∧ ¬Full pool page shift
  pfree : pool.pfree = countOf .free pool.last layout.span + held

section Reading

variable {pool after : Pool} {page shift : Nat}

theorem capacity_le (low : minShift ≤ shift) : capacity shift ≤ 512 := by
  unfold capacity pagesize
  rw [Nat.shiftRight_eq_div_pow]
  calc 4096 / 2 ^ shift ≤ 4096 / 2 ^ 3 :=
        Nat.div_le_div_left (Nat.pow_le_pow_right (by decide) low) (by decide)
    _ = 512 := by decide

theorem reserved_lt (low : minShift ≤ shift) (high : shift < pagesizeShift) :
    reserved shift < capacity shift := by
  unfold pagesizeShift at high
  interval_cases shift <;> decide

def SameMap (pool after : Pool) (page : Nat) : Prop :=
  ∀ word < 8, after.memory (pool.pageAddr page + 8 * word) = pool.memory (pool.pageAddr page + 8 * word)

theorem same_map_of_memory (memory : after.memory = pool.memory) : SameMap pool after page :=
  fun _ _ => by rw [memory]

theorem taken_congr (start : after.start = pool.start) (map : SameMap pool after page)
    (slab : (after.cells (.page page)).slab = (pool.cells (.page page)).slab) {chunk : Nat}
    (small : shift < slabExactShift → chunk < 512) :
    taken after page shift chunk = taken pool page shift chunk := by
  unfold taken
  rw [slab]
  by_cases isSmall : shift < slabExactShift
  · have bound := small isSmall
    rw [if_pos isSmall, if_pos isSmall, show after.pageAddr page = pool.pageAddr page by
      rw [Pool.pageAddr, start, Pool.pageAddr], map (chunk / 64) (by omega)]
  · rw [if_neg isSmall, if_neg isSmall]

theorem full_congr (pool after : Pool) (low : minShift ≤ shift) (start : after.start = pool.start)
    (map : SameMap pool after page)
    (slab : (after.cells (.page page)).slab = (pool.cells (.page page)).slab) :
    Full after page shift ↔ Full pool page shift := by
  have bound := capacity_le low
  have same : ∀ chunk < capacity shift, taken after page shift chunk = taken pool page shift chunk :=
    fun chunk below => taken_congr start map slab fun _ => by omega
  constructor
  · exact fun full chunk below => (same chunk below).symm.trans (full chunk below)
  · exact fun full chunk below => (same chunk below).trans (full chunk below)

theorem formatted_congr (pool after : Pool) (start : after.start = pool.start)
    (map : SameMap pool after page)
    (slab : (after.cells (.page page)).slab = (pool.cells (.page page)).slab)
    (type : (after.cells (.page page)).type = (pool.cells (.page page)).type)
    (formatted : Formatted pool page shift) : Formatted after page shift where
  low := formatted.low
  high := formatted.high
  type := by rw [type, formatted.type]
  small := by
    rw [slab]
    exact formatted.small
  big := by
    rw [slab]
    exact formatted.big
  upper := by
    intro isBig chunk beyond
    rw [taken_congr start map slab fun isSmall => absurd isSmall (by omega)]
    exact formatted.upper isBig chunk beyond
  reserve := by
    intro chunk below
    have bound := capacity_le formatted.low
    have fewer := reserved_lt formatted.low formatted.high
    rw [taken_congr start map slab fun _ => by omega]
    exact formatted.reserve chunk below

/-- A descriptor whose links count for nothing, or are the same as before. -/
def FreeLinks (pool after : Pool) (page : Nat) (span : Span) : Prop :=
  match span.kind with
  | .free => page ≠ span.head → after.cells (.page page) = pool.cells (.page page)
  | .block => after.cells (.page page) = pool.cells (.page page)
  | .slots shift => Full pool page shift → after.cells (.page page) = pool.cells (.page page)

section

variable (pool after : Pool) {span : Span} (start : after.start = pool.start) (last : after.last = pool.last)
include start last

theorem described_congr (map : SameMap pool after page)
    (slab : (after.cells (.page page)).slab = (pool.cells (.page page)).slab)
    (type : (after.cells (.page page)).type = (pool.cells (.page page)).type)
    (links : FreeLinks pool after page span) (described : Described pool page span) :
    Described after page span := by
  obtain ⟨kind, head, count⟩ := span
  cases kind with
  | free =>
    obtain ⟨isPage, atHead, inside⟩ := described
    refine ⟨type.trans isPage, fun here => slab.trans (atHead here), fun differ => ?_⟩
    rw [links differ, last]
    exact inside differ
  | block =>
    have same : after.cells (.page page) = pool.cells (.page page) := links
    unfold Described
    rw [same]
    exact described
  | slots shift =>
    refine ⟨formatted_congr pool after start map slab type described.1, fun full => ?_⟩
    have before := (full_congr pool after described.1.low start map slab).mp full
    rw [links before]
    exact described.2 before

theorem described_same (memory : after.memory = pool.memory)
    (cell : after.cells (.page page) = pool.cells (.page page)) (described : Described pool page span) :
    Described after page span := by
  refine described_congr pool after start last (same_map_of_memory memory) (congrArg Page.slab cell)
    (congrArg Page.type cell) ?_ described
  unfold FreeLinks
  split
  · exact fun _ => cell
  · exact cell
  · exact fun _ => cell

end

end Reading

section Lists

variable {pool : Pool} {layout : Layout} {hole held : Nat}

section

variable (sound : Sound pool layout hole held)
include sound

theorem free_page (mem : page ∈ layout.freeOrder) :
    page < pool.last ∧ ∃ count, layout.span page = ⟨.free, page, count⟩ ∧ 0 < count ∧
      page + count ≤ pool.last ∧
      (∀ other, page ≤ other → other < page + count → layout.span other = ⟨.free, page, count⟩) ∧
      (pool.cells (.page page)).slab = BitVec.ofNat 64 count ∧ (pool.cells (.page page)).type = .page := by
  obtain ⟨below, isFree, isHead⟩ := (sound.freeMem page).mp mem
  obtain ⟨covered, bounded, same⟩ := sound.tiled page below
  have outside : ¬Within hole held page := by
    intro inHole
    have isBlock := (sound.hollow page inHole).2
    rw [isBlock] at isFree
    cases isFree
  have described := sound.described page below outside
  obtain ⟨⟨kind, head, count⟩, isSpan⟩ : ∃ found, layout.span page = found := ⟨_, rfl⟩
  rw [isSpan] at isFree isHead covered bounded same described
  subst isFree isHead
  refine ⟨below, count, isSpan, ?_, bounded, ?_, described.2.1 rfl, described.1⟩
  · have within := covered.2
    dsimp only at within
    omega
  · exact fun other low high => same other ⟨low, high⟩

theorem free_run (mem : head ∈ layout.freeOrder)
    (run : layout.span head = ⟨.free, head, count⟩) : head < pool.last ∧ 0 < count ∧
    head + count ≤ pool.last ∧
      (∀ other, head ≤ other → other < head + count → layout.span other = ⟨.free, head, count⟩) ∧
      (pool.cells (.page head)).slab = BitVec.ofNat 64 count ∧ (pool.cells (.page head)).type = .page := by
  obtain ⟨below, count', isRun, rest⟩ := free_page sound mem
  rw [run] at isRun
  injection isRun with _ _ isCount
  subst isCount
  exact ⟨below, rest⟩

theorem free_apart {front back : List Nat} (order : layout.freeOrder = front ++ head :: back) :
    head ∉ front ++ back := by
  have apart := List.Nodup.of_map _ (nodup_cons.mp sound.freeRing.distinct).2
  rw [order] at apart
  exact (nodup_cons.mp (nodup_middle.mp apart)).1

theorem free_valid : ∀ ref ∈ Ref.free :: layout.freeOrder.map .page, pool.valid ref = true := by
  intro ref mem
  rcases mem_cons.mp mem with rfl | inOrder
  · rfl
  · obtain ⟨page, inFree, rfl⟩ := mem_map.mp inOrder
    exact decide_eq_true (free_page sound inFree).1

theorem free_types : ∀ ref ∈ layout.freeOrder.map Ref.page, (pool.cells ref).type = .page := by
  intro ref mem
  obtain ⟨page, inFree, rfl⟩ := mem_map.mp mem
  obtain ⟨-, -, -, -, -, -, -, type⟩ := free_page sound inFree
  exact type

variable {shift : Nat}

section

variable (low : minShift ≤ shift) (high : shift < pagesizeShift)
include low high

theorem slot_page (mem : page ∈ layout.slotOrder shift) :
    page < pool.last ∧ (layout.span page).kind = .slots shift ∧ ¬Full pool page shift ∧
      Formatted pool page shift := by
  obtain ⟨below, isSlots, notFull⟩ := (sound.slotMem shift low high page).mp mem
  have outside : ¬Within hole held page := by
    intro inHole
    have isBlock := (sound.hollow page inHole).2
    rw [isBlock] at isSlots
    cases isSlots
  have described := sound.described page below outside
  unfold Described at described
  rw [isSlots] at described
  exact ⟨below, isSlots, notFull, described.1⟩

theorem slot_valid :
    ∀ ref ∈ Ref.slot (shift - minShift) :: (layout.slotOrder shift).map .page, pool.valid ref = true := by
  intro ref mem
  rcases mem_cons.mp mem with rfl | inOrder
  · unfold minShift pagesizeShift at *
    exact decide_eq_true (show shift - 3 < slotCount by unfold slotCount; omega)
  · obtain ⟨page, inSlot, rfl⟩ := mem_map.mp inOrder
    exact decide_eq_true (slot_page sound low high inSlot).1

theorem slot_types :
    ∀ ref ∈ (layout.slotOrder shift).map Ref.page, (pool.cells ref).type = typeOf shift := by
  intro ref mem
  obtain ⟨page, inSlot, rfl⟩ := mem_map.mp mem
  exact (slot_page sound low high inSlot).2.2.2.type

end

end

theorem slots_frame (after : Pool) (span : Nat → Span) (sound : Sound pool layout hole held)
    (start : after.start = pool.start) (last : after.last = pool.last) (memory : after.memory = pool.memory)
    (heads : ∀ slot, after.cells (.slot slot) = pool.cells (.slot slot))
    (pages : ∀ page < pool.last, ∀ shift, (layout.span page).kind = .slots shift →
      after.cells (.page page) = pool.cells (.page page)) (kinds : ∀ page < pool.last, ∀ shift,
      (span page).kind = .slots shift ↔ (layout.span page).kind = .slots shift) :
    ∀ shift, minShift ≤ shift → shift < pagesizeShift →
      Ring (nextOf after) (prevOf after) (.slot (shift - minShift)) ((layout.slotOrder shift).map .page) ∧
      ∀ page, page ∈ layout.slotOrder shift ↔
        page < after.last ∧ (span page).kind = .slots shift ∧ ¬Full after page shift := by
  intro shift low high
  have same : ∀ ref ∈ (layout.slotOrder shift).map Ref.page, after.cells ref = pool.cells ref := by
    intro ref mem
    obtain ⟨page, inSlot, rfl⟩ := mem_map.mp mem
    obtain ⟨below, isSlots, -⟩ := slot_page sound low high inSlot
    exact pages page below shift isSlots
  constructor
  · apply ring_congr (sound.slotRing shift low high)
    · intro ref mem
      rcases mem_cons.mp mem with rfl | inOrder
      · exact congrArg Page.next (heads _)
      · exact congrArg Page.next (same ref inOrder)
    · intro ref mem
      exact congrArg Page.prev (same ref mem)
  · intro page
    rw [sound.slotMem shift low high page, last]
    constructor
    · rintro ⟨below, isSlots, notFull⟩
      refine ⟨below, (kinds page below shift).mpr isSlots, ?_⟩
      rwa [full_congr pool after low start (same_map_of_memory memory)
        (congrArg Page.slab (pages page below shift isSlots))]
    · rintro ⟨below, isSlots, notFull⟩
      have before := (kinds page below shift).mp isSlots
      refine ⟨below, before, ?_⟩
      rwa [full_congr pool after low start (same_map_of_memory memory)
        (congrArg Page.slab (pages page below shift before))] at notFull

end Lists

end ServerCore.NginxSlabLayout
