import Mathlib.Logic.Function.Basic

/-!
# The slab allocator of nginx

`ngx_slab_init`, `ngx_slab_alloc_locked` and `ngx_slab_free_locked` for 64-bit
words, pages of 4096 bytes and `min_shift` 3. The descriptors of pages, slots
and the free list are cells behind references, the page area is a memory of
words; a reference to no cell is `none` when it is followed. Log entries are
kept, so that a branch which only logs can be seen.
-/

namespace ServerCore.NginxSlab

open Function

abbrev Word := BitVec 64

/-- `ngx_pagesize`, `ngx_pagesize_shift`, `pool->min_shift` and `pool->min_size`. -/
def pagesize : Nat := 4096
def pagesizeShift : Nat := 12
def minShift : Nat := 3
def minSize : Nat := 8

def slabMaxSize : Nat := 2048
def slabExactSize : Nat := 64
def slabExactShift : Nat := 6

/-- The number of slots, `ngx_pagesize_shift - pool->min_shift`. -/
def slotCount : Nat := 9

/-- `NGX_SLAB_BUSY`, which is also `NGX_SLAB_PAGE_BUSY`. -/
def slabBusy : Word := BitVec.allOnes 64

def slabPageStart : Word := BitVec.twoPow 64 63

def slabShiftMask : Word := 15

def slabMapMask : Word := BitVec.allOnes 64 <<< 32
def slabMapShift : Nat := 32

/-- A pointer to a `ngx_slab_page_t`: NULL, `&pool->free`, `&slots[i]` or
`&pool->pages[i]`. -/
inductive Ref where
  | null
  | free
  | slot (index : Nat)
  | page (index : Nat)
  deriving DecidableEq

/-- The two low bits of `prev`, `NGX_SLAB_PAGE` to `NGX_SLAB_SMALL`. -/
inductive PageType where
  | page
  | big
  | exact
  | small
  deriving DecidableEq

/-- `ngx_slab_page_t`; `prev` and `type` are the two parts of its word `prev`. -/
structure Page where
  slab : Word
  next : Ref
  prev : Ref
  type : PageType
  deriving DecidableEq

namespace Page

def setSlab (slab : Word) (page : Page) : Page := { page with slab := slab }

def setNext (next : Ref) (page : Page) : Page := { page with next := next }

def setPrev (prev : Ref) (type : PageType) (page : Page) : Page :=
  { page with prev := prev, type := type }

/-- The word `prev` taken as a pointer without masking its low bits. -/
def rawPrev (page : Page) : Option Ref := if page.type = .page then some page.prev else none

end Page

structure Stat where
  total : Nat
  used : Nat
  reqs : Nat
  fails : Nat

/-- The texts that `ngx_slab_error` logs. -/
inductive Message where
  /-- "ngx_slab_alloc() failed: no memory" -/
  | noMemory
  /-- "ngx_slab_alloc(): page is busy" -/
  | pageIsBusy
  /-- "ngx_slab_free(): outside of pool" -/
  | outsideOfPool
  /-- "ngx_slab_free(): page is already free" -/
  | pageIsAlreadyFree
  /-- "ngx_slab_free(): pointer to wrong page" -/
  | pointerToWrongPage
  /-- "ngx_slab_free(): pointer to wrong chunk" -/
  | pointerToWrongChunk
  /-- "ngx_slab_free(): chunk is already free" -/
  | chunkIsAlreadyFree
  deriving DecidableEq

/-- `ngx_slab_pool_t` with its descriptors and the words of its pages. `finish`
is `pool->end`, and `last` is the index of the descriptor behind the last page. -/
structure Pool where
  start : Nat
  finish : Nat
  last : Nat
  pfree : Nat
  logNomem : Bool
  stats : Nat → Stat
  cells : Ref → Page
  memory : Nat → Word
  log : List Message

namespace Pool

section

variable (pool : Pool)

def valid : Ref → Bool
  | .null => false
  | .free => true
  | .slot index => index < slotCount
  | .page index => index < pool.last

def load (ref : Ref) : Option Page :=
  if pool.valid ref then some (pool.cells ref) else none

def store (ref : Ref) (change : Page → Page) : Option Pool :=
  if pool.valid ref then
    some { pool with cells := update pool.cells ref (change (pool.cells ref)) }
  else none

def setWord (addr : Nat) (word : Word) : Pool :=
  { pool with memory := update pool.memory addr word }

def setStat (slot : Nat) (change : Stat → Stat) : Pool :=
  { pool with stats := update pool.stats slot (change (pool.stats slot)) }

def slabError (message : Message) : Pool := { pool with log := message :: pool.log }

def pageAddr (page : Nat) : Nat := pool.start + page <<< pagesizeShift

/-- A statement under an `if` without `else`. -/
def onlyIf (cond : Prop) [Decidable cond] (step : Pool → Option Pool) :
    Option Pool :=
  if cond then step pool else some pool

/-- `prev->next = page->next; page->next->prev = page->prev` for a given `prev`. -/
def unlink (prev page : Ref) : Option Pool := do
  let pool ← pool.store prev (Page.setNext (← pool.load page).next)
  let here ← pool.load page
  pool.store here.next (Page.setPrev here.prev here.type)

/-- Splits a run of free pages: its head moves from `page` to `page[pages]`. -/
def splitRun (page pages : Nat) : Option Pool := do
  let rest := Ref.page (page + pages)
  let run ← pool.load (.page page)
  let pool ← pool.store (.page (page + (run.slab.toNat - 1))) (Page.setPrev rest .page)
  let run ← pool.load (.page page)
  let pool ← pool.store rest fun _ => { run with slab := run.slab - BitVec.ofNat 64 pages }
  let pool ← pool.store (← run.rawPrev) (Page.setNext rest)
  let run ← pool.load (.page page)
  pool.store run.next (Page.setPrev rest .page)

end

def fillPages (value : Page) : Nat → Pool → Nat → Option Pool
  | 0, pool, _ => some pool
  | pages + 1, pool, page => do
    let pool ← pool.store (.page page) fun _ => value
    fillPages value pages pool (page + 1)

/-- The loop that marks the pages behind the first one of an allocation. -/
def markBusy : Nat → Pool → Nat → Option Pool := fillPages ⟨slabBusy, .null, .null, .page⟩

/-- Cuts the first pages off a run, or takes all of it out of the free list. -/
def cutRun (pool : Pool) (run : Page) (page pages : Nat) : Option Pool :=
  if run.slab.toNat > pages then pool.splitRun page pages
  else do pool.unlink (← run.rawPrev) (.page page)

/-- Takes the first pages of a run that is long enough. -/
def takePages (pool : Pool) (page pages : Nat) : Option Pool := do
  let run ← pool.load (.page page)
  let pool ← pool.cutRun run page pages
  let pool ← pool.store (.page page) fun _ =>
    ⟨BitVec.ofNat 64 pages ||| slabPageStart, .null, .null, .page⟩
  let pool := { pool with pfree := pool.pfree - pages }
  markBusy (pages - 1) pool (page + 1)

def allocPagesFrom : Nat → Pool → Ref → Nat → Option (Pool × Option Nat)
  | 0, _, _, _ => none
  | fuel + 1, pool, page, pages =>
    match page with
    | .free => some (if pool.logNomem then pool.slabError .noMemory else pool, none)
    | .page index => do
      let run ← pool.load page
      if run.slab.toNat ≥ pages then
        let pool ← pool.takePages index pages
        some (pool, some index)
      else allocPagesFrom fuel pool run.next pages
    | _ => none

/-- No list of pages without repetition is longer than the fuel of the loop. -/
def ngxSlabAllocPages (pool : Pool) (pages : Nat) : Option (Pool × Option Nat) :=
  allocPagesFrom (pool.last + 1) pool (pool.cells .free).next pages

def zeroPages : Nat → Pool → Nat → Option Pool := fillPages ⟨0, .null, .null, .page⟩

section

variable (pool : Pool) (page pages : Nat)

/-- Joins the run behind `page`; the result holds the new `pages`. -/
def joinNext : Option (Pool × Nat) := do
  let here ← pool.load (.page page)
  let join := page + here.slab.toNat
  if join < pool.last then
    let after ← pool.load (.page join)
    if after.type = .page ∧ after.next ≠ .null then
      let pool ← pool.store (.page page) (Page.setSlab (here.slab + after.slab))
      let pool ← pool.unlink after.prev (.page join)
      let pool ← pool.store (.page join) fun _ => ⟨0, .null, .null, .page⟩
      some (pool, pages + after.slab.toNat)
    else some (pool, pages)
  else some (pool, pages)

/-- Joins the run before `page`; the result holds the new `page` and `pages`. -/
def joinPrev : Option (Pool × Nat × Nat) := do
  if page > 0 then
    let before ← pool.load (.page (page - 1))
    if before.type = .page then
      let join := if before.slab = 0 then before.prev else .page (page - 1)
      let head ← pool.load join
      if head.next ≠ .null then
        match join with
        | .page index => do
          let here ← pool.load (.page page)
          let pool ← pool.store join (Page.setSlab (head.slab + here.slab))
          let pool ← pool.unlink head.prev join
          let pool ← pool.store (.page page) fun _ => ⟨0, .null, .null, .page⟩
          some (pool, index, pages + head.slab.toNat)
        | _ => none
      else some (pool, page, pages)
    else some (pool, page, pages)
  else some (pool, page, pages)

/-- The last lines of `ngx_slab_free_pages`. -/
def pushRun : Option Pool := do
  let pool ← pool.onlyIf (pages ≠ 0) fun pool =>
    pool.store (.page (page + pages)) (Page.setPrev (.page page) .page)
  let first := (← pool.load .free).next
  let pool ← pool.store (.page page) fun run => { run with prev := .free, type := .page, next := first }
  let pool ← pool.store first (Page.setPrev (.page page) .page)
  pool.store .free (Page.setNext (.page page))

def ngxSlabFreePages : Option Pool := do
  let pool := { pool with pfree := pool.pfree + pages }
  let pool ← pool.store (.page page) (Page.setSlab (BitVec.ofNat 64 pages))
  let pool ← zeroPages (pages - 1) pool (page + 1)
  let here ← pool.load (.page page)
  let pool ← pool.onlyIf (here.next ≠ .null) fun pool => pool.unlink here.prev (.page page)
  let (pool, pages) ← pool.joinNext page (pages - 1)
  let (pool, page, pages) ← pool.joinPrev page pages
  pool.pushRun page pages

end

/-- The loop `for (s = size - 1; s >>= 1; shift++)`. -/
def shiftFrom : Nat → Nat → Nat → Nat
  | 0, _, shift => shift
  | fuel + 1, s, shift => if s >>> 1 ≠ 0 then shiftFrom fuel (s >>> 1) (shift + 1) else shift

def shiftOf (size : Nat) : Nat := if size > minSize then shiftFrom 64 (size - 1) 1 else minShift

/-- The loop that looks for a zero bit under a mask; it ends when the bit `m`
leaves the mask or the word. -/
def scanBits (word mask : Word) : Nat → Word → Nat → Option (Nat × Word)
  | 0, _, _ => none
  | fuel + 1, m, i =>
    if m &&& mask = 0 then none
    else if word &&& m ≠ 0 then scanBits word mask fuel (m <<< 1) (i + 1)
    else some (i, m)

/-- The loop over the words of a bitmap: the first zero bit as the index of its
word, its index there and its mask. -/
def scanWords (bitmap : Nat → Word) : Nat → Nat → Option (Nat × Nat × Word)
  | 0, _ => none
  | count + 1, n =>
    if bitmap n ≠ slabBusy then
      match scanBits (bitmap n) slabBusy 65 1 0 with
      | some (i, m) => some (n, i, m)
      | none => scanWords bitmap count (n + 1)
    else scanWords bitmap count (n + 1)

/-- The number of words of a bitmap inside a page. -/
def mapWords (shift : Nat) : Nat := (pagesize >>> shift) / 64

/-- The number of chunks that a bitmap inside a page takes. -/
def mapChunks (shift : Nat) : Nat :=
  let n := (pagesize >>> shift) / ((1 <<< shift) * 8)
  if n = 0 then 1 else n

section

variable (pool : Pool)

/-- A page without free chunks leaves the list of its slot. -/
def detach (page : Ref) (type : PageType) : Option Pool := do
  let pool ← pool.unlink (← pool.load page).prev page
  pool.store page fun full => { full with next := .null, prev := .null, type := type }

/-- A page with a free chunk comes back to the list of its slot. -/
def attach (slot : Nat) (page : Ref) (type : PageType) : Option Pool := do
  let pool ← pool.store page (Page.setNext (← pool.load (.slot slot)).next)
  let pool ← pool.store (.slot slot) (Page.setNext page)
  let pool ← pool.store page (Page.setPrev (.slot slot) type)
  pool.store (← pool.load page).next (Page.setPrev page type)

def countUsed (slot : Nat) : Pool :=
  pool.setStat slot fun stat => { stat with used := stat.used + 1 }

/-- Allocation from a page with a bitmap inside; `some none` is a full page. -/
def allocSmall (slot shift page : Nat) : Option (Option (Pool × Nat)) :=
  let bitmap := pool.pageAddr page
  let map := mapWords shift
  match scanWords (fun n => pool.memory (bitmap + 8 * n)) map 0 with
  | none => some none
  | some (n, i, m) => do
    let pool := pool.setWord (bitmap + 8 * n) (pool.memory (bitmap + 8 * n) ||| m)
    let p := bitmap + (n * 64 + i) <<< shift
    let pool := pool.countUsed slot
    let pool ← pool.onlyIf (pool.memory (bitmap + 8 * n) = slabBusy ∧
        ∀ k < map, n < k → pool.memory (bitmap + 8 * k) = slabBusy) fun pool =>
      pool.detach (.page page) .small
    some (some (pool, p))

def allocExact (slot shift page : Nat) : Option (Option (Pool × Nat)) := do
  let here ← pool.load (.page page)
  match scanBits here.slab slabBusy 65 1 0 with
  | none => some none
  | some (i, m) => do
    let slab := here.slab ||| m
    let pool ← pool.store (.page page) (Page.setSlab slab)
    let pool ← pool.onlyIf (slab = slabBusy) fun pool => pool.detach (.page page) .exact
    some (some (pool.countUsed slot, pool.pageAddr page + i <<< shift))

def allocBig (slot shift page : Nat) : Option (Option (Pool × Nat)) := do
  let mask : Word := (((1 : Word) <<< (pagesize >>> shift)) - 1) <<< slabMapShift
  let here ← pool.load (.page page)
  match scanBits here.slab mask 65 ((1 : Word) <<< slabMapShift) 0 with
  | none => some none
  | some (i, m) => do
    let slab := here.slab ||| m
    let pool ← pool.store (.page page) (Page.setSlab slab)
    let pool ← pool.onlyIf (slab &&& slabMapMask = mask) fun pool => pool.detach (.page page) .big
    some (some (pool.countUsed slot, pool.pageAddr page + i <<< shift))

/-- Allocation from the first page of a slot's list. -/
def allocChunk (slot shift : Nat) : Ref → Option (Option (Pool × Nat))
  | .page page =>
    if shift < slabExactShift then pool.allocSmall slot shift page
    else if shift = slabExactShift then pool.allocExact slot shift page
    else pool.allocBig slot shift page
  | _ => none

def initBitmap (bitmap map n : Nat) : Pool :=
  (List.range' 1 (map - 1)).foldl (fun pool i => pool.setWord (bitmap + 8 * i) 0)
    (pool.setWord bitmap (((2 : Word) <<< n) - 1))

/-- A new page becomes the only one in the list of its slot. -/
def enlist (slot page : Nat) (slab : Word) (type : PageType) (chunks : Nat) :
    Option Pool := do
  let pool ← pool.store (.page page) fun _ => ⟨slab, .slot slot, .slot slot, type⟩
  let pool ← pool.store (.slot slot) (Page.setNext (.page page))
  some (pool.setStat slot fun stat => { stat with total := stat.total + chunks, used := stat.used + 1 })

def allocNewPage (slot shift : Nat) : Option (Pool × Nat) := do
  let (pool, found) ← pool.ngxSlabAllocPages 1
  match found with
  | some page =>
    if shift < slabExactShift then
      let n := mapChunks shift
      let pool := pool.initBitmap (pool.pageAddr page) (mapWords shift) n
      let pool ← pool.enlist slot page (BitVec.ofNat 64 shift) .small ((pagesize >>> shift) - n)
      some (pool, pool.pageAddr page + n <<< shift)
    else if shift = slabExactShift then
      let pool ← pool.enlist slot page 1 .exact 64
      some (pool, pool.pageAddr page)
    else
      let pool ← pool.enlist slot page ((1 : Word) <<< slabMapShift ||| BitVec.ofNat 64 shift) .big
        (pagesize >>> shift)
      some (pool, pool.pageAddr page)
  | none => some (pool.setStat slot fun stat => { stat with fails := stat.fails + 1 }, 0)

def ngxSlabAllocLocked (size : Nat) : Option (Pool × Nat) := do
  if size > slabMaxSize then
    let (pool, found) ← pool.ngxSlabAllocPages
      (size >>> pagesizeShift + if size % pagesize ≠ 0 then 1 else 0)
    some (pool, match found with
      | some page => pool.pageAddr page
      | none => 0)
  else
    let shift := shiftOf size
    let slot := shift - minShift
    let pool := pool.setStat slot fun stat => { stat with reqs := stat.reqs + 1 }
    let page := (← pool.load (.slot slot)).next
    if (← pool.load page).next ≠ page then
      match ← pool.allocChunk slot shift page with
      | some result => some result
      | none => (pool.slabError .pageIsBusy).allocNewPage slot shift
    else pool.allocNewPage slot shift

/-- `stats[slot].used--` behind the label `done`. -/
def countFree (slot : Nat) : Pool :=
  pool.setStat slot fun stat => { stat with used := stat.used - 1 }

/-- A slot's page without chunks in use is given back. -/
def freeSlotPage (slot page chunks : Nat) : Option Pool := do
  let pool ← pool.ngxSlabFreePages page 1
  some ((pool.setStat slot fun stat => { stat with total := stat.total - chunks }).countFree slot)

def freeSmall (p page : Nat) (here : Page) : Option Pool := do
  let shift := (here.slab &&& slabShiftMask).toNat
  let size := 1 <<< shift
  if p &&& (size - 1) ≠ 0 then some (pool.slabError .pointerToWrongChunk)
  else
    let n := (p &&& (pagesize - 1)) >>> shift
    let m : Word := (1 : Word) <<< (n % 64)
    let bitmap := p - (p &&& (pagesize - 1))
    if pool.memory (bitmap + 8 * (n / 64)) &&& m ≠ 0 then
      let slot := shift - minShift
      let pool ← pool.onlyIf (here.next = .null) fun pool => pool.attach slot (.page page) .small
      let pool := pool.setWord (bitmap + 8 * (n / 64)) (pool.memory (bitmap + 8 * (n / 64)) &&& ~~~m)
      let reserved := mapChunks shift
      if pool.memory bitmap &&& ~~~(((1 : Word) <<< reserved) - 1) ≠ 0 ∨
          ∃ i < mapWords shift, 1 ≤ i ∧ pool.memory (bitmap + 8 * i) ≠ 0 then
        some (pool.countFree slot)
      else pool.freeSlotPage slot page ((pagesize >>> shift) - reserved)
    else some (pool.slabError .chunkIsAlreadyFree)

def freeExact (p page : Nat) (here : Page) : Option Pool := do
  let m : Word := (1 : Word) <<< ((p &&& (pagesize - 1)) >>> slabExactShift)
  if p &&& (slabExactSize - 1) ≠ 0 then some (pool.slabError .pointerToWrongChunk)
  else if here.slab &&& m ≠ 0 then
    let slot := slabExactShift - minShift
    let pool ← pool.onlyIf (here.slab = slabBusy) fun pool => pool.attach slot (.page page) .exact
    let pool ← pool.store (.page page) (Page.setSlab (here.slab &&& ~~~m))
    if here.slab &&& ~~~m ≠ 0 then some (pool.countFree slot)
    else pool.freeSlotPage slot page 64
  else some (pool.slabError .chunkIsAlreadyFree)

def freeBig (p page : Nat) (here : Page) : Option Pool := do
  let shift := (here.slab &&& slabShiftMask).toNat
  let size := 1 <<< shift
  if p &&& (size - 1) ≠ 0 then some (pool.slabError .pointerToWrongChunk)
  else
    let m : Word := (1 : Word) <<< ((p &&& (pagesize - 1)) >>> shift + slabMapShift)
    if here.slab &&& m ≠ 0 then
      let slot := shift - minShift
      let pool ← pool.onlyIf (here.next = .null) fun pool => pool.attach slot (.page page) .big
      let pool ← pool.store (.page page) (Page.setSlab (here.slab &&& ~~~m))
      if here.slab &&& ~~~m &&& slabMapMask ≠ 0 then some (pool.countFree slot)
      else pool.freeSlotPage slot page (pagesize >>> shift)
    else some (pool.slabError .chunkIsAlreadyFree)

def freeBlock (p page : Nat) (here : Page) : Option Pool := do
  if p &&& (pagesize - 1) ≠ 0 then some (pool.slabError .pointerToWrongChunk)
  else if here.slab &&& slabPageStart = 0 then some (pool.slabError .pageIsAlreadyFree)
  else if here.slab = slabBusy then some (pool.slabError .pointerToWrongPage)
  else pool.ngxSlabFreePages page (here.slab &&& ~~~slabPageStart).toNat

def ngxSlabFreeLocked (p : Nat) : Option Pool := do
  if p < pool.start ∨ p > pool.finish then some (pool.slabError .outsideOfPool)
  else
    let page := (p - pool.start) >>> pagesizeShift
    let here ← pool.load (.page page)
    match here.type with
    | .small => pool.freeSmall p page here
    | .exact => pool.freeExact p page here
    | .big => pool.freeBig p page here
    | .page => pool.freeBlock p page here

end

/-- `sizeof(ngx_slab_page_t)` and `sizeof(ngx_slab_stat_t)`. -/
def pageCellSize : Nat := 24
def statSize : Nat := 32

def alignPtr (p a : Nat) : Nat := (p + (a - 1)) / a * a

/-- `pages` before it is compared with what fits behind the alignment. -/
def initPages (slots finish : Nat) : Nat :=
  (finish - slots - slotCount * (pageCellSize + statSize)) / (pagesize + pageCellSize)

def initStart (slots finish : Nat) : Nat :=
  alignPtr (slots + slotCount * (pageCellSize + statSize) + initPages slots finish * pageCellSize)
    pagesize

/-- `pages` as it ends up. -/
def initLast (slots finish : Nat) : Nat :=
  min (initPages slots finish) ((finish - initStart slots finish) / pagesize)

/-- `ngx_slab_init` for a pool whose slots begin at the address `slots` and
which ends at `finish`; its memory may hold anything. -/
def ngxSlabInit (slots finish : Nat) (memory : Nat → Word) : Pool where
  start := initStart slots finish
  finish := finish
  last := initLast slots finish
  pfree := initLast slots finish
  logNomem := true
  stats := fun _ => ⟨0, 0, 0, 0⟩
  cells := fun ref =>
    match ref with
    | .null => ⟨0, .null, .null, .page⟩
    | .free => ⟨0, .page 0, .null, .page⟩
    | .slot index => ⟨0, .slot index, .null, .page⟩
    | .page 0 => ⟨BitVec.ofNat 64 (initLast slots finish), .free, .free, .page⟩
    | .page _ => ⟨0, .null, .null, .page⟩
  memory := memory
  log := []

end Pool

end ServerCore.NginxSlab
