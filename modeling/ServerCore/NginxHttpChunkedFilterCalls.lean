import Mathlib.Algebra.Group.Int.Defs
import Mathlib.Data.List.Nodup
import ServerCore.NginxHttpChunkedFilter

/-!
# One call of the chunked body filter

The links in `ctx->free`, those still busy and those of a chain on its way are
all different, so a buffer that is used again is nobody else's.
-/

namespace ServerCore.NginxHttpChunkedFilterCalls

open NginxHttpParse (Bytes)
open NginxHttpChunkedFilter List Option Function

variable {b : Buf} {data : Bytes} {size : Int}

def Own (world : World) (addr : Nat) : Prop :=
  (world.bufs addr).tag = .ngxHttpChunkedFilterModule

instance (world : World) (addr : Nat) : Decidable (Own world addr) :=
  inferInstanceAs (Decidable ((world.bufs addr).tag = .ngxHttpChunkedFilterModule))

/-- The free buffers, and those of this module that are held elsewhere. -/
structure Sound (free held : List Nat) (world : World) : Prop where
  distinct : (free ++ held).Nodup
  allocated : ∀ addr ∈ free ++ held, addr < world.next
  own : ∀ addr ∈ free ++ held, Own world addr

def Clean (world : World) : Prop :=
  ∀ addr < world.next, Own world addr → (world.bufs addr).lastBuf = false

/-- What the other code does to the buffers: it reads the contents of those of this
module and does not touch the rest of them, and it does not use the tag. -/
structure Left (world left : World) : Prop where
  grows : world.next ≤ left.next
  tags : ∀ addr < left.next, Own left addr ↔ addr < world.next ∧ Own world addr
  marks : ∀ addr < world.next, Own world addr →
    (left.bufs addr).lastBuf = (world.bufs addr).lastBuf

structure Extends (free held : List Nat) (world : World) (added free' : List Nat)
    (world' : World) : Prop where
  sound : Sound free' (added ++ held) world'
  grows : world.next ≤ world'.next
  others : ∀ addr < world'.next, addr ∉ added →
    addr < world.next ∧ world'.bufs addr = world.bufs addr
  before : ∀ addr ∈ added, addr < world.next → Own world addr

variable {addr : Nat} {links : List Nat}

section Taking

variable {free held free' : List Nat} {world world' : World} {tl : Nat}

theorem write_same (world : World) (addr : Nat) (b : Buf) : (world.write addr b).bufs addr = b :=
  update_self ..

theorem write_other {world : World} {other : Nat} (differ : other ≠ addr) :
    (world.write addr b).bufs other = world.bufs other := update_of_ne differ ..

theorem allocate_same (alloc : world.allocate = some world') :
    world'.bufs = world.bufs ∧ world'.next = world.next := by
  unfold World.allocate at alloc
  split at alloc
  · cases alloc
    exact ⟨rfl, rfl⟩
  · cases alloc

theorem sound_same (sound : Sound free held world) (bufs : world'.bufs = world.bufs)
    (next : world'.next = world.next) : Sound free held world' := by
  obtain ⟨apart, alloc, own⟩ := sound
  refine ⟨apart, ?_, ?_⟩
  · rw [next]
    exact alloc
  · unfold Own
    rw [bufs]
    exact own

/-- The buffer that is taken: it was free or did not exist, and nobody has it. -/
structure Taken (free held : List Nat) (world : World) (tl : Nat) (free' : List Nat)
    (world' : World) : Prop where
  fresh : tl ∉ free' ++ held
  allocated : tl < world'.next
  sound : Sound free' held world'
  grows : world.next ≤ world'.next
  others : ∀ addr < world'.next, addr ≠ tl →
    addr < world.next ∧ world'.bufs addr = world.bufs addr
  before : tl < world.next → Own world tl
  unmarked : Clean world → (world'.bufs tl).lastBuf = false

theorem get_free_buf_taken (sound : Sound free held world)
    (got : ngxChainGetFreeBuf free world = some (tl, free', world')) :
    Taken free held world tl free' world' := by
  obtain ⟨apart, alloc, own⟩ := sound
  cases free with
  | cons cl rest =>
    simp only [ngxChainGetFreeBuf, Option.some.injEq, Prod.mk.injEq] at got
    obtain ⟨rfl, rfl, rfl⟩ := got
    rw [cons_append] at apart alloc own
    obtain ⟨fresh, apart⟩ := nodup_cons.1 apart
    have inUse := alloc cl (mem_cons_self ..)
    have isOwn := own cl (mem_cons_self ..)
    exact {
      fresh := fresh
      allocated := inUse
      sound := ⟨apart, fun addr mem => alloc addr (mem_cons_of_mem _ mem),
        fun addr mem => own addr (mem_cons_of_mem _ mem)⟩
      grows := le_rfl
      others := fun addr below _ => ⟨below, rfl⟩
      before := fun _ => isOwn
      unmarked := fun clean => clean cl inUse isOwn }
  | nil =>
    obtain ⟨linked, isLink, got⟩ := bind_eq_some_iff.1 got
    obtain ⟨filled, isBuf, got⟩ := bind_eq_some_iff.1 got
    obtain ⟨sameBufs, sameNext⟩ := allocate_same isLink
    obtain ⟨sameBufs', sameNext'⟩ := allocate_same isBuf
    rw [sameBufs] at sameBufs'
    rw [sameNext] at sameNext'
    simp only [Option.some.injEq, Prod.mk.injEq, sameNext'] at got
    obtain ⟨rfl, rfl, rfl⟩ := got
    rw [nil_append] at apart alloc own
    have kept : ∀ addr < world.next,
        (filled.write world.next { bytes := [] }).bufs addr = world.bufs addr := by
      intro addr below
      rw [write_other (ne_of_lt below), sameBufs']
    exact {
      fresh := fun mem => lt_irrefl _ (alloc _ mem)
      allocated := Nat.lt_succ_self _
      sound := {
        distinct := apart
        allocated := fun addr mem => Nat.lt_succ_of_lt (alloc addr mem)
        own := fun addr mem => by
          unfold Own
          rw [kept addr (alloc addr mem)]
          exact own addr mem }
      grows := Nat.le_succ _
      others := fun addr below differ => by
        have older : addr < world.next := by
          dsimp only at below
          omega
        exact ⟨older, kept addr older⟩
      before := fun below => absurd below (lt_irrefl _)
      unmarked := fun _ => by
        rw [write_same] }

theorem taken_extends (taken : Taken free held world tl free' world')
    (tagged : b.tag = .ngxHttpChunkedFilterModule) :
    Extends free held world [tl] free' (world'.write tl b) := by
  obtain ⟨fresh, inUse, ⟨apart, alloc, own⟩, grows, others, before, -⟩ := taken
  have split_ : ∀ {addr : Nat}, addr ∈ free' ++ ([tl] ++ held) →
      addr = tl ∨ addr ∈ free' ++ held := by
    intro addr mem
    simp only [mem_append, mem_singleton] at mem ⊢
    rcases mem with inFree | isTl | inHeld
    · exact .inr (.inl inFree)
    · exact .inl isTl
    · exact .inr (.inr inHeld)
  refine ⟨⟨?_, ?_, ?_⟩, grows, ?_, ?_⟩
  · rw [singleton_append]
    exact nodup_middle.2 (nodup_cons.2 ⟨fresh, apart⟩)
  · intro addr mem
    rcases split_ mem with rfl | others
    · exact inUse
    · exact alloc addr others
  · intro addr mem
    by_cases same : addr = tl
    · unfold Own
      rw [same, write_same]
      exact tagged
    · unfold Own
      rw [write_other same]
      exact own addr ((split_ mem).resolve_left same)
  · intro addr below notAdded
    have differ : addr ≠ tl := fun same => notAdded (mem_singleton.2 same)
    obtain ⟨older, same⟩ := others addr below differ
    exact ⟨older, (write_other differ).trans same⟩
  · intro addr mem below
    rw [mem_singleton.1 mem] at below ⊢
    exact before below

theorem extends_nothing (sound : Sound free held world) : Extends free held world [] free world :=
  ⟨sound, le_rfl, fun _ below _ => ⟨below, rfl⟩, nofun⟩

variable {added : List Nat}

theorem extends_foreign (extends_ : Extends free held world added free' world')
    (below : addr < world.next) (foreign : ¬Own world addr) :
    addr ∉ added ∧ world'.bufs addr = world.bufs addr := by
  have notAdded : addr ∉ added := fun mem => foreign (extends_.before addr mem below)
  exact ⟨notAdded, (extends_.others addr (lt_of_lt_of_le below extends_.grows) notAdded).2⟩

theorem extends_clean (extends_ : Extends free held world added free' world') (clean : Clean world)
    (unmarked : ∀ addr ∈ added, (world'.bufs addr).lastBuf = false) : Clean world' := by
  intro addr below isOwn
  by_cases mem : addr ∈ added
  · exact unmarked addr mem
  · obtain ⟨older, same⟩ := extends_.others addr below mem
    unfold Own at isOwn
    rw [same] at isOwn ⊢
    exact clean addr older isOwn

end Taking

def contents (bufs : List Buf) : Bytes := bufs.flatMap Buf.bytes

def Unmarked (bufs : List Buf) : Prop := ∀ b ∈ bufs, b.lastBuf = false

section Own

variable {free held free' added : List Nat} {world world' : World} {tl cl : Nat} {size : Int}

section

variable (sound : Sound free held world)
include sound

theorem size_buf_extends (clean : Clean world) (put : sizeBuf free world size = some (tl, free', world')) :
    Extends free held world [tl] free' world' ∧ (world'.bufs tl).bytes = formatSize size ++ crlf ∧
      (world'.bufs tl).lastBuf = false := by
  obtain ⟨⟨got, rest, left⟩, isGot, put⟩ := bind_eq_some_iff.1 put
  obtain ⟨ready, isReady, put⟩ := bind_eq_some_iff.1 put
  have taken := get_free_buf_taken sound isGot
  have same : ready.bufs = left.bufs ∧ ready.next = left.next := by
    unfold ownMemory at isReady
    split at isReady
    · injection isReady with isLeft
      rw [isLeft]
      exact ⟨rfl, rfl⟩
    · exact allocate_same isReady
  have readyTaken : Taken free held world got rest ready := by
    obtain ⟨fresh, inUse, leftSound, grows, others, before, unmarked⟩ := taken
    obtain ⟨sameBufs, sameNext⟩ := same
    rw [← sameNext] at inUse grows others
    rw [← sameBufs] at others unmarked
    exact ⟨fresh, inUse, sound_same leftSound sameBufs sameNext, grows, others, before, unmarked⟩
  obtain ⟨rfl, rfl, rfl⟩ := put
  refine ⟨taken_extends readyTaken rfl, ?_, ?_⟩
  · rw [write_same]
  · rw [write_same]
    exact readyTaken.unmarked clean

theorem crlf_buf_extends (clean : Clean world) (put : crlfBuf free world = some (tl, free', world')) :
    Extends free held world [tl] free' world' ∧ (world'.bufs tl).bytes = crlf ∧
      (world'.bufs tl).lastBuf = false := by
  obtain ⟨⟨got, rest, left⟩, isGot, put⟩ := bind_eq_some_iff.1 put
  have taken := get_free_buf_taken sound isGot
  obtain ⟨rfl, rfl, rfl⟩ := put
  refine ⟨taken_extends taken rfl, ?_, ?_⟩
  · rw [write_same]
  · rw [write_same]
    exact taken.unmarked clean

theorem last_chunk_buf_extends (put : lastChunkBuf free world size = some (tl, free', world')) :
    Extends free held world [tl] free' world' ∧
      (world'.bufs tl).bytes = (if size = 0 then lastChunk.drop 2 else lastChunk) ∧
      (world'.bufs tl).lastBuf = true := by
  obtain ⟨⟨got, rest, left⟩, isGot, put⟩ := bind_eq_some_iff.1 put
  have taken := get_free_buf_taken sound isGot
  obtain ⟨rfl, rfl, rfl⟩ := put
  refine ⟨taken_extends taken rfl, ?_, ?_⟩
  · rw [write_same]
  · rw [write_same]

theorem put_size_extends (clean : Clean world)
    (put : putSize free world size = some (added, free', world')) :
    Extends free held world added free' world' ∧
      contents (added.map world'.bufs) = (if size ≠ 0 then formatSize size ++ crlf else []) ∧
      Unmarked (added.map world'.bufs) := by
  unfold putSize at put
  by_cases some_ : size ≠ 0
  · rw [if_pos some_] at put ⊢
    obtain ⟨⟨tl, rest, left⟩, isBuf, put⟩ := bind_eq_some_iff.1 put
    obtain ⟨rfl, rfl, rfl⟩ := put
    obtain ⟨extends_, isText, unmarked⟩ := size_buf_extends sound clean isBuf
    refine ⟨extends_, ?_, ?_⟩
    · simp [contents, isText]
    · simpa [Unmarked] using unmarked
  · rw [if_neg some_] at put ⊢
    obtain ⟨rfl, rfl, rfl⟩ := put
    exact ⟨extends_nothing sound, rfl, nofun⟩

theorem put_end_extends (clean : Clean world) (notLast : (world.bufs cl).lastBuf = false)
    (put : putEnd free world size cl = some (added, free', world')) :
    Extends free held world added free' world' ∧
      contents (added.map world'.bufs) = (if size > 0 then crlf else []) ∧
      Unmarked (added.map world'.bufs) := by
  rw [putEnd, notLast, if_neg (by decide)] at put
  by_cases some_ : size > 0
  · rw [if_pos some_] at put ⊢
    obtain ⟨⟨tl, rest, left⟩, isBuf, put⟩ := bind_eq_some_iff.1 put
    obtain ⟨rfl, rfl, rfl⟩ := put
    obtain ⟨extends_, isText, unmarked⟩ := crlf_buf_extends sound clean isBuf
    refine ⟨extends_, ?_, ?_⟩
    · simp [contents, isText]
    · simpa [Unmarked] using unmarked
  · rw [if_neg some_] at put ⊢
    obtain ⟨rfl, rfl, rfl⟩ := put
    exact ⟨extends_nothing sound, rfl, nofun⟩

theorem put_end_last (below : cl < world.next) (foreign : ¬Own world cl)
    (isLast : (world.bufs cl).lastBuf = true)
    (put : putEnd free world size cl = some (added, free', world')) :
    ∃ tl left, added = [tl] ∧ Extends free held world [tl] free' left ∧
      world' = left.write cl { left.bufs cl with lastBuf := false } ∧
      (world'.bufs tl).bytes = (if size = 0 then lastChunk.drop 2 else lastChunk) ∧
      (world'.bufs tl).lastBuf = true := by
  rw [putEnd, if_pos isLast] at put
  obtain ⟨⟨tl, rest, left⟩, isBuf, put⟩ := bind_eq_some_iff.1 put
  obtain ⟨rfl, rfl, rfl⟩ := put
  obtain ⟨extends_, isText, marked⟩ := last_chunk_buf_extends sound isBuf
  have differ : tl ≠ cl := by
    intro same
    exact (extends_foreign extends_ below foreign).1 (mem_singleton.2 same.symm)
  refine ⟨tl, left, rfl, extends_, rfl, ?_, ?_⟩
  · rw [write_other differ]
    exact isText
  · rw [write_other differ]
    exact marked

end

end Own

section Chains

variable {world world' : World} {chain out out' : List Nat} {size size' : Int}

theorem off_t_small {value : Int} (least : 0 ≤ value) (less : value < 2 ^ 63) : offT value = value := by
  refine Int.bmod_eq_of_le ?_ ?_ <;> omega

/-- The chain as the call finds it: its buffers are of other code, and one with bytes has
them in memory or in a file. -/
structure Given (world : World) (chain : List Nat) : Prop where
  allocated : ∀ addr ∈ chain, addr < world.next
  foreign : ∀ addr ∈ chain, ¬Own world addr
  placed : ∀ addr ∈ chain, (world.bufs addr).bytes ≠ [] →
    ngxBufInMemory (world.bufs addr) = true ∨ (world.bufs addr).inFile = true

theorem copy_chain_spec (isCopy : copyChain world size out chain = some (size', out', world')) :
    world'.bufs = world.bufs ∧ world'.next = world.next ∧
      out' = out ++ chain.filter (fun addr => copied (world.bufs addr)) ∧
      (0 ≤ size → size + (contents (chain.map world.bufs)).length < 2 ^ 63 →
        size' = size + (contents (chain.map world.bufs)).length) := by
  induction chain generalizing world size out with
  | nil =>
    obtain ⟨rfl, rfl, rfl⟩ := isCopy
    simp [contents]
  | cons cl rest ih =>
    have total : (contents ((cl :: rest).map world.bufs)).length =
        (world.bufs cl).bytes.length + (contents (rest.map world.bufs)).length := by
      simp [contents]
    have added : 0 ≤ size → size + (contents ((cl :: rest).map world.bufs)).length < 2 ^ 63 →
        offT (size + ngxBufSize (world.bufs cl)) = size + (world.bufs cl).bytes.length := by
      intro least less
      exact off_t_small (by unfold ngxBufSize; omega) (by unfold ngxBufSize; omega)
    rw [copyChain] at isCopy
    by_cases isCopied : copied (world.bufs cl) = true
    · rw [if_pos isCopied] at isCopy
      obtain ⟨linked, isLinked, isCopy⟩ := bind_eq_some_iff.1 isCopy
      obtain ⟨sameBufs, sameNext⟩ := allocate_same isLinked
      obtain ⟨bufs, next, isOut, isSize⟩ := ih isCopy
      rw [sameBufs] at bufs isOut isSize
      refine ⟨bufs, next.trans sameNext, ?_, ?_⟩
      · simp [isOut, isCopied]
      · intro least less
        rw [total] at less ⊢
        rw [isSize (by omega) (by omega)]
        omega
    · rw [if_neg isCopied] at isCopy
      obtain ⟨bufs, next, isOut, isSize⟩ := ih isCopy
      refine ⟨bufs, next, ?_, ?_⟩
      · simp [isOut, isCopied]
      · intro least less
        rw [total] at less ⊢
        rw [isSize (by omega) (by omega)]
        omega

theorem copied_contents (given : Given world chain) :
    contents ((chain.filter fun addr => copied (world.bufs addr)).map world.bufs) =
      contents (chain.map world.bufs) := by
  have placed := given.placed
  clear given
  induction chain with
  | nil => rfl
  | cons cl rest ih =>
    have others := ih fun addr mem => placed addr (mem_cons_of_mem _ mem)
    unfold contents at others ⊢
    by_cases isCopied : copied (world.bufs cl) = true
    · rw [filter_cons, if_pos isCopied, map_cons, map_cons, flatMap_cons, flatMap_cons, others]
    · have noBytes : (world.bufs cl).bytes = [] := by
        by_contra some_
        refine isCopied ?_
        unfold copied
        rcases placed cl (mem_cons_self ..) some_ with inMemory | inFile
        · rw [inMemory]
          simp
        · rw [inFile]
          simp
      rw [filter_cons, if_neg isCopied, map_cons, flatMap_cons, noBytes, others]
      rfl

end Chains

section Worlds

variable {free held free' added : List Nat} {world world' left : World}

theorem left_refl (world : World) (bytes : Bytes) (addr : Nat) :
    Left world (world.write addr { world.bufs addr with bytes := bytes }) := by
  have same : ∀ other, ((world.write addr { world.bufs addr with bytes := bytes }).bufs other).tag =
      (world.bufs other).tag ∧
      ((world.write addr { world.bufs addr with bytes := bytes }).bufs other).lastBuf =
        (world.bufs other).lastBuf := by
    intro other
    by_cases here : other = addr
    · rw [here, write_same]
      exact ⟨rfl, rfl⟩
    · rw [write_other here]
      exact ⟨rfl, rfl⟩
  refine ⟨le_rfl, ?_, fun other _ _ => (same other).2⟩
  intro other below
  unfold Own
  rw [(same other).1]
  exact ⟨fun isOwn => ⟨below, isOwn⟩, And.right⟩

theorem left_sound (leaves : Left world left) (sound : Sound free held world) : Sound free held left := by
  obtain ⟨apart, alloc, own⟩ := sound
  refine ⟨apart, ?_, ?_⟩
  · intro addr mem
    exact lt_of_lt_of_le (alloc addr mem) leaves.grows
  · intro addr mem
    have below := alloc addr mem
    exact (leaves.tags addr (lt_of_lt_of_le below leaves.grows)).2 ⟨below, own addr mem⟩

theorem left_clean (leaves : Left world left) (clean : Clean world) : Clean left := by
  intro addr below isOwn
  obtain ⟨older, wasOwn⟩ := (leaves.tags addr below).1 isOwn
  rw [leaves.marks addr older wasOwn]
  exact clean addr older wasOwn

theorem sound_perm {others : List Nat} (perm : held.Perm others) (sound : Sound free held world) :
    Sound free others world := by
  obtain ⟨apart, alloc, own⟩ := sound
  have whole : (free ++ held).Perm (free ++ others) := List.Perm.append_left free perm
  exact ⟨whole.nodup_iff.1 apart, fun addr mem => alloc addr (whole.mem_iff.2 mem),
    fun addr mem => own addr (whole.mem_iff.2 mem)⟩

theorem extends_own (extends_ : Extends free held world added free' world')
    (below : addr < world.next) : Own world' addr ↔ Own world addr := by
  by_cases mem : addr ∈ added
  · have isOwn : Own world' addr :=
      extends_.sound.own addr (mem_append_right _ (mem_append_left _ mem))
    exact ⟨fun _ => extends_.before addr mem below, fun _ => isOwn⟩
  · obtain ⟨-, same⟩ := extends_.others addr (lt_of_lt_of_le below extends_.grows) mem
    unfold Own
    rw [same]

theorem extends_held (sound : Sound free held world) (extends_ : Extends free held world added free' world')
    (mem : addr ∈ held) : world'.bufs addr = world.bufs addr := by
  have below := sound.allocated addr (mem_append_right _ mem)
  have notAdded : addr ∉ added := by
    intro isAdded
    have apart := (nodup_append.1 extends_.sound.distinct).2.1
    exact (nodup_append.1 apart).2.2 addr isAdded addr mem rfl
  exact (extends_.others addr (lt_of_lt_of_le below extends_.grows) notAdded).2

def ownLinks (world : World) (links : List Nat) : List Nat := links.filter fun addr => Own world addr

theorem own_links_congr (same : ∀ addr ∈ links, Own left addr ↔ Own world addr) :
    ownLinks left links = ownLinks world links := by
  refine filter_congr ?_
  intro addr mem
  exact decide_eq_decide.2 (same addr mem)

theorem own_links_left (leaves : Left world left)
    (alloc : ∀ addr ∈ links, addr < world.next) : ownLinks left links = ownLinks world links := by
  refine own_links_congr ?_
  intro addr mem
  have below := alloc addr mem
  rw [leaves.tags addr (lt_of_lt_of_le below leaves.grows)]
  exact ⟨And.right, fun isOwn => ⟨below, isOwn⟩⟩

structure Settled (ctx : Ctx) (world : World) : Prop where
  sound : Sound ctx.free (ownLinks world ctx.busy) world
  busy : ∀ addr ∈ ctx.busy, addr < world.next
  clean : Clean world

theorem left_settled {ctx : Ctx} (leaves : Left world left) (settled : Settled ctx world) :
    Settled ctx left := by
  obtain ⟨sound, busy, clean⟩ := settled
  refine ⟨?_, fun addr mem => lt_of_lt_of_le (busy addr mem) leaves.grows,
    left_clean leaves clean⟩
  rw [own_links_left leaves busy]
  exact left_sound leaves sound

theorem recycle_settled {busy rest : List Nat} (settled : Settled ⟨free, busy⟩ world)
    (isRest : recycle .ngxHttpChunkedFilterModule free world busy = (free', rest, world')) :
    Settled ⟨free', rest⟩ world' := by
  induction busy generalizing free world with
  | nil =>
    obtain ⟨rfl, rfl, rfl⟩ := isRest
    exact settled
  | cons cl busy ih =>
    obtain ⟨sound, alloc, clean⟩ := settled
    have others : ∀ addr ∈ busy, addr < world.next :=
      fun addr mem => alloc addr (mem_cons_of_mem _ mem)
    rw [recycle] at isRest
    by_cases unsent : ngxBufSize (world.bufs cl) ≠ 0
    · rw [if_pos unsent] at isRest
      obtain ⟨rfl, rfl, rfl⟩ := isRest
      exact ⟨sound, alloc, clean⟩
    · rw [if_neg unsent] at isRest
      by_cases isOwn : (world.bufs cl).tag = .ngxHttpChunkedFilterModule
      · rw [if_neg (not_not.2 isOwn)] at isRest
        have emptied := left_refl world [] cl
        have isLink : ownLinks world (cl :: busy) = cl :: ownLinks world busy := by
          rw [ownLinks, filter_cons, if_pos (by exact decide_eq_true isOwn)]
          rfl
        rw [isLink] at sound
        have moved : Sound (cl :: free) (ownLinks world busy) world := by
          obtain ⟨apart, inUse, own⟩ := sound
          have whole : (free ++ cl :: ownLinks world busy).Perm (cl :: free ++ ownLinks world busy) :=
            perm_middle
          exact ⟨whole.nodup_iff.1 apart, fun addr mem => inUse addr (whole.mem_iff.2 mem),
            fun addr mem => own addr (whole.mem_iff.2 mem)⟩
        exact ih (left_settled emptied ⟨moved, others, clean⟩) isRest
      · rw [if_pos isOwn] at isRest
        have isLink : ownLinks world (cl :: busy) = ownLinks world busy := by
          have notKept : ¬decide (Own world cl) = true := fun isTrue => isOwn (of_decide_eq_true isTrue)
          rw [ownLinks, filter_cons, if_neg notKept]
          rfl
        rw [isLink] at sound
        exact ih ⟨sound, others, clean⟩ isRest

end Worlds

def framed (data : Bytes) (last : Bool) : Bytes :=
  if data = [] then if last then lastChunk.drop 2 else []
  else formatSize data.length ++ (crlf ++ (data ++ if last then lastChunk else crlf))

def OnlyLast (bufs : List Buf) : Prop :=
  ∃ front b, bufs = front ++ [b] ∧ b.lastBuf = true ∧ Unmarked front

section Calls

variable {next : NextFilter} {r : Request} {ctx : Ctx} {world : World} {chain : List Nat} {result : Result}

theorem contents_append (first second : List Buf) :
    contents (first ++ second) = contents first ++ contents second := flatMap_append

theorem length_zero_iff : (data.length : Int) = 0 ↔ data = [] := by
  rw [Int.natCast_eq_zero, length_eq_zero_iff]

variable {cl : Nat} {front frontFree out back : List Nat} {frontWorld backWorld : World}

theorem body_filter_steps (isLast : chain.getLast? = some cl) (chunked : r.chunked = true)
    (body : r.headerOnly = false) (isCall : ngxHttpChunkedBodyFilter next r ctx world chain = some result) :
    ∃ size out copyWorld front frontFree frontWorld back backFree backWorld,
      copyChain world 0 [] chain = some (size, out, copyWorld) ∧
      putSize ctx.free copyWorld size = some (front, frontFree, frontWorld) ∧
      putEnd frontFree frontWorld size cl = some (back, backFree, backWorld) ∧
      result.handed = (link front out back).map backWorld.bufs ∧
      (result.ctx, result.world) = ngxChainUpdateChains ⟨backFree, ctx.busy⟩ (link front out back)
        .ngxHttpChunkedFilterModule (next backWorld (link front out back)).2 := by
  unfold ngxHttpChunkedBodyFilter at isCall
  rw [isLast] at isCall
  dsimp only at isCall
  rw [chunked, body, if_neg (by decide)] at isCall
  obtain ⟨⟨size, out, copyWorld⟩, isCopy, isCall⟩ := bind_eq_some_iff.1 isCall
  obtain ⟨⟨front, frontFree, frontWorld⟩, isFront, isCall⟩ := bind_eq_some_iff.1 isCall
  obtain ⟨⟨back, backFree, backWorld⟩, isBack, isCall⟩ := bind_eq_some_iff.1 isCall
  cases isCall
  exact ⟨size, out, copyWorld, front, frontFree, frontWorld, back, backFree, backWorld, isCopy, isFront,
    isBack, rfl, rfl⟩

structure Started (ctx : Ctx) (world : World) (chain front frontFree : List Nat) (frontWorld : World)
    (size : Int) (out : List Nat) : Prop where
  isSize : size = (contents (chain.map world.bufs)).length
  isOut : out = chain.filter fun addr => copied (world.bufs addr)
  extends_ : Extends ctx.free (ownLinks world ctx.busy) world front frontFree frontWorld
  clean : Clean frontWorld
  text : contents (front.map frontWorld.bufs) = if size ≠ 0 then formatSize size ++ crlf else []
  unmarked : Unmarked (front.map frontWorld.bufs)
  linked : out = [] → front = []

theorem body_filter_started {copyWorld : World} (settled : Settled ctx world)
    (given : Given world chain) (small : (contents (chain.map world.bufs)).length < 2 ^ 63)
    (isCopy : copyChain world 0 [] chain = some (size, out, copyWorld))
    (isFront : putSize ctx.free copyWorld size = some (front, frontFree, frontWorld)) :
    Started ctx world chain front frontFree frontWorld size out := by
  obtain ⟨bufs, nextSame, isOut, isSize⟩ := copy_chain_spec isCopy
  have isSize := isSize (by omega) (by omega)
  rw [Int.zero_add] at isSize
  rw [nil_append] at isOut
  have clean : Clean copyWorld := by
    unfold Clean Own
    rw [bufs, nextSame]
    exact settled.clean
  obtain ⟨extends_, text, unmarked⟩ :=
    put_size_extends (sound_same settled.sound bufs nextSame) clean isFront
  have extendsWorld : Extends ctx.free (ownLinks world ctx.busy) world front frontFree frontWorld := by
    obtain ⟨sound, grows, others, before⟩ := extends_
    rw [nextSame] at grows others before
    rw [bufs] at others
    unfold Own at before
    rw [bufs] at before
    exact ⟨sound, grows, others, before⟩
  refine ⟨isSize, isOut, extendsWorld, ?_, text, unmarked, ?_⟩
  · refine extends_clean extends_ clean ?_
    intro addr mem
    exact unmarked _ (mem_map_of_mem mem)
  · intro none_
    have noBytes := copied_contents given
    rw [← isOut, none_] at noBytes
    have isZero : size = 0 := by
      rw [isSize, ← noBytes]
      rfl
    rw [putSize, if_neg (by simpa using isZero)] at isFront
    simp only [Option.some.injEq, Prod.mk.injEq] at isFront
    exact isFront.1.symm

theorem link_parts (linked : out = [] → front = []) : link front out back = front ++ (out ++ back) := by
  unfold link
  split
  · rename_i none_
    rw [none_, linked none_]
    rfl
  · rfl

theorem framed_parts (last : Bool) :
    (if (data.length : Int) ≠ 0 then formatSize data.length ++ crlf else []) ++
      (data ++ if last then (if (data.length : Int) = 0 then lastChunk.drop 2 else lastChunk)
        else if (data.length : Int) > 0 then crlf else []) = framed data last := by
  unfold framed
  by_cases none_ : data = []
  · subst none_
    cases last <;> rfl
  · have some_ : (data.length : Int) ≠ 0 := fun isZero => none_ (length_zero_iff.1 isZero)
    have pos : (data.length : Int) > 0 := by omega
    rw [if_neg none_, if_pos some_, if_neg some_, if_pos pos, append_assoc]

theorem contents_congr {before after : World}
    (same : ∀ addr ∈ links, (after.bufs addr).bytes = (before.bufs addr).bytes) :
    contents (links.map after.bufs) = contents (links.map before.bufs) := by
  unfold contents
  rw [flatMap_map, flatMap_map]
  exact flatMap_congr same

theorem handed_contents
    (given : Given world chain) (started : Started ctx world chain front frontFree frontWorld size out)
    (keepsFront : ∀ addr ∈ front, (backWorld.bufs addr).bytes = (frontWorld.bufs addr).bytes)
    (keepsChain : ∀ addr ∈ chain, (backWorld.bufs addr).bytes = (world.bufs addr).bytes) :
    contents ((front ++ (out ++ back)).map backWorld.bufs) =
      (if size ≠ 0 then formatSize size ++ crlf else []) ++
        (contents (chain.map world.bufs) ++ contents (back.map backWorld.bufs)) := by
  have sameOut : contents (out.map backWorld.bufs) = contents (out.map world.bufs) := by
    refine contents_congr ?_
    intro addr mem
    rw [started.isOut] at mem
    exact keepsChain addr (mem_of_mem_filter mem)
  rw [map_append, map_append, contents_append, contents_append, contents_congr keepsFront,
    started.text, sameOut, started.isOut, copied_contents given]

theorem started_foreign
    (given : Given world chain) (started : Started ctx world chain front frontFree frontWorld size out)
    (mem : addr ∈ chain) : addr < frontWorld.next ∧ ¬Own frontWorld addr ∧
      frontWorld.bufs addr = world.bufs addr := by
  have below := given.allocated addr mem
  have foreign := given.foreign addr mem
  refine ⟨lt_of_lt_of_le below started.extends_.grows, ?_,
    (extends_foreign started.extends_ below foreign).2⟩
  rw [extends_own started.extends_ below]
  exact foreign

theorem own_links_eq (own : ∀ addr ∈ links, Own world addr) : ownLinks world links = links :=
  filter_eq_self.2 fun addr mem => decide_eq_true (own addr mem)

theorem going_settled {backFree : List Nat} (settled : Settled ctx world)
    (given : Given world chain) (started : Started ctx world chain front frontFree frontWorld size out)
    (extendsBack : Extends frontFree (front ++ ownLinks world ctx.busy) frontWorld back backFree backWorld)
    (unmarked : Unmarked (back.map backWorld.bufs)) :
    Settled ⟨backFree, ctx.busy ++ (front ++ (out ++ back))⟩ backWorld := by
  have clean : Clean backWorld := by
    refine extends_clean extendsBack started.clean ?_
    intro addr mem
    exact unmarked _ (mem_map_of_mem mem)
  have ownAdded : ∀ addr ∈ back ++ front, Own backWorld addr := by
    intro addr mem
    refine extendsBack.sound.own addr (mem_append_right _ ?_)
    rw [← append_assoc]
    exact mem_append_left _ mem
  have foreign : ∀ addr ∈ out, addr < backWorld.next ∧ ¬Own backWorld addr := by
    intro addr mem
    rw [started.isOut] at mem
    obtain ⟨below, isForeign, -⟩ := started_foreign given started (mem_of_mem_filter mem)
    refine ⟨lt_of_lt_of_le below extendsBack.grows, ?_⟩
    rw [extends_own extendsBack below]
    exact isForeign
  have busyOwn : ownLinks backWorld ctx.busy = ownLinks world ctx.busy := by
    refine own_links_congr ?_
    intro addr mem
    have below := settled.busy addr mem
    rw [extends_own extendsBack (lt_of_lt_of_le below started.extends_.grows),
      extends_own started.extends_ below]
  have outOwn : ownLinks backWorld out = [] := by
    refine filter_eq_nil_iff.2 ?_
    intro addr mem isOwn
    exact (foreign addr mem).2 (of_decide_eq_true isOwn)
  have frontOwn : ownLinks backWorld front = front :=
    own_links_eq fun addr mem => ownAdded addr (mem_append_right _ mem)
  have backOwn : ownLinks backWorld back = back :=
    own_links_eq fun addr mem => ownAdded addr (mem_append_left _ mem)
  have links : ownLinks backWorld (ctx.busy ++ (front ++ (out ++ back))) =
      ownLinks world ctx.busy ++ (front ++ back) := by
    unfold ownLinks at *
    rw [filter_append, filter_append, filter_append, busyOwn, frontOwn, outOwn, backOwn,
      nil_append]
  have perm : (back ++ (front ++ ownLinks world ctx.busy)).Perm
      (ownLinks world ctx.busy ++ (front ++ back)) := by
    rw [← append_assoc]
    exact perm_append_comm.trans (List.Perm.append_left _ perm_append_comm)
  refine ⟨?_, ?_, clean⟩
  · rw [links]
    exact sound_perm perm extendsBack.sound
  · intro addr mem
    simp only [mem_append] at mem
    rcases mem with inBusy | inFront | inOut | inBack
    · exact lt_of_lt_of_le (settled.busy addr inBusy)
        (le_trans started.extends_.grows extendsBack.grows)
    · exact extendsBack.sound.allocated addr (by simp [inFront])
    · exact (foreign addr inOut).1
    · exact extendsBack.sound.allocated addr (by simp [inBack])

section

variable (chunked : r.chunked = true) (body : r.headerOnly = false) (settled : Settled ctx world)
    (given : Given world chain)
include chunked body settled given

theorem call_goes_on (nonempty : chain ≠ [])
    (unmarked : Unmarked (chain.map world.bufs)) (small : (contents (chain.map world.bufs)).length < 2 ^ 63)
    (keeps : ∀ before out, Left before (next before out).2)
    (isCall : ngxHttpChunkedBodyFilter next r ctx world chain = some result) :
    contents result.handed = framed (contents (chain.map world.bufs)) false ∧ Unmarked result.handed ∧
      Settled result.ctx result.world := by
  obtain ⟨cl, isLast⟩ := ne_none_iff_exists'.1 (mt getLast?_eq_none_iff.1 nonempty)
  have inChain : cl ∈ chain := mem_of_getLast? isLast
  obtain ⟨size, out, copyWorld, front, frontFree, frontWorld, back, backFree, backWorld, isCopy, isFront,
    isBack, isHanded, isEnd⟩ := body_filter_steps isLast chunked body isCall
  have started := body_filter_started settled given small isCopy isFront
  have notLast : (frontWorld.bufs cl).lastBuf = false := by
    rw [(started_foreign given started inChain).2.2]
    exact unmarked _ (mem_map_of_mem inChain)
  obtain ⟨extendsBack, backText, backUnmarked⟩ :=
    put_end_extends started.extends_.sound started.clean notLast isBack
  have keptFront : ∀ addr ∈ front, backWorld.bufs addr = frontWorld.bufs addr :=
    fun addr mem =>
      extends_held started.extends_.sound extendsBack (mem_append_left _ mem)
  have keptChain : ∀ addr ∈ chain, backWorld.bufs addr = world.bufs addr := by
    intro addr mem
    obtain ⟨below, isForeign, same⟩ := started_foreign given started mem
    exact (extends_foreign extendsBack below isForeign).2.trans same
  rw [link_parts started.linked] at isHanded isEnd
  refine ⟨?_, ?_, ?_⟩
  · rw [isHanded, handed_contents given started (fun addr mem => by rw [keptFront addr mem])
      (fun addr mem => by rw [keptChain addr mem]), backText, started.isSize]
    exact framed_parts false
  · rw [isHanded, map_append, map_append]
    intro b mem
    rcases mem_append.1 mem with inFront | mem
    · obtain ⟨addr, isLink, rfl⟩ := mem_map.1 inFront
      rw [keptFront addr isLink]
      exact started.unmarked _ (mem_map_of_mem isLink)
    · rcases mem_append.1 mem with inOut | inBack
      · obtain ⟨addr, isLink, rfl⟩ := mem_map.1 inOut
        rw [started.isOut] at isLink
        have isGiven := mem_of_mem_filter isLink
        rw [keptChain addr isGiven]
        exact unmarked _ (mem_map_of_mem isGiven)
      · exact backUnmarked b inBack
  · have before := going_settled settled given started extendsBack backUnmarked
    have leaves := keeps backWorld (front ++ (out ++ back))
    have after := left_settled leaves before
    unfold ngxChainUpdateChains at isEnd
    match recycled : recycle .ngxHttpChunkedFilterModule backFree
        (next backWorld (front ++ (out ++ back))).2 (ctx.busy ++ (front ++ (out ++ back))) with
    | (free', rest, world') =>
      rw [recycled] at isEnd
      injection isEnd with isCtx isWorld
      rw [isCtx, isWorld]
      exact recycle_settled after recycled

theorem call_ends (isLast : chain.getLast? = some cl)
    (marked : (world.bufs cl).lastBuf = true)
    (unmarked : ∀ addr ∈ chain, addr ≠ cl → (world.bufs addr).lastBuf = false)
    (small : (contents (chain.map world.bufs)).length < 2 ^ 63)
    (isCall : ngxHttpChunkedBodyFilter next r ctx world chain = some result) :
    contents result.handed = framed (contents (chain.map world.bufs)) true ∧ OnlyLast result.handed := by
  have inChain : cl ∈ chain := mem_of_getLast? isLast
  obtain ⟨size, out, copyWorld, front, frontFree, frontWorld, back, backFree, backWorld, isCopy, isFront,
    isBack, isHanded, -⟩ := body_filter_steps isLast chunked body isCall
  have started := body_filter_started settled given small isCopy isFront
  obtain ⟨below, isForeign, same⟩ := started_foreign given started inChain
  obtain ⟨tl, left, rfl, extendsBack, rfl, backText, backMarked⟩ :=
    put_end_last started.extends_.sound below isForeign (by rw [same]; exact marked) isBack
  let after := left.write cl { left.bufs cl with lastBuf := false }
  have keptFront : ∀ addr ∈ front, after.bufs addr = frontWorld.bufs addr := by
    intro addr mem
    have isOwn := started.extends_.sound.own addr (by simp [mem])
    have differ : addr ≠ cl := fun isCl => isForeign (by rw [← isCl]; exact isOwn)
    rw [write_other differ]
    exact extends_held started.extends_.sound extendsBack (mem_append_left _ mem)
  have keptLeft : ∀ addr ∈ chain, left.bufs addr = world.bufs addr := by
    intro addr mem
    obtain ⟨below, isForeign, same⟩ := started_foreign given started mem
    exact (extends_foreign extendsBack below isForeign).2.trans same
  rw [link_parts started.linked] at isHanded
  constructor
  · have keptBytes : ∀ addr ∈ chain, (after.bufs addr).bytes = (world.bufs addr).bytes := by
      intro addr mem
      by_cases isCl : addr = cl
      · rw [isCl, write_same, keptLeft cl inChain]
      · rw [write_other isCl, keptLeft addr mem]
    rw [isHanded, handed_contents given started (fun addr mem => by rw [keptFront addr mem]) keptBytes]
    have backContents : contents ([tl].map after.bufs) =
        if size = 0 then lastChunk.drop 2 else lastChunk := by
      rw [← backText]
      exact append_nil _
    rw [backContents, started.isSize]
    exact framed_parts true
  · refine ⟨(front ++ out).map after.bufs, after.bufs tl, ?_, backMarked, ?_⟩
    · rw [isHanded, ← append_assoc, map_append]
      rfl
    · rw [map_append]
      intro b mem
      rcases mem_append.1 mem with inFront | inOut
      · obtain ⟨addr, isLink, rfl⟩ := mem_map.1 inFront
        rw [keptFront addr isLink]
        exact started.unmarked _ (mem_map_of_mem isLink)
      · obtain ⟨addr, isLink, rfl⟩ := mem_map.1 inOut
        rw [started.isOut] at isLink
        have isGiven := mem_of_mem_filter isLink
        by_cases isCl : addr = cl
        · rw [isCl, write_same]
        · rw [write_other isCl, keptLeft addr isGiven]
          exact unmarked addr isGiven isCl

end

end Calls

end ServerCore.NginxHttpChunkedFilterCalls
