import ServerCore.LighttpdChunk

/-!
# What a chunkqueue holds

The bytes that the chunks of a queue stand for, and what the code relies on:
`last` is the final chunk, the counters differ by the length, a chunk is not
sent beyond its end, and a temporary file that is still open ends where its
chunk ends. Addresses and open temporary files belong to one chunk.
-/

namespace ServerCore.LighttpdChunkContent

open LighttpdChunk List

def chunkBytes (m : Memory) (c : Chunk) : Bytes :=
  match c.type with
  | .memChunk => c.mem.bytes.drop c.offset
  | .fileChunk => ((m.files c.name).drop (c.start + c.offset)).take (c.length - c.offset)

def content (m : Memory) (cq : Chunkqueue) : Bytes := cq.chunks.flatMap (chunkBytes m)

def openTemp (c : Chunk) : Bool := c.type == .fileChunk && c.isTemp && c.fd

def ptrs (cq : Chunkqueue) : List ChunkPtr := cq.chunks.map Chunk.ptr ++ cq.unused.map Chunk.ptr

def temps (cq : Chunkqueue) : List FileName := (cq.chunks.filter openTemp).map Chunk.name

structure ChunkSound (m : Memory) (c : Chunk) : Prop where
  offset : c.offset ≤ chunkLength c
  stored : c.type = .fileChunk → c.start + c.length ≤ (m.files c.name).length
  ends : openTemp c = true → c.start + c.length = (m.files c.name).length ∧ c.name < m.nextFile

structure Spare (c : Chunk) : Prop where
  bytes : c.mem.bytes = []
  start : c.start = 0
  offset : c.offset = 0
  fd : c.fd = false
  isTemp : c.isTemp = false

structure Arranged (m : Memory) (cq : Chunkqueue) : Prop where
  isLast : cq.last = cq.chunks.getLast?.map Chunk.ptr
  once : (ptrs cq).Nodup
  known : ∀ p ∈ ptrs cq, p < m.nextChunk
  tempOnce : (temps cq).Nodup
  chunk : ∀ c ∈ cq.chunks, ChunkSound m c
  spare : ∀ c ∈ cq.unused, Spare c
  unwritten : ∀ name, m.nextFile ≤ name → m.files name = []

structure Sound (m : Memory) (cq : Chunkqueue) : Prop extends Arranged m cq where
  balanced : cq.bytesIn = cq.bytesOut + cq.length

variable {c : Chunk}

section Chunks

variable {m : Memory}

theorem chunk_bytes_length (sound : ChunkSound m c) :
    (chunkBytes m c).length = chunkRemainingLength c := by
  unfold chunkBytes chunkRemainingLength chunkLength
  cases isType : c.type with
  | memChunk => exact length_drop
  | fileChunk =>
    have stored := sound.stored isType
    have offset := sound.offset
    dsimp only at offset ⊢
    rw [length_take, length_drop]
    omega

theorem sum_remaining {chunks : List Chunk} (sound : ∀ c ∈ chunks, ChunkSound m c) :
    (chunks.map chunkRemainingLength).sum = (chunks.flatMap (chunkBytes m)).length := by
  induction chunks with
  | nil => rfl
  | cons c rest ih =>
    rw [map_cons, sum_cons, flatMap_cons, length_append,
      chunk_bytes_length (sound c (mem_cons_self ..)),
      ih (fun c' member => sound c' (mem_cons_of_mem _ member))]

variable {cq : Chunkqueue}

theorem length_eq (sound : Sound m cq) : cq.length = (content m cq).length :=
  sum_remaining sound.chunk

theorem chunks_once (sound : Arranged m cq) : (cq.chunks.map Chunk.ptr).Nodup :=
  sound.once.of_append_left

end Chunks

section Lists

variable {cq : Chunkqueue}

variable {front : List Chunk}

theorem set_next_last (tail : List Chunk) (once : ((front ++ [c]).map Chunk.ptr).Nodup) :
    Chunkqueue.setNext c.ptr tail (front ++ [c]) = front ++ c :: tail := by
  induction front with
  | nil =>
    change (if c.ptr = c.ptr then c :: tail else _) = _
    rw [if_pos rfl]
    rfl
  | cons first front ih =>
    rcases nodup_cons.mp once with ⟨isNew, rest⟩
    have differ : first.ptr ≠ c.ptr := by
      intro same
      apply isNew
      rw [same]
      exact mem_map_of_mem (mem_append_right _ (mem_singleton_self c))
    change (if first.ptr = c.ptr then first :: tail else
      first :: Chunkqueue.setNext c.ptr tail (front ++ [c])) = _
    rw [if_neg differ, ih rest]
    rfl

section

variable (isLast : cq.last = cq.chunks.getLast?.map Chunk.ptr)
    (once : (cq.chunks.map Chunk.ptr).Nodup)
include isLast once

theorem link_last_eq (tail : List Chunk) (notEmpty : cq.chunks ≠ []) :
    cq.linkLast tail = cq.chunks ++ tail := by
  rcases eq_nil_or_concat cq.chunks with isNil | ⟨front, c, isChunks⟩
  · exact absurd isNil notEmpty
  · rw [concat_eq_append] at isChunks
    rw [isChunks, getLast?_append, getLast?_singleton, Option.some_or, Option.map_some] at isLast
    unfold Chunkqueue.linkLast
    rw [isLast, isChunks]
    rw [isChunks] at once
    dsimp only
    rw [set_next_last tail once, append_assoc]
    rfl

theorem append_chunk_eq (c : Chunk) : cq.appendChunk c = { cq with
      chunks := cq.chunks ++ [c]
      last := some c.ptr
      bytesIn := cq.bytesIn + chunkRemainingLength c } := by
  unfold Chunkqueue.appendChunk
  dsimp only
  by_cases isNil : cq.chunks = []
  · have empty : cq.linkLast [c] = [] := by
      unfold Chunkqueue.linkLast
      rw [isLast, isNil]
      rfl
    rw [if_pos empty, isNil]
    rfl
  · rw [link_last_eq isLast once _ isNil, if_neg]
    intro isEmpty
    exact isNil (append_eq_nil_iff.mp isEmpty).1

theorem last_chunk_eq : cq.lastChunk = cq.chunks.getLast? := by
  rcases eq_nil_or_concat cq.chunks with isNil | ⟨front, c, isChunks⟩
  · unfold Chunkqueue.lastChunk
    rw [isNil]
    rfl
  · rw [concat_eq_append] at isChunks
    have isPtr : cq.last = some c.ptr := by
      rw [isLast, isChunks, getLast?_append, getLast?_singleton]
      rfl
    unfold Chunkqueue.lastChunk
    rw [isPtr, isChunks, getLast?_append, getLast?_singleton, find?_append]
    have notEarlier : front.find? (fun c' => decide (some c'.ptr = some c.ptr)) = none := by
      apply find?_eq_none.mpr
      intro c' member same
      rw [isChunks, map_append, map_singleton] at once
      have apart := (nodup_append.mp once).2.2
      have isSame := Option.some.inj (of_decide_eq_true same)
      exact apart c'.ptr (mem_map_of_mem member) c.ptr (mem_singleton_self _) isSame
    rw [notEarlier]
    simp

end

theorem modify_last_eq (isChunks : cq.chunks = front ++ [c])
    (isLast : cq.last = some c.ptr) (once : (cq.chunks.map Chunk.ptr).Nodup)
    (change : Chunk → Chunk) :
    cq.modifyLast change = { cq with chunks := front ++ [change c] } := by
  unfold Chunkqueue.modifyLast
  rw [isLast, isChunks, map_append]
  have kept : ∀ c' ∈ front, (if some c'.ptr = some c.ptr then change c' else c') = c' := by
    intro c' member
    rw [if_neg]
    intro same
    rw [isChunks, map_append, map_singleton] at once
    have apart := (nodup_append.mp once).2.2
    exact apart c'.ptr (mem_map_of_mem member) c.ptr (mem_singleton_self _) (Option.some.inj same)
  rw [map_congr_left kept, map_id', map_singleton, if_pos rfl]

theorem unlink_first_eq {rest : List Chunk} (isChunks : cq.chunks = c :: rest)
    (isLast : cq.last = cq.chunks.getLast?.map Chunk.ptr) (once : (cq.chunks.map Chunk.ptr).Nodup) :
    cq.unlinkFirst c rest = { cq with chunks := rest, last := rest.getLast?.map Chunk.ptr } := by
  unfold Chunkqueue.unlinkFirst
  rw [isChunks] at isLast once
  rcases eq_nil_or_concat rest with rfl | ⟨front, final, rfl⟩
  · rw [getLast?_singleton, Option.map_some] at isLast
    rw [if_pos isLast]
    rfl
  · rw [concat_eq_append] at once isLast ⊢
    have isFinal : (c :: (front ++ [final])).getLast? = some final := by
      rw [← cons_append, getLast?_append, getLast?_singleton]
      rfl
    have isFinal' : (front ++ [final]).getLast? = some final := by
      rw [getLast?_append, getLast?_singleton]
      rfl
    have differ : final.ptr ≠ c.ptr := by
      intro same
      apply (nodup_cons.mp once).1
      rw [← same]
      exact mem_map_of_mem (mem_append_right _ (mem_singleton_self final))
    rw [isFinal] at isLast
    rw [isLast, isFinal', if_neg]
    intro same
    exact differ (Option.some.inj same)

end Lists

section Memory

structure Holdings where
  ptr : ChunkPtr → Prop
  temp : FileName → Prop

def holdings (cq : Chunkqueue) : Holdings := ⟨fun p => p ∈ ptrs cq, fun name => name ∈ temps cq⟩

def both (first second : Holdings) : Holdings :=
  ⟨fun p => first.ptr p ∨ second.ptr p, fun name => first.temp name ∨ second.temp name⟩

structure Evolves (m m' : Memory) (before after : Holdings) : Prop where
  chunks : m.nextChunk ≤ m'.nextChunk
  names : m.nextFile ≤ m'.nextFile
  addresses : ∀ p, after.ptr p → before.ptr p ∨ m.nextChunk ≤ p
  tempfiles : ∀ name, after.temp name → before.temp name ∨ m.nextFile ≤ name
  grows : ∀ name, m.files name <+: m'.files name
  keeps : ∀ name, name < m.nextFile → ¬ before.temp name → m'.files name = m.files name

variable {m m' m'' : Memory} {cq cq' other : Chunkqueue} {before middle after : Holdings}

theorem evolves_within (m : Memory) (ptr : ∀ p, after.ptr p → before.ptr p)
    (temp : ∀ name, after.temp name → before.temp name) : Evolves m m before after :=
  ⟨Nat.le_refl _, Nat.le_refl _, fun p isAfter => .inl (ptr p isAfter), fun name isAfter =>
    .inl (temp name isAfter),
    fun _ => prefix_rfl, fun _ _ _ => rfl⟩

theorem evolves_refl (m : Memory) (before : Holdings) : Evolves m m before before :=
  evolves_within m (fun _ => id) (fun _ => id)

theorem evolves_trans (first : Evolves m m' before middle) (second : Evolves m' m'' middle after) :
    Evolves m m'' before after := by
  constructor
  · exact Nat.le_trans first.chunks second.chunks
  · exact Nat.le_trans first.names second.names
  · intro p member
    rcases second.addresses p member with before | isNew
    · exact first.addresses p before
    · exact .inr (Nat.le_trans first.chunks isNew)
  · intro name member
    rcases second.tempfiles name member with before | isNew
    · exact first.tempfiles name before
    · exact .inr (Nat.le_trans first.names isNew)
  · intro name
    exact (first.grows name).trans (second.grows name)
  · intro name isOld notOurs
    have notAfter : ¬ middle.temp name := by
      intro member
      rcases first.tempfiles name member with before | isNew
      · exact notOurs before
      · exact Nat.not_le_of_lt isOld isNew
    rw [second.keeps name (Nat.lt_of_lt_of_le isOld first.names) notAfter,
      first.keeps name isOld notOurs]

theorem evolves_left (evolves : Evolves m m' before after) (rest : Holdings) :
    Evolves m m' (both before rest) (both after rest) := by
  constructor
  · exact evolves.chunks
  · exact evolves.names
  · rintro p (isAfter | isRest)
    · rcases evolves.addresses p isAfter with isBefore | isNew
      · exact .inl (.inl isBefore)
      · exact .inr isNew
    · exact .inl (.inr isRest)
  · rintro name (isAfter | isRest)
    · rcases evolves.tempfiles name isAfter with isBefore | isNew
      · exact .inl (.inl isBefore)
      · exact .inr isNew
    · exact .inl (.inr isRest)
  · exact evolves.grows
  · intro name isOld notOurs
    exact evolves.keeps name isOld (fun isBefore => notOurs (.inl isBefore))

theorem chunk_bytes_grow (sound : ChunkSound m c) (grows : ∀ name, m.files name <+: m'.files name) :
    chunkBytes m' c = chunkBytes m c := by
  unfold chunkBytes
  cases isType : c.type with
  | memChunk => rfl
  | fileChunk =>
    have stored := sound.stored isType
    have offset := sound.offset
    unfold chunkLength at offset
    rw [isType] at offset
    rcases grows c.name with ⟨added, isAdded⟩
    dsimp only at offset ⊢
    rw [← isAdded, drop_append_of_le_length (by omega), take_append_of_le_length]
    rw [length_drop]
    omega

theorem chunk_sound_grow (sound : ChunkSound m c) (grows : ∀ name, m.files name <+: m'.files name)
    (names : m.nextFile ≤ m'.nextFile) (same : openTemp c = true → m'.files c.name = m.files c.name) :
    ChunkSound m' c := by
  constructor
  · exact sound.offset
  · intro isFile
    exact Nat.le_trans (sound.stored isFile) (grows c.name).length_le
  · intro isOpen
    rw [same isOpen]
    rcases sound.ends isOpen with ⟨ends, isOld⟩
    exact ⟨ends, Nat.lt_of_lt_of_le isOld names⟩

theorem temps_mem (member : c ∈ cq.chunks) (isOpen : openTemp c = true) : c.name ∈ temps cq :=
  mem_map_of_mem (mem_filter.mpr ⟨member, isOpen⟩)

theorem other_kept (evolves : Evolves m m' before after) (sound : Sound m other)
    (unwritten : ∀ name, m'.nextFile ≤ name → m'.files name = [])
    (apart : ∀ name ∈ temps other, ¬ before.temp name) :
    Sound m' other ∧ content m' other = content m other := by
  have kept : ∀ c ∈ other.chunks, openTemp c = true → m'.files c.name = m.files c.name := by
    intro c member isOpen
    have isTemp := temps_mem member isOpen
    exact evolves.keeps c.name ((sound.chunk c member).ends isOpen).2 (apart _ isTemp)
  constructor
  · refine ⟨⟨sound.isLast, sound.once, ?_, sound.tempOnce, ?_, sound.spare, unwritten⟩,
      sound.balanced⟩
    · intro p member
      exact Nat.lt_of_lt_of_le (sound.known p member) evolves.chunks
    · intro c member
      exact chunk_sound_grow (sound.chunk c member) evolves.grows evolves.names (kept c member)
  · unfold content
    apply flatMap_congr
    intro c member
    exact chunk_bytes_grow (sound.chunk c member) evolves.grows

end Memory

section Calls

variable {m m' : Memory} {cq cq' : Chunkqueue}

/-- A call on a queue that keeps it sound and leaves these bytes in it. -/
structure Changes (m : Memory) (cq : Chunkqueue) (m' : Memory) (cq' : Chunkqueue)
    (bytes : Bytes) : Prop where
  sound : Sound m' cq'
  evolves : Evolves m m' (holdings cq) (holdings cq')
  holds : content m' cq' = bytes

structure Appends (m : Memory) (cq : Chunkqueue) (m' : Memory) (cq' : Chunkqueue)
    (bytes : Bytes) : Prop extends
    Changes m cq m' cq' (content m cq ++ bytes) where
  sameOut : cq'.bytesOut = cq.bytesOut

theorem appends_nil (sound : Sound m cq) : Appends m cq m cq [] :=
  ⟨⟨sound, evolves_refl m _, (append_nil _).symm⟩, rfl⟩

theorem appends_trans {m'' : Memory} {cq'' : Chunkqueue} {bytes more : Bytes}
    (first : Appends m cq m' cq' bytes)
    (second : Appends m' cq' m'' cq'' more) : Appends m cq m'' cq'' (bytes ++ more) := by
  refine ⟨⟨second.sound, evolves_trans first.evolves second.evolves, ?_⟩,
    second.sameOut.trans first.sameOut⟩
  rw [second.holds, first.holds, append_assoc]

theorem temps_append (cq : Chunkqueue) (front back : List Chunk) :
    temps { cq with chunks := front ++ back } = temps { cq with chunks := front } ++
      temps { cq with chunks := back } := by
  unfold temps
  rw [filter_append, map_append]

theorem temps_single (cq : Chunkqueue) (c : Chunk) :
    temps { cq with chunks := [c] } = if openTemp c = true then [c.name] else [] := by
  unfold temps
  by_cases isOpen : openTemp c = true
  · rw [if_pos isOpen, filter_cons_of_pos isOpen]
    rfl
  · rw [if_neg isOpen, filter_cons_of_neg isOpen]
    rfl

theorem append_chunk_spec (sound : Sound m cq) (chunkSound : ChunkSound m c) (isNew : c.ptr ∉ ptrs cq)
    (known : c.ptr < m.nextChunk) (ownFile : openTemp c = true → c.name ∉ temps cq) :
    Sound m (cq.appendChunk c) ∧ (cq.appendChunk c).chunks = cq.chunks ++ [c] ∧
      (∀ p, p ∈ ptrs (cq.appendChunk c) ↔ p ∈ ptrs cq ∨ p = c.ptr) ∧
      (∀ name, name ∈ temps (cq.appendChunk c) ↔ name ∈ temps cq ∨
        openTemp c = true ∧ name = c.name) := by
  have isAppend := append_chunk_eq sound.isLast (chunks_once sound.toArranged) c
  have isTemps : temps (cq.appendChunk c) = temps cq ++ if openTemp c =
      true then [c.name] else [] := by
    rw [isAppend, ← temps_single cq c, ← temps_append]
    rfl
  have isPtrs : (ptrs (cq.appendChunk c)).Perm (c.ptr :: ptrs cq) := by
    rw [isAppend]
    unfold ptrs
    rw [map_append, map_singleton, append_assoc, singleton_append]
    exact perm_middle
  refine ⟨⟨⟨?_, ?_, ?_, ?_, ?_, ?_, sound.unwritten⟩, ?_⟩, by rw [isAppend], ?_, ?_⟩
  · rw [isAppend, getLast?_append, getLast?_singleton]
    rfl
  · rw [isPtrs.nodup_iff]
    exact nodup_cons.mpr ⟨isNew, sound.once⟩
  · intro p member
    rcases mem_cons.mp (isPtrs.mem_iff.mp member) with rfl | before
    · exact known
    · exact sound.known p before
  · rw [isTemps]
    by_cases isOpen : openTemp c = true
    · rw [if_pos isOpen]
      apply sound.tempOnce.append (nodup_singleton _)
      intro name before isName
      rw [mem_singleton.mp isName] at before
      exact ownFile isOpen before
    · rw [if_neg isOpen, append_nil]
      exact sound.tempOnce
  · intro c' member
    rw [isAppend] at member
    rcases mem_append.mp member with before | isLast
    · exact sound.chunk c' before
    · rw [mem_singleton.mp isLast]
      exact chunkSound
  · rw [isAppend]
    exact sound.spare
  · rw [isAppend]
    unfold Chunkqueue.length
    rw [map_append, sum_append]
    have balanced := sound.balanced
    unfold Chunkqueue.length at balanced
    change cq.bytesIn + chunkRemainingLength c = cq.bytesOut + (_ + (chunkRemainingLength c + 0))
    omega
  · intro p
    rw [isPtrs.mem_iff, mem_cons]
    exact Or.comm
  · intro name
    rw [isTemps, mem_append]
    by_cases isOpen : openTemp c = true
    · rw [if_pos isOpen, mem_singleton]
      simp only [isOpen, true_and]
    · rw [if_neg isOpen]
      constructor
      · rintro (before | absurdity)
        · exact .inl before
        · cases absurdity
      · rintro (before | ⟨absurdity, -⟩)
        · exact .inl before
        · exact absurd absurdity isOpen

theorem spare_init (ptr : ChunkPtr) : Spare (chunkInit ptr) := ⟨rfl, rfl, rfl, rfl, rfl⟩

theorem spare_reset (c : Chunk) : Spare (chunkReset c) := ⟨rfl, rfl, rfl, rfl, rfl⟩

theorem get_unused_chunk_spec (sound : Sound m cq) :
    ∃ next cq' c, cq.getUnusedChunk m = ({ m with nextChunk := next }, cq', c) ∧
      Sound { m with nextChunk := next } cq' ∧ cq'.chunks = cq.chunks ∧ Spare c ∧
      c.ptr ∉ ptrs cq' ∧ c.ptr < next ∧
      m.nextChunk ≤ next ∧ (c.ptr ∈ ptrs cq ∨ c.ptr = m.nextChunk) ∧ (∀ p ∈ ptrs cq', p ∈ ptrs cq) ∧
      cq'.bytesIn = cq.bytesIn ∧ cq'.bytesOut = cq.bytesOut ∧
      cq'.uploadTempFileSize = cq.uploadTempFileSize := by
  unfold Chunkqueue.getUnusedChunk
  cases isUnused : cq.unused with
  | nil =>
    refine ⟨m.nextChunk + 1, cq, chunkInit m.nextChunk, rfl, ?_, rfl,
      spare_init _, ?_, Nat.lt_succ_self _,
      Nat.le_succ _, .inr rfl, fun _ => id, rfl, rfl, rfl⟩
    · exact ⟨⟨sound.isLast, sound.once, fun p member => Nat.lt_succ_of_lt (sound.known p member),
        sound.tempOnce,
        fun c member => chunk_sound_grow (sound.chunk c member) (fun _ => prefix_rfl)
          (Nat.le_refl _) (fun _ => rfl),
        sound.spare, sound.unwritten⟩, sound.balanced⟩
    · intro member
      exact Nat.lt_irrefl _ (sound.known _ member)
  | cons c unused =>
    have isPtrs : (ptrs cq).Perm
        (c.ptr :: ptrs { cq with unused := unused, unusedChunks := cq.unusedChunks - 1 }) := by
      unfold ptrs
      rw [isUnused]
      exact perm_middle
    have once := isPtrs.nodup_iff.mp sound.once
    have isSubset : ∀ p ∈ ptrs { cq with unused := unused, unusedChunks := cq.unusedChunks - 1 },
      p ∈ ptrs cq :=
      fun p member => isPtrs.mem_iff.mpr (mem_cons_of_mem _ member)
    have isOurs : c.ptr ∈ ptrs cq := isPtrs.mem_iff.mpr (mem_cons_self ..)
    refine ⟨m.nextChunk, _, c, rfl, ?_, rfl, ?_, (nodup_cons.mp once).1,
      sound.known _ isOurs, Nat.le_refl _,
      .inl isOurs, isSubset, rfl, rfl, rfl⟩
    · refine ⟨⟨sound.isLast, (nodup_cons.mp once).2, fun p member =>
        sound.known p (isSubset p member),
        sound.tempOnce, sound.chunk, ?_, sound.unwritten⟩, sound.balanced⟩
      intro c' member
      exact sound.spare c' (isUnused ▸ mem_cons_of_mem _ member)
    · exact sound.spare c (isUnused ▸ mem_cons_self ..)

theorem append_new_spec (sound : Sound m cq) (fill : Chunk → Chunk)
    (samePtr : ∀ c, (fill c).ptr = c.ptr)
    (filled : ∀ c, Spare c → ChunkSound m (fill c) ∧ openTemp (fill c) = false) :
    ∃ m' cq' c, cq.getUnusedChunk m = (m', cq', c) ∧ Spare c ∧
      Appends m cq m' (cq'.appendChunk (fill c)) (chunkBytes m (fill c)) ∧
      (cq'.appendChunk (fill c)).chunks = cq.chunks ++ [fill c] := by
  rcases get_unused_chunk_spec sound with
    ⟨next, cq', c, isUnused, sound', sameChunks, spare, isNew, known, later,
      ours, subset, -, sameOut, -⟩
  rcases filled c spare with ⟨chunkSound, notOpen⟩
  have chunkSound' : ChunkSound { m with nextChunk := next } (fill c) :=
    ⟨chunkSound.offset, chunkSound.stored, chunkSound.ends⟩
  have sameTemps : temps cq' = temps cq := by
    unfold temps
    rw [sameChunks]
  rcases append_chunk_spec sound' chunkSound' (samePtr c ▸ isNew) (samePtr c ▸ known)
    (fun isOpen => absurd (notOpen.symm.trans isOpen) Bool.false_ne_true) with
    ⟨soundAfter, isChunks, isPtrs, isTemps⟩
  refine ⟨_, cq', c, isUnused, spare,
    ⟨⟨soundAfter, ⟨later, Nat.le_refl _, ?_, ?_, fun _ => prefix_rfl,
    fun _ _ _ => rfl⟩, ?_⟩, sameOut⟩, sameChunks ▸ isChunks⟩
  · intro p member
    rcases (isPtrs p).mp member with before | rfl
    · exact .inl (subset p before)
    · rw [samePtr]
      rcases ours with isOurs | isNext
      · exact .inl isOurs
      · exact .inr (Nat.le_of_eq isNext.symm)
  · intro name member
    rcases (isTemps name).mp member with before | ⟨isOpen, -⟩
    · left
      change name ∈ temps cq
      rw [← sameTemps]
      exact before
    · exact absurd (notOpen.symm.trans isOpen) Bool.false_ne_true
  · unfold content
    rw [isChunks, sameChunks, flatMap_append, flatMap_singleton]
    rfl

theorem not_open_mem (isMem : c.type = .memChunk) : openTemp c = false := by
  unfold openTemp
  rw [isMem]
  rfl

theorem mem_chunk_sound (isMem : c.type = .memChunk) (offset : c.offset ≤ c.mem.bytes.length) :
    ChunkSound m c := by
  constructor
  · unfold chunkLength
    rw [isMem]
    exact offset
  · intro isFile
    rw [isMem] at isFile
    cases isFile
  · intro isOpen
    rw [not_open_mem isMem] at isOpen
    cases isOpen

theorem append_mem_spec (sound : Sound m cq) (mem : Bytes) :
    ∃ m' cq', cq.appendMem m mem = (m', cq') ∧ Appends m cq m' cq' mem := by
  unfold Chunkqueue.appendMem
  by_cases isEmpty : mem.length = 0
  · rw [if_pos isEmpty, length_eq_zero_iff.mp isEmpty]
    exact ⟨m, cq, rfl, appends_nil sound⟩
  · rw [if_neg isEmpty]
    rcases append_new_spec sound
      (fun c => { c with type := .memChunk, mem := c.mem.copyStringLen mem })
      (fun _ => rfl) (fun c spare =>
        ⟨mem_chunk_sound rfl (Nat.le_trans (Nat.le_of_eq spare.offset) (Nat.zero_le _)), rfl⟩) with
        ⟨m', cq', c, isUnused, spare, changes, -⟩
    rw [isUnused]
    refine ⟨m', _, rfl, ?_⟩
    have bytes : chunkBytes m { c with type := .memChunk, mem := c.mem.copyStringLen mem } = mem := by
      change mem.drop c.offset = mem
      rw [spare.offset, drop_zero]
    rw [bytes] at changes
    exact changes

theorem append_buffer_spec (sound : Sound m cq) (mem : Buffer) :
    ∃ m' cq', cq.appendBuffer m mem = (m', cq') ∧ Appends m cq m' cq' mem.bytes := by
  unfold Chunkqueue.appendBuffer
  by_cases isEmpty : mem.bytes = []
  · rw [if_pos isEmpty, isEmpty]
    exact ⟨m, cq, rfl, appends_nil sound⟩
  · rw [if_neg isEmpty]
    rcases append_new_spec sound (fun c => { c with type := .memChunk, mem := mem })
      (fun _ => rfl) (fun c spare =>
        ⟨mem_chunk_sound rfl (Nat.le_trans (Nat.le_of_eq spare.offset) (Nat.zero_le _)), rfl⟩) with
      ⟨m', cq', c, isUnused, spare, changes, -⟩
    rw [isUnused]
    refine ⟨m', _, rfl, ?_⟩
    have bytes : chunkBytes m { c with type := .memChunk, mem := mem } = mem.bytes := by
      change mem.bytes.drop c.offset = mem.bytes
      rw [spare.offset, drop_zero]
    rw [bytes] at changes
    exact changes

def fileBytes (m : Memory) (fn : FileName) (offset len : Nat) : Bytes :=
    ((m.files fn).drop offset).take len

theorem append_file_spec (sound : Sound m cq) {fn : FileName} {offset len : Nat}
    (stored : offset + len ≤ (m.files fn).length) :
    ∃ m' cq', cq.appendFile m fn offset len = (m', cq') ∧
      Appends m cq m' cq' (fileBytes m fn offset len) := by
  unfold Chunkqueue.appendFile
  by_cases isEmpty : len = 0
  · rw [if_pos isEmpty, isEmpty]
    unfold fileBytes
    rw [take_zero]
    exact ⟨m, cq, rfl, appends_nil sound⟩
  · rw [if_neg isEmpty]
    rcases append_new_spec sound
      (fun c => { c with type := .fileChunk, name := fn, start := offset, length := len, offset := 0 })
      (fun _ => rfl) (fun c spare => by
        have notOpen : openTemp { c with
            type := .fileChunk, name := fn, start := offset, length := len, offset := 0 } =
            false := by
          rw [spare.isTemp]
          rfl
        refine ⟨⟨Nat.zero_le _, fun _ => stored, ?_⟩, notOpen⟩
        intro isOpen
        exact absurd (notOpen.symm.trans isOpen) Bool.false_ne_true) with
          ⟨m', cq', c, isUnused, spare, changes, -⟩
    rw [isUnused]
    exact ⟨m', _, rfl, changes⟩

end Calls

end ServerCore.LighttpdChunkContent
