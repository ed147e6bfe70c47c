import ServerCore.LighttpdChunkContent

/-!
# The calls on one chunkqueue

Each function of `chunk.c` that works on one queue, as a change of the bytes in
it: what is written goes to the end, what is prepended to the front, and what is
marked as written leaves at the front.
-/

namespace ServerCore.LighttpdChunkCalls

open LighttpdChunk LighttpdChunkContent List Function

variable {m m' : Memory} {cq cq' : Chunkqueue} {list : List Chunk}
variable {front : List Chunk} {writes : List Nat}

variable {c : Chunk} {len written : Nat} {rest front : List Chunk} {b : Buffer}

theorem push_unused_spec (order : Arranged m cq) (isNew : c.ptr ∉ ptrs cq) (known : c.ptr < m.nextChunk) :
    ∃ unused count, cq.pushUnusedChunk c = { cq with unused := unused, unusedChunks := count } ∧
      Arranged m { cq with unused := unused, unusedChunks := count } ∧
      ∀ p ∈ ptrs { cq with unused := unused, unusedChunks := count }, p ∈ ptrs cq ∨ p = c.ptr := by
  unfold Chunkqueue.pushUnusedChunk
  by_cases many : cq.unusedChunks > 4
  · rw [if_pos many]
    exact ⟨cq.unused, cq.unusedChunks, rfl, order, fun p member => .inl member⟩
  · rw [if_neg many]
    have isPtrs : (ptrs { cq with
          unused := chunkReset c :: cq.unused, unusedChunks := cq.unusedChunks + 1 }).Perm
        (c.ptr :: ptrs cq) := perm_middle
    refine ⟨_, _, rfl, ⟨order.isLast, ?_, ?_, order.tempOnce, order.chunk, ?_, order.unwritten⟩, ?_⟩
    · exact isPtrs.nodup_iff.mpr (nodup_cons.mpr ⟨isNew, order.once⟩)
    · intro p member
      rcases mem_cons.mp (isPtrs.mem_iff.mp member) with rfl | before
      · exact known
      · exact order.known p before
    · intro c' member
      rcases mem_cons.mp member with rfl | before
      · exact spare_reset c
      · exact order.spare c' before
    · intro p member
      rcases mem_cons.mp (isPtrs.mem_iff.mp member) with isNode | before
      · exact .inr isNode
      · exact .inl before

section

variable (order : Arranged m cq) {c : Chunk} {rest : List Chunk} (isChunks : cq.chunks = c :: rest)
include order isChunks

theorem unlink_first_spec :
    Arranged m (cq.unlinkFirst c rest) ∧ c.ptr ∉ ptrs (cq.unlinkFirst c rest) ∧ c.ptr < m.nextChunk ∧
      (∀ p, p ∈ ptrs cq ↔ p = c.ptr ∨ p ∈ ptrs (cq.unlinkFirst c rest)) ∧
      (∀ name, name ∈ temps cq ↔ openTemp c = true ∧ name = c.name ∨ name ∈ temps (cq.unlinkFirst c rest)) ∧
      (openTemp c = true → c.name ∉ temps (cq.unlinkFirst c rest)) := by
  have isUnlinked := unlink_first_eq isChunks order.isLast (chunks_once order)
  have isPtrs : ptrs cq = c.ptr :: ptrs (cq.unlinkFirst c rest) := by
    unfold ptrs
    rw [isChunks]
    rfl
  have isTemps : temps cq = (if openTemp c = true then [c.name] else []) ++
      temps (cq.unlinkFirst c rest) := by
    rw [← temps_single cq c]
    change temps cq = temps { cq with chunks := [c] } ++ temps { cq with chunks := rest }
    rw [← temps_append]
    unfold temps
    rw [isChunks]
    rfl
  have once := order.once
  rw [isPtrs] at once
  rcases nodup_cons.mp once with ⟨isNew, restOnce⟩
  refine ⟨⟨?_, restOnce, ?_, ?_, ?_, order.spare, order.unwritten⟩, isNew, ?_, ?_, ?_, ?_⟩
  · rw [isUnlinked]
  · intro p member
    exact order.known p (isPtrs ▸ mem_cons_of_mem _ member)
  · exact (isTemps ▸ order.tempOnce).of_append_right
  · intro c' member
    exact order.chunk c' (isChunks ▸ mem_cons_of_mem _ member)
  · exact order.known c.ptr (isPtrs ▸ mem_cons_self ..)
  · intro p
    rw [isPtrs, mem_cons]
  · intro name
    rw [isTemps, mem_append]
    by_cases isOpen : openTemp c = true
    · rw [if_pos isOpen, mem_singleton]
      tauto
    · rw [if_neg isOpen]
      constructor
      · rintro (absurdity | later)
        · cases absurdity
        · exact .inr later
      · rintro (⟨absurdity, -⟩ | later)
        · exact absurd absurdity isOpen
        · exact .inr later
  · intro isOpen later
    have tempOnce := order.tempOnce
    rw [isTemps, if_pos isOpen] at tempOnce
    exact (nodup_cons.mp tempOnce).1 later

theorem drop_first_spec :
    ∃ cq', (cq.unlinkFirst c rest).pushUnusedChunk c = cq' ∧ Arranged m cq' ∧ cq'.chunks = rest ∧
      cq'.bytesIn = cq.bytesIn ∧ cq'.bytesOut = cq.bytesOut ∧ (∀ p ∈ ptrs cq', p ∈ ptrs cq) ∧
      (∀ name ∈ temps cq', name ∈ temps cq) := by
  rcases unlink_first_spec order isChunks with ⟨unlinked, isNew, known, isPtrs, isTemps, -⟩
  rcases push_unused_spec unlinked isNew known with ⟨unused, count, isPushed, pushed, pushedPtrs⟩
  refine ⟨_, rfl, isPushed ▸ pushed, ?_, ?_, ?_, ?_, ?_⟩
  · rw [isPushed]
    rfl
  · rw [isPushed]
    rfl
  · rw [isPushed]
    rfl
  · intro p member
    rw [isPushed] at member
    rcases pushedPtrs p member with before | isFirst
    · exact (isPtrs p).mpr (.inr before)
    · exact (isPtrs p).mpr (.inl isFirst)
  · intro name member
    rw [isPushed] at member
    exact (isTemps name).mpr (.inr member)

theorem advance_first_spec {cq' : Chunkqueue} (part : len ≤ chunkRemainingLength c)
    (isAdvanced : cq' = { cq with chunks := { c with offset := c.offset + len } :: rest }) :
    Arranged m cq' ∧ content m cq' = (content m cq).drop len ∧ (∀ p, p ∈ ptrs cq' ↔ p ∈ ptrs cq) ∧
      temps cq' = temps cq := by
  subst isAdvanced
  let c' := { c with offset := c.offset + len }
  let cq' := { cq with chunks := c' :: rest }
  have chunkSound := order.chunk c (isChunks ▸ mem_cons_self ..)
  have isPtrs : ptrs cq' = ptrs cq := by
    unfold ptrs
    rw [isChunks]
    rfl
  have isTemps : temps cq' = temps cq := by
    unfold temps
    rw [isChunks]
    by_cases isOpen : openTemp c = true
    · have isOpen' : openTemp c' = true := isOpen
      rw [filter_cons_of_pos isOpen, filter_cons_of_pos isOpen']
      rfl
    · have isOpen' : ¬ openTemp c' = true := isOpen
      rw [filter_cons_of_neg isOpen, filter_cons_of_neg isOpen']
  have isBytes : chunkBytes m c' = (chunkBytes m c).drop len := by
    unfold c' chunkBytes
    cases c.type with
    | memChunk =>
      rw [drop_drop]
    | fileChunk =>
      dsimp only
      rw [drop_take, drop_drop]
      congr 1
      · omega
      · congr 1
        omega
  refine ⟨⟨?_, ?_, ?_, ?_, ?_, order.spare, order.unwritten⟩, ?_, ?_, isTemps⟩
  · rw [order.isLast, isChunks]
    cases rest with
    | nil => rfl
    | cons second rest =>
      rw [getLast?_cons_cons, getLast?_cons_cons]
  · rw [isPtrs]
    exact order.once
  · rw [isPtrs]
    exact order.known
  · rw [isTemps]
    exact order.tempOnce
  · intro c' member
    rcases mem_cons.mp member with rfl | later
    · refine ⟨?_, chunkSound.stored, chunkSound.ends⟩
      have offset := chunkSound.offset
      unfold chunkRemainingLength at part
      change c.offset + len ≤ chunkLength c
      omega
    · exact order.chunk c' (isChunks ▸ mem_cons_of_mem _ later)
  · unfold content
    rw [isChunks]
    rw [flatMap_cons, flatMap_cons, isBytes, drop_append_of_le_length]
    rw [chunk_bytes_length chunkSound]
    exact part
  · intro p
    rw [isPtrs]

end

theorem content_cons (isChunks : cq.chunks = c :: rest) :
    content m cq = chunkBytes m c ++ rest.flatMap (chunkBytes m) := by
  unfold content
  rw [isChunks, flatMap_cons]

theorem length_cons (isChunks : cq.chunks = c :: rest) :
    cq.length = chunkRemainingLength c + (rest.map chunkRemainingLength).sum := by
  unfold Chunkqueue.length
  rw [isChunks, map_cons, sum_cons]

theorem chunk_bytes_nil (chunkSound : ChunkSound m c) (isEmpty : chunkRemainingLength c = 0) :
    chunkBytes m c = [] := by
  apply length_eq_zero_iff.mp
  rw [chunk_bytes_length chunkSound, isEmpty]

theorem remove_finished_loop_spec (sound : Sound m cq) (isChunks : cq.chunks = list) :
    ∃ cq', cq.removeFinishedLoop list = cq' ∧ Changes m cq m cq' (content m cq) ∧ cq'.bytesIn = cq.bytesIn ∧
      cq'.bytesOut = cq.bytesOut ∧ ∀ c ∈ cq'.chunks.head?, chunkRemainingLength c ≠ 0 := by
  induction list generalizing cq with
  | nil =>
    refine ⟨cq, rfl, ⟨sound, evolves_refl m _, rfl⟩, rfl, rfl, ?_⟩
    intro c isHead
    rw [isChunks] at isHead
    cases isHead
  | cons c rest ih =>
    unfold Chunkqueue.removeFinishedLoop
    by_cases isOver : chunkRemainingLength c ≠ 0
    · rw [if_pos isOver]
      refine ⟨cq, rfl, ⟨sound, evolves_refl m _, rfl⟩, rfl, rfl, ?_⟩
      intro c' isHead
      rw [isChunks] at isHead
      cases isHead
      exact isOver
    · rw [if_neg isOver]
      have isEmpty := Decidable.not_not.mp isOver
      rcases drop_first_spec sound.toArranged isChunks with
        ⟨cq₁, isDropped, order, isRest, sameIn, sameOut, isPtrs, isTemps⟩
      rw [isDropped]
      have chunkSound := sound.chunk c (isChunks ▸ mem_cons_self ..)
      have sameContent : content m cq₁ = content m cq := by
        rw [content_cons isChunks, chunk_bytes_nil chunkSound isEmpty, nil_append]
        unfold content
        rw [isRest]
      have sound₁ : Sound m cq₁ := by
        refine ⟨order, ?_⟩
        have balanced := sound.balanced
        rw [length_cons isChunks, isEmpty, Nat.zero_add] at balanced
        rw [sameIn, sameOut, balanced]
        unfold Chunkqueue.length
        rw [isRest]
      rcases ih sound₁ isRest with ⟨cq', isResult, changes, sameIn', sameOut', isHead⟩
      refine ⟨cq', isResult, ⟨changes.sound, ?_, changes.holds.trans sameContent⟩, sameIn'.trans sameIn,
        sameOut'.trans sameOut, isHead⟩
      exact evolves_trans (evolves_within m isPtrs isTemps) changes.evolves

theorem remove_finished_spec (sound : Sound m cq) :
    Changes m cq m cq.removeFinishedChunks (content m cq) ∧ cq.removeFinishedChunks.bytesIn = cq.bytesIn ∧
      cq.removeFinishedChunks.bytesOut = cq.bytesOut ∧
      ∀ c ∈ cq.removeFinishedChunks.chunks.head?, chunkRemainingLength c ≠ 0 := by
  rcases remove_finished_loop_spec sound rfl with ⟨cq', isResult, facts⟩
  unfold Chunkqueue.removeFinishedChunks
  rw [isResult]
  exact facts

theorem mark_written_loop_spec (order : Arranged m cq) (isChunks : cq.chunks = list)
    (enough : written ≤ (content m cq).length) :
    ∃ cq', cq.markWrittenLoop written list = (cq', 0) ∧ Arranged m cq' ∧
      Evolves m m (holdings cq) (holdings cq') ∧ content m cq' = (content m cq).drop written ∧
      cq'.bytesIn = cq.bytesIn ∧ cq'.bytesOut = cq.bytesOut ∧ ∀ c ∈ cq'.chunks.head?,
      chunkRemainingLength c ≠ 0 := by
  induction list generalizing cq written with
  | nil =>
    have isEmpty : content m cq = [] := by
      unfold content
      rw [isChunks]
      rfl
    rw [isEmpty, length_nil, Nat.le_zero] at enough
    subst enough
    refine ⟨cq, rfl, order, evolves_refl m _, rfl, rfl, rfl, ?_⟩
    intro c isHead
    rw [isChunks] at isHead
    cases isHead
  | cons c rest ih =>
    have chunkSound := order.chunk c (isChunks ▸ mem_cons_self ..)
    have isLength := chunk_bytes_length chunkSound
    unfold Chunkqueue.markWrittenLoop
    by_cases isDone : written = 0 ∧ chunkRemainingLength c ≠ 0
    · rw [if_pos isDone, isDone.1]
      refine ⟨cq, rfl, order, evolves_refl m _, rfl, rfl, rfl, ?_⟩
      intro c' isHead
      rw [isChunks] at isHead
      cases isHead
      exact isDone.2
    · rw [if_neg isDone]
      by_cases whole : written ≥ chunkRemainingLength c
      · rw [if_pos whole]
        rcases drop_first_spec order isChunks with
          ⟨cq₁, isDropped, arranged₁, isRest, sameIn, sameOut, isPtrs, isTemps⟩
        rw [isDropped]
        have isContent : content m cq = chunkBytes m c ++ content m cq₁ := by
          rw [content_cons isChunks]
          unfold content
          rw [isRest]
        have enough₁ : written - chunkRemainingLength c ≤ (content m cq₁).length := by
          rw [isContent, length_append, isLength] at enough
          omega
        rcases ih arranged₁ isRest enough₁ with
          ⟨cq', isResult, arranged', evolves, holds, sameIn', sameOut', isHead⟩
        refine ⟨cq', isResult, arranged', evolves_trans (evolves_within m isPtrs isTemps) evolves, ?_,
          sameIn'.trans sameIn, sameOut'.trans sameOut, isHead⟩
        have isOver : (chunkBytes m c).drop written = [] := drop_eq_nil_of_le (by omega)
        rw [holds, isContent, drop_append, isOver, nil_append, isLength]
      · rw [if_neg whole]
        rcases advance_first_spec order isChunks (Nat.le_of_not_ge whole) rfl with
          ⟨arranged', holds, isPtrs, isTemps⟩
        refine ⟨_, rfl, arranged', ?_, holds, rfl, rfl, ?_⟩
        · apply evolves_within m (fun p => (isPtrs p).mp)
          intro name isTemp
          change name ∈ temps cq
          rw [← isTemps]
          exact isTemp
        · intro c' isHead
          cases isHead
          unfold chunkRemainingLength chunkLength at whole ⊢
          dsimp only at whole ⊢
          omega

theorem mark_written_spec (sound : Sound m cq) (enough : len ≤ (content m cq).length) :
    ∃ cq', cq.markWritten len = some cq' ∧ Changes m cq m cq' ((content m cq).drop len) ∧
    cq'.bytesIn = cq.bytesIn ∧
      cq'.bytesOut = cq.bytesOut + len ∧ ∀ c ∈ cq'.chunks.head?, chunkRemainingLength c ≠ 0 := by
  rcases mark_written_loop_spec sound.toArranged rfl enough with
    ⟨cq', isResult, order, evolves, holds, sameIn, sameOut, isHead⟩
  unfold Chunkqueue.markWritten
  rw [isResult]
  refine ⟨{ cq' with bytesOut := cq'.bytesOut + len }, rfl,
    ⟨⟨⟨order.isLast, order.once, order.known, order.tempOnce, order.chunk, order.spare,
      order.unwritten⟩, ?_⟩, evolves, holds⟩, sameIn, ?_, isHead⟩
  · have before := sound.balanced
    rw [length_eq sound] at before
    have isLength : ({ cq' with bytesOut := cq'.bytesOut + len } : Chunkqueue).length =
      (content m cq').length :=
      sum_remaining order.chunk
    rw [isLength, holds, length_drop]
    change cq'.bytesIn = cq'.bytesOut + len + _
    omega
  · rw [sameOut]

theorem mark_written_loop_left (sound : ∀ c ∈ list, ChunkSound m c) (cq : Chunkqueue)
    (tooMany : (list.flatMap (chunkBytes m)).length < written) :
    (cq.markWrittenLoop written list).2 ≠ 0 := by
  induction list generalizing cq written with
  | nil => exact Nat.ne_of_gt tooMany
  | cons c rest ih =>
    have isLength := chunk_bytes_length (sound c (mem_cons_self ..))
    rw [flatMap_cons, length_append, isLength] at tooMany
    unfold Chunkqueue.markWrittenLoop
    rw [if_neg (by omega), if_pos (by omega)]
    exact ih (fun c' member => sound c' (mem_cons_of_mem _ member)) _ (by omega)

theorem mark_written_too_many (sound : Sound m cq) (tooMany : (content m cq).length < len) :
    cq.markWritten len ≠ some cq' := by
  have left := mark_written_loop_left sound.chunk cq tooMany
  unfold Chunkqueue.markWritten
  dsimp only
  rw [if_neg left]
  nofun

theorem reset_fold_spec (order : Arranged m cq) (isEmpty : cq.chunks = [])
    (once : (list.map Chunk.ptr).Nodup) (isNew : ∀ c ∈ list, c.ptr ∉ ptrs cq)
    (known : ∀ c ∈ list, c.ptr < m.nextChunk) : Arranged m (list.foldl Chunkqueue.pushUnusedChunk cq) ∧
      (list.foldl Chunkqueue.pushUnusedChunk cq).chunks = [] ∧
      ∀ p ∈ ptrs (list.foldl Chunkqueue.pushUnusedChunk cq), p ∈ ptrs cq ∨ p ∈ list.map Chunk.ptr := by
  induction list generalizing cq with
  | nil => exact ⟨order, isEmpty, fun p member => .inl member⟩
  | cons c list ih =>
    rcases nodup_cons.mp once with ⟨notLater, restOnce⟩
    rcases push_unused_spec order (isNew c (mem_cons_self ..)) (known c (mem_cons_self ..)) with
      ⟨unused, count, isPushed, pushed, isPtrs⟩
    rw [foldl_cons, isPushed]
    have restNew : ∀ c' ∈ list, c'.ptr ∉ ptrs { cq with unused := unused, unusedChunks := count } := by
      intro c' member isOurs
      rcases isPtrs _ isOurs with before | same
      · exact isNew c' (mem_cons_of_mem _ member) before
      · exact notLater (same ▸ mem_map_of_mem member)
    rcases ih pushed isEmpty restOnce restNew (fun c' member => known c' (mem_cons_of_mem _ member)) with
      ⟨arranged', isEmpty', isPtrs'⟩
    refine ⟨arranged', isEmpty', ?_⟩
    intro p member
    rcases isPtrs' p member with before | later
    · rcases isPtrs p before with isOurs | same
      · exact .inl isOurs
      · right
        rw [same]
        exact mem_cons_self ..
    · exact .inr (mem_cons_of_mem _ later)

theorem reset_spec (sound : Sound m cq) : Changes m cq m cq.reset [] := by
  have emptied : Arranged m { cq with chunks := [], last := none } := by
    refine ⟨rfl, sound.once.of_append_right, ?_, nodup_nil, ?_, sound.spare, sound.unwritten⟩
    · intro p member
      exact sound.known p (mem_append_right _ member)
    · intro c member
      cases member
  have apart : ∀ c ∈ cq.chunks, c.ptr ∉ ptrs { cq with chunks := [], last := none } := by
    intro c member isSpare
    exact (nodup_append.mp sound.once).2.2 c.ptr (mem_map_of_mem member) c.ptr isSpare rfl
  have known : ∀ c ∈ cq.chunks, c.ptr < m.nextChunk := fun c member =>
    sound.known c.ptr (mem_append_left _ (mem_map_of_mem member))
  rcases reset_fold_spec emptied rfl (chunks_once sound.toArranged) apart known with
    ⟨order, isEmpty, isPtrs⟩
  unfold Chunkqueue.reset
  generalize cq.chunks.foldl Chunkqueue.pushUnusedChunk { cq with chunks := [], last := none } = result
    at order isEmpty isPtrs
  refine ⟨⟨⟨order.isLast, order.once, order.known, order.tempOnce, order.chunk, order.spare,
    order.unwritten⟩, ?_⟩, evolves_within m ?_ ?_, ?_⟩
  · unfold Chunkqueue.length
    rw [isEmpty]
    rfl
  · intro p member
    rcases isPtrs p member with isSpare | isChunk
    · exact mem_append_right _ isSpare
    · exact mem_append_left _ isChunk
  · intro name isTemp
    change name ∈ temps result at isTemp
    unfold temps at isTemp
    rw [isEmpty] at isTemp
    cases isTemp
  · unfold content
    rw [isEmpty]
    rfl

theorem prepend_buffer_spec (sound : Sound m cq) (mem : Buffer) :
    ∃ m' cq', cq.prependBuffer m mem = (m', cq') ∧ Changes m cq m' cq' (mem.bytes ++ content m cq) := by
  unfold Chunkqueue.prependBuffer
  by_cases isEmpty : mem.bytes = []
  · rw [if_pos isEmpty, isEmpty]
    exact ⟨m, cq, rfl, sound, evolves_refl m _, rfl⟩
  · rw [if_neg isEmpty]
    rcases get_unused_chunk_spec sound with
      ⟨next, cq₁, c, isUnused, sound₁, sameChunks, spare, isNew, known, later, ours, subset, -, -, -⟩
    rw [isUnused]
    have bytes : chunkBytes { m with nextChunk := next }
      { c with type := .memChunk, mem := mem } = mem.bytes := by
      change mem.bytes.drop c.offset = mem.bytes
      rw [spare.offset, drop_zero]
    have chunkSound : ChunkSound { m with nextChunk := next } { c with type := .memChunk, mem := mem } :=
      mem_chunk_sound rfl (Nat.le_trans (Nat.le_of_eq spare.offset) (Nat.zero_le _))
    refine ⟨_, _, rfl, ⟨⟨?_, nodup_cons.mpr ⟨isNew, sound₁.once⟩, ?_, sound₁.tempOnce, ?_, sound₁.spare,
      sound₁.unwritten⟩, ?_⟩, ⟨later, Nat.le_refl _, ?_, ?_, fun _ => prefix_rfl, fun _ _ _ => rfl⟩, ?_⟩
    · have isLast := sound₁.isLast
      unfold Chunkqueue.prependChunk
      cases isChunks : cq₁.chunks with
      | nil =>
        rw [isChunks] at isLast
        rw [isLast]
        rfl
      | cons first rest =>
        rw [isChunks] at isLast
        rw [getLast?_cons_cons, ← isLast, if_neg]
        rw [isLast, getLast?_cons]
        nofun
    · intro p member
      rcases mem_cons.mp member with rfl | before
      · exact known
      · exact sound₁.known p before
    · intro c' member
      rcases mem_cons.mp member with rfl | before
      · exact chunkSound
      · exact sound₁.chunk c' before
    · have balanced := sound₁.balanced
      unfold Chunkqueue.prependChunk Chunkqueue.length at *
      dsimp only at *
      rw [map_cons, sum_cons]
      omega
    · intro p member
      rcases mem_cons.mp member with rfl | before
      · rcases ours with isOurs | isNext
        · exact .inl isOurs
        · exact .inr (Nat.le_of_eq isNext.symm)
      · exact .inl (subset p before)
    · intro name member
      left
      change name ∈ temps cq
      unfold temps
      rw [← sameChunks]
      exact member
    · unfold content Chunkqueue.prependChunk
      rw [flatMap_cons, bytes, sameChunks]
      rfl

theorem replace_last_spec (order : Arranged m cq) {c' : Chunk}
    (isChunks : cq.chunks = front ++ [c]) (samePtr : c'.ptr = c.ptr) (chunkSound : ChunkSound m c')
    (sameFile : openTemp c' = true → openTemp c = true ∧ c'.name = c.name) :
    Arranged m { cq with chunks := front ++ [c'] } ∧
      Evolves m m (holdings cq) (holdings { cq with chunks := front ++ [c'] }) := by
  have isPtrs : ptrs { cq with chunks := front ++ [c'] } = ptrs cq := by
    unfold ptrs
    rw [isChunks]
    simp [samePtr]
  have isFront : temps cq = temps { cq with chunks := front } ++ temps { cq with chunks := [c] } := by
    rw [← temps_append]
    unfold temps
    rw [isChunks]
  have isTemps : (temps { cq with chunks := front ++ [c'] }).Sublist (temps cq) := by
    rw [temps_append, isFront, temps_single, temps_single]
    apply List.Sublist.append (List.Sublist.refl _)
    by_cases isOpen : openTemp c' = true
    · rcases sameFile isOpen with ⟨wasOpen, sameName⟩
      rw [if_pos isOpen, if_pos wasOpen, sameName]
    · rw [if_neg isOpen]
      exact nil_sublist _
  refine ⟨⟨?_, ?_, ?_, order.tempOnce.sublist isTemps, ?_, order.spare, order.unwritten⟩,
    evolves_within m ?_ ?_⟩
  · rw [order.isLast, isChunks, getLast?_append, getLast?_append, getLast?_singleton,
      getLast?_singleton, Option.some_or, Option.some_or, Option.map_some, Option.map_some, samePtr]
  · rw [isPtrs]
    exact order.once
  · rw [isPtrs]
    exact order.known
  · intro c'' member
    rcases mem_append.mp member with before | isLast
    · exact order.chunk c'' (isChunks ▸ mem_append_left _ before)
    · rw [mem_singleton.mp isLast]
      exact chunkSound
  · intro p member
    change p ∈ ptrs cq
    rw [← isPtrs]
    exact member
  · intro name member
    exact isTemps.subset member

theorem content_append (c : Chunk) (isChunks : cq.chunks = front ++ [c]) :
    content m cq = front.flatMap (chunkBytes m) ++ chunkBytes m c := by
  unfold content
  rw [isChunks, flatMap_append, flatMap_singleton]

theorem length_append_last (c : Chunk) (isChunks : cq.chunks = front ++ [c]) :
    cq.length = (front.map chunkRemainingLength).sum + chunkRemainingLength c := by
  unfold Chunkqueue.length
  rw [isChunks, map_append, sum_append, map_singleton, sum_singleton]

theorem last_ptr (order : Arranged m cq) (isChunks : cq.chunks = front ++ [c]) : cq.last = some c.ptr := by
  rw [order.isLast, isChunks, getLast?_append, getLast?_singleton]
  rfl

theorem last_chunk_some (order : Arranged m cq) (isChunks : cq.chunks = front ++ [c]) :
    cq.lastChunk = some c := by
  rw [last_chunk_eq order.isLast (chunks_once order), isChunks, getLast?_append, getLast?_singleton]
  rfl

theorem prepare_copy_bytes (b : Buffer) (size : Nat) : (b.stringPrepareCopy size).bytes = [] := rfl

theorem prepare_append_bytes (b : Buffer) (size : Nat) : (b.stringPrepareAppend size).bytes = b.bytes := by
  unfold Buffer.stringPrepareAppend
  by_cases isEmpty : b.bytes = []
  · rw [if_pos isEmpty, prepare_copy_bytes, isEmpty]
  · rw [if_neg isEmpty]

theorem prepare_last_bytes (b : Buffer) (minSize allocSize : Nat) :
    (Chunkqueue.prepareLast b minSize allocSize).bytes = b.bytes := by
  unfold Chunkqueue.prepareLast
  by_cases isEmpty : b.bytes = []
  · rw [if_pos isEmpty, prepare_copy_bytes, isEmpty]
  · rw [if_neg isEmpty]
    by_cases small : b.stringSpace < minSize ∧ b.size ≤ 256
    · dsimp only
      split_ifs
      all_goals first | exact prepare_append_bytes _ _ | rfl
    · rw [if_neg small]

theorem set_last_mem_spec (sound : Sound m cq) (isChunks : cq.chunks = front ++ [c])
    (isMem : c.type = .memChunk) {added : Bytes} (isBytes : b.bytes = c.mem.bytes ++ added) :
    Appends m cq m { cq with
      chunks := front ++ [{ c with mem := b }], bytesIn := cq.bytesIn + added.length } added := by
  have wasSound := sound.chunk c (isChunks ▸ mem_append_right _ (mem_singleton_self c))
  have offset := wasSound.offset
  unfold chunkLength at offset
  rw [isMem] at offset
  have chunkSound : ChunkSound m { c with mem := b } := by
    have isMem' : ({ c with mem := b } : Chunk).type = .memChunk := isMem
    apply mem_chunk_sound isMem'
    rw [isBytes, length_append]
    exact Nat.le_add_right_of_le offset
  have notOpen : openTemp { c with mem := b } = false := not_open_mem isMem
  have samePtr : ({ c with mem := b } : Chunk).ptr = c.ptr := rfl
  rcases replace_last_spec sound.toArranged isChunks samePtr chunkSound
    (fun isOpen => absurd (notOpen.symm.trans isOpen) Bool.false_ne_true) with ⟨order, evolves⟩
  refine ⟨⟨⟨⟨order.isLast, order.once, order.known, order.tempOnce, order.chunk, order.spare,
    order.unwritten⟩, ?_⟩, evolves, ?_⟩, rfl⟩
  · have balanced := sound.balanced
    rw [length_append_last c isChunks] at balanced
    rw [length_append_last { c with mem := b } rfl]
    unfold chunkRemainingLength chunkLength at *
    rw [isMem] at *
    dsimp only at *
    rw [isBytes, length_append]
    omega
  · rw [content_append c isChunks, content_append { c with mem := b } rfl, append_assoc]
    unfold chunkBytes
    rw [isMem]
    rw [isBytes, drop_append_of_le_length offset]

theorem modify_mem_eq (sound : Sound m cq) (isChunks : cq.chunks = front ++ [c])
    (change : Chunk → Chunk) : cq.modifyLast change = { cq with chunks := front ++ [change c] } :=
  modify_last_eq isChunks (last_ptr sound.toArranged isChunks) (chunks_once sound.toArranged) change

structure HasMemory (cq : Chunkqueue) (space : Nat) : Prop where
  last : ∃ front c, cq.chunks = front ++ [c] ∧ c.type = .memChunk ∧ space = c.mem.stringSpace

theorem prepare_append_space (isEmpty : b.bytes = []) {size : Nat} :
    size ≤ (b.stringPrepareAppend size).stringSpace := by
  unfold Buffer.stringPrepareAppend
  rw [if_pos isEmpty]
  unfold Buffer.stringPrepareCopy Buffer.stringSpace Buffer.alignSize
  dsimp only [length_nil]
  split <;> split <;> omega

theorem get_memory_new_spec (sound : Sound m cq) {allocSize : Nat} :
    ∃ m' cq' space, cq.getMemoryNew m allocSize = (m', cq', space) ∧ Appends m cq m' cq' [] ∧
      HasMemory cq' space ∧
      allocSize ≤ space := by
  unfold Chunkqueue.getMemoryNew
  rcases append_new_spec sound (fun c => { c with type := .memChunk }) (fun _ => rfl)
    (fun c spare => ⟨mem_chunk_sound rfl (Nat.le_trans (Nat.le_of_eq spare.offset) (Nat.zero_le _)),
      rfl⟩) with
    ⟨m₁, cq₁, c, isUnused, spare, appends, isChunks⟩
  have noBytes : chunkBytes m { c with type := .memChunk } = [] := by
    change c.mem.bytes.drop c.offset = []
    rw [spare.bytes, drop_nil]
  rw [noBytes] at appends
  rw [isUnused]
  dsimp only
  rw [modify_mem_eq appends.sound isChunks]
  have isBytes : (c.mem.stringPrepareAppend allocSize).bytes = c.mem.bytes ++ [] := by
    rw [prepare_append_bytes, append_nil]
  have prepared := set_last_mem_spec appends.sound isChunks rfl isBytes
  exact ⟨_, _, _, rfl, appends_trans appends prepared, ⟨cq.chunks, _, rfl, rfl, rfl⟩,
    prepare_append_space spare.bytes⟩

theorem get_memory_spec (sound : Sound m cq) (minSize allocSize : Nat) :
    ∃ m' cq' space, cq.getMemory m minSize allocSize = (m', cq', space) ∧ Appends m cq m' cq' [] ∧
      HasMemory cq' space ∧ minSize ≤ space := by
  unfold Chunkqueue.getMemory
  dsimp only
  generalize isLeast : (if minSize = 0 then 1024 else minSize) = least
  generalize isSize : (if (if allocSize = 0 then 4096 else allocSize) < least then least
    else (if allocSize = 0 then 4096 else allocSize)) = size
  have asked : minSize ≤ least := by
    rw [← isLeast]
    split <;> omega
  have enough : minSize ≤ size := by
    rw [← isSize]
    split <;> split <;> omega
  have fresh {cq : Chunkqueue} (sound : Sound m cq) : ∃ m' cq' space,
      cq.getMemoryNew m size = (m', cq', space) ∧
      Appends m cq m' cq' [] ∧ HasMemory cq' space ∧ minSize ≤ space := by
    rcases get_memory_new_spec sound with ⟨m', cq', space, isResult, appends, hasMemory, room⟩
    exact ⟨m', cq', space, isResult, appends, hasMemory, Nat.le_trans enough room⟩
  rcases eq_nil_or_concat cq.chunks with isNil | ⟨front, c, isChunks⟩
  · have noLast : cq.lastChunk = none := by
      rw [last_chunk_eq sound.isLast (chunks_once sound.toArranged), isNil]
      rfl
    rw [noLast]
    exact fresh sound
  · rw [concat_eq_append] at isChunks
    rw [last_chunk_some sound.toArranged isChunks]
    dsimp only
    by_cases isMem : c.type = .memChunk
    · rw [if_pos isMem, modify_mem_eq sound isChunks]
      have isBytes : (Chunkqueue.prepareLast c.mem least size).bytes = c.mem.bytes ++ [] := by
        rw [prepare_last_bytes, append_nil]
      have prepared := set_last_mem_spec sound isChunks isMem isBytes
      by_cases large : (Chunkqueue.prepareLast c.mem least size).stringSpace ≥ least
      · rw [if_pos large]
        exact ⟨_, _, _, rfl, prepared, ⟨front, _, rfl, isMem, rfl⟩, Nat.le_trans asked large⟩
      · rw [if_neg large]
        rcases fresh prepared.sound with ⟨m', cq', space, isResult, appends, rest⟩
        exact ⟨m', cq', space, isResult, appends_trans prepared appends, rest⟩
    · rw [if_neg isMem]
      exact fresh sound

theorem use_memory_spec (sound : Sound m cq) {space : Nat} (hasMemory : HasMemory cq space) {written : Bytes}
    (fits : written.length ≤ space) : ∃ cq', cq.useMemory written = some cq' ∧
    Appends m cq m cq' written := by
  rcases hasMemory.last with ⟨front, c, isChunks, isMem, isSpace⟩
  unfold Chunkqueue.useMemory
  rw [last_chunk_some sound.toArranged isChunks]
  dsimp only
  have allowed : c.type = .memChunk ∧
      (written = [] ∨ c.mem.bytes.length + 1 + written.length ≤ c.mem.size) := by
    refine ⟨isMem, ?_⟩
    cases written with
    | nil => exact .inl rfl
    | cons byte rest =>
      rw [isSpace] at fits
      unfold Buffer.stringSpace at fits
      rw [List.length_cons] at fits ⊢
      by_cases isZero : c.mem.size = 0
      · rw [if_pos isZero] at fits
        omega
      · rw [if_neg isZero] at fits
        omega
  rw [if_pos allowed]
  by_cases some : 0 < written.length
  · rw [if_pos some, modify_mem_eq sound isChunks]
    exact ⟨_, rfl, set_last_mem_spec sound isChunks isMem rfl⟩
  · rw [if_neg some]
    have isNone : written = [] := length_eq_zero_iff.mp (by omega)
    subst isNone
    by_cases isEmpty : c.mem.bytes = []
    · rw [if_pos isEmpty, modify_mem_eq sound isChunks]
      have isBytes : c.mem.reset.bytes = c.mem.bytes ++ [] := by
        rw [isEmpty]
        rfl
      exact ⟨_, rfl, set_last_mem_spec sound isChunks isMem isBytes⟩
    · rw [if_neg isEmpty]
      exact ⟨cq, rfl, appends_nil sound⟩

theorem sound_writes (sound : Sound m cq) (writes : List Nat) : Sound { m with writes := writes } cq :=
  ⟨⟨sound.isLast, sound.once, sound.known, sound.tempOnce,
    fun c member => ⟨(sound.chunk c member).offset, (sound.chunk c member).stored,
      (sound.chunk c member).ends⟩,
    sound.spare, sound.unwritten⟩, sound.balanced⟩

theorem appends_writes {bytes : Bytes} (appends : Appends m cq m' cq' bytes) :
    Appends m cq { m' with writes := writes } cq' bytes :=
  ⟨⟨sound_writes appends.sound writes,
    ⟨appends.evolves.chunks, appends.evolves.names, appends.evolves.addresses,
    appends.evolves.tempfiles, appends.evolves.grows, appends.evolves.keeps⟩, appends.holds⟩,
    appends.sameOut⟩

/-- The queue ends with a temporary file to which more can be written. -/
structure HasTempfile (cq : Chunkqueue) : Prop where
  last : ∃ front c, cq.chunks = front ++ [c] ∧ openTemp c = true ∧ c.offset = 0

theorem get_append_tempfile_spec (sound : Sound m cq) :
    ∃ m' cq', cq.getAppendTempfile m = (m', cq') ∧ Appends m cq m' cq' [] ∧ HasTempfile cq' := by
  -- the next name stands for a file that is now there
  have sound₀ : Sound { m with nextFile := m.nextFile + 1 } cq :=
    ⟨⟨sound.isLast, sound.once, sound.known, sound.tempOnce, fun c member =>
      chunk_sound_grow (sound.chunk c member) (fun _ => prefix_rfl) (Nat.le_succ _) (fun _ => rfl),
      sound.spare,
      fun name isNew => sound.unwritten name (Nat.le_of_succ_le isNew)⟩, sound.balanced⟩
  rcases get_unused_chunk_spec sound₀ with
    ⟨next, cq₁, c, isUnused, sound₁, sameChunks, spare, isNew, known, later, ours, subset, -, sameOut, -⟩
  have sameTemps : temps cq₁ = temps cq := by
    unfold temps
    rw [sameChunks]
  have isFile : (m.files m.nextFile).length = 0 := by
    rw [sound.unwritten m.nextFile (Nat.le_refl _)]
    rfl
  have notOurs : m.nextFile ∉ temps cq := by
    intro isTemp
    rcases mem_map.mp isTemp with ⟨c', isOpen, isName⟩
    rcases mem_filter.mp isOpen with ⟨member, isOpen⟩
    have isOld := ((sound.chunk c' member).ends isOpen).2
    rw [isName] at isOld
    exact Nat.lt_irrefl _ isOld
  unfold Chunkqueue.getAppendTempfile
  dsimp only
  rw [isUnused]
  have chunkSound : ChunkSound { m with nextFile := m.nextFile + 1, nextChunk := next }
      { c with type := .fileChunk, fd := true, isTemp := true, name := m.nextFile, length := 0 } := by
    refine ⟨Nat.le_of_eq spare.offset, ?_, ?_⟩
    · intro _
      rw [spare.start]
      exact Nat.zero_le _
    · intro _
      rw [spare.start, isFile]
      exact ⟨rfl, Nat.lt_succ_self _⟩
  rcases append_chunk_spec sound₁ chunkSound isNew known (fun _ => by
    rw [sameTemps]
    exact notOurs) with ⟨soundAfter, isChunks, isPtrs, isTemps⟩
  refine ⟨_, _, rfl, ⟨⟨soundAfter,
    ⟨later, Nat.le_succ _, ?_, ?_, fun _ => prefix_rfl, fun _ _ _ => rfl⟩, ?_⟩,
    sameOut⟩, ⟨_, _, isChunks, rfl, spare.offset⟩⟩
  · intro p member
    rcases (isPtrs p).mp member with before | rfl
    · exact .inl (subset p before)
    · rcases ours with isOurs | isNext
      · exact .inl isOurs
      · exact .inr (Nat.le_of_eq isNext.symm)
  · intro name member
    rcases (isTemps name).mp member with before | ⟨-, isName⟩
    · left
      change name ∈ temps cq
      rw [← sameTemps]
      exact before
    · exact .inr (Nat.le_of_eq isName.symm)
  · unfold content
    rw [isChunks, sameChunks, flatMap_append, flatMap_singleton]
    congr 1
    change ((m.files m.nextFile).drop (c.start + c.offset)).take (0 - c.offset) = []
    rw [Nat.zero_sub, take_zero]

theorem open_tempfile_iff (c : Chunk) :
    Chunkqueue.isOpenTempfile c = true ↔ openTemp c = true ∧ c.offset = 0 := by
  unfold Chunkqueue.isOpenTempfile openTemp
  simp

theorem tempfile_for_write_spec (sound : Sound m cq) :
    ∃ m' cq', cq.tempfileForWrite m = (m', cq') ∧ Appends m cq m' cq' [] ∧ HasTempfile cq' := by
  unfold Chunkqueue.tempfileForWrite
  rcases eq_nil_or_concat cq.chunks with isNil | ⟨front, c, isChunks⟩
  · have noLast : cq.lastChunk = none := by
      rw [last_chunk_eq sound.isLast (chunks_once sound.toArranged), isNil]
      rfl
    rw [noLast]
    exact get_append_tempfile_spec sound
  · rw [concat_eq_append] at isChunks
    rw [last_chunk_some sound.toArranged isChunks]
    dsimp only
    by_cases isOpen : Chunkqueue.isOpenTempfile c = true
    · rw [if_pos isOpen]
      rcases (open_tempfile_iff c).mp isOpen with ⟨isTemp, isUnread⟩
      by_cases large : c.length ≥ cq.uploadTempFileSize
      · -- a file that is large enough is closed, which changes none of its bytes
        rw [if_pos large, modify_mem_eq sound isChunks]
        have wasSound := sound.chunk c (isChunks ▸ mem_append_right _ (mem_singleton_self c))
        have notOpen : openTemp { c with fd := false } = false := by
          exact Bool.and_false _
        have chunkSound : ChunkSound m { c with fd := false } :=
          ⟨wasSound.offset, wasSound.stored, fun stillOpen =>
            absurd (notOpen.symm.trans stillOpen) Bool.false_ne_true⟩
        have samePtr : ({ c with fd := false } : Chunk).ptr = c.ptr := rfl
        rcases replace_last_spec sound.toArranged isChunks samePtr chunkSound
          (fun stillOpen => absurd (notOpen.symm.trans stillOpen) Bool.false_ne_true) with ⟨order, evolves⟩
        have closed : Appends m cq m { cq with chunks := front ++ [{ c with fd := false }] } [] := by
          refine ⟨⟨⟨order, ?_⟩, evolves, ?_⟩, rfl⟩
          · have balanced := sound.balanced
            rw [length_append_last c isChunks] at balanced
            rw [length_append_last { c with fd := false } rfl]
            exact balanced
          · rw [content_append c isChunks, content_append { c with fd := false } rfl, append_nil]
            rfl
        rcases get_append_tempfile_spec closed.sound with ⟨m', cq', isResult, appends, hasTempfile⟩
        exact ⟨m', cq', isResult, appends_trans closed appends, hasTempfile⟩
      · rw [if_neg large]
        exact ⟨m, cq, rfl, appends_nil sound, ⟨front, c, isChunks, isTemp, isUnread⟩⟩
    · rw [if_neg isOpen]
      exact get_append_tempfile_spec sound

theorem open_temp_file (isOpen : openTemp c = true) : c.type = .fileChunk := by
  unfold openTemp at isOpen
  simp only [Bool.and_eq_true, beq_iff_eq] at isOpen
  exact isOpen.1.1

theorem write_tempfile_spec (sound : Sound m cq) (hasTempfile : HasTempfile cq) {written : Bytes} :
    ∃ m' cq', cq.writeTempfile m written = (m', cq') ∧ Appends m cq m' cq' written ∧ HasTempfile cq' := by
  rcases hasTempfile.last with ⟨front, c, isChunks, isOpen, isUnread⟩
  have isFile := open_temp_file isOpen
  have cMember : c ∈ cq.chunks := isChunks ▸ mem_append_right _ (mem_singleton_self c)
  have wasSound := sound.chunk c cMember
  rcases wasSound.ends isOpen with ⟨ends, isOld⟩
  unfold Chunkqueue.writeTempfile
  rw [last_chunk_some sound.toArranged isChunks]
  rw [modify_mem_eq sound isChunks]
  dsimp only
  let longer := { c with length := c.length + written.length }
  generalize isGrown : update m.files c.name (m.files c.name ++ written) = grown
  have atName : grown c.name = m.files c.name ++ written := isGrown ▸ update_self ..
  have elsewhere : ∀ name, name ≠ c.name → grown name = m.files name := fun name differ =>
    isGrown ▸ update_of_ne differ _ _
  have grows : ∀ name, m.files name <+: grown name := by
    intro name
    by_cases isName : name = c.name
    · rw [isName, atName]
      exact prefix_append _ _
    · exact ⟨[], by rw [elsewhere name isName, append_nil]⟩
  -- no other chunk writes to this file
  have tempOnce := sound.tempOnce
  have isTemps : temps cq = temps { cq with chunks := front } ++ [c.name] := by
    have single := temps_single cq c
    rw [if_pos isOpen] at single
    rw [← single, ← temps_append]
    unfold temps
    rw [isChunks]
  rw [isTemps] at tempOnce
  have apart : ∀ c' ∈ front, openTemp c' = true → c'.name ≠ c.name := by
    intro c' member isOpen' same
    have inFront : c'.name ∈ temps { cq with chunks := front } := temps_mem member isOpen'
    exact (nodup_append.mp tempOnce).2.2 c'.name inFront c.name (mem_singleton_self _) same
  have frontBytes : ∀ c' ∈ front, chunkBytes { m with files := grown } c' = chunkBytes m c' := by
    intro c' member
    exact chunk_bytes_grow (sound.chunk c' (isChunks ▸ mem_append_left _ member)) grows
  refine ⟨_, _, rfl, ⟨⟨⟨⟨?_, ?_, ?_, ?_, ?_, sound.spare, ?_⟩, ?_⟩,
    ⟨Nat.le_refl _, Nat.le_refl _, ?_, ?_, grows, ?_⟩, ?_⟩,
    rfl⟩, ⟨front, _, rfl, isOpen, isUnread⟩⟩
  · rw [last_ptr sound.toArranged isChunks, getLast?_append, getLast?_singleton]
    rfl
  · have once := sound.once
    unfold ptrs at once ⊢
    rw [isChunks, map_append] at once
    rw [map_append]
    exact once
  · intro p member
    apply sound.known p
    unfold ptrs at member ⊢
    rw [isChunks, map_append]
    rw [map_append] at member
    exact member
  · change (temps { cq with chunks := front ++ [longer] }).Nodup
    have isOpen' : openTemp longer = true := isOpen
    rw [temps_append, temps_single, if_pos isOpen']
    exact tempOnce
  · intro c' member
    rcases mem_append.mp member with inFront | isLast
    · have wasSound' := sound.chunk c' (isChunks ▸ mem_append_left _ inFront)
      exact chunk_sound_grow wasSound' grows (Nat.le_refl m.nextFile) fun isOpen' =>
        elsewhere c'.name (apart c' inFront isOpen')
    · rw [mem_singleton.mp isLast]
      refine ⟨?_, ?_, ?_⟩
      · rw [isFile]
        change c.offset ≤ c.length + written.length
        omega
      · intro _
        change c.start + (c.length + written.length) ≤ (grown c.name).length
        rw [atName, length_append]
        omega
      · intro _
        change c.start + (c.length + written.length) = (grown c.name).length ∧ _
        rw [atName, length_append]
        exact ⟨by omega, isOld⟩
  · intro name isNew
    change grown name = []
    rw [elsewhere name (fun same => Nat.not_le_of_lt isOld (same ▸ isNew))]
    exact sound.unwritten name isNew
  · have balanced := sound.balanced
    rw [length_append_last c isChunks] at balanced
    rw [length_append_last longer rfl]
    unfold longer chunkRemainingLength chunkLength at *
    rw [isFile] at *
    dsimp only at *
    omega
  · intro p member
    left
    change p ∈ ptrs cq
    unfold ptrs
    rw [isChunks, map_append]
    change p ∈ (front ++ [longer]).map Chunk.ptr ++ _ at member
    rw [map_append] at member
    exact member
  · intro name member
    left
    have isOpen' : openTemp longer = true := isOpen
    change name ∈ temps { cq with chunks := front ++ [longer] } at member
    rw [temps_append, temps_single, if_pos isOpen'] at member
    change name ∈ temps cq
    rw [isTemps]
    exact member
  · intro name _ notOurs
    apply elsewhere name
    intro same
    apply notOurs
    change name ∈ temps cq
    rw [isTemps, same]
    exact mem_append_right _ (mem_singleton_self _)
  · rw [content_append c isChunks, content_append longer rfl,
      flatMap_congr frontBytes, append_assoc]
    unfold longer chunkBytes
    rw [isFile]
    dsimp only
    rw [atName, isUnread, Nat.add_zero, Nat.sub_zero, Nat.sub_zero, drop_append_of_le_length (by omega)]
    have isLength : ((m.files c.name).drop c.start).length = c.length := by
      rw [length_drop]
      omega
    rw [← isLength, take_length_add_append, take_length]
    rw [take_length]

theorem append_mem_to_tempfile_loop_spec (sound : Sound m cq) (mem : Bytes) :
    ∃ m' cq', cq.appendMemToTempfileLoop m mem writes = (m', cq') ∧ Appends m cq m' cq' mem := by
  induction writes generalizing m cq mem with
  | nil =>
    unfold Chunkqueue.appendMemToTempfileLoop
    rcases tempfile_for_write_spec sound with ⟨m₁, cq₁, isFile, appends₁, hasTempfile⟩
    rcases write_tempfile_spec appends₁.sound hasTempfile with ⟨m₂, cq₂, isWritten, appends₂, -⟩
    rw [isFile]
    dsimp only
    rw [isWritten]
    exact ⟨_, cq₂, rfl, appends_writes (appends_trans appends₁ appends₂)⟩
  | cons written writes ih =>
    unfold Chunkqueue.appendMemToTempfileLoop
    rcases tempfile_for_write_spec sound with ⟨m₁, cq₁, isFile, appends₁, hasTempfile⟩
    rw [isFile]
    dsimp only
    by_cases whole : written ≥ mem.length
    · rw [if_pos whole]
      rcases write_tempfile_spec appends₁.sound hasTempfile with ⟨m₂, cq₂, isWritten, appends₂, -⟩
      rw [isWritten]
      exact ⟨_, cq₂, rfl, appends_writes (appends_trans appends₁ appends₂)⟩
    · rw [if_neg whole]
      rcases write_tempfile_spec appends₁.sound hasTempfile with ⟨m₂, cq₂, isWritten, appends₂, -⟩
      rw [isWritten]
      rcases ih appends₂.sound (mem.drop written) with ⟨m', cq', isResult, appends₃⟩
      refine ⟨m', cq', isResult, ?_⟩
      have total := appends_trans (appends_trans appends₁ appends₂) appends₃
      rw [nil_append, take_append_drop] at total
      exact total

theorem append_mem_to_tempfile_spec (sound : Sound m cq) (mem : Bytes) :
    ∃ m' cq', cq.appendMemToTempfile m mem = (m', cq') ∧ Appends m cq m' cq' mem :=
  append_mem_to_tempfile_loop_spec sound mem

end ServerCore.LighttpdChunkCalls
