import ServerCore.LighttpdChunkContent

/-!
# Empty chunks of a chunkqueue

`chunkqueue_remove_empty_chunks`, which the code calls when it cannot write to a
temporary file.
-/

namespace ServerCore.LighttpdChunkEmpty

open LighttpdChunk LighttpdChunkContent List

variable {cq : Chunkqueue} {list : List Chunk}

/-- The loop at the first chunk of a list, with the chunks that it has passed. It reads `c->next`
also when it has gone on to a `c` that is `NULL`, which has no result. -/
def removeEmptyLoop (cq : Chunkqueue) (passed : List Chunk) : List Chunk → Option Chunkqueue
  | [] => none
  | [_] => some cq
  | c :: next :: rest =>
    if chunkRemainingLength next = 0 then
      let cq := { cq with
        chunks := passed ++ c :: rest
        last := if cq.last = some next.ptr then some c.ptr else cq.last }
      removeEmptyLoop (cq.pushUnusedChunk next) (passed ++ [c]) rest
    else removeEmptyLoop cq (passed ++ [c]) (next :: rest)

def removeEmptyChunks (cq : Chunkqueue) : Option Chunkqueue :=
  let cq := cq.removeFinishedChunks
  if cq.chunks = [] then some cq else removeEmptyLoop cq [] cq.chunks

structure Linked (cq : Chunkqueue) : Prop where
  isLast : cq.last = cq.chunks.getLast?.map Chunk.ptr
  once : (cq.chunks.map Chunk.ptr).Nodup
  offset : ∀ c ∈ cq.chunks, c.offset ≤ chunkLength c

def isEmptyChunk (c : Chunk) : Bool := chunkRemainingLength c == 0

structure Cleaned (cq after : Chunkqueue) : Prop where
  chunks : after.chunks = cq.chunks.filter fun c => !isEmptyChunk c
  last : after.last = after.chunks.getLast?.map Chunk.ptr

structure EmptiesApart (chunks : List Chunk) : Prop where
  apart : chunks.IsChain fun c next => isEmptyChunk c = true → isEmptyChunk next = false
  last : ∀ c ∈ chunks.getLast?, isEmptyChunk c = false

theorem empties_apart_cons (c next : Chunk) (rest : List Chunk) : EmptiesApart (c :: next :: rest) ↔
      (isEmptyChunk c = true → isEmptyChunk next = false) ∧ EmptiesApart (next :: rest) := by
  constructor
  · rintro ⟨apart, last⟩
    rw [isChain_cons_cons] at apart
    exact ⟨apart.1, apart.2, last⟩
  · rintro ⟨first, apart, last⟩
    exact ⟨isChain_cons_cons.mpr ⟨first, apart⟩, last⟩

theorem push_unused_same (cq : Chunkqueue) (c : Chunk) :
    (cq.pushUnusedChunk c).chunks = cq.chunks ∧ (cq.pushUnusedChunk c).last = cq.last := by
  unfold Chunkqueue.pushUnusedChunk
  split <;> exact ⟨rfl, rfl⟩

theorem last_differs {c next : Chunk} {rest : List Chunk}
    (once : ((c :: next :: rest).map Chunk.ptr).Nodup) :
    (next :: rest).getLast?.map Chunk.ptr ≠ some c.ptr := by
  intro same
  rcases Option.map_eq_some_iff.mp same with ⟨final, isFinal, samePtr⟩
  apply (nodup_cons.mp once).1
  rw [← samePtr]
  exact mem_map_of_mem (mem_of_getLast? isFinal)

theorem remove_empty_loop_keeps {passed : List Chunk} {after : Chunkqueue}
    (isChunks : cq.chunks = passed ++ list) (isResult : removeEmptyLoop cq passed list = some after) :
    passed ++ list.take 1 <+: after.chunks := by
  fun_induction removeEmptyLoop cq passed list with
  | case1 cq passed => cases isResult
  | case2 cq passed c =>
    cases isResult
    rw [isChunks]
    exact prefix_rfl
  | case3 cq passed c next rest isEmpty cq₁ ih =>
    have isChunks₁ : (cq₁.pushUnusedChunk next).chunks = passed ++ [c] ++ rest := by
      rw [(push_unused_same cq₁ next).1, append_assoc]
      rfl
    exact (prefix_append _ _).trans (ih isChunks₁ isResult)
  | case4 cq passed c next rest notEmpty ih =>
    have isChunks₁ : cq.chunks = passed ++ [c] ++ next :: rest := by
      rw [isChunks, append_assoc]
      rfl
    exact (prefix_append _ _).trans (ih isChunks₁ isResult)

theorem remove_empty_loop_iff (cq : Chunkqueue) (passed list : List Chunk)
    (isChunks : cq.chunks = passed ++ list)
    (isLast : cq.last = cq.chunks.getLast?.map Chunk.ptr)
    (once : (list.map Chunk.ptr).Nodup) (notNil : list ≠ [])
    (head : ∀ c ∈ list.head?, isEmptyChunk c = false) :
    (∃ after, removeEmptyLoop cq passed list = some after ∧
      after.chunks = passed ++ list.filter (fun c => !isEmptyChunk c) ∧
      after.last = after.chunks.getLast?.map Chunk.ptr) ↔ EmptiesApart list := by
  fun_induction removeEmptyLoop cq passed list with
  | case1 cq passed => cases notNil rfl
  | case2 cq passed c =>
    have notEmpty : isEmptyChunk c = false := head c rfl
    constructor
    · intro _
      refine ⟨.singleton c, ?_⟩
      intro c' isFinal
      cases isFinal
      exact notEmpty
    · intro _
      refine ⟨cq, rfl, ?_, isLast⟩
      rw [isChunks, filter_cons_of_pos (by rw [notEmpty]; rfl)]
      rfl
  | case3 cq passed c next rest isEmpty cq₁ ih =>
    have notEmpty : isEmptyChunk c = false := head c rfl
    have nextEmpty : isEmptyChunk next = true := by
      unfold isEmptyChunk
      rw [isEmpty]
      rfl
    have isChunks₁ : (cq₁.pushUnusedChunk next).chunks = passed ++ [c] ++ rest := by
      rw [(push_unused_same cq₁ next).1, append_assoc]
      rfl
    rw [empties_apart_cons, filter_cons_of_pos (by rw [notEmpty]; rfl),
      filter_cons_of_neg (by rw [nextEmpty]; decide), append_cons passed c (List.filter _ _)]
    cases rest with
    | nil =>
      -- the chunk behind the removed one is `NULL`
      constructor
      · rintro ⟨after, isResult, -⟩
        cases isResult
      · rintro ⟨-, -, last⟩
        exact absurd (last next rfl) (by rw [nextEmpty]; decide)
    | cons d rest =>
      rw [empties_apart_cons]
      by_cases dEmpty : isEmptyChunk d = true
      · -- the loop goes on from an empty chunk, which stays
        constructor
        · rintro ⟨after, isResult, isAfter, -⟩
          have kept := remove_empty_loop_keeps isChunks₁ isResult
          rw [isAfter, prefix_append_right_inj] at kept
          have member := kept.subset (mem_singleton_self d)
          rw [mem_filter, dEmpty] at member
          exact absurd member.2 (by decide)
        · rintro ⟨-, apart, -⟩
          rw [apart nextEmpty] at dEmpty
          cases dEmpty
      · have dNotEmpty := Bool.not_eq_true _ ▸ dEmpty
        rw [map_cons, nodup_cons] at once
        have isFinal : cq.last = (d :: rest).getLast?.map Chunk.ptr := by
          rw [isLast, isChunks, getLast?_append, getLast?_cons_cons, getLast?_cons_cons,
            getLast?_cons]
          rfl
        have isLast₁ : (cq₁.pushUnusedChunk next).last =
            (cq₁.pushUnusedChunk next).chunks.getLast?.map Chunk.ptr := by
          rw [(push_unused_same cq₁ next).2, isChunks₁, getLast?_append, getLast?_cons]
          change (if cq.last = some next.ptr then some c.ptr else cq.last) = _
          rw [if_neg (isFinal ▸ last_differs once.2), isFinal, getLast?_cons]
          rfl
        rw [ih isChunks₁ isLast₁ (nodup_cons.mp once.2).2 (cons_ne_nil _ _)
          (fun c' isHead => Option.some.inj isHead ▸ dNotEmpty)]
        rw [notEmpty, nextEmpty, dNotEmpty]
        tauto
  | case4 cq passed c next rest nextNotEmpty ih =>
    have notEmpty : isEmptyChunk c = false := head c rfl
    have isChunks₁ : cq.chunks = passed ++ [c] ++ next :: rest := by
      rw [isChunks, append_assoc]
      rfl
    have nextHead : isEmptyChunk next = false := beq_eq_false_iff_ne.mpr nextNotEmpty
    rw [empties_apart_cons, filter_cons_of_pos (by rw [notEmpty]; rfl),
      append_cons passed c (List.filter _ _),
      ih isChunks₁ isLast (nodup_cons.mp once).2 (cons_ne_nil _ _)
        (fun c' isHead => Option.some.inj isHead ▸ nextHead), notEmpty]
    tauto

theorem remove_finished_loop_linked (isChunks : cq.chunks = list)
    (isLast : cq.last = cq.chunks.getLast?.map Chunk.ptr) (once : (cq.chunks.map Chunk.ptr).Nodup) :
    (cq.removeFinishedLoop list).chunks = list.dropWhile isEmptyChunk ∧
      (cq.removeFinishedLoop list).last = (list.dropWhile isEmptyChunk).getLast?.map Chunk.ptr := by
  induction list generalizing cq with
  | nil =>
    rw [isChunks] at isLast
    exact ⟨isChunks, isLast⟩
  | cons c rest ih =>
    unfold Chunkqueue.removeFinishedLoop
    by_cases isOver : chunkRemainingLength c ≠ 0
    · have notEmpty : isEmptyChunk c = false := beq_eq_false_iff_ne.mpr isOver
      rw [if_pos isOver, dropWhile_cons_of_neg (by rw [notEmpty]; decide), ← isChunks]
      exact ⟨rfl, isLast⟩
    · have isEmpty : isEmptyChunk c = true := beq_iff_eq.mpr (Decidable.not_not.mp isOver)
      rw [if_neg isOver, dropWhile_cons_of_pos isEmpty, unlink_first_eq isChunks isLast once]
      rw [isChunks] at once
      have same := push_unused_same { cq with chunks := rest, last := rest.getLast?.map Chunk.ptr } c
      apply ih same.1
      · rw [same.1, same.2]
      · rw [same.1]
        exact (nodup_cons.mp once).2

theorem filter_drop_while (list : List Chunk) :
    (list.dropWhile isEmptyChunk).filter (fun c => !isEmptyChunk c) = list.filter fun c =>
    !isEmptyChunk c := by
  induction list with
  | nil => rfl
  | cons c rest ih =>
    cases isEmpty : isEmptyChunk c with
    | true => rw [dropWhile_cons_of_pos isEmpty, ih, filter_cons_of_neg (by rw [isEmpty]; decide)]
    | false => rw [dropWhile_cons_of_neg (by rw [isEmpty]; decide)]

/-- The function does its work just when, behind the first chunk that is not empty, each empty
chunk has one behind it that is not. -/
theorem removes_empty_iff {cq : Chunkqueue} (linked : Linked cq) :
    (∃ after, removeEmptyChunks cq = some after ∧ Cleaned cq after) ↔
      EmptiesApart (cq.chunks.dropWhile isEmptyChunk) := by
  rcases remove_finished_loop_linked rfl linked.isLast linked.once with ⟨isChunks, isLast⟩
  change cq.removeFinishedChunks.chunks = _ at isChunks
  change cq.removeFinishedChunks.last = _ at isLast
  rw [← isChunks] at isLast
  unfold removeEmptyChunks
  by_cases isNil : cq.removeFinishedChunks.chunks = []
  · rw [if_pos isNil, ← isChunks, isNil]
    constructor
    · intro _
      exact ⟨.nil, nofun⟩
    · intro _
      refine ⟨_, rfl, ?_, isLast⟩
      rw [← filter_drop_while, ← isChunks, isNil]
      rfl
  · have once : (cq.removeFinishedChunks.chunks.map Chunk.ptr).Nodup := by
      rw [isChunks]
      exact linked.once.sublist ((dropWhile_sublist _).map _)
    have head : ∀ c ∈ cq.removeFinishedChunks.chunks.head?, isEmptyChunk c = false := by
      intro c isHead
      have notEmpty := head?_dropWhile_not isEmptyChunk cq.chunks
      rw [isChunks] at isHead
      rw [isHead] at notEmpty
      exact notEmpty
    have sameFilter : (cq.removeFinishedChunks.chunks.filter fun c => !isEmptyChunk c) =
        cq.chunks.filter fun c => !isEmptyChunk c := by
      rw [isChunks, filter_drop_while]
    rw [if_neg isNil, ← isChunks, ← remove_empty_loop_iff _ [] _ rfl isLast once isNil head, sameFilter]
    constructor
    · rintro ⟨after, isResult, chunks, last⟩
      exact ⟨after, isResult, chunks, last⟩
    · rintro ⟨after, isResult, chunks, last⟩
      exact ⟨after, isResult, chunks, last⟩

def memoryOf (ptr : ChunkPtr) (bytes : Bytes) : Chunk := { chunkInit ptr with mem := ⟨bytes, 64⟩ }

theorem removes_empty_between : ∃ after,
    removeEmptyChunks ⟨[memoryOf 0 [], memoryOf 1 [7], memoryOf 2 [], memoryOf 3 [8]], some 3, [],
      0, 2, 0, 0⟩ = some after ∧
      Cleaned ⟨[memoryOf 0 [], memoryOf 1 [7], memoryOf 2 [], memoryOf 3 [8]], some 3,
        [], 0, 2, 0, 0⟩ after :=
  (removes_empty_iff ⟨rfl, by decide, by decide⟩).mpr ⟨by decide, by decide⟩

/-- Memory, and the temporary file to which nothing could be written. -/
def unwrittenTempfile : Chunkqueue :=
  ⟨[memoryOf 0 [7], { chunkInit 1 with type := .fileChunk, fd := true, isTemp := true }], some 1,
    [], 0, 1, 0, 0⟩

theorem remove_empty_follows_null : Linked unwrittenTempfile ∧
    ¬ ∃ after, removeEmptyChunks unwrittenTempfile = some after ∧ Cleaned unwrittenTempfile after := by
  refine ⟨⟨rfl, by decide, by decide⟩, ?_⟩
  rintro ⟨after, isResult, -⟩
  cases isResult

end ServerCore.LighttpdChunkEmpty
