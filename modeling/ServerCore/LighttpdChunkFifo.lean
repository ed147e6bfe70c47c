import ServerCore.LighttpdChunkCalls
import ServerCore.TransitionSystem

/-!
# Chunkqueues as queues of bytes

The functions that move chunks between two queues, and any number of queues with
any sequence of calls. What the calls do to the bytes is what they would do to
plain sequences of bytes.
-/

namespace ServerCore.LighttpdChunkFifo

open LighttpdChunk LighttpdChunkContent LighttpdChunkCalls TransitionSystem List Option Function

variable {len : Nat} {cq' dest' : Chunkqueue} {m' : Memory} {bytes : Bytes}
variable {more len : Nat} {c : Call} {list : List Chunk} {A : Type} {held : Chunkqueue → List A}

section Pair

variable {m m' m'' : Memory} {dest src dest' src' dest'' src'' : Chunkqueue}

structure Pair (m : Memory) (dest src : Chunkqueue) : Prop where
  destSound : Sound m dest
  srcSound : Sound m src
  apart : ∀ p ∈ ptrs dest, p ∉ ptrs src
  tempsApart : ∀ name ∈ temps dest, name ∉ temps src

/-- The first `len` bytes go from one queue to the end of another one. -/
structure Moves (m : Memory) (dest src : Chunkqueue) (m' : Memory) (dest' src' : Chunkqueue)
    (len : Nat) : Prop where
  pair : Pair m' dest' src'
  evolves : Evolves m m' (both (holdings dest) (holdings src)) (both (holdings dest') (holdings src'))
  atDest : content m' dest' = content m dest ++ (content m src).take len
  atSrc : content m' src' = (content m src).drop len
  destOut : dest'.bytesOut = dest.bytesOut
  srcIn : src'.bytesIn = src.bytesIn

theorem moves_none (pair : Pair m dest src) : Moves m dest src m dest src 0 :=
  ⟨pair, evolves_refl m _, by rw [take_zero, append_nil], by rw [drop_zero], rfl, rfl⟩

theorem moves_trans (first : Moves m dest src m' dest' src' len)
    (second : Moves m' dest' src' m'' dest'' src'' more) :
    Moves m dest src m'' dest'' src'' (len + more) := by
  refine ⟨second.pair, evolves_trans first.evolves second.evolves, ?_, ?_,
    second.destOut.trans first.destOut,
    second.srcIn.trans first.srcIn⟩
  · rw [second.atDest, first.atDest, first.atSrc, append_assoc, ← take_add]
  · rw [second.atSrc, first.atSrc, drop_drop]

theorem moves_all (moves : Moves m dest src m' dest' src' len)
    (enough : (content m src).length ≤ len) (isMore : len ≤ more) :
    Moves m dest src m' dest' src' more := by
  refine ⟨moves.pair, moves.evolves, ?_, ?_, moves.destOut, moves.srcIn⟩
  · rw [moves.atDest, take_of_length_le enough, take_of_length_le (by omega)]
  · rw [moves.atSrc, drop_eq_nil_of_le enough, drop_eq_nil_of_le (by omega)]

theorem other_apart {before after : Holdings} {other : Chunkqueue}
    (evolves : Evolves m m' before after) (sound : Sound m other)
    (apart : ∀ p ∈ ptrs other, ¬ before.ptr p)
    (tempsApart : ∀ name ∈ temps other, ¬ before.temp name) :
    (∀ p ∈ ptrs other, ¬ after.ptr p) ∧ ∀ name ∈ temps other, ¬ after.temp name := by
  constructor
  · intro p isOther isAfter
    rcases evolves.addresses p isAfter with isBefore | isNew
    · exact apart p isOther isBefore
    · exact Nat.not_le_of_lt (sound.known p isOther) isNew
  · intro name isOther isAfter
    rcases evolves.tempfiles name isAfter with isBefore | isNew
    · exact tempsApart name isOther isBefore
    · rcases mem_map.mp isOther with ⟨c, isOpen, isName⟩
      rcases mem_filter.mp isOpen with ⟨member, isOpen⟩
      have isOld := ((sound.chunk c member).ends isOpen).2
      rw [isName] at isOld
      exact Nat.not_le_of_lt isOld isNew

theorem pair_append (pair : Pair m dest src) (appends : Appends m dest m' dest' bytes) :
    Pair m' dest' src ∧ Evolves m m' (both (holdings dest) (holdings src))
      (both (holdings dest') (holdings src)) ∧
      content m' src = content m src := by
  rcases other_kept appends.evolves pair.srcSound appends.sound.unwritten
    (fun name isSrc isDest => pair.tempsApart name isDest isSrc)
    with ⟨srcSound, sameContent⟩
  rcases other_apart appends.evolves pair.srcSound (fun p isSrc isDest => pair.apart p isDest isSrc)
    (fun name isSrc isDest => pair.tempsApart name isDest isSrc) with ⟨apart, tempsApart⟩
  exact ⟨⟨appends.sound, srcSound, fun p isDest isSrc => apart p isSrc isDest,
    fun name isDest isSrc => tempsApart name isSrc isDest⟩,
      evolves_left appends.evolves _, sameContent⟩

theorem pair_shrink (pair : Pair m dest src) (sound : Sound m src')
    (isPtrs : ∀ p ∈ ptrs src', p ∈ ptrs src)
    (isTemps : ∀ name ∈ temps src', name ∈ temps src) :
    Pair m dest src' ∧ Evolves m m (both (holdings dest) (holdings src))
      (both (holdings dest) (holdings src')) := by
  refine ⟨⟨pair.destSound, sound, fun p isDest isSrc => pair.apart p isDest (isPtrs p isSrc),
    fun name isDest isSrc => pair.tempsApart name isDest (isTemps name isSrc)⟩,
      evolves_within m ?_ ?_⟩
  · rintro p (isDest | isSrc)
    · exact .inl isDest
    · exact .inr (isPtrs p isSrc)
  · rintro name (isDest | isSrc)
    · exact .inl isDest
    · exact .inr (isTemps name isSrc)

variable {c : Chunk} {rest : List Chunk}

theorem content_split (arranged : Arranged m src) (isChunks : src.chunks = c :: rest) :
    (content m src).take (chunkRemainingLength c) = chunkBytes m c ∧
      (content m src).drop (chunkRemainingLength c) = rest.flatMap (chunkBytes m) := by
  have isLength := chunk_bytes_length (arranged.chunk c (isChunks ▸ mem_cons_self ..))
  rw [content_cons isChunks, ← isLength]
  exact ⟨take_left, drop_left⟩

theorem consume_first (sound : Sound m src) (isChunks : src.chunks = c :: rest) :
    ∃ src', (src.unlinkFirst c rest).pushUnusedChunk c = src' ∧ src'.chunks = rest ∧
    src'.bytesOut = src.bytesOut ∧
      Sound m { src' with bytesOut := src.bytesOut + chunkRemainingLength c } ∧
      content m src' = (content m src).drop (chunkRemainingLength c) ∧ src'.bytesIn = src.bytesIn ∧
      (∀ p ∈ ptrs src', p ∈ ptrs src) ∧ (∀ name ∈ temps src', name ∈ temps src) := by
  rcases drop_first_spec sound.toArranged isChunks with
    ⟨src', isDropped, arranged, isRest, sameIn, sameOut, isPtrs, isTemps⟩
  refine ⟨src', isDropped, isRest, sameOut,
    ⟨⟨arranged.isLast, arranged.once, arranged.known, arranged.tempOnce,
    arranged.chunk, arranged.spare, arranged.unwritten⟩, ?_⟩, ?_, sameIn, isPtrs, isTemps⟩
  · have balanced := sound.balanced
    rw [length_cons isChunks] at balanced
    unfold Chunkqueue.length
    dsimp only
    rw [isRest]
    omega
  · rw [(content_split sound.toArranged isChunks).2]
    unfold content
    rw [isRest]

section

variable (pair : Pair m dest src) (isChunks : src.chunks = c :: rest)
include pair isChunks

theorem moves_drop_empty (isEmpty : chunkRemainingLength c = 0) :
    ∃ src', (src.unlinkFirst c rest).pushUnusedChunk c = src' ∧ src'.chunks = rest ∧
    Moves m dest src m dest src' 0 := by
  rcases consume_first pair.srcSound isChunks with
    ⟨src', isDropped, isRest, sameOut, sound, isContent, sameIn, isPtrs, isTemps⟩
  have sound' : Sound m src' := by
    rw [isEmpty, Nat.add_zero, ← sameOut] at sound
    exact sound
  rcases pair_shrink pair sound' isPtrs isTemps with ⟨pair', evolves⟩
  refine ⟨src', isDropped, isRest, pair', evolves, ?_, ?_, rfl, sameIn⟩
  · rw [take_zero, append_nil]
  · rw [isContent, isEmpty]

theorem moves_whole : Moves m dest src m (dest.appendChunk c)
      { src.unlinkFirst c rest with bytesOut := src.bytesOut + chunkRemainingLength c }
        (chunkRemainingLength c) := by
  rcases unlink_first_spec pair.srcSound.toArranged isChunks with
    ⟨arranged, isNew, known, isPtrs, isTemps, ownFile⟩
  have chunkSound := pair.srcSound.chunk c (isChunks ▸ mem_cons_self ..)
  have notDest : c.ptr ∉ ptrs dest := fun isDest =>
    pair.apart c.ptr isDest ((isPtrs c.ptr).mpr (.inl rfl))
  have notDestFile : openTemp c = true → c.name ∉ temps dest := fun isOpen isDest =>
    pair.tempsApart c.name isDest ((isTemps c.name).mpr (.inl ⟨isOpen, rfl⟩))
  rcases append_chunk_spec pair.destSound chunkSound notDest known notDestFile with
    ⟨destSound, destChunks, destPtrs, destTemps⟩
  rcases content_split pair.srcSound.toArranged isChunks with ⟨isTaken, isLeft⟩
  have srcSound : Sound m { src.unlinkFirst c rest with
      bytesOut := src.bytesOut + chunkRemainingLength c } := by
    refine ⟨⟨arranged.isLast, arranged.once, arranged.known, arranged.tempOnce, arranged.chunk,
      arranged.spare,
      arranged.unwritten⟩, ?_⟩
    have balanced := pair.srcSound.balanced
    rw [length_cons isChunks] at balanced
    change src.bytesIn = src.bytesOut + chunkRemainingLength c + (rest.map chunkRemainingLength).sum
    omega
  refine ⟨⟨destSound, srcSound, ?_, ?_⟩, evolves_within m ?_ ?_, ?_, ?_, rfl, rfl⟩
  · intro p isDest isSrc
    rcases (destPtrs p).mp isDest with before | rfl
    · exact pair.apart p before ((isPtrs p).mpr (.inr isSrc))
    · exact isNew isSrc
  · intro name isDest isSrc
    rcases (destTemps name).mp isDest with before | ⟨isOpen, rfl⟩
    · exact pair.tempsApart name before ((isTemps name).mpr (.inr isSrc))
    · exact ownFile isOpen isSrc
  · rintro p (isDest | isSrc)
    · rcases (destPtrs p).mp isDest with before | rfl
      · exact .inl before
      · exact .inr ((isPtrs c.ptr).mpr (.inl rfl))
    · exact .inr ((isPtrs p).mpr (.inr isSrc))
  · rintro name (isDest | isSrc)
    · rcases (destTemps name).mp isDest with before | ⟨isOpen, rfl⟩
      · exact .inl before
      · exact .inr ((isTemps c.name).mpr (.inl ⟨isOpen, rfl⟩))
    · exact .inr ((isTemps name).mpr (.inr isSrc))
  · rw [isTaken]
    unfold content
    rw [destChunks, flatMap_append, flatMap_singleton]
  · rw [isLeft]
    rfl

theorem moves_part (part : len ≤ chunkRemainingLength c)
    (appends : Appends m dest m' dest' ((chunkBytes m c).take len)) : Moves m dest src m' dest'
      { src with
        chunks := { c with offset := c.offset + len } :: rest, bytesOut :=
        src.bytesOut + len } len := by
  rcases pair_append pair appends with ⟨pair', evolves, sameContent⟩
  rcases advance_first_spec pair'.srcSound.toArranged isChunks part rfl with
    ⟨arranged, isContent, isPtrs, isTemps⟩
  have srcSound : Sound m'
      { src with
        chunks := { c with offset := c.offset + len } :: rest, bytesOut := src.bytesOut + len } := by
    refine ⟨⟨arranged.isLast, arranged.once, arranged.known, arranged.tempOnce, arranged.chunk,
      arranged.spare,
      arranged.unwritten⟩, ?_⟩
    have balanced := pair.srcSound.balanced
    rw [length_cons isChunks] at balanced
    have advanced : chunkRemainingLength { c with offset := c.offset + len } =
      chunkRemainingLength c - len :=
      Nat.sub_add_eq _ _ _
    unfold Chunkqueue.length
    dsimp only
    rw [map_cons, sum_cons, advanced]
    omega
  have noMoreTemps : ∀ name ∈ temps { src with
      chunks := { c with offset := c.offset + len } :: rest
      bytesOut := src.bytesOut + len }, name ∈ temps src := by
    intro name isTemp
    rw [← isTemps]
    exact isTemp
  rcases pair_shrink pair' srcSound (fun p => (isPtrs p).mp) noMoreTemps with ⟨pair'', evolves'⟩
  refine ⟨pair'', evolves_trans evolves evolves', ?_, ?_, appends.sameOut, rfl⟩
  · rw [appends.holds]
    rw [content_cons isChunks, take_append_of_le_length]
    rw [chunk_bytes_length (pair.srcSound.chunk c (isChunks ▸ mem_cons_self ..))]
    exact part
  · rw [← sameContent]
    exact isContent

end

theorem file_part (chunkSound : ChunkSound m c) (isFile : c.type = .fileChunk)
    (part : len ≤ chunkRemainingLength c) : c.start + c.offset + len ≤ (m.files c.name).length ∧
      fileBytes m c.name (c.start + c.offset) len = (chunkBytes m c).take len := by
  have stored := chunkSound.stored isFile
  have offset := chunkSound.offset
  unfold chunkRemainingLength at part
  unfold chunkLength at part offset
  unfold fileBytes chunkBytes
  rw [isFile] at part offset ⊢
  dsimp only at part offset ⊢
  refine ⟨by omega, ?_⟩
  rw [take_take]
  congr 1
  omega

theorem mem_part (isMem : c.type = .memChunk) : Chunkqueue.memBytes c = chunkBytes m c := by
  unfold Chunkqueue.memBytes chunkBytes
  rw [isMem]

theorem moves_written (pair : Pair m dest src) (isChunks : src.chunks = c :: rest)
    (appends : Appends m dest m' dest' (chunkBytes m c)) :
    ∃ src', (src.unlinkFirst c rest).pushUnusedChunk c = src' ∧
      ({ src' with bytesOut := src'.bytesOut + chunkRemainingLength c } : Chunkqueue).chunks = rest ∧
      Moves m dest src m' dest' { src' with bytesOut := src'.bytesOut + chunkRemainingLength c }
        (chunkRemainingLength c) := by
  rcases pair_append pair appends with ⟨pair', evolves, sameContent⟩
  rcases consume_first pair'.srcSound isChunks with
    ⟨src', isDropped, isRest, sameOut, sound, isContent, sameIn, isPtrs, isTemps⟩
  rw [← sameOut] at sound
  rcases pair_shrink pair' sound isPtrs isTemps with ⟨pair'', evolves'⟩
  refine ⟨src', isDropped, isRest, pair'', evolves_trans evolves evolves', ?_, ?_,
    appends.sameOut, sameIn⟩
  · rw [appends.holds, (content_split pair.srcSound.toArranged isChunks).1]
  · rw [← sameContent]
    exact isContent

end Pair

section Steal

variable {m : Memory} {dest src : Chunkqueue}

theorem moves_rest {m₁ : Memory} {dest₁ src₁ : Chunkqueue} {some : Nat}
    (moves : Moves m dest src m₁ dest₁ src₁ some) (within : some ≤ len)
    {result : Memory × Chunkqueue × Chunkqueue}
    (rest : ∃ m' dest' src', result = (m', dest', src') ∧
      Moves m₁ dest₁ src₁ m' dest' src' (len - some)) :
    ∃ m' dest' src', result = (m', dest', src') ∧ Moves m dest src m' dest' src' len := by
  rcases rest with ⟨m', dest', src', isResult, moves'⟩
  have total := moves_trans moves moves'
  rw [Nat.add_sub_cancel' within] at total
  exact ⟨m', dest', src', isResult, total⟩

section

variable (pair : Pair m dest src)
include pair

theorem moves_nothing_left (isChunks : src.chunks = []) :
    Moves m dest src m dest src len := by
  have isEmpty : (content m src).length ≤ 0 := by
    unfold content
    rw [isChunks]
    exact Nat.le_refl _
  exact moves_all (moves_none pair) isEmpty (Nat.zero_le _)

theorem moves_file_part {c : Chunk} {rest : List Chunk} (isChunks : src.chunks = c :: rest)
    (isFile : c.type = .fileChunk) (part : len ≤ chunkRemainingLength c) :
    ∃ m' dest', dest.appendFile m c.name (c.start + c.offset) len = (m', dest') ∧
    Moves m dest src m' dest'
      { src with
        chunks := { c with offset := c.offset + len } :: rest, bytesOut :=
        src.bytesOut + len } len := by
  have chunkSound := pair.srcSound.chunk c (isChunks ▸ mem_cons_self ..)
  rcases file_part chunkSound isFile part with ⟨stored, isBytes⟩
  rcases append_file_spec pair.destSound stored with ⟨m', dest', isResult, appends⟩
  rw [isBytes] at appends
  exact ⟨m', dest', isResult, moves_part pair isChunks part appends⟩

theorem steal_loop_spec (isChunks : src.chunks = list) (len : Nat) :
    ∃ m' dest' src', Chunkqueue.stealLoop m dest src len list = (m', dest', src') ∧
      Moves m dest src m' dest' src' len := by
  induction list generalizing m dest src len with
  | nil =>
    exact ⟨m, dest, src, rfl, moves_nothing_left pair isChunks⟩
  | cons c rest ih =>
    unfold Chunkqueue.stealLoop
    by_cases isZero : len = 0
    · rw [if_pos isZero, isZero]
      exact ⟨m, dest, src, rfl, moves_none pair⟩
    · rw [if_neg isZero]
      by_cases isEmpty : chunkRemainingLength c = 0
      · rw [if_pos isEmpty]
        rcases moves_drop_empty pair isChunks isEmpty with ⟨src₁, isDropped, isRest, moves⟩
        rw [isDropped]
        exact moves_rest moves (Nat.zero_le _) (ih moves.pair isRest len)
      · rw [if_neg isEmpty]
        by_cases whole : len ≥ chunkRemainingLength c
        · rw [if_pos whole]
          have moves := moves_whole pair isChunks
          exact moves_rest moves whole (ih moves.pair rfl _)
        · rw [if_neg whole]
          have part := Nat.le_of_not_ge whole
          cases isType : c.type with
          | memChunk =>
            rcases append_mem_spec pair.destSound ((chunkBytes m c).take len) with
              ⟨m', dest', isResult, appends⟩
            rw [mem_part isType, isResult]
            have moves := moves_part pair isChunks part appends
            rw [isType] at moves
            exact ⟨m', dest', _, rfl, moves⟩
          | fileChunk =>
            rcases moves_file_part pair isChunks isType part with ⟨m', dest', isResult, moves⟩
            rw [isResult]
            rw [isType] at moves
            exact ⟨m', dest', _, rfl, moves⟩

theorem steal_spec :
    ∃ m' dest' src', Chunkqueue.steal m dest src len = (m', dest', src') ∧
    Moves m dest src m' dest' src' len :=
  steal_loop_spec pair rfl len

theorem steal_with_tempfiles_loop_spec (isChunks : src.chunks = list)
    (len : Nat) : ∃ m' dest' src', Chunkqueue.stealWithTempfilesLoop m dest src len list =
    (m', dest', src') ∧
      Moves m dest src m' dest' src' len := by
  induction list generalizing m dest src len with
  | nil =>
    exact ⟨m, dest, src, rfl, moves_nothing_left pair isChunks⟩
  | cons c rest ih =>
    unfold Chunkqueue.stealWithTempfilesLoop
    by_cases isZero : len = 0
    · rw [if_pos isZero, isZero]
      exact ⟨m, dest, src, rfl, moves_none pair⟩
    · rw [if_neg isZero]
      by_cases isEmpty : chunkRemainingLength c = 0
      · rw [if_pos isEmpty]
        rcases moves_drop_empty pair isChunks isEmpty with ⟨src₁, isDropped, isRest, moves⟩
        rw [isDropped]
        exact moves_rest moves (Nat.zero_le _) (ih moves.pair isRest len)
      · rw [if_neg isEmpty]
        cases isType : c.type with
        | fileChunk =>
          by_cases whole : len ≥ chunkRemainingLength c
          · rw [if_pos whole]
            have moves := moves_whole pair isChunks
            exact moves_rest moves whole (ih moves.pair rfl _)
          · rw [if_neg whole]
            rcases moves_file_part pair isChunks isType (Nat.le_of_not_ge whole) with
              ⟨m', dest', isResult, moves⟩
            rw [isResult]
            rw [isType] at moves
            exact ⟨m', dest', _, rfl, moves⟩
        | memChunk =>
          dsimp only
          by_cases whole : len ≥ chunkRemainingLength c
          · rw [if_pos whole, mem_part isType]
            rcases append_mem_to_tempfile_spec pair.destSound (chunkBytes m c) with
              ⟨m₁, dest₁, isWritten, appends⟩
            rw [isWritten]
            rcases moves_written pair isChunks appends with ⟨src₁, isDropped, isRest, moves⟩
            rw [isDropped]
            exact moves_rest moves whole (ih moves.pair isRest _)
          · rw [if_neg whole, mem_part isType]
            have part := Nat.le_of_not_ge whole
            rcases append_mem_to_tempfile_spec pair.destSound ((chunkBytes m c).take len) with
              ⟨m', dest', isResult, appends⟩
            rw [isResult]
            have moves := moves_part pair isChunks part appends
            rw [isType] at moves
            exact ⟨m', dest', _, rfl, moves⟩

theorem steal_with_tempfiles_spec :
    ∃ m' dest' src', Chunkqueue.stealWithTempfiles m dest src len = (m', dest', src') ∧
      Moves m dest src m' dest' src' len :=
  steal_with_tempfiles_loop_spec pair rfl len

theorem append_chunkqueue_spec : ∃ dest' src', dest.appendChunkqueue src = (dest', src') ∧
      Moves m dest src m dest' src' (content m src).length := by
  unfold Chunkqueue.appendChunkqueue
  by_cases isEmpty : src.chunks = []
  · rw [if_pos isEmpty]
    have noBytes : content m src = [] := by
      unfold content
      rw [isEmpty]
      rfl
    refine ⟨dest, src, rfl, ?_⟩
    rw [noBytes]
    exact moves_none pair
  · rw [if_neg isEmpty]
    have linked : (if dest.chunks = [] then src.chunks else dest.linkLast src.chunks) =
        dest.chunks ++ src.chunks := by
      by_cases isNil : dest.chunks = []
      · rw [if_pos isNil, isNil]
        rfl
      · rw [if_neg isNil, link_last_eq pair.destSound.isLast
          (chunks_once pair.destSound.toArranged) _ isNil]
    rw [linked]
    have isTemps : temps { dest with
        chunks := dest.chunks ++ src.chunks
        last := src.last
        bytesIn := dest.bytesIn + (src.bytesIn - src.bytesOut) } = temps dest ++ temps src :=
        temps_append dest _ _
    have isPtrs : ∀ p, p ∈ ptrs { dest with
        chunks := dest.chunks ++ src.chunks
        last := src.last
        bytesIn := dest.bytesIn + (src.bytesIn - src.bytesOut) } ↔ p ∈ ptrs dest ∨
        p ∈ src.chunks.map Chunk.ptr := by
      unfold ptrs
      simp only [map_append, mem_append]
      tauto
    refine ⟨_, _, rfl, ⟨⟨⟨?_, ?_, ?_, ?_, ?_, pair.destSound.spare, pair.destSound.unwritten⟩, ?_⟩,
      ⟨⟨rfl, pair.srcSound.once.of_append_right, ?_, nodup_nil, ?_, pair.srcSound.spare,
        pair.srcSound.unwritten⟩, ?_⟩, ?_, ?_⟩, evolves_within m ?_ ?_, ?_, ?_, rfl, rfl⟩
    · rw [pair.srcSound.isLast, getLast?_append]
      cases isLast : src.chunks.getLast? with
      | none => exact absurd (getLast?_eq_none_iff.mp isLast) isEmpty
      | some c => rfl
    · unfold ptrs
      rw [map_append, append_assoc]
      have destOnce := nodup_append.mp pair.destSound.once
      apply destOnce.1.append
      · apply pair.srcSound.once.of_append_left.append destOnce.2.1
        intro p isSrc isSpare
        exact pair.apart p (mem_append_right _ isSpare) (mem_append_left _ isSrc)
      · intro p isDest others
        rcases mem_append.mp others with isSrc | isSpare
        · exact pair.apart p (mem_append_left _ isDest) (mem_append_left _ isSrc)
        · exact destOnce.2.2 p isDest p isSpare rfl
    · intro p member
      rcases (isPtrs p).mp member with isDest | isSrc
      · exact pair.destSound.known p isDest
      · exact pair.srcSound.known p (mem_append_left _ isSrc)
    · rw [isTemps]
      exact pair.destSound.tempOnce.append pair.srcSound.tempOnce fun name isDest isSrc =>
        pair.tempsApart name isDest isSrc
    · intro c member
      rcases mem_append.mp member with isDest | isSrc
      · exact pair.destSound.chunk c isDest
      · exact pair.srcSound.chunk c isSrc
    · have destBalanced := pair.destSound.balanced
      have srcBalanced := pair.srcSound.balanced
      unfold Chunkqueue.length at *
      dsimp only
      rw [map_append, sum_append]
      omega
    · intro p isSpare
      exact pair.srcSound.known p (mem_append_right _ isSpare)
    · intro c member
      cases member
    · rfl
    · intro p isDest isSpare
      rcases (isPtrs p).mp isDest with before | isSrc
      · exact pair.apart p before (mem_append_right _ isSpare)
      · exact (nodup_append.mp pair.srcSound.once).2.2 p isSrc p isSpare rfl
    · intro name _ isTemp
      cases isTemp
    · rintro p (isDest | isSpare)
      · rcases (isPtrs p).mp isDest with before | isSrc
        · exact .inl before
        · exact .inr (mem_append_left _ isSrc)
      · exact .inr (mem_append_right _ isSpare)
    · rintro name (isDest | isTemp)
      · change name ∈ temps _ at isDest
        rw [isTemps] at isDest
        exact mem_append.mp isDest
      · cases isTemp
    · rw [take_length]
      unfold content
      rw [flatMap_append]
    · rw [drop_length]
      rfl

end

end Steal

variable {q : QueueId}

variable {src : QueueId}

variable {dest : QueueId}

section World

abbrev QueueId := Nat

structure World where
  memory : Memory
  queues : QueueId → Chunkqueue

inductive Call where
  | appendMem (q : QueueId) (mem : Bytes)
  | appendBuffer (q : QueueId) (mem : Buffer)
  | prependBuffer (q : QueueId) (mem : Buffer)
  | appendFile (q : QueueId) (fn : FileName) (offset len : Nat)
  | appendChunkqueue (q src : QueueId)
  | useMemory (q : QueueId) (minSize allocSize : Nat) (written : Bytes)
  | appendMemToTempfile (q : QueueId) (mem : Bytes) (writes : List Nat)
  | steal (dest src : QueueId) (len : Nat)
  | stealWithTempfiles (dest src : QueueId) (len : Nat) (writes : List Nat)
  | markWritten (q : QueueId) (len : Nat)
  | removeFinishedChunks (q : QueueId)
  | reset (q : QueueId)

def setOne (w : World) (q : QueueId) (result : Memory × Chunkqueue) : World :=
  ⟨result.1, update w.queues q result.2⟩

def setTwo (w : World) (dest src : QueueId) (result : Memory × Chunkqueue × Chunkqueue) : World :=
  ⟨result.1, update (update w.queues dest result.2.1) src result.2.2⟩

/-- A call. Two queues of a call are different ones, a part of a file is in the file, and no more
is used of a memory area than it has. -/
def call (w : World) : Call → Option World
  | .appendMem q mem => some (setOne w q ((w.queues q).appendMem w.memory mem))
  | .appendBuffer q mem => some (setOne w q ((w.queues q).appendBuffer w.memory mem))
  | .prependBuffer q mem => some (setOne w q ((w.queues q).prependBuffer w.memory mem))
  | .appendFile q fn offset len =>
    if offset + len ≤ (w.memory.files fn).length then
      some (setOne w q ((w.queues q).appendFile w.memory fn offset len))
    else none
  | .appendChunkqueue q src =>
    if q = src then none else
      some (setTwo w q src (w.memory, (w.queues q).appendChunkqueue (w.queues src)))
  | .useMemory q minSize allocSize written =>
    let (m, cq, space) := (w.queues q).getMemory w.memory minSize allocSize
    if written.length ≤ space then (cq.useMemory written).map fun cq => setOne w q (m, cq) else none
  | .appendMemToTempfile q mem writes =>
    some (setOne w q ((w.queues q).appendMemToTempfile { w.memory with writes := writes } mem))
  | .steal dest src len =>
    if dest = src then none
    else some (setTwo w dest src (Chunkqueue.steal w.memory (w.queues dest) (w.queues src) len))
  | .stealWithTempfiles dest src len writes =>
    if dest = src then none
    else some (setTwo w dest src (Chunkqueue.stealWithTempfiles { w.memory with writes := writes }
      (w.queues dest) (w.queues src) len))
  | .markWritten q len => ((w.queues q).markWritten len).map fun cq => setOne w q (w.memory, cq)
  | .removeFinishedChunks q => some (setOne w q (w.memory, (w.queues q).removeFinishedChunks))
  | .reset q => some (setOne w q (w.memory, (w.queues q).reset))

abbrev Fifos := QueueId → Bytes

def moveFront (fifos : Fifos) (dest src : QueueId) (len : Nat) : Fifos :=
  update (update fifos dest (fifos dest ++ (fifos src).take len)) src ((fifos src).drop len)

def fifoCall (files : FileName → Bytes) (fifos : Fifos) : Call → Fifos
  | .appendMem q mem => update fifos q (fifos q ++ mem)
  | .appendBuffer q mem => update fifos q (fifos q ++ mem.bytes)
  | .prependBuffer q mem => update fifos q (mem.bytes ++ fifos q)
  | .appendFile q fn offset len => update fifos q (fifos q ++ ((files fn).drop offset).take len)
  | .appendChunkqueue q src => moveFront fifos q src (fifos src).length
  | .useMemory q _ _ written => update fifos q (fifos q ++ written)
  | .appendMemToTempfile q mem _ => update fifos q (fifos q ++ mem)
  | .steal dest src len => moveFront fifos dest src len
  | .stealWithTempfiles dest src len _ => moveFront fifos dest src len
  | .markWritten q len => update fifos q ((fifos q).drop len)
  | .removeFinishedChunks _ => fifos
  | .reset q => update fifos q []

structure WorldSound (w : World) : Prop where
  sound : ∀ q, Sound w.memory (w.queues q)
  apart : ∀ q q', q ≠ q' → ∀ p ∈ ptrs (w.queues q), p ∉ ptrs (w.queues q')
  tempsApart : ∀ q q', q ≠ q' → ∀ name ∈ temps (w.queues q), name ∉ temps (w.queues q')

variable {w : World}

variable {queues : QueueId → Chunkqueue}

/-- Whether each queue holds something of its own stays so when one queue changes. -/
theorem apart_set_one (apart : ∀ q q', q ≠ q' → ∀ a ∈ held (queues q), a ∉ held (queues q'))
    (fresh : ∀ q', q' ≠ q → ∀ a ∈ held (queues q'), a ∉ held cq')
    (q' q'' : QueueId) (differ : q' ≠ q'') :
    ∀ a ∈ held (update queues q cq' q'), a ∉ held (update queues q cq' q'') := by
  intro a
  by_cases isQueue : q' = q
  · rw [isQueue] at differ ⊢
    rw [update_self, update_of_ne differ.symm]
    exact fun isOurs isOther => fresh q'' differ.symm a isOther isOurs
  · rw [update_of_ne isQueue]
    by_cases isQueue' : q'' = q
    · rw [isQueue', update_self]
      exact fresh q' isQueue a
    · rw [update_of_ne isQueue']
      exact apart q' q'' differ a

theorem apart_set_two
    {src' : Chunkqueue} (apart : ∀ q q', q ≠ q' → ∀ a ∈ held (queues q), a ∉ held (queues q'))
    (ours : ∀ a ∈ held dest', a ∉ held src')
    (fresh : ∀ q, q ≠ dest → q ≠ src → ∀ a ∈ held (queues q), a ∉ held dest' ∧ a ∉ held src')
    (q q' : QueueId) (notSame : q ≠ q') : ∀ a ∈ held (update (update queues dest dest') src src' q),
      a ∉ held (update (update queues dest dest') src src' q') := by
  have others : ∀ q, q ≠ src → ∀ a ∈ held (update queues dest dest' q), a ∉ held src' := by
    intro q notSrc a
    by_cases isDest : q = dest
    · rw [isDest, update_self]
      exact ours a
    · rw [update_of_ne isDest]
      exact fun isOther => (fresh q isDest notSrc a isOther).2
  intro a
  by_cases isSrc : q = src
  · rw [isSrc] at notSame ⊢
    rw [update_self, update_of_ne notSame.symm]
    exact fun isOurs isOther => others q' notSame.symm a isOther isOurs
  · rw [update_of_ne isSrc]
    by_cases isSrc' : q' = src
    · rw [isSrc', update_self]
      exact others q isSrc a
    · rw [update_of_ne isSrc']
      by_cases isDest : q = dest
      · rw [isDest] at notSame ⊢
        rw [update_self, update_of_ne notSame.symm]
        exact fun isOurs isOther => (fresh q' notSame.symm isSrc' a isOther).1 isOurs
      · rw [update_of_ne isDest]
        by_cases isDest' : q' = dest
        · rw [isDest', update_self]
          exact fun isOther => (fresh q isDest isSrc a isOther).1
        · rw [update_of_ne isDest']
          exact apart q q' notSame a

theorem set_one_spec (sound : WorldSound w) {q : QueueId}
    (changes : Changes w.memory (w.queues q) m' cq' bytes) :
    WorldSound (setOne w q (m', cq')) ∧ ∀ q', content m' (update w.queues q cq' q') =
      update (fun q => content w.memory (w.queues q)) q bytes q' := by
  have others : ∀ q', q' ≠ q → Sound m' (w.queues q') ∧
      content m' (w.queues q') = content w.memory (w.queues q') :=
    fun q' differ => other_kept changes.evolves (sound.sound q') changes.sound.unwritten
      (sound.tempsApart q' q differ)
  have stillApart : ∀ q', q' ≠ q → (∀ p ∈ ptrs (w.queues q'), p ∉ ptrs cq') ∧
      ∀ name ∈ temps (w.queues q'), name ∉ temps cq' := fun q' differ =>
    other_apart changes.evolves (sound.sound q') (sound.apart q' q differ)
      (sound.tempsApart q' q differ)
  refine ⟨⟨?_, apart_set_one sound.apart fun q' differ => (stillApart q' differ).1,
    apart_set_one sound.tempsApart fun q' differ => (stillApart q' differ).2⟩, ?_⟩
  · intro q'
    change Sound m' (update w.queues q cq' q')
    by_cases isQueue : q' = q
    · rw [isQueue, update_self]
      exact changes.sound
    · rw [update_of_ne isQueue]
      exact (others q' isQueue).1
  · intro q'
    by_cases isQueue : q' = q
    · rw [isQueue, update_self, update_self]
      exact changes.holds
    · rw [update_of_ne isQueue, update_of_ne isQueue]
      exact (others q' isQueue).2

theorem world_pair (sound : WorldSound w) (differ : dest ≠ src) :
    Pair w.memory (w.queues dest) (w.queues src) :=
  ⟨sound.sound dest, sound.sound src, sound.apart dest src differ, sound.tempsApart dest src differ⟩

theorem set_two_spec (sound : WorldSound w) (differ : dest ≠ src) {src' : Chunkqueue}
    (moves : Moves w.memory (w.queues dest) (w.queues src) m' dest' src' len) :
    WorldSound (setTwo w dest src (m', dest', src')) ∧
      ∀ q, content m' (update (update w.queues dest dest') src src' q) =
        moveFront (fun q => content w.memory (w.queues q)) dest src len q := by
  have others : ∀ q, q ≠ dest → q ≠ src → Sound m' (w.queues q) ∧
      content m' (w.queues q) = content w.memory (w.queues q) := by
    intro q notDest notSrc
    apply other_kept moves.evolves (sound.sound q) moves.pair.destSound.unwritten
    rintro name isTemp (isDest | isSrc)
    · exact sound.tempsApart q dest notDest name isTemp isDest
    · exact sound.tempsApart q src notSrc name isTemp isSrc
  have stillApart : ∀ q, q ≠ dest → q ≠ src →
      (∀ p ∈ ptrs (w.queues q), ¬ (both (holdings dest') (holdings src')).ptr p) ∧
      ∀ name ∈ temps (w.queues q), ¬ (both (holdings dest') (holdings src')).temp name := by
    intro q notDest notSrc
    apply other_apart moves.evolves (sound.sound q)
    · rintro p isPtr (isDest | isSrc)
      · exact sound.apart q dest notDest p isPtr isDest
      · exact sound.apart q src notSrc p isPtr isSrc
    · rintro name isTemp (isDest | isSrc)
      · exact sound.tempsApart q dest notDest name isTemp isDest
      · exact sound.tempsApart q src notSrc name isTemp isSrc
  have atSrc : update (update w.queues dest dest') src src' src = src' := update_self ..
  have atDest : update (update w.queues dest dest') src src' dest = dest' := by
    rw [update_of_ne differ, update_self]
  have elsewhere : ∀ q, q ≠ dest → q ≠ src →
      update (update w.queues dest dest') src src' q = w.queues q := by
    intro q notDest notSrc
    rw [update_of_ne notSrc, update_of_ne notDest]
  -- the three kinds of queues
  have kinds : ∀ q, q = dest ∨ q = src ∨ q ≠ dest ∧ q ≠ src := by
    tauto
  refine ⟨⟨?_, ?_, ?_⟩, ?_⟩
  · intro q
    change Sound m' (update (update w.queues dest dest') src src' q)
    rcases kinds q with rfl | rfl | ⟨notDest, notSrc⟩
    · rw [atDest]
      exact moves.pair.destSound
    · rw [atSrc]
      exact moves.pair.srcSound
    · rw [elsewhere q notDest notSrc]
      exact (others q notDest notSrc).1
  · apply apart_set_two sound.apart moves.pair.apart
    intro q notDest notSrc p isOther
    exact not_or.mp ((stillApart q notDest notSrc).1 p isOther)
  · apply apart_set_two sound.tempsApart moves.pair.tempsApart
    intro q notDest notSrc name isOther
    exact not_or.mp ((stillApart q notDest notSrc).2 name isOther)
  · intro q
    unfold moveFront
    rcases kinds q with rfl | rfl | ⟨notDest, notSrc⟩
    · rw [atDest, update_of_ne differ, update_self]
      exact moves.atDest
    · rw [atSrc, update_self]
      exact moves.atSrc
    · rw [elsewhere q notDest notSrc, update_of_ne notSrc, update_of_ne notDest]
      exact (others q notDest notSrc).2

end World

def Expected (w : World) : Call → Prop
  | .appendFile _ fn offset len => offset + len ≤ (w.memory.files fn).length
  | .appendChunkqueue q src => q ≠ src
  | .useMemory q minSize allocSize written =>
    written.length ≤ ((w.queues q).getMemory w.memory minSize allocSize).2.2
  | .steal dest src _ => dest ≠ src
  | .stealWithTempfiles dest src _ _ => dest ≠ src
  | .markWritten q len => len ≤ (w.queues q).length
  | _ => True

def contents (w : World) : Fifos := fun q => content w.memory (w.queues q)

variable {w : World}

theorem world_writes (sound : WorldSound w) (writes : List Nat) :
    WorldSound { w with memory := { w.memory with writes := writes } } :=
  ⟨fun q => sound_writes (sound.sound q) writes, sound.apart, sound.tempsApart⟩

def outs (w : World) : QueueId → Nat := fun q => (w.queues q).bytesOut

theorem set_one_outs (w : World) (q : QueueId) (m' : Memory) (cq' : Chunkqueue) :
    outs (setOne w q (m', cq')) = update (outs w) q cq'.bytesOut := by
  funext q'
  by_cases isHere : q' = q
  · rw [isHere]
    simp [outs, setOne]
  · simp [outs, setOne, isHere]

theorem appends_world (sound : WorldSound w) (appends : Appends w.memory (w.queues q) m' cq' bytes) :
    WorldSound (setOne w q (m', cq')) ∧
      contents (setOne w q (m', cq')) = update (contents w) q (contents w q ++ bytes) ∧
      outs (setOne w q (m', cq')) = outs w := by
  rcases set_one_spec sound appends.toChanges with ⟨sound', isContent⟩
  refine ⟨sound', funext isContent, ?_⟩
  rw [set_one_outs, appends.sameOut]
  exact update_eq_self q (outs w)

theorem moves_world (sound : WorldSound w) (differ : dest ≠ src) {src' : Chunkqueue}
    (moves : Moves w.memory (w.queues dest) (w.queues src) m' dest' src' len) :
    WorldSound (setTwo w dest src (m', dest', src')) ∧
      contents (setTwo w dest src (m', dest', src')) = moveFront (contents w) dest src len ∧
      outs (setTwo w dest src (m', dest', src')) =
        update (outs w) src (outs w src + min len (contents w src).length) := by
  rcases set_two_spec sound differ moves with ⟨sound', isContent⟩
  refine ⟨sound', funext isContent, ?_⟩
  have before := (sound.sound src).balanced
  have after := moves.pair.srcSound.balanced
  rw [length_eq (sound.sound src)] at before
  rw [length_eq moves.pair.srcSound, moves.atSrc, length_drop, moves.srcIn] at after
  have counted : src'.bytesOut = outs w src + min len (contents w src).length := by
    unfold outs contents
    omega
  funext q
  by_cases isSrc : q = src
  · rw [isSrc, update_self, ← counted]
    simp [outs, setTwo]
  · by_cases isDest : q = dest
    · rw [isDest]
      simp [outs, setTwo, differ, moves.destOut]
    · simp [outs, setTwo, isSrc, isDest]

section Counters

variable {w : World}

section

variable (sound : WorldSound w)
include sound

theorem append_mem_world (q : QueueId) (mem : Bytes) :
    ∃ w', call w (.appendMem q mem) = some w' ∧ WorldSound w' ∧
      contents w' = update (contents w) q (contents w q ++ mem) ∧ outs w' = outs w := by
  rcases append_mem_spec (sound.sound q) mem with ⟨m', cq', isResult, appends⟩
  exact ⟨setOne w q (m', cq'), by rw [call, isResult], appends_world sound appends⟩

theorem append_buffer_world (q : QueueId) (mem : Buffer) :
    ∃ w', call w (.appendBuffer q mem) = some w' ∧ WorldSound w' ∧
      contents w' = update (contents w) q (contents w q ++ mem.bytes) ∧ outs w' = outs w := by
  rcases append_buffer_spec (sound.sound q) mem with ⟨m', cq', isResult, appends⟩
  exact ⟨setOne w q (m', cq'), by rw [call, isResult], appends_world sound appends⟩

theorem use_memory_world (q : QueueId) (minSize allocSize : Nat) (bytes : Bytes)
    (fits : bytes.length ≤ ((w.queues q).getMemory w.memory minSize allocSize).2.2) :
    ∃ w', call w (.useMemory q minSize allocSize bytes) = some w' ∧ WorldSound w' ∧
      contents w' = update (contents w) q (contents w q ++ bytes) ∧ outs w' = outs w := by
  rcases get_memory_spec (sound.sound q) minSize allocSize with
    ⟨m', cq₁, space, isMemory, appends, hasMemory, -⟩
  rw [isMemory] at fits
  rcases use_memory_spec appends.sound hasMemory fits with ⟨cq', isUsed, used⟩
  have total := appends_trans appends used
  refine ⟨setOne w q (m', cq'), ?_, appends_world sound total⟩
  rw [call, isMemory]
  dsimp only
  rw [if_pos fits, isUsed]
  rfl

theorem steal_world (differ : dest ≠ src) (len : Nat) :
    ∃ w', call w (.steal dest src len) = some w' ∧ WorldSound w' ∧
      contents w' = moveFront (contents w) dest src len ∧
      outs w' = update (outs w) src (outs w src + min len (contents w src).length) := by
  rcases steal_spec (world_pair sound differ) with ⟨m', dest', src', isResult, moves⟩
  refine ⟨setTwo w dest src (m', dest', src'), ?_, moves_world sound differ moves⟩
  rw [call, if_neg differ, isResult]

theorem steal_with_tempfiles_world (differ : dest ≠ src) (len : Nat)
    (writes : List Nat) : ∃ w', call w (.stealWithTempfiles dest src len writes) = some w' ∧
    WorldSound w' ∧
      contents w' = moveFront (contents w) dest src len ∧
      outs w' = update (outs w) src (outs w src + min len (contents w src).length) := by
  have sound₀ := world_writes sound writes
  rcases steal_with_tempfiles_spec (world_pair sound₀ differ) with ⟨m', dest', src', isResult, moves⟩
  refine ⟨setTwo w dest src (m', dest', src'), ?_, moves_world sound₀ differ moves⟩
  rw [call, if_neg differ, isResult]

theorem mark_written_world (q : QueueId) (enough : len ≤ (contents w q).length) :
    ∃ w', call w (.markWritten q len) = some w' ∧ WorldSound w' ∧
      contents w' = update (contents w) q ((contents w q).drop len) ∧
      outs w' = update (outs w) q (outs w q + len) := by
  rcases mark_written_spec (sound.sound q) enough with ⟨cq', isResult, changes, -, isOut, -⟩
  rcases set_one_spec sound changes with ⟨sound', isContent⟩
  refine ⟨setOne w q (w.memory, cq'), ?_, sound', funext isContent, ?_⟩
  · rw [call, isResult]
    rfl
  · rw [set_one_outs, isOut]
    rfl

theorem remove_finished_world (q : QueueId) :
    ∃ w', call w (.removeFinishedChunks q) = some w' ∧ WorldSound w' ∧ contents w' = contents w ∧
      outs w' = outs w ∧ ∀ c ∈ (w'.queues q).chunks.head?, chunkRemainingLength c ≠ 0 := by
  rcases remove_finished_spec (sound.sound q) with ⟨changes, -, isOut, isHead⟩
  rcases set_one_spec sound changes with ⟨sound', isContent⟩
  refine ⟨setOne w q (w.memory, (w.queues q).removeFinishedChunks), rfl, sound', ?_, ?_, ?_⟩
  · funext q'
    change content w.memory (update w.queues q _ q') = content w.memory (w.queues q')
    rw [isContent q']
    exact congrFun (update_eq_self q (contents w)) q'
  · rw [set_one_outs, isOut]
    exact update_eq_self q (outs w)
  · simp only [setOne, update_self]
    exact isHead

theorem bytes_in_eq (q : QueueId) : (w.queues q).bytesIn = outs w q + (contents w q).length := by
  have balanced := (sound.sound q).balanced
  rw [length_eq (sound.sound q)] at balanced
  exact balanced

end

theorem contents_nil_of_chunks (isEmpty : (w.queues q).chunks = []) : contents w q = [] := by
  unfold contents content
  rw [isEmpty]
  rfl

end Counters

theorem call_spec (sound : WorldSound w) (expected : Expected w c) :
    ∃ w', call w c = some w' ∧ WorldSound w' ∧
    contents w' = fifoCall w.memory.files (contents w) c := by
  cases c with
  | appendMem q mem =>
    rcases append_mem_world sound q mem with ⟨w', isCall, sound', isContents, -⟩
    exact ⟨w', isCall, sound', isContents⟩
  | appendBuffer q mem =>
    rcases append_buffer_world sound q mem with ⟨w', isCall, sound', isContents, -⟩
    exact ⟨w', isCall, sound', isContents⟩
  | prependBuffer q mem =>
    rcases prepend_buffer_spec (sound.sound q) mem with ⟨m', cq', isResult, changes⟩
    rcases set_one_spec sound changes with ⟨sound', isContent⟩
    exact ⟨setOne w q (m', cq'), by rw [call, isResult], sound', funext isContent⟩
  | appendFile q fn offset len =>
    rcases append_file_spec (sound.sound q) expected with ⟨m', cq', isResult, appends⟩
    rcases set_one_spec sound appends.toChanges with ⟨sound', isContent⟩
    refine ⟨setOne w q (m', cq'), ?_, sound', funext isContent⟩
    rw [call, if_pos (show offset + len ≤ (w.memory.files fn).length from expected), isResult]
  | appendChunkqueue q src =>
    rcases append_chunkqueue_spec (world_pair sound expected) with ⟨dest', src', isResult, moves⟩
    rcases set_two_spec sound expected moves with ⟨sound', isContent⟩
    refine ⟨setTwo w q src (w.memory, dest', src'), ?_, sound', funext isContent⟩
    rw [call, if_neg (show q ≠ src from expected), isResult]
  | useMemory q minSize allocSize written =>
    rcases use_memory_world sound q minSize allocSize written expected with
      ⟨w', isCall, sound', isContents, -⟩
    exact ⟨w', isCall, sound', isContents⟩
  | appendMemToTempfile q mem writes =>
    have sound₀ := world_writes sound writes
    rcases append_mem_to_tempfile_spec (sound₀.sound q) mem with ⟨m', cq', isResult, appends⟩
    rcases set_one_spec sound₀ appends.toChanges with ⟨sound', isContent⟩
    refine ⟨setOne w q (m', cq'), ?_, sound', funext isContent⟩
    change some (setOne w q ((w.queues q).appendMemToTempfile _ mem)) = _
    rw [isResult]
  | steal dest src len =>
    rcases steal_world sound expected len with ⟨w', isCall, sound', isContents, -⟩
    exact ⟨w', isCall, sound', isContents⟩
  | stealWithTempfiles dest src len writes =>
    rcases steal_with_tempfiles_world sound expected len writes with
      ⟨w', isCall, sound', isContents, -⟩
    exact ⟨w', isCall, sound', isContents⟩
  | markWritten q len =>
    have enough : len ≤ (content w.memory (w.queues q)).length := by
      rw [← length_eq (sound.sound q)]
      exact expected
    rcases mark_written_world sound q enough with ⟨w', isCall, sound', isContents, -⟩
    exact ⟨w', isCall, sound', isContents⟩
  | removeFinishedChunks q =>
    rcases remove_finished_world sound q with ⟨w', isCall, sound', isContents, -, -⟩
    exact ⟨w', isCall, sound', isContents⟩
  | reset q =>
    rcases set_one_spec sound (reset_spec (sound.sound q)) with ⟨sound', isContent⟩
    exact ⟨setOne w q (w.memory, (w.queues q).reset), rfl, sound', funext isContent⟩

theorem expected_of_call {w' : World} (sound : WorldSound w) (isCall : call w c = some w') :
    Expected w c := by
  cases c with
  | appendFile q fn offset len => exact (ite_none_right_eq_some.mp isCall).1
  | appendChunkqueue q src | steal dest src len => exact (ite_none_left_eq_some.mp isCall).1
  | useMemory q minSize allocSize written =>
    exact (ite_none_right_eq_some.mp isCall).1
  | stealWithTempfiles dest src len writes => exact (ite_none_left_eq_some.mp isCall).1
  | markWritten q len =>
    rcases map_eq_some_iff.mp isCall with ⟨cq', isMarked, -⟩
    rw [Expected, length_eq (sound.sound q)]
    by_contra tooMany
    exact mark_written_too_many (sound.sound q) (Nat.lt_of_not_le tooMany) isMarked
  | appendMem q mem => trivial
  | appendBuffer q mem => trivial
  | prependBuffer q mem => trivial
  | appendMemToTempfile q mem writes => trivial
  | removeFinishedChunks q => trivial
  | reset q => trivial

def emptyQueue (uploadTempFileSize : Nat) : Chunkqueue := ⟨[], none, [], 0, 0, 0, uploadTempFileSize⟩

structure Observed where
  world : World
  fifos : Fifos

def chunkqueues : System Observed Call where
  initial s := ∃ (files : FileName → Bytes) (nextFile : FileName) (sizes : QueueId → Nat),
    (∀ name, nextFile ≤ name → files name = []) ∧
    s = ⟨⟨⟨files, nextFile, 0, []⟩, fun q => emptyQueue (sizes q)⟩, fun _ => []⟩
  next s c s' := call s.world c = some s'.world ∧ s'.fifos = fifoCall s.world.memory.files s.fifos c

structure HoldsBytes (m : Memory) (cq : Chunkqueue) (bytes : Bytes) : Prop where
  holds : content m cq = bytes
  counted : cq.bytesIn - cq.bytesOut = cq.length ∧ cq.bytesOut ≤ cq.bytesIn
  length : cq.length = bytes.length
  offsets : ∀ c ∈ cq.chunks, c.offset ≤ chunkLength c
  isLast : cq.last = cq.chunks.getLast?.map Chunk.ptr
  empty : cq.last = none ↔ cq.chunks = []

theorem holds_of_sound {m : Memory} {cq : Chunkqueue} (sound : Sound m cq) :
    HoldsBytes m cq (content m cq) := by
  have balanced := sound.balanced
  refine ⟨rfl, ⟨by omega, by omega⟩, length_eq sound, fun c member => (sound.chunk c member).offset,
    sound.isLast, ?_⟩
  rw [sound.isLast, map_eq_none_iff, getLast?_eq_none_iff]

variable {s : Observed}

theorem world_reachable (reached : Reachable chunkqueues s) :
    WorldSound s.world ∧ contents s.world = s.fifos := by
  apply reachable_invariant _ _ reached
  · rintro state ⟨files, nextFile, sizes, unwritten, rfl⟩
    refine ⟨⟨?_, ?_, ?_⟩, rfl⟩
    · intro q
      refine ⟨⟨rfl, nodup_nil, ?_, nodup_nil, ?_, ?_, unwritten⟩, rfl⟩
      · intro p member
        cases member
      · intro c member
        cases member
      · intro c member
        cases member
    · intro q q' _ p member
      cases member
    · intro q q' _ name member
      cases member
  · rintro before c after ⟨sound, isContents⟩ ⟨isCall, isFifo⟩
    rcases call_spec sound (expected_of_call sound isCall) with ⟨w', isResult, sound', isContents'⟩
    rw [isResult] at isCall
    cases isCall
    refine ⟨sound', ?_⟩
    rw [isContents', isContents, isFifo]

/-- After every sequence of calls every queue holds the bytes of its sequence, and
the calls that the code expects return. -/
theorem chunkqueues_refine_fifos {s : Observed} (reached : Reachable chunkqueues s) :
    (∀ q, HoldsBytes s.world.memory (s.world.queues q) (s.fifos q)) ∧
      ∀ c, Expected s.world c → ∃ w', call s.world c = some w' := by
  rcases world_reachable reached with ⟨sound, isContents⟩
  constructor
  · intro q
    rw [← isContents]
    exact holds_of_sound (sound.sound q)
  · intro c expected
    rcases call_spec sound expected with ⟨w', isResult, -⟩
    exact ⟨w', isResult⟩

theorem reachable_calls {calls : List Call} (reached : Reachable chunkqueues s)
    (isRun : calls.foldlM call s.world = some w) : ∃ s', Reachable chunkqueues s' ∧ s'.world = w := by
  induction calls generalizing s with
  | nil => exact ⟨s, reached, Option.some.inj isRun⟩
  | cons c calls ih =>
    rcases bind_eq_some_iff.mp isRun with ⟨middle, isCall, isRest⟩
    have next : chunkqueues.next s c ⟨middle, fifoCall s.world.memory.files s.fifos c⟩ :=
      ⟨isCall, rfl⟩
    exact ih (reachable_next reached next) isRest

/-- A file of three bytes, memory that is written to temporary files of two bytes at
most, and a part of it that is stolen again. -/
def bodyOverFiles : List Call :=
  [.appendMem 0 [1, 2, 3, 4], .useMemory 0 0 0 [5, 6], .appendFile 0 0 1 2, .markWritten 0 1,
    .stealWithTempfiles 1 0 6 [1], .appendMemToTempfile 1 [9] [], .steal 2 1 3,
    .prependBuffer 2 ⟨[7], 64⟩]

theorem fifos_of_body_over_files : ∃ s, Reachable chunkqueues s ∧ s.fifos 0 = [12] ∧
    s.fifos 1 = [5, 6, 11, 9] ∧
    s.fifos 2 = [7, 2, 3, 4] := by
  have initial : Reachable chunkqueues
      ⟨⟨⟨fun name => if name = 0 then [10, 11, 12] else [], 1, 0, []⟩,
      fun _ => emptyQueue 2⟩, fun _ => []⟩ := by
    refine reachable_initial ⟨_, 1, fun _ => 2, ?_, rfl⟩
    intro name isNew
    exact if_neg (Nat.ne_of_gt isNew)
  have evaluated : (bodyOverFiles.foldlM call
      ⟨⟨fun name => if name = 0 then [10, 11, 12] else [], 1, 0, []⟩,
      fun _ => emptyQueue 2⟩).map (fun w => [contents w 0, contents w 1, contents w 2]) =
      some [[12], [5, 6, 11, 9], [7, 2, 3, 4]] := by
    decide
  rcases map_eq_some_iff.mp evaluated with ⟨w, isRun, values⟩
  rcases reachable_calls initial isRun with ⟨s, reached, rfl⟩
  have holds := (chunkqueues_refine_fifos reached).1
  simp only [List.cons.injEq, and_true] at values
  rcases values with ⟨first, second, third⟩
  exact ⟨s, reached, (holds 0).holds.symm.trans first, (holds 1).holds.symm.trans second,
    (holds 2).holds.symm.trans third⟩

end ServerCore.LighttpdChunkFifo
