import ServerCore.LighttpdWstunnel
import ServerCore.RefusingMachine

/-!
# Frames byte by byte

The machine here takes one byte at a time, with the same registers, and keeps
what is forwarded and sent as plain lists. For every queue of memory chunks the
code does what the machine does with the bytes in it.
-/

namespace ServerCore.LighttpdWstunnelBytes

open LighttpdChunk LighttpdChunkContent LighttpdChunkCalls LighttpdChunkFifo RefusingMachine
  LighttpdWstunnel List Function

variable {n : Nat} {f : Frame}

/-- The registers, the payload of a PING so far, and what has left. -/
structure Progress where
  frame : Frame
  held : Bytes
  data : Bytes
  sends : List (FrameType × Bytes)

/-- The registers behind `n` bytes of payload. -/
def countBytes (f : Frame) (n : Nat) : Frame :=
  if f.siz ≤ n then { f with siz := 0, state := .init } else { f with siz := f.siz - n }

def setCnt (f : Frame) (maskCnt : Nat) : Frame := { f with maskCnt := maskCnt }

def payloadByte (p : Progress) (b : Byte) : Option Progress :=
  match p.frame.type with
  | .close => none
  | .pong => some { p with frame := countBytes p.frame 1 }
  | .ping =>
    let held := p.held ++ [b]
    if p.frame.siz ≤ 1 then
      let unmasked := unmaskPayload p.frame.mask p.frame.maskCnt held
      some { p with
        frame := setCnt (countBytes p.frame 1) unmasked.2
        held := []
        sends := p.sends ++ [(.pong, unmasked.1)] }
    else some { p with frame := countBytes p.frame 1, held := held }
  | _ =>
    some { p with
      frame := setCnt (countBytes p.frame 1) ((p.frame.maskCnt + 1) % 4)
      data := p.data ++ [b ^^^ p.frame.mask p.frame.maskCnt] }

def headerByte (p : Progress) (b : Byte) : Option Progress :=
  match frameByte p.frame b with
  | .error _ => none
  | .ok (frame, empty) =>
    some { p with frame := frame, sends := p.sends ++ if empty then [(.pong, [])] else [] }

def byteStep (p : Progress) (b : Byte) : Option Progress :=
  match p.frame.state with
  | .readPayload => payloadByte p b
  | _ => headerByte p b

/-- A payload that is being read has bytes to come and a type, and only a PING
holds bytes back. -/
structure Steady (p : Progress) : Prop where
  toCome : p.frame.state = .readPayload → 0 < p.frame.siz
  held : p.held ≠ [] → p.frame.state = .readPayload ∧ p.frame.type = .ping
  known : p.frame.type ≠ .close
  knownBefore : p.frame.typeBefore ≠ .close

section Registers

variable {f after : Frame} {b : Byte} {empty : Bool}

theorem frame_byte_known (known : f.type ≠ .close) (knownBefore : f.typeBefore ≠ .close)
    (taken : frameByte f b = .ok (after, empty)) : after.type ≠ .close ∧ after.typeBefore ≠ .close ∧
      (after.state = .readPayload → 0 < after.siz) := by
  unfold frameByte at taken
  cases isState : f.state with
  | init =>
    simp only [isState, initByte] at taken
    split at taken <;> simp only [Except.map, Except.ok.injEq, reduceCtorEq, Prod.mk.injEq] at taken
    all_goals
      rw [← taken.1]
      simp [knownBefore]
  | readLength =>
    simp only [isState, lengthByte] at taken
    split at taken
    · cases taken
    · split at taken
      · cases taken
        exact ⟨known, knownBefore, by simp⟩
      · split at taken
        · cases taken
          exact ⟨known, knownBefore, by simp⟩
        · split at taken
          · cases taken
            exact ⟨known, knownBefore, by simp⟩
          · cases taken
            exact ⟨known, knownBefore, by simp⟩
  | readExLength =>
    simp only [isState, exLengthByte] at taken
    split at taken
    · split at taken
      · cases taken
      · cases taken
        exact ⟨known, knownBefore, by simp⟩
    · cases taken
      exact ⟨known, knownBefore, by simp⟩
  | readMask =>
    simp only [isState, maskByte] at taken
    split at taken
    · cases taken
      refine ⟨known, knownBefore, ?_⟩
      dsimp only
      split
      next => simp
      next notZero => exact fun _ => Nat.pos_of_ne_zero notZero
    · cases taken
      exact ⟨known, knownBefore, by simp⟩
  | readPayload => simp [isState] at taken

theorem count_type (f : Frame) (n : Nat) :
    (countBytes f n).type = f.type ∧ (countBytes f n).typeBefore = f.typeBefore ∧
      (countBytes f n).mask = f.mask ∧ (countBytes f n).maskCnt = f.maskCnt := by
  unfold countBytes
  split <;> exact ⟨rfl, rfl, rfl, rfl⟩

theorem count_siz (f : Frame) (n : Nat) : (countBytes f n).siz = f.siz - n := by
  unfold countBytes
  split
  next covered => exact (Nat.sub_eq_zero_of_le covered).symm
  next => rfl

theorem count_state (left : n < f.siz) : (countBytes f n).state = f.state := by
  unfold countBytes
  rw [if_neg (by omega)]

theorem count_to_come (n : Nat) (still : (countBytes f n).state = .readPayload) :
    0 < (countBytes f n).siz := by
  unfold countBytes at still ⊢
  split at still
  · cases still
  next left =>
    rw [if_neg left]
    dsimp only
    omega

end Registers

section Steps

variable {p next : Progress} {b : Byte}

theorem step_payload (reading : p.frame.state = .readPayload) : byteStep p b = payloadByte p b := by
  rw [byteStep, reading]

theorem step_header (header : p.frame.state ≠ .readPayload) : byteStep p b = headerByte p b := by
  unfold byteStep
  split
  next reading => exact absurd reading header
  next => rfl

theorem header_byte_taken (taken : headerByte p b = some next) :
    ∃ frame empty, frameByte p.frame b = .ok (frame, empty) ∧
      next = { p with frame := frame, sends := p.sends ++ if empty then [(.pong, [])] else [] } := by
  unfold headerByte at taken
  cases result : frameByte p.frame b with
  | error frame => simp [result] at taken
  | ok turn =>
    obtain ⟨frame, empty⟩ := turn
    simp only [result, Option.some.injEq] at taken
    exact ⟨frame, empty, rfl, taken.symm⟩

theorem byte_step_steady (p : Progress) (b : Byte) (next : Progress) (steady : Steady p)
    (taken : byteStep p b = some next) : Steady next := by
  by_cases reading : p.frame.state = .readPayload
  · obtain ⟨sameType, sameBefore, -, -⟩ := count_type p.frame 1
    have known : (countBytes p.frame 1).type ≠ .close := sameType ▸ steady.known
    have knownBefore : (countBytes p.frame 1).typeBefore ≠ .close := sameBefore ▸ steady.knownBefore
    have toCome := @count_to_come p.frame 1
    have notHeld : p.frame.type ≠ .ping → p.held = [] := by
      intro other
      by_contra holds
      exact other (steady.held holds).2
    rw [step_payload reading] at taken
    unfold payloadByte at taken
    cases isType : p.frame.type with
    | close => exact absurd isType steady.known
    | ping =>
      simp only [isType] at taken
      split at taken
      · cases taken
        exact ⟨toCome, fun holds => absurd rfl holds, known, knownBefore⟩
      next left =>
        cases taken
        exact ⟨toCome, fun _ => ⟨(count_state (by omega)).trans reading, sameType.trans isType⟩,
          known, knownBefore⟩
    | pong | text | bin =>
      simp only [isType, Option.some.injEq] at taken
      subst taken
      exact ⟨toCome, fun holds => absurd (notHeld (by simp [isType])) holds, known, knownBefore⟩
  · rw [step_header reading] at taken
    obtain ⟨frame, empty, result, rfl⟩ := header_byte_taken taken
    obtain ⟨known, knownBefore, toCome⟩ := frame_byte_known steady.known steady.knownBefore result
    exact ⟨toCome, fun holds => absurd (steady.held holds).1 reading, known, knownBefore⟩

end Steps

section Pieces

variable {p : Progress} {piece : Bytes}

theorem count_add (left : n < f.siz) (m : Nat) :
    countBytes (countBytes f n) m = countBytes f (n + m) := by
  have once : countBytes f n = { f with siz := f.siz - n } := if_neg (by omega)
  rw [once]
  unfold countBytes
  dsimp only
  by_cases covered : f.siz ≤ n + m
  · rw [if_pos covered, if_pos (by omega)]
  · rw [if_neg covered, if_neg (by omega), Nat.sub_sub]

theorem count_set_cnt (f : Frame) (n cnt : Nat) :
    countBytes (setCnt f cnt) n = setCnt (countBytes f n) cnt := by
  unfold countBytes setCnt
  split <;> rfl

theorem set_cnt_twice (f : Frame) (cnt cnt' : Nat) : setCnt (setCnt f cnt) cnt' = setCnt f cnt' := rfl

theorem set_cnt_fields (f : Frame) (cnt : Nat) :
    (setCnt f cnt).mask = f.mask ∧ (setCnt f cnt).maskCnt = cnt := ⟨rfl, rfl⟩

theorem count_zero (left : 0 < f.siz) : countBytes f 0 = f := if_neg (by omega)

section

variable (reading : p.frame.state = .readPayload)
include reading

theorem feed_pong (isType : p.frame.type = .pong)
    (left : 0 < p.frame.siz) (fits : piece.length ≤ p.frame.siz) :
    feed byteStep p piece = ({ p with frame := countBytes p.frame piece.length }, false) := by
  induction piece generalizing p with
  | nil => rw [feed_nil, length_nil, count_zero left]
  | cons b rest ih =>
    have taken : byteStep p b = some { p with frame := countBytes p.frame 1 } := by
      rw [step_payload reading, payloadByte, isType]
    rw [feed_cons taken]
    rw [List.length_cons] at fits ⊢
    cases rest with
    | nil => rfl
    | cons c rest =>
      rw [List.length_cons] at fits ih ⊢
      have more : 1 < p.frame.siz := by omega
      have same := @ih { p with frame := countBytes p.frame 1 }
        ((count_state more).trans reading) ((count_type p.frame 1).1.trans isType)
        (by dsimp only; rw [count_siz]; omega) (by dsimp only; rw [count_siz]; omega)
      rw [same]
      rw [count_add more, Nat.add_comm]

theorem feed_ping_part (isType : p.frame.type = .ping) (fits : piece.length < p.frame.siz) :
    feed byteStep p piece =
      ({ p with frame := countBytes p.frame piece.length, held := p.held ++ piece }, false) := by
  induction piece generalizing p with
  | nil => rw [feed_nil, length_nil, count_zero (by omega), append_nil]
  | cons b rest ih =>
    rw [List.length_cons] at fits ⊢
    have more : 1 < p.frame.siz := by omega
    have taken : byteStep p b =
        some { p with frame := countBytes p.frame 1, held := p.held ++ [b] } := by
      rw [step_payload reading, payloadByte, isType]
      rw [if_neg (by omega)]
    rw [feed_cons taken]
    have same := @ih { p with frame := countBytes p.frame 1, held := p.held ++ [b] }
      ((count_state more).trans reading) ((count_type p.frame 1).1.trans isType)
      (by dsimp only; rw [count_siz]; omega)
    rw [same]
    rw [count_add more, Nat.add_comm 1, append_assoc, singleton_append]

theorem feed_ping_all (isType : p.frame.type = .ping) (left : 0 < p.frame.siz)
    (all : piece.length = p.frame.siz) : feed byteStep p piece =
      ({ p with
        frame := setCnt (countBytes p.frame piece.length)
          (unmaskPayload p.frame.mask p.frame.maskCnt (p.held ++ piece)).2
        held := []
        sends := p.sends ++
          [(.pong, (unmaskPayload p.frame.mask p.frame.maskCnt (p.held ++ piece)).1)] }, false) := by
  rcases eq_nil_or_concat piece with isNil | ⟨front, b, isConcat⟩
  · rw [isNil, length_nil] at all
    omega
  · rw [concat_eq_append] at isConcat
    subst isConcat
    rw [length_append, length_singleton] at all
    have part := @feed_ping_part p front reading isType (by omega)
    obtain ⟨sameType, sameBefore, sameMask, sameCnt⟩ := count_type p.frame front.length
    have taken : byteStep { p with frame := countBytes p.frame front.length, held := p.held ++ front } b =
        some { p with
          frame := setCnt (countBytes p.frame (front.length + 1))
            (unmaskPayload p.frame.mask p.frame.maskCnt (p.held ++ front ++ [b])).2
          held := []
          sends := p.sends ++
            [(.pong, (unmaskPayload p.frame.mask p.frame.maskCnt (p.held ++ front ++ [b])).1)] } := by
      rw [step_payload ((count_state (by omega)).trans reading), payloadByte]
      rw [sameType, isType]
      rw [if_pos (by rw [count_siz]; omega), sameMask, sameCnt, count_add (by omega)]
    rw [feed_append part, feed_cons taken, feed_nil, length_append, length_singleton,
      append_assoc]

theorem feed_data (isType : p.frame.type = .text ∨ p.frame.type = .bin) (left : 0 < p.frame.siz)
    (fits : piece.length ≤ p.frame.siz) : feed byteStep p piece =
      ({ p with
        frame := setCnt (countBytes p.frame piece.length)
          (unmaskPayload p.frame.mask p.frame.maskCnt piece).2
        data := p.data ++ (unmaskPayload p.frame.mask p.frame.maskCnt piece).1 }, false) := by
  induction piece generalizing p with
  | nil =>
    rw [feed_nil, length_nil, count_zero left, unmaskPayload, append_nil]
    rfl
  | cons b rest ih =>
    have taken : byteStep p b = some { p with
        frame := setCnt (countBytes p.frame 1) ((p.frame.maskCnt + 1) % 4)
        data := p.data ++ [b ^^^ p.frame.mask p.frame.maskCnt] } := by
      rw [step_payload reading, payloadByte]
      rcases isType with isText | isBin
      · rw [isText]
      · rw [isBin]
    rw [feed_cons taken]
    rw [List.length_cons] at fits ⊢
    cases rest with
    | nil => rfl
    | cons c rest =>
      rw [List.length_cons] at fits ih ⊢
      have more : 1 < p.frame.siz := by omega
      obtain ⟨sameType, sameBefore, sameMask, sameCnt⟩ := count_type p.frame 1
      have sizIs : (setCnt (countBytes p.frame 1) ((p.frame.maskCnt + 1) % 4)).siz =
        p.frame.siz - 1 := count_siz p.frame 1
      have same := @ih { p with
          frame := setCnt (countBytes p.frame 1) ((p.frame.maskCnt + 1) % 4)
          data := p.data ++ [b ^^^ p.frame.mask p.frame.maskCnt] }
        ((count_state more).trans reading)
        (isType.imp sameType.trans sameType.trans) (by dsimp only; omega) (by dsimp only; omega)
      rw [same]
      obtain ⟨setMask, setCntIs⟩ := set_cnt_fields (countBytes p.frame 1) ((p.frame.maskCnt + 1) % 4)
      simp only [setMask, setCntIs, sameMask, count_set_cnt, set_cnt_twice, count_add more]
      simp [unmaskPayload, Nat.add_comm 1]

end

end Pieces

section Code

variable {ctx : HandlerCtx} {p : Progress} {earlier base given : Bytes}

/-- What has left the context is what has left the machine. `earlier` went before this
call and `base` was in the queue of the backend when it began. -/
structure Left (earlier base given : Bytes) (ctx : HandlerCtx) (p : Progress) : Prop where
  sends : ctx.sends = p.sends
  sound : WorldSound ctx.world
  forwarded : ∃ new, p.data = earlier ++ new ∧ contents ctx.world wbQueue = base ++ new
  given : contents ctx.world requestContentQueue = given

structure Matches (earlier base given : Bytes) (ctx : HandlerCtx) (p : Progress) : Prop
    extends Left earlier base given ctx p where
  frame : ctx.frame = p.frame
  payload : ctx.payload.bytes = p.held

def Follows (earlier base given : Bytes) : Outcome → Progress × Bool → Prop
  | .more ctx, (p, false) => Matches earlier base given ctx p
  | .done ctx, (p, true) => Left earlier base given ctx p
  | _, _ => False

theorem append_string_bytes (b : Buffer) (s : Bytes) : (b.appendStringLen s).bytes = b.bytes ++ s := by
  unfold Buffer.appendStringLen
  dsimp only
  rw [prepare_append_bytes]

theorem forward_payload_matches (left : Left earlier base given ctx p) :
    ∃ after, forwardPayload ctx = .more after ∧
      Matches earlier base given after { p with
        frame := setCnt ctx.frame (unmaskPayload ctx.frame.mask ctx.frame.maskCnt ctx.payload.bytes).2
        held := []
        data := p.data ++ (unmaskPayload ctx.frame.mask ctx.frame.maskCnt ctx.payload.bytes).1 } := by
  let piece := unmaskPayload ctx.frame.mask ctx.frame.maskCnt ctx.payload.bytes
  rcases get_memory_spec (left.sound.sound wbQueue) piece.1.length 0 with
    ⟨m', cq', space, isMemory, -, -, room⟩
  rcases use_memory_world left.sound wbQueue _ 0 _
    (Nat.le_trans room (Nat.le_of_eq (congrArg (·.2.2) isMemory).symm)) with
    ⟨world, isCalled, sound, isContent, -⟩
  have isForwarded : forwardPayload ctx = .more { ctx with
      world := world
      frame := setCnt ctx.frame piece.2
      payload := ctx.payload.reset } := by
    unfold forwardPayload
    dsimp only
    rw [isCalled]
    rfl
  refine ⟨_, isForwarded, ⟨left.sends, sound, ?_, ?_⟩, rfl, rfl⟩
  · rcases left.forwarded with ⟨new, isData, isForwarded⟩
    refine ⟨new ++ piece.1, ?_, ?_⟩
    · rw [isData, append_assoc]
    · dsimp only
      rw [isContent, update_self, isForwarded, append_assoc]
  · dsimp only
    rw [isContent, update_of_ne (by decide)]
    exact left.given

theorem read_payload_follows (steady : Steady p) (reading : p.frame.state = .readPayload)
    (matched : Matches earlier base given ctx p) {rest : Bytes} (some_left : rest ≠ []) :
    ∃ next after, feed byteStep p (rest.take p.frame.siz) = (next, false) ∧
      readPayload ctx rest = .more after ∧ Matches earlier base given after next := by
  have toCome := steady.toCome reading
  have sameFrame := matched.frame
  have held := matched.payload
  have restLength : 0 < rest.length := length_pos_of_ne_nil some_left
  have pieceLength : (rest.take p.frame.siz).length = min p.frame.siz rest.length := length_take
  have piece : rest.take (if p.frame.siz ≤ rest.length then p.frame.siz else rest.length) =
      rest.take p.frame.siz := by
    split
    next => rfl
    next => rw [take_length, take_of_length_le (by omega)]
  have counted : (if p.frame.siz ≤ rest.length then { p.frame with siz := 0, state := .init }
      else { p.frame with siz := p.frame.siz - rest.length }) =
        countBytes p.frame (rest.take p.frame.siz).length := by
    unfold countBytes
    rw [pieceLength]
    by_cases covered : p.frame.siz ≤ rest.length
    · rw [if_pos covered, if_pos (by omega)]
    · rw [if_neg covered, if_neg (by omega), Nat.min_eq_right (by omega)]
  obtain ⟨sameType, -, sameMask, sameCnt⟩ := count_type p.frame (rest.take p.frame.siz).length
  have notHeld : p.frame.type ≠ .ping → p.held = [] := by
    intro other
    by_contra holds
    exact other (steady.held holds).2
  have pieceSome : rest.take p.frame.siz ≠ [] := by
    apply ne_nil_of_length_pos
    omega
  have leftAfter : ∀ (frame frame' : Frame) (payload : Buffer) (held' : Bytes),
      Left earlier base given { ctx with frame := frame, payload := payload }
        { p with frame := frame', held := held' } :=
    fun _ _ _ _ => ⟨matched.sends, matched.sound, matched.forwarded, matched.given⟩
  have appended : (ctx.payload.appendStringLen (rest.take p.frame.siz)).bytes =
      p.held ++ rest.take p.frame.siz := by
    rw [append_string_bytes, held]
  have forwards : p.frame.type = .text ∨ p.frame.type = .bin →
      ∃ next after, feed byteStep p (rest.take p.frame.siz) = (next, false) ∧
        forwardPayload { ctx with
          frame := countBytes p.frame (rest.take p.frame.siz).length
          payload := ctx.payload.appendStringLen (rest.take p.frame.siz) } = .more after ∧
        Matches earlier base given after next := by
    intro isType
    have noneHeld : p.held = [] := by
      apply notHeld
      rcases isType with isText | isBin
      · simp [isText]
      · simp [isBin]
    rw [noneHeld, nil_append] at appended
    rcases forward_payload_matches (leftAfter (countBytes p.frame (rest.take p.frame.siz).length)
      p.frame (ctx.payload.appendStringLen (rest.take p.frame.siz)) p.held) with
      ⟨after, isForwarded, matches_⟩
    refine ⟨_, after, feed_data reading isType toCome (by omega), isForwarded, ?_⟩
    rw [appended, sameMask, sameCnt] at matches_
    rw [noneHeld]
    exact matches_
  unfold readPayload
  rw [sameFrame, piece, counted]
  dsimp only
  rw [sameType]
  cases isType : p.frame.type with
  | text => exact forwards (.inl isType)
  | bin => exact forwards (.inr isType)
  | close => exact absurd isType steady.known
  | pong =>
    have noneHeld : p.held = [] := notHeld (by simp [isType])
    refine ⟨_, _, feed_pong reading isType toCome (by omega), rfl, leftAfter _ _ _ _, rfl, ?_⟩
    exact noneHeld.symm
  | ping =>
    rw [count_siz]
    by_cases all : p.frame.siz ≤ rest.length
    · rw [if_pos (by omega)]
      refine ⟨_, _, feed_ping_all reading isType toCome (by omega), rfl, ⟨?_, matched.sound,
        matched.forwarded, matched.given⟩, ?_, rfl⟩
      · unfold modWstunnelFrameSend
        rw [appended, sameMask, sameCnt, matched.sends]
      · unfold modWstunnelFrameSend setCnt
        dsimp only
        rw [appended, sameMask, sameCnt]
    · rw [if_neg (by omega)]
      exact ⟨_, _, feed_ping_part reading isType (by omega), rfl, leftAfter _ _ _ _, rfl, appended⟩

theorem frame_loop_follows (turns : Nat) {bytes : Bytes} (enough : bytes.length ≤ turns)
    (steady : Steady p) (matched : Matches earlier base given ctx p) :
    Follows earlier base given (frameLoop turns ctx bytes) (feed byteStep p bytes) := by
  induction turns generalizing ctx p bytes with
  | zero =>
    have isNil : bytes = [] := length_eq_zero_iff.1 (by omega)
    subst isNil
    exact matched
  | succ turns ih =>
    cases bytes with
    | nil => exact matched
    | cons b rest =>
      rw [List.length_cons] at enough
      unfold frameLoop
      rw [matched.frame]
      by_cases reading : p.frame.state = .readPayload
      · rw [reading]
        rcases read_payload_follows steady reading matched (cons_ne_nil b rest) with
          ⟨next, after, isFed, isRead, afterMatches⟩
        have stays : Steady next := by
          have kept := feed_keeps byte_step_steady ((b :: rest).take p.frame.siz) steady
          rwa [isFed] at kept
        have toCome := steady.toCome reading
        rw [isRead, ← take_append_drop p.frame.siz (b :: rest), feed_append isFed,
          take_append_drop]
        apply ih _ stays afterMatches
        rw [List.length_drop, List.length_cons]
        omega
      · split
        next isReading => exact absurd isReading reading
        cases result : frameByte p.frame b with
        | error frame =>
          have refused : byteStep p b = none := by
            rw [step_header reading, headerByte, result]
          rw [feed_refused refused]
          exact ⟨matched.sends, matched.sound, matched.forwarded, matched.given⟩
        | ok turn =>
          obtain ⟨frame, empty⟩ := turn
          have taken : byteStep p b = some { p with
              frame := frame
              sends := p.sends ++ if empty then [(.pong, [])] else [] } := by
            rw [step_header reading, headerByte, result]
          rw [feed_cons taken]
          apply ih (by omega) (byte_step_steady p b _ steady taken)
          cases empty with
          | true =>
            refine ⟨⟨?_, matched.sound, matched.forwarded, matched.given⟩, rfl,
              matched.payload⟩
            exact congrArg (· ++ [(FrameType.pong, [])]) matched.sends
          | false =>
            refine ⟨⟨?_, matched.sound, matched.forwarded, matched.given⟩, rfl,
              matched.payload⟩
            exact matched.sends.trans (append_nil _).symm

theorem recv_chunks_follows (chunks : List Chunk) (isMem : ∀ c ∈ chunks, c.type = .memChunk)
    (steady : Steady p) (matched : Matches earlier base given ctx p) :
    Follows earlier base given (recvChunks ctx chunks)
      (feed byteStep p (chunks.flatMap Chunkqueue.memBytes)) := by
  induction chunks generalizing ctx p with
  | nil => exact matched
  | cons c chunks ih =>
    have follows := frame_loop_follows (2 * (Chunkqueue.memBytes c).length)
      (Nat.le_mul_of_pos_left _ (by decide)) steady matched
    rw [recvChunks, if_pos (isMem c mem_cons_self), flatMap_cons]
    generalize isFed : feed byteStep p (Chunkqueue.memBytes c) = fed at follows
    generalize isLooped : frameLoop (2 * (Chunkqueue.memBytes c).length) ctx
      (Chunkqueue.memBytes c) = looped at follows
    obtain ⟨next, refused⟩ := fed
    cases looped with
    | more after =>
      cases refused with
      | false =>
        have stays : Steady next := by
          have kept := feed_keeps byte_step_steady (Chunkqueue.memBytes c) steady
          rwa [isFed] at kept
        rw [feed_append isFed]
        exact ih (fun d mem => isMem d (mem_cons_of_mem c mem)) stays follows
      | true => exact follows.elim
    | done after =>
      cases refused with
      | false => exact follows.elim
      | true =>
        rw [feed_append_refused isFed]
        exact follows
    | aborted => exact follows.elim

/-- A call: it returns 0 and has taken all of the queue, or -1 at the first byte that
is refused; what has left is what the machine has done with the bytes. -/
theorem recv_rfc_6455_follows
    (isMem : ∀ c ∈ (ctx.world.queues requestContentQueue).chunks, c.type = .memChunk)
    (steady : Steady p) (matched : Matches earlier base given ctx p) {next : Progress} {refused : Bool}
    (isFed : feed byteStep p given = (next, refused)) :
    ∃ after, recvRfc6455 ctx = some (after, if refused then -1 else 0) ∧
      (refused = false → Matches earlier base [] after next) ∧
      (refused = true → Left earlier base given after next) := by
  have follows := recv_chunks_follows _ isMem steady matched
  have bytes : (ctx.world.queues requestContentQueue).chunks.flatMap Chunkqueue.memBytes = given := by
    rw [← matched.given]
    apply flatMap_congr
    intro c mem
    rw [chunkBytes, isMem c mem]
    rfl
  rw [bytes, isFed] at follows
  generalize isReceived : recvChunks ctx (ctx.world.queues requestContentQueue).chunks = received
    at follows
  unfold recvRfc6455
  rw [isReceived]
  cases received with
  | more after =>
    cases refused with
    | true => exact follows.elim
    | false =>
      have all : (after.world.queues requestContentQueue).length ≤
          (contents after.world requestContentQueue).length :=
        Nat.le_of_eq (length_eq (follows.sound.sound requestContentQueue))
      rcases mark_written_world follows.sound requestContentQueue all with
        ⟨world, isCalled, sound, isContent, -⟩
      refine ⟨{ after with world := world }, ?_, ?_, ?_⟩
      · dsimp only
        rw [isCalled]
        rfl
      · intro _
        refine ⟨⟨follows.sends, sound, ?_, ?_⟩, follows.frame, follows.payload⟩
        · dsimp only
          rw [isContent, update_of_ne (by decide)]
          exact follows.forwarded
        · dsimp only
          rw [isContent, update_self, length_eq (follows.sound.sound requestContentQueue)]
          exact drop_length
      · nofun
  | done after =>
    cases refused with
    | false => exact follows.elim
    | true =>
      refine ⟨after, rfl, ?_, fun _ => follows⟩
      nofun
  | aborted => exact follows.elim

end Code

end ServerCore.LighttpdWstunnelBytes
