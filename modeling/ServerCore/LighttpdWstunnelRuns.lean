import ServerCore.LighttpdWstunnelFrames

/-!
# Calls of `recv_rfc_6455`

The bytes of a client come in any number of calls, each with any memory chunks
in the queue of the request. Behind the frames may come a close frame, a frame
without a mask or an unknown opcode, and then anything.
-/

namespace ServerCore.LighttpdWstunnelRuns

open LighttpdChunk LighttpdChunkFifo RefusingMachine LighttpdWstunnel LighttpdWstunnelBytes
open LighttpdWstunnelFrames List

/-- How a client ends the frames that are received. -/
inductive Offence where
  | close (flags : Byte)
  | unknown (first : Byte) (isUnknown : ∀ kind : Kind, first &&& 0x0f ≠ kind.opcode)
  | unmasked (flags : Byte) (kind : Kind) (second : Byte) (noMask : second &&& 0x80 ≠ 0x80)

namespace Offence

def lead : Offence → Bytes
  | .close _ => []
  | .unknown _ _ => []
  | .unmasked flags kind _ _ => [ClientFrame.firstByte flags kind.opcode]

def offending : Offence → Byte
  | .close flags => ClientFrame.firstByte flags 0x08
  | .unknown first _ => first
  | .unmasked _ _ second _ => second

end Offence

structure ClientStream where
  frames : List ClientFrame
  ending : Option (Offence × Bytes)

namespace ClientStream

def tail (stream : ClientStream) : Bytes :=
  match stream.ending with
  | none => []
  | some (offence, further) => offence.lead ++ offence.offending :: further

def bytes (stream : ClientStream) : Bytes := encodeAll stream.frames ++ stream.tail

/-- The place of the first offending byte, behind all bytes if there is none. -/
def offendsAt (stream : ClientStream) : Nat :=
  match stream.ending with
  | none => stream.bytes.length
  | some (offence, _) => (encodeAll stream.frames).length + offence.lead.length

end ClientStream

theorem init_unknown {f : Frame} {first : Byte} (isUnknown : ∀ kind : Kind, first &&& 0x0f ≠ kind.opcode) :
    ∃ frame, initByte f first = .error frame := by
  have none_of : ∀ kind : Kind, (first &&& 0x0f).toNat ≠ kind.opcode.toNat :=
    fun kind same => isUnknown kind (UInt8.toNat_inj.1 same)
  unfold initByte
  split
  next isCont => exact absurd isCont (none_of .cont)
  next isText => exact absurd isText (none_of .text)
  next isBin => exact absurd isBin (none_of .bin)
  next isPing => exact absurd isPing (none_of .ping)
  next isPong => exact absurd isPong (none_of .pong)
  next => exact ⟨_, rfl⟩
  next => exact ⟨_, rfl⟩

theorem close_unknown {flags : Byte} (kind : Kind) :
    ClientFrame.firstByte flags 0x08 &&& 0x0f ≠ kind.opcode := by
  rw [opcode_of_first flags (by decide)]
  cases kind <;> decide

variable {p : Progress}

theorem unknown_refused (idle : Idle p) {first : Byte}
    (isUnknown : ∀ kind : Kind, first &&& 0x0f ≠ kind.opcode) : byteStep p first = none := by
  have header : p.frame.state ≠ .readPayload := by simp [idle.state]
  obtain ⟨frame, isError⟩ := @init_unknown p.frame first isUnknown
  rw [step_header header, headerByte, frameByte, idle.state]
  rw [isError]
  rfl

theorem offence_feed (idle : Idle p) {offence : Offence} :
    ∃ next, feed byteStep p offence.lead = (next, false) ∧ byteStep next offence.offending = none ∧
      next.data = p.data ∧ next.sends = p.sends := by
  cases offence with
  | close flags => exact ⟨p, rfl, unknown_refused idle close_unknown, rfl, rfl⟩
  | unknown first isUnknown => exact ⟨p, rfl, unknown_refused idle isUnknown, rfl, rfl⟩
  | unmasked flags kind second noMask =>
    obtain ⟨next, taken, -, -, state, -, data, sends⟩ := init_step idle flags kind
    refine ⟨next, (feed_cons taken []).trans rfl, ?_, data, sends⟩
    have header : next.frame.state ≠ .readPayload := by simp [state]
    have refused : lengthByte next.frame second = .error next.frame := by
      rw [lengthByte, if_pos noMask]
    change byteStep next second = none
    rw [step_header header, headerByte, frameByte, state]
    rw [refused]
    rfl

theorem stream_feed {stream : ClientStream} (idle : Idle p) {n : Nat} (within : n ≤ stream.bytes.length) :
    ∃ next, feed byteStep p (stream.bytes.take n) = (next, decide (stream.offendsAt < n)) ∧
      next.data = p.data ++ dataUpTo stream.frames n ∧
        next.sends = p.sends ++ pongsUpTo stream.frames n := by
  by_cases inFrames : n ≤ (encodeAll stream.frames).length
  · obtain ⟨next, isFed, data, sends, -⟩ := frames_feed stream.frames idle inFrames
    have later : ¬ stream.offendsAt < n := by
      unfold ClientStream.offendsAt
      split
      · rw [ClientStream.bytes, length_append]
        omega
      · omega
    rw [ClientStream.bytes, take_append_of_le_length inFrames, decide_eq_false later]
    exact ⟨next, isFed, data, sends⟩
  · obtain ⟨middle, isFed, data, sends, isIdle⟩ :=
      frames_feed stream.frames idle (Nat.le_refl (encodeAll stream.frames).length)
    rw [take_length] at isFed
    have middleIdle := isIdle rfl
    have front : stream.bytes.take n = encodeAll stream.frames ++
        stream.tail.take (n - (encodeAll stream.frames).length) := by
      rw [ClientStream.bytes, take_append, take_of_length_le (by omega)]
    rw [data_up_to_all stream.frames (Nat.le_refl _)] at data
    rw [pongs_up_to_all stream.frames (Nat.le_refl _)] at sends
    rw [front, feed_append isFed, data_up_to_all stream.frames (by omega),
      pongs_up_to_all stream.frames (by omega), ← data, ← sends]
    rw [ClientStream.bytes, length_append] at within
    cases isEnding : stream.ending with
    | none =>
      rw [ClientStream.tail, isEnding, length_nil] at within
      omega
    | some ending =>
      obtain ⟨offence, further⟩ := ending
      obtain ⟨next, leadFed, refused, sameData, sameSends⟩ := offence_feed middleIdle
      have isTail : stream.tail = offence.lead ++ offence.offending :: further := by
        rw [ClientStream.tail, isEnding]
      have place : stream.offendsAt = (encodeAll stream.frames).length + offence.lead.length := by
        rw [ClientStream.offendsAt, isEnding]
      rw [isTail, place, take_append]
      refine ⟨next, ?_, sameData, sameSends⟩
      by_cases reached : (encodeAll stream.frames).length + offence.lead.length < n
      · have more : ∃ rest, (offence.offending :: further).take
            (n - (encodeAll stream.frames).length - offence.lead.length) = offence.offending :: rest := by
          obtain ⟨m, isSucc⟩ : ∃ m,
              n - (encodeAll stream.frames).length - offence.lead.length = m + 1 :=
            ⟨_, (Nat.succ_pred_eq_of_pos (by omega)).symm⟩
          rw [isSucc, take_succ_cons]
          exact ⟨_, rfl⟩
        obtain ⟨rest, isRest⟩ := more
        rw [isRest, take_of_length_le (by omega), feed_append leadFed, feed_refused refused,
          decide_eq_true reached]
      · have short : offence.lead.length ≤ 1 := by
          cases offence <;> simp [Offence.lead]
        have none_more : n - (encodeAll stream.frames).length - offence.lead.length = 0 := by omega
        rw [none_more, take_zero, append_nil, take_of_length_le (by omega), leadFed,
          decide_eq_false reached]

structure Fresh (ctx : HandlerCtx) : Prop where
  sound : WorldSound ctx.world
  state : ctx.frame.state = .init
  type : ctx.frame.type = .text ∨ ctx.frame.type = .bin
  before : ctx.frame.typeBefore = ctx.frame.type
  payload : ctx.payload.bytes = []
  sends : ctx.sends = []

/-- The queues when a call is made: the request's has memory chunks with bytes behind
what was there, and the backend may have taken from its own. -/
structure Delivery (before world : World) : Prop where
  sound : WorldSound world
  isMem : ∀ c ∈ (world.queues requestContentQueue).chunks, c.type = .memChunk
  arrived : contents before requestContentQueue <+: contents world requestContentQueue
  taken : contents world wbQueue <:+ contents before wbQueue

/-- Calls that returned 0: the bytes that came with them, and what they appended to the
backend's queue. -/
inductive Calls (start : HandlerCtx) : Bytes → Bytes → HandlerCtx → Prop
  | none : Calls start [] [] start
  | call {given appended new : Bytes} {before after : HandlerCtx} {world : World} :
      Calls start given appended before → Delivery before.world world →
      recvRfc6455 { before with world := world } = some (after, 0) →
      contents after.world wbQueue = contents world wbQueue ++ new →
      Calls start (given ++ contents world requestContentQueue) (appended ++ new) after

def startProgress (ctx : HandlerCtx) : Progress := ⟨ctx.frame, [], [], []⟩

theorem fresh_idle {start : HandlerCtx} (fresh : Fresh start) : Idle (startProgress start) := by
  refine ⟨fresh.state, rfl, ?_, ?_⟩
  · unfold startProgress
    rw [fresh.before]
    exact fresh.type
  · rcases fresh.type with isText | isBin
    · simp [startProgress, isText]
    · simp [startProgress, isBin]

theorem idle_steady (idle : Idle p) : Steady p := by
  refine ⟨?_, fun holds => absurd idle.held holds, idle.known, ?_⟩
  · intro reading
    rw [idle.state] at reading
    cases reading
  · rcases idle.before with isText | isBin
    · simp [isText]
    · simp [isBin]

structure Abreast (start : HandlerCtx) (given appended : Bytes) (ctx : HandlerCtx)
    (p : Progress) : Prop where
  fed : feed byteStep (startProgress start) given = (p, false)
  steady : Steady p
  frame : ctx.frame = p.frame
  payload : ctx.payload.bytes = p.held
  sends : ctx.sends = p.sends
  data : p.data = appended

section Calls

variable {start before : HandlerCtx} {given appended : Bytes} {p : Progress} {world : World}

theorem call_follows (abreast : Abreast start given appended before p)
    (delivery : Delivery before.world world) {next : Progress} {refused : Bool}
    (isFed : feed byteStep p (contents world requestContentQueue) = (next, refused)) :
    ∃ after new, recvRfc6455 { before with world := world } = some (after, if refused then -1 else 0) ∧
      contents after.world wbQueue = contents world wbQueue ++ new ∧
      next.data = appended ++ new ∧ after.sends = next.sends ∧
      (refused = false → contents after.world requestContentQueue = [] ∧
        Abreast start (given ++ contents world requestContentQueue) (appended ++ new) after next) := by
  have matched : Matches p.data (contents world wbQueue) (contents world requestContentQueue)
      { before with world := world } p :=
    ⟨⟨abreast.sends, delivery.sound, ⟨[], (append_nil _).symm, (append_nil _).symm⟩, rfl⟩,
      abreast.frame, abreast.payload⟩
  have stays : Steady next := by
    have kept := feed_keeps byte_step_steady (contents world requestContentQueue) abreast.steady
    rwa [isFed] at kept
  obtain ⟨after, isCalled, whenTaken, whenRefused⟩ :=
    recv_rfc_6455_follows delivery.isMem abreast.steady matched isFed
  cases refused with
  | true =>
    have left := whenRefused rfl
    obtain ⟨new, data, forwarded⟩ := left.forwarded
    refine ⟨after, new, isCalled, forwarded, abreast.data ▸ data, left.sends, ?_⟩
    nofun
  | false =>
    have all := whenTaken rfl
    obtain ⟨new, data, forwarded⟩ := all.forwarded
    rw [abreast.data] at data
    refine ⟨after, new, isCalled, forwarded, data, all.sends, ?_⟩
    intro _
    exact ⟨all.given, (feed_append abreast.fed _).trans isFed, stays, all.frame, all.payload,
      all.sends, data⟩

theorem calls_abreast (fresh : Fresh start) (calls : Calls start given appended before) :
    ∃ p, Abreast start given appended before p := by
  induction calls with
  | none =>
    exact ⟨startProgress start, rfl, idle_steady (fresh_idle fresh), rfl, fresh.payload,
      fresh.sends, rfl⟩
  | @call given appended new before after world _ delivery isCalled isAppended ih =>
    obtain ⟨p, abreast⟩ := ih
    obtain ⟨⟨next, refused⟩, isFed⟩ :
        ∃ fed, feed byteStep p (contents world requestContentQueue) = fed := ⟨_, rfl⟩
    obtain ⟨after', new', isCalled', isAppended', -, -, whenTaken⟩ :=
      call_follows abreast delivery isFed
    rw [isCalled] at isCalled'
    cases refused with
    | true => simp at isCalled'
    | false =>
      cases isCalled'
      have same : new = new' := append_cancel_left (isAppended.symm.trans isAppended')
      subst same
      exact ⟨next, (whenTaken rfl).2⟩

end Calls

/-- Frames in any chunks and calls. The call returns, with -1 if the first offending byte has come
with it and with 0 otherwise; the backend has got the data of the bytes that have come, one PONG
was asked for each PING among them, and no byte is left to be read again. -/
theorem frames_received {start before : HandlerCtx} {given appended : Bytes} {world : World}
    (fresh : Fresh start) (stream : ClientStream) (calls : Calls start given appended before)
    (delivery : Delivery before.world world)
    (isGiven : given ++ contents world requestContentQueue <+: stream.bytes) :
    let taken := (given ++ contents world requestContentQueue).length
    ∃ after new,
      recvRfc6455 { before with world := world } =
        some (after, if stream.offendsAt < taken then -1 else 0) ∧
      contents after.world wbQueue = contents world wbQueue ++ new ∧
      appended ++ new = dataUpTo stream.frames taken ∧
      after.sends = pongsUpTo stream.frames taken ∧
      (¬ stream.offendsAt < taken → contents after.world requestContentQueue = []) ∧
      ((encodeAll stream.frames).length ≤ taken →
        appended ++ new = stream.frames.flatMap ClientFrame.data ∧
        after.sends = stream.frames.flatMap ClientFrame.pongs) := by
  intro taken
  obtain ⟨p, abreast⟩ := calls_abreast fresh calls
  have isTake : given ++ contents world requestContentQueue = stream.bytes.take taken :=
    prefix_iff_eq_take.1 isGiven
  obtain ⟨next, isFed, data, sends⟩ := stream_feed (fresh_idle fresh) isGiven.length_le
  rw [← isTake, feed_append abreast.fed] at isFed
  obtain ⟨after, new, isCalled, isAppended, nextData, nextSends, whenTaken⟩ :=
    call_follows abreast delivery isFed
  have isNew : appended ++ new = dataUpTo stream.frames taken := nextData.symm.trans data
  have isSends : after.sends = pongsUpTo stream.frames taken := nextSends.trans sends
  refine ⟨after, new, ?_, isAppended, isNew, isSends, ?_, ?_⟩
  · rw [isCalled]
    simp only [decide_eq_true_eq]
    rfl
  · intro notReached
    exact (whenTaken (decide_eq_false notReached)).1
  · intro all
    rw [data_up_to_all stream.frames all] at isNew
    rw [pongs_up_to_all stream.frames all] at isSends
    exact ⟨isNew, isSends⟩

def quietTunnel : HandlerCtx where
  world := ⟨⟨fun _ => [], 0, 0, []⟩, fun _ => emptyQueue 0⟩
  frame := ⟨.init, .bin, .bin, 0, 0, 0, fun _ => 0⟩
  payload := .init
  sends := []

def hiFrame : ClientFrame where
  flags := 0x80
  kind := .text
  form := .short
  mask := fun i => UInt8.ofNat (i.val + 1)
  payload := [104, 105]
  fits := by decide
  pingFits := by decide

/-- The frame with a close frame behind it, in two chunks that cut the payload. -/
def hiWorld : World :=
  let world := quietTunnel.world
  let first := (world.queues requestContentQueue).appendMem world.memory (hiFrame.encode.take 7)
  let world := setOne world requestContentQueue first
  let second := (world.queues requestContentQueue).appendMem world.memory (hiFrame.encode.drop 7 ++ [0x88])
  setOne world requestContentQueue second

theorem quiet_tunnel_sound : WorldSound quietTunnel.world := by
  have initial : TransitionSystem.Reachable chunkqueues ⟨quietTunnel.world, fun _ => []⟩ :=
    TransitionSystem.reachable_initial ⟨fun _ => [], 0, fun _ => 0, fun _ _ => rfl, rfl⟩
  exact (world_reachable initial).1

theorem hi_world_delivery : Delivery quietTunnel.world hiWorld := by
  rcases append_mem_world quiet_tunnel_sound requestContentQueue (hiFrame.encode.take 7) with
    ⟨first, isFirst, firstSound, -, -⟩
  rcases append_mem_world firstSound requestContentQueue (hiFrame.encode.drop 7 ++ [0x88]) with
    ⟨second, isSecond, secondSound, -, -⟩
  cases isFirst
  cases isSecond
  refine ⟨secondSound, ?_, nil_prefix, ?_⟩
  · decide
  · exact nil_suffix

theorem hi_received : ∃ after, recvRfc6455 { quietTunnel with world := hiWorld } = some (after, -1) ∧
    contents after.world wbQueue = [104, 105] ∧ after.sends = [] := by
  have fresh : Fresh quietTunnel := ⟨quiet_tunnel_sound, rfl, .inr rfl, rfl, rfl, rfl⟩
  have isGiven : [] ++ contents hiWorld requestContentQueue <+:
      (ClientStream.mk [hiFrame] (some (.close 0x80, []))).bytes := by
    decide
  obtain ⟨after, new, isCalled, isAppended, -, -, -, whenAll⟩ :=
    frames_received fresh _ Calls.none hi_world_delivery isGiven
  obtain ⟨isNew, isSends⟩ := whenAll (by decide)
  refine ⟨after, isCalled, ?_, isSends⟩
  rw [isAppended]
  exact isNew

end ServerCore.LighttpdWstunnelRuns
