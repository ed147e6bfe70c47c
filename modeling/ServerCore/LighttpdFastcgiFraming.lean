import ServerCore.LighttpdFastcgi

/-!
# The records of a FastCGI request

What a backend is to see: a list of records, of which those of the body are not
empty and only the last one is the empty one that ends the body. The queue to
the backend, with what has been taken from it already, is always the encoding of
such a list.
-/

namespace ServerCore.LighttpdFastcgiFraming

open LighttpdChunk
open LighttpdChunkContent (length_eq)
open LighttpdChunkFifo LighttpdFastcgi List Option Function

variable {type : Byte} {count written : Nat} {after : FcgiRequest} {streaming : Bool}
  {writes : List Nat}

structure Record where
  type : Byte
  content : Bytes
  fits : content.length ≤ fcgiMaxLength

def headerBytes (type : Byte) (requestId contentLength : Nat) : Bytes :=
  [1, type, UInt8.ofNat ((requestId >>> 8) &&& 0xff), UInt8.ofNat (requestId &&& 0xff),
    UInt8.ofNat ((contentLength >>> 8) &&& 0xff), UInt8.ofNat (contentLength &&& 0xff), 0, 0]

def Record.encode (record : Record) : Bytes :=
  headerBytes record.type 1 record.content.length ++ record.content

abbrev Piece := { content : Bytes // content ≠ [] ∧ content.length ≤ fcgiMaxLength }

abbrev Params := { env : Bytes // env.length ≤ fcgiMaxLength }

def beginRecord (gwMode : GwMode) : Record :=
    ⟨fcgiBeginRequest, beginBody gwMode, by cases gwMode <;> decide⟩

def paramsRecord (env : Params) : Record := ⟨fcgiParams, env.val, env.property⟩

def endOfParams : Record := ⟨fcgiParams, [], Nat.zero_le _⟩

def pieceRecord (piece : Piece) : Record := ⟨fcgiStdin, piece.val, piece.property.2⟩

def endOfStdin : Record := ⟨fcgiStdin, [], Nat.zero_le _⟩

/-- The records of a request whose body is here in some pieces, complete or not. -/
def records (gwMode : GwMode) (env : Params) (pieces : List Piece) (ended : Bool) : List Record :=
  [beginRecord gwMode, paramsRecord env, endOfParams] ++ pieces.map pieceRecord ++
    if ended then [endOfStdin] else []

def encodeAll (list : List Record) : Bytes := list.flatMap Record.encode

def bodyOf (pieces : List Piece) : Bytes := pieces.flatMap Subtype.val

variable {contentLength : Nat} {pieces : List Piece} {env : Params} {r : FcgiRequest} {input : Subrequest}

theorem header_eq {requestId : Nat} (fits : contentLength ≤ fcgiMaxLength) :
    fcgiHeader type requestId contentLength 0 = some (headerBytes type requestId contentLength) :=
  if_pos fits

theorem encode_length (record : Record) : record.encode.length = fcgiHeaderLen + record.content.length := by
  unfold Record.encode headerBytes fcgiHeaderLen
  rw [length_append]
  rfl

theorem encode_all_append (first second : List Record) :
    encodeAll (first ++ second) = encodeAll first ++ encodeAll second := flatMap_append

theorem opening_eq (gwMode : GwMode) (env : Params) : fcgiOpening 1 gwMode env.val =
      some (encodeAll [beginRecord gwMode, paramsRecord env, endOfParams]) := by
  have fits : (beginBody gwMode).length ≤ fcgiMaxLength := (beginRecord gwMode).fits
  have empty : 0 ≤ fcgiMaxLength := Nat.zero_le _
  simp only [fcgiOpening, header_eq fits, header_eq env.property, header_eq empty,
    bind_eq_bind, bind_some, encodeAll, flatMap_cons, flatMap_nil,
    append_nil, Record.encode, beginRecord, paramsRecord, endOfParams, append_assoc]
  rfl

theorem pieces_length (pieces : List Piece) : (encodeAll (pieces.map pieceRecord)).length =
      fcgiHeaderLen * pieces.length + (bodyOf pieces).length := by
  unfold encodeAll bodyOf
  induction pieces with
  | nil => rfl
  | cons piece pieces ih =>
    rw [map_cons, flatMap_cons, flatMap_cons, length_append, length_append,
      ih, encode_length, length_cons]
    change fcgiHeaderLen + piece.val.length + _ = _
    rw [Nat.mul_succ]
    omega

def openingLen (env : Params) : Nat := 4 * fcgiHeaderLen + env.val.length

/-- The largest length that `wb_reqlen` can come to: each byte of the body in a record of its own. -/
def Room (env : Params) (contentLength : Nat) : Prop :=
  openingLen env + (fcgiHeaderLen + 1) * contentLength + fcgiHeaderLen < 2 ^ 63

theorem off_t_eq {sum : Int} {value : Nat} (isSum : sum = value)
    (fits : value < 2 ^ 63) : offT sum = value := by
  rw [isSum]
  exact Int.bmod_eq_of_le (by omega) (by omega)

theorem pieces_le_body (pieces : List Piece) : pieces.length ≤ (bodyOf pieces).length := by
  induction pieces with
  | nil => exact Nat.le_refl 0
  | cons piece pieces ih =>
    have some_ := length_pos_of_ne_nil piece.property.1
    unfold bodyOf at ih ⊢
    rw [flatMap_cons, length_append, length_cons]
    omega

theorem records_length (gwMode : GwMode) (env : Params) (pieces : List Piece) (ended : Bool) :
    (encodeAll (records gwMode env pieces ended)).length =
      openingLen env + fcgiHeaderLen * pieces.length + (bodyOf pieces).length +
        if ended then fcgiHeaderLen else 0 := by
  have opening : (encodeAll [beginRecord gwMode, paramsRecord env, endOfParams]).length =
      openingLen env := by
    simp only [encodeAll, flatMap_cons, flatMap_nil, append_nil, length_append, encode_length]
    change fcgiHeaderLen + 8 + (fcgiHeaderLen + env.val.length + (fcgiHeaderLen + 0)) = _
    unfold openingLen fcgiHeaderLen
    omega
  have ending : (encodeAll (if ended then [endOfStdin] else [])).length =
      if ended then fcgiHeaderLen else 0 := by
    cases ended <;> rfl
  unfold records
  rw [encode_all_append, encode_all_append, length_append, length_append, opening,
    pieces_length, ending]
  omega

theorem body_append (pieces : List Piece) (piece : Piece) :
    bodyOf (pieces ++ [piece]) = bodyOf pieces ++ piece.val := by
  unfold bodyOf
  rw [flatMap_append, flatMap_cons, flatMap_nil, append_nil]

theorem records_append (gwMode : GwMode) (env : Params) (pieces : List Piece) (piece : Piece) :
    encodeAll (records gwMode env (pieces ++ [piece]) false) =
      encodeAll (records gwMode env pieces false) ++ (pieceRecord piece).encode := by
  unfold records
  simp [encodeAll]

theorem records_end (gwMode : GwMode) (env : Params) (pieces : List Piece) :
    encodeAll (records gwMode env pieces true) =
      encodeAll (records gwMode env pieces false) ++ endOfStdin.encode := by
  unfold records
  simp [encodeAll, flatMap_append]

def fcgiPair (key val : Bytes) : Bytes :=
  lengthBytes key.length ++ lengthBytes val.length ++ key ++ val

theorem fcgi_env_add_eq (env key val : Bytes) : fcgiEnvAdd env key val =
    if env.length + (fcgiPair key val).length < fcgiMaxLength then
      some (env ++ fcgiPair key val) else none := by
  have sizes (len : Nat) : (lengthBytes len).length = if len > 127 then 4 else 1 := by
    unfold lengthBytes
    split_ifs <;> rfl
  have total : (fcgiPair key val).length = key.length + val.length +
      (if key.length > 127 then 4 else 1) + (if val.length > 127 then 4 else 1) := by
    simp only [fcgiPair, length_append, sizes]
    omega
  rw [fcgiEnvAdd, ← total]
  by_cases fits : env.length + (fcgiPair key val).length < fcgiMaxLength
  · rw [if_pos fits, if_neg (Nat.not_le_of_lt fits)]
    simp [fcgiPair]
  · rw [if_neg fits, if_pos (Nat.le_of_not_lt fits)]

section Invariant

variable {r : FcgiRequest} {env : Params} {pieces : List Piece} {ended : Bool}

abbrev bodyTaken (r : FcgiRequest) : Nat := outs r.world requestContentQueue

abbrev fifo (r : FcgiRequest) (q : QueueId) : Bytes := contents r.world q

/-- What has come from the client is what has been framed, what waits to be framed and what
waits to be taken as part of the body, in this order. -/
structure Frame (r : FcgiRequest) : Prop where
  sound : WorldSound r.world
  taken : bodyTaken r ≤ r.received.length
  logged : r.received.drop (bodyTaken r) = fifo r requestContentQueue ++ fifo r readQueue
  bounded : bodyTaken r + (fifo r requestContentQueue).length ≤ r.contentLength
  sentCount : outs r.world wbQueue = r.sent.length

structure Opened (r : FcgiRequest) (env : Params) (pieces : List Piece) (ended : Bool) : Prop extends
    Frame r where
  id : r.requestId = 1
  body : bodyOf pieces = r.received.take (bodyTaken r)
  bytes : r.sent ++ fifo r wbQueue = encodeAll (records r.gwMode env pieces ended)
  reqlen : r.wbReqlen = (openingLen env + fcgiHeaderLen * pieces.length + r.contentLength +
    if ended then fcgiHeaderLen else 0 : Nat)
  room : Room env r.contentLength

structure Waiting (r : FcgiRequest) : Prop extends Frame r where
  id : r.requestId = 0
  nothing : fifo r wbQueue = []
  unsent : r.sent = []
  untaken : bodyTaken r = 0
  reqlen : r.wbReqlen = 0

theorem body_length (opened : Opened r env pieces ended) : (bodyOf pieces).length = bodyTaken r := by
  rw [opened.body, length_take, Nat.min_eq_left opened.taken]

theorem bytes_in_wb (opened : Opened r env pieces ended) :
    ((r.world.queues wbQueue).bytesIn : Int) + r.contentLength = r.wbReqlen + bodyTaken r := by
  have total := congrArg List.length opened.bytes
  rw [records_length, length_append, body_length opened] at total
  have counted := bytes_in_eq opened.sound wbQueue
  have sentCount := opened.sentCount
  rw [opened.reqlen, counted, sentCount]
  change ((r.sent.length + (fifo r wbQueue).length : Nat) : Int) + _ = _
  omega

theorem on_queues_eq {c : Call} {w : World} (isCall : call r.world c = some w) :
    onQueues r c = some { r with world := w } := by
  unfold onQueues
  rw [isCall]
  rfl

theorem queues_differ : wbQueue ≠ requestContentQueue ∧ wbQueue ≠ readQueue ∧
    requestContentQueue ≠ readQueue := by decide

theorem received_take (frame : Frame r) (enough : count ≤ (fifo r requestContentQueue).length) :
    r.received.take (bodyTaken r + count) =
      r.received.take (bodyTaken r) ++ (fifo r requestContentQueue).take count := by
  rw [take_add, frame.logged, take_append_of_le_length enough]

theorem received_drop (frame : Frame r) (enough : count ≤ (fifo r requestContentQueue).length) :
    r.received.drop (bodyTaken r + count) = (fifo r requestContentQueue).drop count ++ fifo r readQueue := by
  rw [← drop_drop, frame.logged, drop_append_of_le_length enough]

theorem received_length (frame : Frame r) : r.received.length =
    bodyTaken r + (fifo r requestContentQueue).length + (fifo r readQueue).length := by
  have logged := congrArg List.length frame.logged
  rw [length_drop, length_append] at logged
  have taken := frame.taken
  omega

theorem frame_kept (frame : Frame r) (sound : WorldSound after.world)
    (received : after.received = r.received) (total : after.contentLength = r.contentLength)
    (req : fifo after requestContentQueue = fifo r requestContentQueue)
    (read : fifo after readQueue = fifo r readQueue)
    (taken : bodyTaken after = bodyTaken r)
    (sentCount : outs after.world wbQueue = after.sent.length) : Frame after := by
  constructor
  · exact sound
  · rw [received, taken]
    exact frame.taken
  · rw [received, taken, req, read]
    exact frame.logged
  · rw [taken, req, total]
    exact frame.bounded
  · exact sentCount

theorem header_of_opened (opened : Opened r env pieces ended)
    (fits : contentLength ≤ fcgiMaxLength) :
    fcgiHeader type r.requestId contentLength 0 = some (headerBytes type 1 contentLength) := by
  rw [opened.id]
  exact header_eq fits

variable {weWant : Nat}

theorem stdin_record_world (sound : WorldSound r.world) (header : Bytes)
    (enough : weWant ≤ (fifo r requestContentQueue).length) :
    ∃ between after, call r.world (.appendMem wbQueue header) = some between ∧
      call between (.steal wbQueue requestContentQueue weWant) = some after ∧ WorldSound after ∧
      contents after wbQueue = fifo r wbQueue ++ (header ++ (fifo r requestContentQueue).take weWant) ∧
      contents after requestContentQueue = (fifo r requestContentQueue).drop weWant ∧
      contents after readQueue = fifo r readQueue ∧ outs after requestContentQueue = bodyTaken r + weWant ∧
      outs after wbQueue = outs r.world wbQueue := by
  rcases queues_differ with ⟨wbReq, wbRead, reqRead⟩
  rcases append_mem_world sound wbQueue header with ⟨between, isAppend, betweenSound, isContent, isOuts⟩
  rcases steal_world betweenSound wbReq weWant with ⟨after, isSteal, afterSound, isMoved, isTaken⟩
  have wb : contents between wbQueue = fifo r wbQueue ++ header := by
    rw [isContent, update_self]
  have req : contents between requestContentQueue = fifo r requestContentQueue := by
    rw [isContent, update_of_ne wbReq.symm]
  have read : contents between readQueue = fifo r readQueue := by
    rw [isContent, update_of_ne wbRead.symm]
  refine ⟨between, after, isAppend, isSteal, afterSound, ?_, ?_, ?_, ?_, ?_⟩
  · rw [isMoved, moveFront, update_of_ne wbReq, update_self, wb, req, append_assoc]
  · rw [isMoved, moveFront, update_self, req]
  · rw [isMoved, moveFront, update_of_ne reqRead.symm, update_of_ne wbRead.symm, read]
  · rw [isTaken, update_self, req, Nat.min_eq_left enough, isOuts]
  · rw [isTaken, update_of_ne wbReq, isOuts]

section

variable (opened : Opened r env pieces false)
include opened

theorem stdin_record_opened (some_ : 0 < weWant)
    (fits : weWant ≤ fcgiMaxLength) (enough : weWant ≤ (fifo r requestContentQueue).length) :
    ∃ w reqlen piece, stdinRecord r weWant = some { r with world := w, wbReqlen := reqlen } ∧
      Opened { r with world := w, wbReqlen := reqlen } env (pieces ++ [piece]) false ∧
      contents w requestContentQueue = (fifo r requestContentQueue).drop weWant ∧
      contents w readQueue = fifo r readQueue := by
  have size : ((fifo r requestContentQueue).take weWant).length = weWant := by
    rw [length_take, Nat.min_eq_left enough]
  have isPiece : (fifo r requestContentQueue).take weWant ≠ [] ∧
      ((fifo r requestContentQueue).take weWant).length ≤ fcgiMaxLength := by
    constructor
    · intro isNil
      rw [isNil] at size
      exact Nat.ne_of_lt some_ size
    · rw [size]
      exact fits
  have known : r.wbReqlen ≥ 0 := by
    rw [opened.reqlen]
    exact Int.natCast_nonneg _
  have notUnknown : r.wbReqlen ≠ -1 := by omega
  have isReqlen : offT (r.wbReqlen + fcgiHeaderLen) =
      (openingLen env + fcgiHeaderLen * (pieces.length + 1) + r.contentLength : Nat) := by
    have count := pieces_le_body pieces
    have bound := opened.bounded
    have room := opened.room
    rw [body_length opened] at count
    have reqlen := opened.reqlen
    rw [if_neg Bool.false_ne_true] at reqlen
    unfold Room at room
    unfold fcgiHeaderLen at room reqlen ⊢
    exact off_t_eq (by omega) (by omega)
  rcases stdin_record_world opened.sound (headerBytes fcgiStdin 1 weWant) enough with
    ⟨between, after, isAppend, isSteal, sound, wb, req, read, taken, unsent⟩
  refine ⟨after, offT (r.wbReqlen + fcgiHeaderLen), ⟨_, isPiece⟩, ?_, ?_, req, read⟩
  · unfold stdinRecord
    simp only [header_of_opened opened fits, bind_eq_bind, bind_some, on_queues_eq isAppend]
    rw [if_pos notUnknown, if_pos known]
    exact @on_queues_eq { r with
      world := between, wbReqlen := offT (r.wbReqlen + fcgiHeaderLen) } _ _ isSteal
  · have longer := received_length opened.toFrame
    constructor
    · constructor
      · exact sound
      · change outs after requestContentQueue ≤ r.received.length
        omega
      · change r.received.drop (outs after requestContentQueue) =
          contents after requestContentQueue ++ contents after readQueue
        rw [taken, req, read, received_drop opened.toFrame enough]
      · change outs after requestContentQueue + (contents after requestContentQueue).length ≤ _
        rw [taken, req, length_drop]
        have bound := opened.bounded
        change _ ≤ r.contentLength
        omega
      · exact unsent.trans opened.sentCount
    · exact opened.id
    · change bodyOf _ = r.received.take (outs after requestContentQueue)
      rw [taken, body_append, received_take opened.toFrame enough, opened.body]
    · change r.sent ++ contents after wbQueue = _
      rw [wb, ← append_assoc, opened.bytes, records_append]
      unfold Record.encode pieceRecord
      rw [size]
    · rw [isReqlen, length_append]
      rfl
    · exact opened.room

theorem stdin_loop_opened {turns : Nat}
    (enough : (fifo r requestContentQueue).length ≤ turns) :
    ∃ w reqlen more, stdinLoop r turns (fifo r requestContentQueue).length =
        some { r with world := w, wbReqlen := reqlen } ∧
      Opened { r with world := w, wbReqlen := reqlen } env more false ∧
      contents w requestContentQueue = [] ∧ contents w readQueue = fifo r readQueue := by
  induction turns generalizing r pieces with
  | zero =>
    have isNil := eq_nil_of_length_eq_zero (Nat.le_zero.mp enough)
    exact ⟨r.world, r.wbReqlen, pieces, rfl, opened, isNil, rfl⟩
  | succ turns ih =>
    unfold stdinLoop
    by_cases isEmpty : (fifo r requestContentQueue).length = 0
    · rw [if_pos isEmpty]
      exact ⟨r.world, r.wbReqlen, pieces, rfl, opened, eq_nil_of_length_eq_zero isEmpty, rfl⟩
    · rw [if_neg isEmpty]
      have bounds : ∃ weWant, weWant = (if (fifo r requestContentQueue).length > fcgiMaxLength then
          fcgiMaxLength else (fifo r requestContentQueue).length) ∧ 0 < weWant ∧
          weWant ≤ fcgiMaxLength ∧ weWant ≤ (fifo r requestContentQueue).length := by
        have pos : 0 < fcgiMaxLength := by decide
        split_ifs with large
        · exact ⟨_, rfl, pos, Nat.le_refl _, Nat.le_of_lt large⟩
        · exact ⟨_, rfl, Nat.pos_of_ne_zero isEmpty, Nat.not_lt.mp large, Nat.le_refl _⟩
      rcases bounds with ⟨weWant, isWanted, some_, fits, within⟩
      rcases stdin_record_opened opened some_ fits within with
        ⟨w, reqlen, piece, isRecord, next, req, read⟩
      have left : (contents w requestContentQueue).length =
          (fifo r requestContentQueue).length - weWant := by
        rw [req, length_drop]
      rcases @ih { r with world := w, wbReqlen := reqlen } (pieces ++ [piece]) next
        (by rw [left]; omega) with
        ⟨w', reqlen', more, isLoop, last, isNil, read'⟩
      refine ⟨w', reqlen', more, ?_, last, isNil, read'.trans read⟩
      rw [← isWanted]
      dsimp only
      rw [isRecord, bind_some]
      rw [left] at isLoop
      exact isLoop

theorem stdin_end_opened : ∃ w reqlen, stdinEnd r = some { r with world := w, wbReqlen := reqlen } ∧
      Opened { r with world := w, wbReqlen := reqlen } env pieces
        (decide (outs w requestContentQueue = r.contentLength)) ∧
      contents w requestContentQueue = fifo r requestContentQueue ∧
      contents w readQueue = fifo r readQueue := by
  have counted := bytes_in_wb opened
  unfold stdinEnd
  by_cases complete : bodyTaken r = r.contentLength
  · have atEnd : ((r.world.queues wbQueue).bytesIn : Int) = r.wbReqlen := by omega
    rcases append_mem_world opened.sound wbQueue (headerBytes fcgiStdin 1 0) with
      ⟨w, isAppend, sound, isContent, isOuts⟩
    rcases queues_differ with ⟨wbReq, wbRead, reqRead⟩
    have wb : contents w wbQueue = fifo r wbQueue ++ headerBytes fcgiStdin 1 0 := by
      rw [isContent, update_self]
    have req : contents w requestContentQueue = fifo r requestContentQueue := by
      rw [isContent, update_of_ne wbReq.symm]
    have read : contents w readQueue = fifo r readQueue := by
      rw [isContent, update_of_ne wbRead.symm]
    have empty : 0 ≤ fcgiMaxLength := Nat.zero_le _
    have done : decide (outs w requestContentQueue = r.contentLength) = true := by
      rw [isOuts]
      exact decide_eq_true complete
    refine ⟨w, offT (r.wbReqlen + fcgiHeaderLen), ?_, ?_, req, read⟩
    · simp only [if_pos atEnd, header_of_opened opened empty, bind_eq_bind, bind_some,
        on_queues_eq isAppend]
      rfl
    · rw [done]
      constructor
      · exact frame_kept opened.toFrame sound rfl rfl req read (congrFun isOuts _)
          ((congrFun isOuts _).trans opened.sentCount)
      · exact opened.id
      · change bodyOf pieces = r.received.take (outs w requestContentQueue)
        rw [isOuts]
        exact opened.body
      · change r.sent ++ contents w wbQueue = _
        rw [wb, ← append_assoc, opened.bytes, records_end]
        rfl
      · have count := pieces_le_body pieces
        have room := opened.room
        rw [body_length opened] at count
        have reqlen := opened.reqlen
        rw [if_neg Bool.false_ne_true] at reqlen
        unfold Room at room
        rw [if_pos rfl]
        unfold fcgiHeaderLen at room reqlen ⊢
        dsimp only
        exact off_t_eq (by omega) (by omega)
      · exact opened.room
  · have notEnd : ¬ ((r.world.queues wbQueue).bytesIn : Int) = r.wbReqlen := by omega
    have isOpen : decide (outs r.world requestContentQueue = r.contentLength) = false :=
      decide_eq_false complete
    refine ⟨r.world, r.wbReqlen, ?_, ?_, rfl, rfl⟩
    · rw [if_neg notEnd]
    · rw [isOpen]
      exact opened

theorem stdin_append_opened :
    ∃ w reqlen more, fcgiStdinAppend r = some { r with world := w, wbReqlen := reqlen } ∧
      Opened { r with world := w, wbReqlen := reqlen } env more
        (decide (outs w requestContentQueue = r.contentLength)) ∧
      contents w requestContentQueue = [] ∧ contents w readQueue = fifo r readQueue := by
  have queued : cqLength r requestContentQueue = (fifo r requestContentQueue).length := by
    unfold cqLength
    rw [bytes_in_eq opened.sound]
    exact Nat.add_sub_cancel_left _ _
  rcases stdin_loop_opened opened (Nat.le_refl _) with ⟨w, reqlen, more, isLoop, last, isNil, read⟩
  rcases stdin_end_opened last with ⟨w', reqlen', isEnd, finished, req, read'⟩
  refine ⟨w', reqlen', more, ?_, finished, req.trans isNil, read'.trans read⟩
  unfold fcgiStdinAppend
  rw [queued]
  simp only [bind_eq_bind, isLoop, bind_some]
  exact isEnd

end

theorem create_env_opened (waiting : Waiting r) (accepted : httpCgiHeaders r.pairs = some env.val)
    (room : Room env r.contentLength) : ∃ w reqlen more,
      fcgiCreateEnv r = some { r with world := w, wbReqlen := reqlen, requestId := 1, created := true } ∧
      Opened { r with world := w, wbReqlen := reqlen, requestId := 1, created := true } env more
        (decide (outs w requestContentQueue = r.contentLength)) ∧
      contents w requestContentQueue = [] ∧ contents w readQueue = fifo r readQueue := by
  let front := [beginRecord r.gwMode, paramsRecord env, endOfParams]
  rcases append_buffer_world waiting.sound wbQueue (Buffer.init.appendStringLen (encodeAll front)) with
    ⟨w, isAppend, sound, isContent, isOuts⟩
  rcases queues_differ with ⟨wbReq, wbRead, reqRead⟩
  have wb : contents w wbQueue = encodeAll front := by
    rw [isContent, update_self]
    change fifo r wbQueue ++ _ = _
    rw [waiting.nothing]
    rfl
  have req : contents w requestContentQueue = fifo r requestContentQueue := by
    rw [isContent, update_of_ne wbReq.symm]
  have read : contents w readQueue = fifo r readQueue := by
    rw [isContent, update_of_ne wbRead.symm]
  have opens : records r.gwMode env [] false = front := rfl
  have length := records_length r.gwMode env [] false
  rw [opens] at length
  have opened : Opened { r with
      world := w
      wbReqlen := offT ((encodeAll front).length + r.contentLength)
      requestId := 1 } env [] false := by
    constructor
    · exact frame_kept waiting.toFrame sound rfl rfl req read (congrFun isOuts _)
        ((congrFun isOuts _).trans waiting.sentCount)
    · rfl
    · change [] = r.received.take (outs w requestContentQueue)
      rw [isOuts]
      change [] = r.received.take (bodyTaken r)
      rw [waiting.untaken, take_zero]
    · change r.sent ++ contents w wbQueue = _
      rw [waiting.unsent, wb, opens, nil_append]
    · unfold Room fcgiHeaderLen at room
      rw [length]
      simp only [length_nil, bodyOf, flatMap_nil, if_neg Bool.false_ne_true, Nat.mul_zero, Nat.add_zero]
      exact off_t_eq (by omega) (by omega)
    · exact room
  rcases stdin_append_opened opened with ⟨w', reqlen', more, isAppended, finished, isNil, read'⟩
  refine ⟨w', reqlen', more, ?_, ?_, isNil, read'.trans read⟩
  · unfold fcgiCreateEnv
    rw [waiting.id]
    simp only [if_true, accepted, opening_eq, bind_eq_bind, bind_some]
    rw [@on_queues_eq { r with
      requestId := 1
      wbReqlen := (encodeAll front).length } _ _ isAppend]
    simp only [bind_some]
    rw [isAppended]
    rfl
  · exact ⟨⟨finished.sound, finished.taken, finished.logged, finished.bounded, finished.sentCount⟩,
      finished.id, finished.body, finished.bytes, finished.reqlen, finished.room⟩

end Invariant

section Steady

variable {r after : FcgiRequest} {env : Params} {pieces : List Piece} {ended : Bool}

structure Steady (r after : FcgiRequest) : Prop where
  frame : Frame after
  id : after.requestId = r.requestId
  gwMode : after.gwMode = r.gwMode
  contentLength : after.contentLength = r.contentLength
  pairs : after.pairs = r.pairs
  reqlen : after.wbReqlen = r.wbReqlen
  created : after.created = r.created
  taken : bodyTaken after = bodyTaken r
  total : after.sent ++ fifo after wbQueue = r.sent ++ fifo r wbQueue
  received : r.received <+: after.received

theorem Steady.refl (frame : Frame r) : Steady r r :=
  ⟨frame, rfl, rfl, rfl, rfl, rfl, rfl, rfl, rfl, prefix_refl _⟩

theorem Steady.trans {between : FcgiRequest} (first : Steady r between) (second : Steady between after) :
    Steady r after :=
  ⟨second.frame, second.id.trans first.id, second.gwMode.trans first.gwMode,
    second.contentLength.trans first.contentLength, second.pairs.trans first.pairs,
    second.reqlen.trans first.reqlen, second.created.trans first.created,
    second.taken.trans first.taken, second.total.trans first.total,
    first.received.trans second.received⟩

theorem steady_opened (opened : Opened r env pieces ended) (steady : Steady r after) :
    Opened after env pieces ended := by
  constructor
  · exact steady.frame
  · exact steady.id.trans opened.id
  · rw [steady.taken, opened.body]
    rcases steady.received with ⟨more, isReceived⟩
    rw [← isReceived, take_append_of_le_length opened.taken]
  · rw [steady.total, steady.gwMode]
    exact opened.bytes
  · rw [steady.reqlen, steady.contentLength]
    exact opened.reqlen
  · rw [steady.contentLength]
    exact opened.room

theorem steady_waiting (waiting : Waiting r) (steady : Steady r after) : Waiting after := by
  have total := steady.total
  rw [waiting.unsent, waiting.nothing] at total
  rcases append_eq_nil_iff.mp total with ⟨unsent, nothing⟩
  exact ⟨steady.frame, steady.id.trans waiting.id, nothing, unsent, steady.taken.trans waiting.untaken,
    steady.reqlen.trans waiting.reqlen⟩

theorem read_once_steady (frame : Frame r) {minSize allocSize : Nat} {bytes : Bytes} :
    ∃ after, readOnce r minSize allocSize bytes = some after ∧ Steady r after := by
  rcases queues_differ with ⟨wbReq, wbRead, reqRead⟩
  unfold readOnce
  dsimp only
  generalize isSpace : ((r.world.queues readQueue).getMemory r.world.memory minSize allocSize).2.2 = space
  have fits : (bytes.take space).length ≤
      ((r.world.queues readQueue).getMemory r.world.memory minSize allocSize).2.2 := by
    rw [isSpace, length_take]
    exact Nat.min_le_left _ _
  rcases use_memory_world frame.sound readQueue minSize allocSize (bytes.take space) fits with
    ⟨w, isRead, sound, isContent, isOuts⟩
  have wb : contents w wbQueue = fifo r wbQueue := by
    rw [isContent, update_of_ne wbRead]
  have req : contents w requestContentQueue = fifo r requestContentQueue := by
    rw [isContent, update_of_ne reqRead]
  have read : contents w readQueue = fifo r readQueue ++ bytes.take space := by
    rw [isContent, update_self]
  refine ⟨{ r with world := w, received := r.received ++ bytes.take space }, ?_, ?_⟩
  · rw [on_queues_eq isRead]
    rfl
  · have isTaken : outs w requestContentQueue = bodyTaken r := congrFun isOuts _
    constructor
    · constructor
      · exact sound
      · change outs w requestContentQueue ≤ (r.received ++ bytes.take space).length
        rw [isTaken, length_append]
        exact Nat.le_trans frame.taken (Nat.le_add_right _ _)
      · change (r.received ++ bytes.take space).drop (outs w requestContentQueue) =
          contents w requestContentQueue ++ contents w readQueue
        rw [isTaken, req, read, drop_append_of_le_length frame.taken, frame.logged, append_assoc]
      · change outs w requestContentQueue + (contents w requestContentQueue).length ≤ _
        rw [isTaken, req]
        exact frame.bounded
      · rw [isOuts]
        exact frame.sentCount
    · rfl
    · rfl
    · rfl
    · rfl
    · rfl
    · rfl
    · exact isTaken
    · exact congrArg (r.sent ++ ·) wb
    · exact prefix_append _ _

theorem read_all_steady {reads : List (Nat × Nat × Bytes)} (frame : Frame r) :
    ∃ after, readAll r reads = some after ∧ Steady r after := by
  induction reads generalizing r with
  | nil => exact ⟨r, rfl, Steady.refl frame⟩
  | cons read reads ih =>
    rcases read_once_steady frame with ⟨between, isRead, steady⟩
    rcases ih steady.frame with ⟨after, isRest, rest⟩
    refine ⟨after, ?_, steady.trans rest⟩
    rw [readAll, isRead]
    exact isRest

theorem take_body_steady (frame : Frame r) {isClosed : Bool} :
    ∃ after result, takeBody r isClosed streaming writes = some (after, result) ∧ Steady r after ∧
      after.received = r.received ∧ (fifo after readQueue = [] ∨
        bodyTaken after + (fifo after requestContentQueue).length = after.contentLength) := by
  rcases queues_differ with ⟨wbReq, wbRead, reqRead⟩
  rcases remove_finished_world frame.sound readQueue with ⟨w₁, isFirst, sound₁, contents₁, outs₁, -⟩
  generalize isWanted : r.contentLength - (w₁.queues requestContentQueue).bytesIn = weWant
  have counted : (w₁.queues requestContentQueue).bytesIn =
      bodyTaken r + (fifo r requestContentQueue).length := by
    rw [bytes_in_eq sound₁, contents₁, outs₁]
  have moved : ∃ w₂, call w₁ (if r.contentLength ≤ 64 * 1024 then
        .steal requestContentQueue readQueue weWant
        else .stealWithTempfiles requestContentQueue readQueue weWant writes) = some w₂ ∧
      WorldSound w₂ ∧ contents w₂ = moveFront (contents w₁) requestContentQueue readQueue weWant ∧
      outs w₂ = update (outs w₁) readQueue
        (outs w₁ readQueue + min weWant (contents w₁ readQueue).length) := by
    split_ifs
    · exact steal_world sound₁ reqRead weWant
    · exact steal_with_tempfiles_world sound₁ reqRead weWant writes
  rcases moved with ⟨w₂, isMove, sound₂, contents₂, outs₂⟩
  rcases remove_finished_world sound₂ readQueue with ⟨w₃, isLast, sound₃, contents₃, outs₃, -⟩
  have wb : contents w₃ wbQueue = fifo r wbQueue := by
    rw [contents₃, contents₂, moveFront, update_of_ne wbRead, update_of_ne wbReq, contents₁]
  have req : contents w₃ requestContentQueue =
      fifo r requestContentQueue ++ (fifo r readQueue).take weWant := by
    rw [contents₃, contents₂, moveFront, update_of_ne reqRead, update_self, contents₁]
  have read : contents w₃ readQueue = (fifo r readQueue).drop weWant := by
    rw [contents₃, contents₂, moveFront, update_self, contents₁]
  have isTaken : outs w₃ requestContentQueue = bodyTaken r := by
    rw [outs₃, outs₂, update_of_ne reqRead, outs₁]
  have isOut : outs w₃ wbQueue = outs r.world wbQueue := by
    rw [outs₃, outs₂, update_of_ne wbRead, outs₁]
  have bound := frame.bounded
  have steady : ∀ readPost, Steady r { r with world := w₃, readPost := readPost } := by
    intro readPost
    constructor
    · constructor
      · exact sound₃
      · change outs w₃ requestContentQueue ≤ r.received.length
        rw [isTaken]
        exact frame.taken
      · change r.received.drop (outs w₃ requestContentQueue) =
          contents w₃ requestContentQueue ++ contents w₃ readQueue
        rw [isTaken, req, read, append_assoc, take_append_drop, frame.logged]
      · change outs w₃ requestContentQueue + (contents w₃ requestContentQueue).length ≤ r.contentLength
        rw [isTaken, req, length_append, length_take]
        omega
      · rw [isOut]
        exact frame.sentCount
    · rfl
    · rfl
    · rfl
    · rfl
    · rfl
    · rfl
    · exact isTaken
    · exact congrArg (r.sent ++ ·) wb
    · exact prefix_refl _
  have complete : contents w₃ readQueue = [] ∨
      outs w₃ requestContentQueue + (contents w₃ requestContentQueue).length = r.contentLength := by
    rw [read, isTaken, req, length_append, length_take]
    by_cases all : (fifo r readQueue).length ≤ weWant
    · exact .inl (drop_eq_nil_of_le all)
    · omega
  have results : ∃ readPost result, takeBody r isClosed streaming writes =
      some ({ r with world := w₃, readPost := readPost }, result) := by
    unfold takeBody
    simp only [bind_eq_bind, on_queues_eq isFirst, bind_some, isWanted]
    rw [@on_queues_eq { r with world := w₁ } _ _ isMove]
    simp only [bind_some]
    rw [@on_queues_eq { r with world := w₂ } _ _ isLast]
    simp only [bind_some]
    by_cases isReady : (w₃.queues requestContentQueue).bytesIn = r.contentLength
    · exact ⟨false, .goOn, if_pos isReady⟩
    · rw [if_neg isReady]
      by_cases closed : isClosed = true
      · exact ⟨r.readPost, .error, if_pos closed⟩
      · exact ⟨r.readPost, _, if_neg closed⟩
  rcases results with ⟨readPost, result, isResult⟩
  exact ⟨_, result, isResult, steady readPost, rfl, complete⟩

theorem read_post_steady (frame : Frame r) {read : NetworkRead} :
    ∃ after result, connectionHandleReadPostState r read streaming writes = some (after, result) ∧
      Steady r after ∧ (read ≠ .failed → fifo after readQueue = [] ∨
        bodyTaken after + (fifo after requestContentQueue).length = after.contentLength) := by
  cases read with
  | failed => exact ⟨r, .error, rfl, Steady.refl frame, fun notFailed => absurd rfl notFailed⟩
  | notReadable | closed =>
    rcases take_body_steady frame with ⟨after, result, isResult, steady, -, all⟩
    exact ⟨after, result, isResult, steady, fun _ => all⟩
  | data reads =>
    rcases read_all_steady frame with ⟨between, isRead, first⟩
    rcases take_body_steady first.frame with
      ⟨after, result, isResult, second, -, all⟩
    refine ⟨after, result, ?_, first.trans second, fun _ => all⟩
    rw [connectionHandleReadPostState, isRead]
    exact isResult

theorem write_backend_steady (frame : Frame r) :
    ∃ after, writeBackend r written = some after ∧ Steady r after ∧ after.received = r.received ∧
      fifo after readQueue = fifo r readQueue ∧
      fifo after requestContentQueue = fifo r requestContentQueue := by
  rcases queues_differ with ⟨wbReq, wbRead, reqRead⟩
  unfold writeBackend
  generalize isCount : min written (r.world.queues wbQueue).length = taken
  have enough : taken ≤ (contents r.world wbQueue).length := by
    rw [← isCount, length_eq (frame.sound.sound wbQueue)]
    exact Nat.min_le_right _ _
  rcases mark_written_world frame.sound wbQueue enough with ⟨w₁, isMark, sound₁, contents₁, outs₁⟩
  rcases remove_finished_world sound₁ wbQueue with ⟨w₂, isRemove, sound₂, contents₂, outs₂, -⟩
  have wb : contents w₂ wbQueue = (fifo r wbQueue).drop taken := by
    rw [contents₂, contents₁, update_self]
  have req : contents w₂ requestContentQueue = fifo r requestContentQueue := by
    rw [contents₂, contents₁, update_of_ne wbReq.symm]
  have read : contents w₂ readQueue = fifo r readQueue := by
    rw [contents₂, contents₁, update_of_ne wbRead.symm]
  have isTaken : outs w₂ requestContentQueue = bodyTaken r := by
    rw [outs₂, outs₁, update_of_ne wbReq.symm]
  have isOut : outs w₂ wbQueue = outs r.world wbQueue + taken := by
    rw [outs₂, outs₁, update_self]
  refine ⟨{ r with world := w₂, sent := r.sent ++ (fifo r wbQueue).take taken }, ?_, ?_, rfl, read, req⟩
  · change (onQueues { r with sent := r.sent ++ (fifo r wbQueue).take taken } _).bind _ = _
    rw [@on_queues_eq { r with sent := r.sent ++ (fifo r wbQueue).take taken } _ _ isMark]
    exact @on_queues_eq { r with world := w₁, sent := r.sent ++ (fifo r wbQueue).take taken } _ _ isRemove
  · constructor
    · refine frame_kept frame sound₂ rfl rfl req read isTaken ?_
      rw [isOut, frame.sentCount, length_append, length_take]
      congr 1
      exact (Nat.min_eq_left enough).symm
    · rfl
    · rfl
    · rfl
    · rfl
    · rfl
    · rfl
    · exact isTaken
    · change (r.sent ++ (fifo r wbQueue).take taken) ++ contents w₂ wbQueue = _
      rw [wb, append_assoc, take_append_drop]
    · exact prefix_refl _

end Steady

section Handling

variable {r : FcgiRequest} {env : Params}

structure Kept (r : FcgiRequest) (env : Params) : Prop where
  mode : r.gwMode ≠ .authorizer
  accepted : httpCgiHeaders r.pairs = some env.val
  room : Room env r.contentLength
  opened : r.created = true → ∃ pieces, Opened r env pieces (decide (bodyTaken r = r.contentLength))
  waiting : r.created = false → Waiting r

theorem kept_frame (kept : Kept r env) : Frame r := by
  cases isCreated : r.created with
  | true =>
    rcases kept.opened isCreated with ⟨pieces, opened⟩
    exact opened.toFrame
  | false => exact (kept.waiting isCreated).toFrame

theorem steady_kept (kept : Kept r env) (steady : Steady r after) : Kept after env := by
  constructor
  · rw [steady.gwMode]
    exact kept.mode
  · rw [steady.pairs]
    exact kept.accepted
  · rw [steady.contentLength]
    exact kept.room
  · intro isCreated
    rw [steady.created] at isCreated
    rcases kept.opened isCreated with ⟨pieces, opened⟩
    rw [steady.taken, steady.contentLength]
    exact ⟨pieces, steady_opened opened steady⟩
  · intro isWaiting
    rw [steady.created] at isWaiting
    exact steady_waiting (kept.waiting isWaiting) steady

theorem waiting_bytes_in (waiting : Waiting r) : (r.world.queues wbQueue).bytesIn = 0 := by
  have nothing := waiting.nothing
  unfold fifo at nothing
  rw [bytes_in_eq waiting.sound, waiting.sentCount, waiting.unsent, nothing]
  rfl

theorem opened_bytes_in {ended : Bool} (opened : Opened r env pieces ended) :
    (r.world.queues wbQueue).bytesIn ≠ 0 := by
  have total := congrArg List.length opened.bytes
  rw [records_length, length_append] at total
  have pos : 0 < openingLen env := Nat.lt_of_lt_of_le (by decide) (Nat.le_add_right _ _)
  rw [bytes_in_eq opened.sound, opened.sentCount]
  change r.sent.length + (fifo r wbQueue).length ≠ 0
  omega

theorem send_request_kept (kept : Kept r env) {connected : Bool} :
    ∃ after, gwSendRequest r connected written = some after ∧ Kept after env ∧
      (r.created = true → Steady r after ∧ after.received = r.received) := by
  unfold gwSendRequest
  cases isCreated : r.created with
  | true =>
    rcases write_backend_steady (kept_frame kept) with ⟨after, isWrite, steady, same, -, -⟩
    exact ⟨after, isWrite, steady_kept kept steady, fun _ => ⟨steady, same⟩⟩
  | false =>
    cases connected with
    | false => exact ⟨r, rfl, kept, nofun⟩
    | true =>
      rcases create_env_opened (kept.waiting isCreated) kept.accepted kept.room with
        ⟨w, reqlen, pieces, isCreate, opened, -, -⟩
      have between : Kept { r with
          world := w, wbReqlen := reqlen, requestId := 1, created := true } env := by
        constructor
        · exact kept.mode
        · exact kept.accepted
        · exact kept.room
        · exact fun _ => ⟨pieces, opened⟩
        · exact nofun
      rcases write_backend_steady (kept_frame between) with ⟨after, isWrite, steady, -⟩
      refine ⟨after, ?_, steady_kept between steady, nofun⟩
      simp only [Bool.false_eq_true, if_false, if_true, isCreate, bind_eq_bind, bind_some]
      exact isWrite

theorem send_rest_kept (kept : Kept r env) : ∃ after, sendRest r input = some after ∧ Kept after env ∧
      (r.created = true → Steady r after ∧ after.received = r.received) := by
  unfold sendRest
  split_ifs
  · exact send_request_kept kept
  · exact ⟨r, rfl, kept, fun _ => ⟨Steady.refl (kept_frame kept), rfl⟩⟩

def AllFramed (r : FcgiRequest) : Prop :=
  r.received.take (bodyTaken r) = r.received.take r.contentLength

theorem all_framed (frame : Frame r) (nothing : fifo r requestContentQueue = [])
    (all : fifo r readQueue = [] ∨ bodyTaken r = r.contentLength) : AllFramed r := by
  unfold AllFramed
  rcases all with noMore | complete
  · have length := received_length frame
    have bound := frame.bounded
    rw [nothing, noMore] at length
    rw [nothing] at bound
    simp only [length_nil, Nat.add_zero] at length bound
    rw [take_of_length_le (Nat.le_of_eq length), take_of_length_le (length ▸ bound)]
  · rw [complete]

theorem steady_all_framed (steady : Steady r after)
    (same : after.received = r.received) (all : AllFramed r) : AllFramed after := by
  unfold AllFramed
  rw [same, steady.taken, steady.contentLength]
  exact all

section

variable (kept : Kept r env)
include kept

theorem frame_body_kept (missing : r.created = true → bodyTaken r ≠ r.contentLength)
    {result : HandlerT} : ∃ after, frameBody r input result = some after ∧ Kept after env ∧
      (r.created = true → after.created = true ∧ ((fifo r readQueue = [] ∨
        bodyTaken r + (fifo r requestContentQueue).length = r.contentLength) → AllFramed after)) := by
  have rest : ∀ {next : FcgiRequest}, Kept next env → ∃ after,
      (if result ≠ .goOn then some next else sendRest next input) = some after ∧ Kept after env ∧
        (next.created = true → after.created = true ∧ (AllFramed next → AllFramed after)) := by
    intro next nextKept
    split_ifs
    · exact ⟨next, rfl, nextKept, fun isCreated => ⟨isCreated, fun all => all⟩⟩
    · rcases send_rest_kept nextKept with ⟨after, isSend, afterKept, steady⟩
      refine ⟨after, isSend, afterKept, ?_⟩
      intro isCreated
      rcases steady isCreated with ⟨isSteady, same⟩
      exact ⟨isSteady.created.trans isCreated, steady_all_framed isSteady same⟩
  unfold frameBody
  cases isCreated : r.created with
  | false =>
    have waiting := kept.waiting isCreated
    have notYet : ¬ (((r.world.queues wbQueue).bytesIn ≠ 0 ∨ r.wbReqlen = -1) ∧
        (r.world.queues requestContentQueue).chunks ≠ []) := by
      intro both
      rcases both.1 with some_ | unknown
      · exact some_ (waiting_bytes_in waiting)
      · rw [waiting.reqlen] at unknown
        cases unknown
    rw [if_neg notYet]
    rcases rest kept with ⟨after, isRest, afterKept, -⟩
    exact ⟨after, isRest, afterKept, nofun⟩
  | true =>
    rcases kept.opened isCreated with ⟨pieces, opened⟩
    rw [decide_eq_false (missing isCreated)] at opened
    by_cases isEmpty : (r.world.queues requestContentQueue).chunks = []
    · rw [if_neg fun both => both.2 isEmpty]
      have nothing : fifo r requestContentQueue = [] := contents_nil_of_chunks isEmpty
      rcases rest kept with ⟨after, isRest, afterKept, keeps⟩
      rcases keeps isCreated with ⟨stays, framed⟩
      refine ⟨after, isRest, afterKept, fun _ => ⟨stays, ?_⟩⟩
      intro all
      rw [nothing] at all
      exact framed (all_framed opened.toFrame nothing all)
    · rw [if_pos ⟨.inl (opened_bytes_in opened), isEmpty⟩]
      rcases stdin_append_opened opened with ⟨w, reqlen, more, isAppend, next, nothing, read⟩
      have nextKept : Kept { r with world := w, wbReqlen := reqlen } env := by
        constructor
        · exact kept.mode
        · exact kept.accepted
        · exact kept.room
        · exact fun _ => ⟨more, next⟩
        · intro notCreated
          cases isCreated.symm.trans notCreated
      have isFramed : fifo r readQueue = [] ∨
          bodyTaken r + (fifo r requestContentQueue).length = r.contentLength →
          AllFramed { r with world := w, wbReqlen := reqlen } := by
        intro all
        apply all_framed next.toFrame nothing
        rcases all with noMore | complete
        · exact .inl (read.trans noMore)
        · apply Or.inr
          have before := received_length opened.toFrame
          have after := received_length next.toFrame
          change r.received.length = outs w requestContentQueue +
            (contents w requestContentQueue).length + (contents w readQueue).length at after
          rw [nothing, read, length_nil] at after
          change outs w requestContentQueue = r.contentLength
          omega
      rw [isAppend, bind_some]
      by_cases waits : input.waitsForOut = true
      · rw [if_pos waits]
        exact ⟨_, rfl, nextKept, fun _ => ⟨isCreated, isFramed⟩⟩
      · rw [if_neg waits]
        rcases rest nextKept with ⟨after, isRest, afterKept, keeps⟩
        rcases keeps isCreated with ⟨stays, framed⟩
        exact ⟨after, isRest, afterKept, fun _ => ⟨stays, fun all => framed (isFramed all)⟩⟩

theorem wants_body_missing (wants : wantsBody r) (isCreated : r.created = true) :
    bodyTaken r ≠ r.contentLength := by
  rcases kept.opened isCreated with ⟨pieces, opened⟩
  have counted := bytes_in_wb opened
  have expected := wants.2
  rw [if_neg (opened_bytes_in opened)] at expected
  omega

theorem handle_subrequest_kept : ∃ after, gwHandleSubrequest r input = some after ∧ Kept after env ∧
      (r.created = true → ¬ heldBack r → input.read ≠ .failed → after.created = true ∧ AllFramed after) := by
  unfold gwHandleSubrequest
  by_cases wants : wantsBody r
  · rw [if_pos wants]
    by_cases held : heldBack r
    · rw [if_pos held]
      by_cases some_ : (r.world.queues wbQueue).bytesIn ≠ 0
      · rw [if_pos some_]
        exact ⟨r, rfl, kept, fun _ notHeld => absurd held notHeld⟩
      · rw [if_neg some_]
        rcases send_rest_kept kept with ⟨after, isSend, afterKept, -⟩
        exact ⟨after, isSend, afterKept, fun _ notHeld => absurd held notHeld⟩
    · rw [if_neg held]
      rcases read_post_steady (kept_frame kept) with
        ⟨between, result, isRead, steady, all⟩
      have missing : between.created = true → bodyTaken between ≠ between.contentLength := by
        intro isCreated
        rw [steady.created] at isCreated
        rw [steady.taken, steady.contentLength]
        exact wants_body_missing kept wants isCreated
      rcases frame_body_kept (steady_kept kept steady) missing with
        ⟨after, isFrame, afterKept, framed⟩
      refine ⟨after, ?_, afterKept, ?_⟩
      · rw [isRead]
        exact isFrame
      · intro isCreated _ notFailed
        rcases framed (steady.created.trans isCreated) with ⟨stays, isFramed⟩
        exact ⟨stays, isFramed (all notFailed)⟩
  · rw [if_neg wants]
    rcases send_rest_kept kept with ⟨after, isSend, afterKept, steady⟩
    refine ⟨after, isSend, afterKept, ?_⟩
    intro isCreated _ _
    rcases kept.opened isCreated with ⟨pieces, opened⟩
    rcases steady isCreated with ⟨isSteady, same⟩
    apply And.intro (isSteady.created.trans isCreated)
    apply steady_all_framed isSteady same
    have complete : bodyTaken r = r.contentLength := by
      by_contra missing
      apply wants
      have bound := opened.bounded
      have counted := bytes_in_wb opened
      refine ⟨kept.mode, ?_⟩
      rw [if_neg (opened_bytes_in opened)]
      omega
    unfold AllFramed
    rw [complete]

theorem handle_kept {event : Event} :
    ∃ after, handle r event = some after ∧ Kept after env := by
  cases event with
  | subrequest input =>
    rcases handle_subrequest_kept kept with ⟨after, isHandled, afterKept, -⟩
    exact ⟨after, isHandled, afterKept⟩
  | sendRequest connected written =>
    rcases send_request_kept kept with ⟨after, isHandled, afterKept, -⟩
    exact ⟨after, isHandled, afterKept⟩

theorem run_kept {events : List Event} :
    ∃ after, run r events = some after ∧ Kept after env := by
  induction events generalizing r with
  | nil => exact ⟨r, rfl, kept⟩
  | cons event events ih =>
    rcases handle_kept kept with ⟨between, isHandled, betweenKept⟩
    rcases ih betweenKept with ⟨after, isRun, afterKept⟩
    refine ⟨after, ?_, afterKept⟩
    rw [run, isHandled]
    exact isRun

end

end Handling

/-- A request that has just been assigned: the queues of the body and of the backend are empty,
and the start of the body may have come with the header. -/
structure Fresh (r : FcgiRequest) : Prop where
  sound : WorldSound r.world
  received : r.received = contents r.world requestContentQueue ++ contents r.world readQueue
  untaken : outs r.world requestContentQueue = 0
  bounded : (contents r.world requestContentQueue).length ≤ r.contentLength
  known : r.contentLength < 2 ^ 63
  nothing : contents r.world wbQueue = []
  unwritten : outs r.world wbQueue = 0
  unsent : r.sent = []
  id : r.requestId = 0
  reqlen : r.wbReqlen = 0
  notCreated : r.created = false

/-- The bytes that have been appended to the queue of the backend are these records. -/
structure Framed (r : FcgiRequest) (env : Params) (pieces : List Piece) : Prop where
  appended : r.sent ++ contents r.world wbQueue =
    encodeAll (records r.gwMode env pieces (decide ((bodyOf pieces).length = r.contentLength)))
  body : bodyOf pieces <+: r.received.take r.contentLength
  complete : (bodyOf pieces).length = r.contentLength →
    ((r.world.queues wbQueue).bytesIn : Int) = r.wbReqlen
  incomplete : (bodyOf pieces).length ≠ r.contentLength →
    ((r.world.queues wbQueue).bytesIn : Int) < r.wbReqlen

theorem opened_framed
    (opened : Opened r env pieces (decide (bodyTaken r = r.contentLength))) : Framed r env pieces := by
  have length := body_length opened
  have counted := bytes_in_wb opened
  have bound := opened.bounded
  constructor
  · rw [length]
    exact opened.bytes
  · rw [opened.body]
    exact take_prefix_take_left (by omega)
  · omega
  · omega

theorem fresh_kept (fresh : Fresh r) (mode : r.gwMode ≠ .authorizer)
    (accepted : httpCgiHeaders r.pairs = some env.val) (room : Room env r.contentLength) : Kept r env := by
  constructor
  · exact mode
  · exact accepted
  · exact room
  · intro isCreated
    cases fresh.notCreated.symm.trans isCreated
  · intro _
    constructor
    · constructor
      · exact fresh.sound
      · unfold bodyTaken
        rw [fresh.untaken]
        exact Nat.zero_le _
      · unfold bodyTaken
        rw [fresh.untaken]
        exact fresh.received
      · unfold bodyTaken
        rw [fresh.untaken, Nat.zero_add]
        exact fresh.bounded
      · rw [fresh.unwritten, fresh.unsent]
        rfl
    · exact fresh.id
    · exact fresh.nothing
    · exact fresh.unsent
    · exact fresh.untaken
    · exact fresh.reqlen

/-- In whatever pieces the body comes, as long as there is room for their records in `wb_reqlen`:
nothing is aborted, the queue of the backend holds nothing or the records of the request, and a
call that is not held back frames all of the body that has come. -/
theorem fastcgi_request_framed {start : FcgiRequest} {env : Params} (fresh : Fresh start)
    (mode : start.gwMode ≠ .authorizer) (accepted : httpCgiHeaders start.pairs = some env.val)
    (room : Room env start.contentLength) (events : List Event) : ∃ after, run start events = some after ∧
      (after.created = false → after.sent ++ contents after.world wbQueue = []) ∧
      (after.created = true → ∃ pieces, Framed after env pieces) ∧
      ∀ input, after.created = true → ¬ heldBack after → input.read ≠ .failed →
        ∃ last pieces, handle after (.subrequest input) = some last ∧ Framed last env pieces ∧
          bodyOf pieces = last.received.take last.contentLength := by
  rcases run_kept (fresh_kept fresh mode accepted room) with ⟨after, isRun, kept⟩
  refine ⟨after, isRun, ?_, ?_, ?_⟩
  · intro notCreated
    have waiting := kept.waiting notCreated
    have nothing : contents after.world wbQueue = [] := waiting.nothing
    rw [waiting.unsent, nothing]
    rfl
  · intro isCreated
    rcases kept.opened isCreated with ⟨pieces, opened⟩
    exact ⟨pieces, opened_framed opened⟩
  · intro input isCreated notHeld notFailed
    rcases handle_subrequest_kept kept with ⟨last, isHandled, lastKept, framed⟩
    rcases framed isCreated notHeld notFailed with ⟨stays, all⟩
    rcases lastKept.opened stays with ⟨pieces, opened⟩
    exact ⟨last, pieces, isHandled, opened_framed opened, opened.body.trans all⟩

def threeBytes : FcgiRequest where
  world := ⟨⟨fun _ => [], 0, 0, []⟩, fun _ => emptyQueue 0⟩
  contentLength := 3
  pairs := [([65], [66])]
  gwMode := .responder
  requestId := 0
  wbReqlen := 0
  created := false
  readPost := true
  received := []
  sent := []

theorem three_bytes_fresh : Fresh threeBytes := by
  have initial : TransitionSystem.Reachable chunkqueues ⟨threeBytes.world, fun _ => []⟩ :=
    TransitionSystem.reachable_initial ⟨fun _ => [], 0, fun _ => 0, fun _ _ => rfl, rfl⟩
  have sound := (world_reachable initial).1
  exact ⟨sound, rfl, rfl, Nat.zero_le _, by decide, rfl, rfl, rfl, rfl, rfl, rfl⟩

/-- One byte comes before the environment is sent, and two bytes behind it. -/
def bytesInTwoPieces : List Event :=
  [.subrequest ⟨.data [(0, 0, [7])], true, [], false, true, 10⟩,
    .subrequest ⟨.data [(0, 0, [8, 9])], true, [], false, true, 100⟩]

theorem three_bytes_framed : ∃ after pieces, run threeBytes bytesInTwoPieces = some after ∧
    Framed after ⟨[1, 1, 65, 66], by decide⟩ pieces ∧ after.sent.length = 63 := by
  have accepted : httpCgiHeaders threeBytes.pairs =
      some (⟨[1, 1, 65, 66], by decide⟩ : Params).val := by decide
  have mode : threeBytes.gwMode ≠ .authorizer := by decide
  rcases fastcgi_request_framed three_bytes_fresh mode accepted
    (by unfold Room; decide) bytesInTwoPieces with
    ⟨after, isRun, -, framed, -⟩
  have values : (run threeBytes bytesInTwoPieces).map (fun r => (r.created, r.sent.length)) =
      some (true, 63) := by decide
  rw [isRun] at values
  simp only [map_some, Option.some.injEq, Prod.mk.injEq] at values
  rcases framed values.1 with ⟨pieces, isFramed⟩
  exact ⟨after, pieces, isRun, isFramed, values.2⟩

def hugeBody : FcgiRequest := { threeBytes with contentLength := 2 ^ 63 - 1 }

/-- The environment is sent before any of the body has come, and `wb_reqlen` wraps. -/
theorem huge_body_not_framed : Fresh hugeBody ∧ hugeBody.gwMode ≠ .authorizer ∧
    httpCgiHeaders hugeBody.pairs = some [1, 1, 65, 66] ∧
    ∃ after, run hugeBody [.sendRequest true 0] = some after ∧ after.created = true ∧
      ∀ env pieces, ¬ Framed after env pieces := by
  have fresh := three_bytes_fresh
  have values : (run hugeBody [.sendRequest true 0]).map (fun r => (r.created, r.received, r.contentLength,
      decide (((r.world.queues wbQueue).bytesIn : Int) < r.wbReqlen))) =
      some (true, [], 2 ^ 63 - 1, false) := by
    decide
  obtain ⟨after, isRun, isAfter⟩ := map_eq_some_iff.mp values
  simp only [Prod.mk.injEq, decide_eq_false_iff_not] at isAfter
  obtain ⟨isCreated, nothing, length, wrapped⟩ := isAfter
  refine ⟨⟨fresh.sound, fresh.received, fresh.untaken, Nat.zero_le _, by decide,
    fresh.nothing, fresh.unwritten,
    fresh.unsent, rfl, rfl, rfl⟩, by decide, by decide, after, isRun, isCreated, ?_⟩
  intro env pieces framed
  have body := framed.body
  rw [nothing, take_nil, prefix_nil] at body
  apply wrapped
  apply framed.incomplete
  rw [body, length]
  decide

end ServerCore.LighttpdFastcgiFraming
