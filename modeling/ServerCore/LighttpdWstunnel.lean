import ServerCore.LighttpdChunkFifo

/-!
# WebSocket frames from the client

`recv_rfc_6455` and `unmask_payload` of `mod_wstunnel`. The registers of a frame
survive from chunk to chunk and from call to call. The body of a request comes in
the memory chunks of `request_content_queue`, and the payload of data frames goes
to `gw.wb`; both are queues of one memory. The frames that
`mod_wstunnel_frame_send` is asked to send are kept as a log.
-/

namespace ServerCore.LighttpdWstunnel

open LighttpdChunk LighttpdChunkFifo

def requestContentQueue : QueueId := 1

def wbQueue : QueueId := 2

inductive FrameState where
  | init
  | readLength
  | readExLength
  | readMask
  | readPayload
  deriving DecidableEq

inductive FrameType where
  | text
  | bin
  | close
  | ping
  | pong
  deriving DecidableEq

/-- `mod_wstunnel_frame_t` without its buffer. `siz` is a `uint64_t`. -/
structure Frame where
  state : FrameState
  type : FrameType
  typeBefore : FrameType
  siz : Nat
  sizCnt : Int
  maskCnt : Nat
  mask : Nat → Byte

structure HandlerCtx where
  world : World
  frame : Frame
  payload : Buffer
  sends : List (FrameType × Bytes)

def frameLen16 : Nat := 0x7e

def frameLen63 : Nat := 0x7f

def frameLen16Cnt : Int := 2

def frameLen63Cnt : Int := 8

def maskCount : Nat := 4

def bufMax : Nat := 0x0fffff

section

variable (f : Frame) (b : Byte)

/-- The first byte of a frame. An error is `return -1`. -/
def initByte : Except Frame Frame :=
  match (b &&& 0x0f).toNat with
  | 0x00 => .ok { f with type := f.typeBefore, state := .readLength }
  | 0x01 => .ok { f with type := .text, typeBefore := .text, state := .readLength }
  | 0x02 => .ok { f with type := .bin, typeBefore := .bin, state := .readLength }
  | 0x09 => .ok { f with type := .ping, state := .readLength }
  | 0x0a => .ok { f with type := .pong, state := .readLength }
  | 0x08 => .error { f with type := .close }
  | _ => .error f

def lengthByte : Except Frame Frame :=
  if b &&& 0x80 ≠ 0x80 then .error f
  else
    let siz := (b &&& 0x7f).toNat
    let f := { f with maskCnt := 0, siz := siz }
    if siz = 0 then .ok { f with state := .readMask }
    else if siz = frameLen16 then
      .ok { f with siz := 0, sizCnt := frameLen16Cnt, state := .readExLength }
    else if siz = frameLen63 then
      .ok { f with siz := 0, sizCnt := frameLen63Cnt, state := .readExLength }
    else .ok { f with state := .readMask }

def exLengthByte : Except Frame Frame :=
  let f := { f with siz := (f.siz * 256 + b.toNat) % 2 ^ 64, sizCnt := f.sizCnt - 1 }
  if f.sizCnt ≤ 0 then
    if f.type = .ping ∧ f.siz > bufMax then .error f
    else .ok { f with state := .readMask }
  else .ok f

/-- The frame and whether a PONG without payload is sent. -/
def maskByte : Frame × Bool :=
  let f := { f with mask := Function.update f.mask f.maskCnt b, maskCnt := f.maskCnt + 1 }
  if f.maskCnt ≥ maskCount then
    ({ f with maskCnt := 0, state := if f.siz = 0 then .init else .readPayload },
      decide (f.type = .ping ∧ f.siz = 0))
  else (f, false)

def frameByte : Except Frame (Frame × Bool) :=
  match f.state with
  | .init => (initByte f b).map fun f => (f, false)
  | .readLength => (lengthByte f b).map fun f => (f, false)
  | .readExLength => (exLengthByte f b).map fun f => (f, false)
  | .readMask => .ok (maskByte f b)
  | .readPayload => .error f

end

/-- `unmask_payload`: the bytes, and `mask_cnt` behind them. -/
def unmaskPayload (mask : Nat → Byte) (maskCnt : Nat) : Bytes → Bytes × Nat
  | [] => ([], maskCnt)
  | b :: rest =>
    let unmasked := unmaskPayload mask ((maskCnt + 1) % 4) rest
    ((b ^^^ mask maskCnt) :: unmasked.1, unmasked.2)

/-- `done` is `return -1`. -/
inductive Outcome where
  | more (ctx : HandlerCtx)
  | done (ctx : HandlerCtx)
  | aborted

def modWstunnelFrameSend (ctx : HandlerCtx) (type : FrameType) (payload : Bytes) : HandlerCtx :=
  { ctx with sends := ctx.sends ++ [(type, payload)] }

def forwardPayload (ctx : HandlerCtx) : Outcome :=
  let unmasked := unmaskPayload ctx.frame.mask ctx.frame.maskCnt ctx.payload.bytes
  match call ctx.world (.useMemory wbQueue unmasked.1.length 0 unmasked.1) with
  | some world =>
    .more { ctx with
      world := world
      frame := { ctx.frame with maskCnt := unmasked.2 }
      payload := ctx.payload.reset }
  | none => .aborted

def answerPing (ctx : HandlerCtx) : Outcome :=
  let unmasked := unmaskPayload ctx.frame.mask ctx.frame.maskCnt ctx.payload.bytes
  .more (modWstunnelFrameSend { ctx with
    frame := { ctx.frame with maskCnt := unmasked.2 }
    payload := ctx.payload.reset } .pong unmasked.1)

/-- A piece of the payload, up to the end of the frame or of the chunk. -/
def readPayload (ctx : HandlerCtx) (rest : Bytes) : Outcome :=
  let piece := rest.take (if ctx.frame.siz ≤ rest.length then ctx.frame.siz else rest.length)
  let frame :=
    if ctx.frame.siz ≤ rest.length then { ctx.frame with siz := 0, state := .init }
    else { ctx.frame with siz := ctx.frame.siz - rest.length }
  let ctx := { ctx with frame := frame, payload := ctx.payload.appendStringLen piece }
  match ctx.frame.type with
  | .text => forwardPayload ctx
  | .bin => forwardPayload ctx
  | .ping => if ctx.frame.siz = 0 then answerPing ctx else .more ctx
  | .pong => .more { ctx with payload := ctx.payload.reset }
  | .close => .done ctx

def frameLoop : Nat → HandlerCtx → Bytes → Outcome
  | _, ctx, [] => .more ctx
  | 0, _, _ :: _ => .aborted
  | turns + 1, ctx, b :: rest =>
    match ctx.frame.state with
    | .readPayload =>
      match readPayload ctx (b :: rest) with
      | .more after => frameLoop turns after ((b :: rest).drop ctx.frame.siz)
      | outcome => outcome
    | _ =>
      match frameByte ctx.frame b with
      | .error frame => .done { ctx with frame := frame }
      | .ok (frame, empty) =>
        let ctx := { ctx with frame := frame }
        frameLoop turns (if empty then modWstunnelFrameSend ctx .pong [] else ctx) rest

/-- A turn takes a byte, or it leaves a payload of no bytes for the first state. -/
def recvChunks (ctx : HandlerCtx) : List Chunk → Outcome
  | [] => .more ctx
  | c :: chunks =>
    if c.type = .memChunk then
      match frameLoop (2 * (Chunkqueue.memBytes c).length) ctx (Chunkqueue.memBytes c) with
      | .more ctx => recvChunks ctx chunks
      | outcome => outcome
    else .aborted

/-- `none` is a failed assertion. -/
def recvRfc6455 (ctx : HandlerCtx) : Option (HandlerCtx × Int) :=
  match recvChunks ctx (ctx.world.queues requestContentQueue).chunks with
  | .more ctx =>
    (call ctx.world (.markWritten requestContentQueue
      (ctx.world.queues requestContentQueue).length)).map fun world =>
        ({ ctx with world := world }, 0)
  | .done ctx => some (ctx, -1)
  | .aborted => none

end ServerCore.LighttpdWstunnel
