import Mathlib.Data.List.Basic

/-!
# DATA frames of an HTTP/2 stream

`ngx_http_v2_send_chain` cuts a chain of buffers into DATA frames. A buffer that
does not fit in a frame is cut by copies of its descriptor, its shadows; the
rest of it goes back to the caller as such a copy. Until the call ends no buffer
is changed that a frame or the rest of the chain holds, so chains hold buffers
by value, and a shadow holds the buffer that it was taken from. A buffer begins
before it ends. `ngx_http_v2_filter_send` works on frames that are queued; only
whether it fails is used here.
-/

namespace ServerCore.NginxHttpV2SendChain

abbrev Byte := UInt8

abbrev Bytes := List Byte

/-- `ngx_buf_t`: `inMemory` is `temporary`, `memory` or `mmap`. -/
structure Buf where
  inMemory : Bool
  inFile : Bool
  pos : Nat
  last : Nat
  file : Nat
  filePos : Nat
  fileLast : Nat
  flush : Bool
  lastBuf : Bool

/-- A buffer in a chain; with the tag of a shadow, `buf->shadow` too. -/
structure Link where
  buf : Buf
  shadow : Option Buf

def bufSize (buf : Buf) : Nat :=
  if buf.inMemory then buf.last - buf.pos else buf.fileLast - buf.filePos

/-- `ngx_http_v2_out_frame_t` with the flags of its header; `bufs` are the buffers
behind the header. -/
structure DataFrame where
  length : Nat
  flags : Nat
  fin : Bool
  bufs : List Link

def endStreamFlag : Nat := 1

structure Connection where
  sendWindow : Nat
  frameSize : Nat

structure Stream where
  sendWindow : Int
  queued : Nat
  exhausted : Bool
  waiting : Bool

/-- `fc->write->active`, `fc->write->ready` and the bit of HTTP/2 in `fc->buffered`. -/
structure Fake where
  active : Bool
  ready : Bool
  buffered : Bool

def Fake.block (fc : Fake) : Fake := { fc with active := true, ready := false }

def getShadow (buf : Buf) (offset size : Nat) : Link where
  buf :=
    { buf with
      pos := if buf.inMemory then buf.pos + offset else buf.pos
      last := if buf.inMemory then buf.pos + offset + size else buf.last
      filePos := if buf.inFile then buf.filePos + offset else buf.filePos
      fileLast := if buf.inFile then buf.filePos + offset + size else buf.fileLast }
  shadow := some buf

/-- `last->buf->flush = 1`. -/
def flushLast : List Link → List Link
  | [] => []
  | [link] => [{ link with buf := { link.buf with flush := true } }]
  | link :: rest => link :: flushLast rest

def getDataFrame (len : Nat) (out : List Link) : DataFrame :=
  let lastBuf := (out.getLast?.map fun link => link.buf.lastBuf).getD false
  { length := len
    flags := if lastBuf then endStreamFlag else 0
    fin := lastBuf
    bufs := flushLast out }

def skipEmpty : List Link → List Link
  | [] => []
  | link :: rest => if bufSize link.buf ≠ 0 ∨ link.buf.lastBuf then link :: rest else skipEmpty rest

/-- `ngx_http_v2_flow_control`: whether the stream may send; the place of a
waiting stream in its queue is left out. -/
def flowControl (h2c : Connection) (stream : Stream) : Bool × Stream :=
  if stream.sendWindow ≤ 0 then (false, { stream with exhausted := true })
  else if h2c.sendWindow = 0 then (false, { stream with waiting := true })
  else (true, stream)

/-- A shadow from an earlier call gives way to its buffer and an offset. -/
def restoreFirst (link : Link) : Link × Nat :=
  match link.shadow with
  | some buf =>
    (⟨buf, none⟩, if buf.inMemory then link.buf.pos - buf.pos else link.buf.filePos - buf.filePos)
  | none => (link, 0)

/-- What the inner loop leaves: `unused` is what it takes from `frame_size` at the
end of the chain. -/
structure Filled where
  out : List Link
  chain : List Link
  rest : Nat
  unused : Nat
  offset : Nat
  size : Nat

/-- The loop that takes whole buffers, or the whole rest of the first one. -/
def fillFrame : Nat → Nat → Nat → List Link → Filled
  | rest, size, offset, [] => ⟨[], [], rest, 0, offset, size⟩
  | rest, size, offset, link :: next =>
    if rest ≥ size then
      let cl := if offset ≠ 0 then getShadow link.buf offset size else link
      match next with
      | [] => ⟨[cl], [], 0, rest - size, 0, size⟩
      | first :: more =>
        let tail := fillFrame (rest - size) (bufSize first.buf) 0 (first :: more)
        { tail with out := cl :: tail.out }
    else ⟨[], link :: next, rest, 0, offset, size⟩

/-- The buffer at the front of the chain, cut where the frame is full. -/
def cutBuffer (filled : Filled) : Filled :=
  match filled.rest, filled.chain with
  | rest + 1, link :: _ =>
    let cl := getShadow link.buf filled.offset (rest + 1)
    { filled with
      out := filled.out ++ [{ cl with buf := { cl.buf with flush := false, lastBuf := false } }]
      offset := filled.offset + (rest + 1)
      size := filled.size - (rest + 1) }
  | _, _ => filled

structure Cut where
  frames : List DataFrame
  chain : List Link
  offset : Nat
  size : Nat
  sendWindow : Nat
  streamWindow : Int
  queued : Nat

/-- One turn of the outer loop for a frame size within the limit: what it leaves
and how long its frame is. -/
def cutFrame (frameSize : Nat) (cut : Cut) : Cut × Nat :=
  let filled := cutBuffer (fillFrame frameSize cut.size cut.offset cut.chain)
  let frameSize := frameSize - filled.unused
  ({ frames := cut.frames ++ [getDataFrame frameSize filled.out]
     chain := filled.chain
     offset := filled.offset
     size := filled.size
     sendWindow := cut.sendWindow - frameSize
     streamWindow := cut.streamWindow - frameSize
     queued := cut.queued + 1 }, frameSize)

/-- The outer loop, with memory for `room` more frames, and whether it runs out of
it; `none` is a loop that takes more than `fuel` turns. -/
def cutFrames : Nat → Nat → Nat → Nat → Cut → Option (Cut × Bool)
  | 0, _, _, _, _ => none
  | _ + 1, 0, _, _, cut => some (cut, true)
  | fuel + 1, room + 1, frameSize, limit, cut =>
    let frameSize := if frameSize > limit then limit else frameSize
    let (next, framed) := cutFrame frameSize cut
    if next.chain = [] then some (next, false)
    else if limit - framed = 0 then some (next, false)
    else cutFrames fuel room frameSize (limit - framed) next

/-- `in->buf` becomes a shadow of what is left of it. -/
def shadowFirst (cut : Cut) : List Link :=
  match cut.chain with
  | link :: rest =>
    if cut.offset ≠ 0 then getShadow link.buf cut.offset cut.size :: rest else link :: rest
  | [] => []

/-- How the call ends; `chain` is none for `NGX_CHAIN_ERROR`, and `rest` is the
chain that is returned without an error. -/
structure Outcome where
  chain : Option (List Link)
  rest : List Link
  frames : List DataFrame
  connection : Connection
  stream : Stream
  fc : Fake

/-- The limit of the call, zero for none, lowered to both windows. -/
def lowerLimit (limit : Nat) (h2c : Connection) (stream : Stream) : Nat :=
  let limit := if limit = 0 ∨ limit > h2c.sendWindow then h2c.sendWindow else limit
  if (limit : Int) > stream.sendWindow then stream.sendWindow.toNat else limit

/-- The limit on a frame before the limit of the call. -/
def sizeLimit (chunkSize : Nat) (h2c : Connection) : Nat :=
  if chunkSize < h2c.frameSize then chunkSize else h2c.frameSize

/-- `ngx_http_v2_send_chain`; `none` does not happen. There is memory for `room`
frames, and `fails` is that there is none for the shadow of the rest or that
`ngx_http_v2_filter_send` fails. -/
def ngxHttpV2SendChain (chunkSize limit room : Nat) (fails : Bool) (h2c : Connection) (stream : Stream)
    (fc : Fake) (chain : List Link) : Option Outcome :=
  match skipEmpty chain with
  | [] =>
    some ⟨some [], [], [], h2c, stream,
      if stream.queued ≠ 0 then fc.block else { fc with buffered := false }⟩
  | link :: next =>
    let size := bufSize link.buf
    let (allowed, stream) := if size ≠ 0 then flowControl h2c stream else (true, stream)
    if !allowed then some ⟨some (link :: next), link :: next, [], h2c, stream, fc.block⟩
    else
      let (first, offset) := restoreFirst link
      let limit := lowerLimit limit h2c stream
      match cutFrames (limit + 1) room (sizeLimit chunkSize h2c) limit
          ⟨[], first :: next, offset, size, h2c.sendWindow, stream.sendWindow, stream.queued⟩ with
      | none => none
      | some (cut, noMemory) =>
        let h2c := { h2c with sendWindow := cut.sendWindow }
        let stream := { stream with sendWindow := cut.streamWindow, queued := cut.queued }
        let rest := shadowFirst cut
        if noMemory || fails then some ⟨none, rest, cut.frames, h2c, stream, fc⟩
        else if rest = [] then some ⟨some rest, rest, cut.frames, h2c, stream, fc⟩
        else
          let (allowed, stream) := flowControl h2c stream
          some ⟨some rest, rest, cut.frames, h2c, stream, if allowed then fc else fc.block⟩

end ServerCore.NginxHttpV2SendChain
