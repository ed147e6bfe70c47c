import Mathlib.Algebra.Group.Int.Defs
import Mathlib.Algebra.Group.Nat.Defs
import Mathlib.Data.Int.Basic

/-!
# The send windows of an HTTP/2 connection

`ngx_http_v2_state_window_update`, the INITIAL_WINDOW_SIZE parameter of
`ngx_http_v2_state_settings_params` with `ngx_http_v2_adjust_windows`,
`ngx_http_v2_send_chain`, and `ngx_http_v2_filter_cleanup`, which takes the
unsent frames of a request that ends out of the output queue again. Words have
64 bits: `size_t` is a natural number below 2 ^ 64, `ssize_t` an integer, and the
conversions between them are written out. A write handler that a window wakes
up calls `ngx_http_v2_send_chain` again, so the calls to it are events of their
own.
-/

namespace ServerCore.NginxHttpV2FlowControl

open Function

/-- `NGX_HTTP_V2_MAX_WINDOW` and `NGX_HTTP_V2_DEFAULT_WINDOW`. -/
def maxWindow : Nat := 2 ^ 31 - 1
def defaultWindow : Nat := 65535

/-- Conversion to `size_t`. -/
def toSize (x : Int) : Nat := (x % 2 ^ 64).toNat

/-- Conversion to `ssize_t`. -/
def toSsize (x : Int) : Int := x.bmod (2 ^ 64)

def parseWindow (field : UInt32) : Nat := (field &&& 0x7fffffff).toNat

/-- `ngx_http_v2_out_frame_t`; control frames have no stream. -/
structure OutFrame where
  stream : Option Nat
  length : Nat
  blocked : Bool
  isData : Bool

structure V2Stream where
  sendWindow : Int
  queued : Nat
  exhausted : Bool
  rstSent : Bool

/-- `ngx_http_v2_connection_t`. The index holds the ids of the nodes, and
`streams` is `node->stream`. -/
structure Connection where
  sendWindow : Nat
  initWindow : Nat
  frameSize : Nat
  lastSid : Nat
  streamsIndexMask : Nat
  streamsIndex : Nat → List Nat
  streams : Nat → Option V2Stream
  lastOut : List OutFrame

/-- A buffer of the output chain: what is left of it, and `last_buf`. -/
structure Buf where
  size : Nat
  lastBuf : Bool

/-- A DATA frame that is queued, and the windows just before. -/
structure DataFrame where
  stream : Nat
  payload : Nat
  connectionWindow : Nat
  streamWindow : Int

namespace Connection

section

variable (c : Connection)

def index (sid : Nat) : Nat := (sid / 2) &&& c.streamsIndexMask

/-- The nodes in the order in which the index is walked through. -/
def nodes : List Nat := (List.range (c.streamsIndexMask + 1)).flatMap c.streamsIndex

/-- `ngx_http_v2_get_node_by_id` and `node->stream`. -/
def streamById (sid : Nat) : Option V2Stream :=
  if sid ∈ c.streamsIndex (c.index sid) then c.streams sid else none

def setStream (sid : Nat) (stream : V2Stream) : Connection :=
  { c with streams := update c.streams sid (some stream) }

/-- A node that `ngx_http_v2_get_node_by_id` allocates. -/
def addNode (sid : Nat) : Connection :=
  if sid ∈ c.streamsIndex (c.index sid) then c
  else { c with
    streamsIndex := update c.streamsIndex (c.index sid) (sid :: c.streamsIndex (c.index sid)) }

def removeNode (sid : Nat) : Connection :=
  { c with
    streamsIndex := update c.streamsIndex (c.index sid) ((c.streamsIndex (c.index sid)).erase sid) }

end

end Connection

def queueBlockedFrame (frame : OutFrame) : List OutFrame → List OutFrame
  | [] => [frame]
  | out :: rest =>
    if out.blocked ∨ out.stream = none then frame :: out :: rest
    else out :: queueBlockedFrame frame rest

/-- `ngx_http_v2_queue_frame`; `precedes` is the comparison of the ranks and
weights of two nodes. -/
def queueFrame (before : Nat → Nat → Bool) (sid : Nat) (frame : OutFrame) : List OutFrame → List OutFrame
  | [] => [frame]
  | out :: rest =>
    match out.stream with
    | none => frame :: out :: rest
    | some other =>
      if out.blocked ∨ before other sid then frame :: out :: rest
      else out :: queueFrame before sid frame rest

/-- `ngx_http_v2_terminate_stream` as far as it goes itself. -/
def terminateStream (c : Connection) (sid : Nat) (stream : V2Stream) : Connection :=
  if stream.rstSent then c
  else { c.setStream sid { stream with rstSent := true } with
    lastOut := queueBlockedFrame ⟨none, 4, false, false⟩ c.lastOut }

/-- `ngx_http_v2_state_window_update`: the connection, and whether the increment
is added to a window; `none` is a connection error. -/
def stateWindowUpdate (c : Connection) (sid : Nat) (field : UInt32) : Option (Connection × Bool) :=
  let window := parseWindow field
  if sid ≠ 0 then
    match c.streamById sid with
    | none => some (c, false)
    | some stream =>
      if window > toSize (maxWindow - stream.sendWindow) then some (terminateStream c sid stream, false)
      else
        some (c.setStream sid { stream with
          sendWindow := toSsize (stream.sendWindow + window)
          exhausted := false }, true)
  else if window > toSize (maxWindow - c.sendWindow) then none
  else some ({ c with sendWindow := toSize (c.sendWindow + window) }, true)

/-- The loop of `ngx_http_v2_adjust_windows` for one node. -/
def adjustWindow (c : Connection) (delta : Int) (sid : Nat) : Connection :=
  match c.streams sid with
  | none => c
  | some stream =>
    if delta > 0 ∧ stream.sendWindow > toSsize (maxWindow - delta) then terminateStream c sid stream
    else
      let sendWindow := toSsize (stream.sendWindow + delta)
      c.setStream sid { stream with
        sendWindow := sendWindow
        exhausted := stream.exhausted && decide (sendWindow ≤ 0) }

/-- `ngx_http_v2_create_stream` for a new stream id. -/
def createStream (c : Connection) (sid : Nat) : Connection :=
  { (c.addNode sid).setStream sid ⟨c.initWindow, 0, false, false⟩ with lastSid := sid }

/-- The buffers at the front of the chain that carry nothing. -/
def skipEmpty : List Buf → List Buf
  | [] => []
  | buf :: chain => if buf.size ≠ 0 ∨ buf.lastBuf then buf :: chain else skipEmpty chain

/-- `rest` bytes are taken from the chain: what is left of them at its end, and
what is left of the chain. -/
def fillFrame : Nat → List Buf → Nat × List Buf
  | rest, [] => (rest, [])
  | rest, buf :: chain =>
    if buf.size ≤ rest then fillFrame (rest - buf.size) chain
    else (0, { buf with size := buf.size - rest } :: chain)

/-- A DATA frame goes to the queue, and both windows get smaller. -/
def queueData (before : Nat → Nat → Bool) (c : Connection) (sid payload : Nat)
    (stream : V2Stream) : Connection :=
  { c.setStream sid { stream with
      sendWindow := toSsize (stream.sendWindow - payload)
      queued := stream.queued + 1 } with
    sendWindow := toSize (c.sendWindow - payload)
    lastOut := queueFrame before sid ⟨some sid, payload, false, true⟩ c.lastOut }

/-- What `ngx_http_v2_flow_control` leaves: a stream without a window is exhausted. -/
def exhaust (c : Connection) (sid : Nat) : Connection :=
  match c.streams sid with
  | none => c
  | some stream =>
    c.setStream sid { stream with exhausted := stream.exhausted || decide (stream.sendWindow ≤ 0) }

/-- The loop over the frames; `alloc` is the number of frames for which the allocations
succeed. If it is used up at the end of the window, the rest of a cut buffer gets no shadow. -/
def sendFrames (before : Nat → Nat → Bool) (sid : Nat) :
    Nat → Nat → Nat → List Buf → Connection → List DataFrame → Connection × List DataFrame
  | 0, _, _, _, c, frames => (c, frames)
  | alloc + 1, frameSize, limit, chain, c, frames =>
    match c.streams sid with
    | none => (c, frames)
    | some stream =>
      let frameSize := if frameSize > limit then limit else frameSize
      let filled := fillFrame frameSize chain
      let payload := if filled.2 = [] then frameSize - filled.1 else frameSize
      let frames := frames ++ [⟨sid, payload, c.sendWindow, stream.sendWindow⟩]
      let c := queueData before c sid payload stream
      if filled.2 = [] then (c, frames)
      else if limit - payload = 0 then (if alloc = 0 then c else exhaust c sid, frames)
      else sendFrames before sid alloc frameSize (limit - payload) filled.2 c frames

def flowControl (c : Connection) (stream : V2Stream) : Bool :=
  ¬ (stream.sendWindow ≤ 0) ∧ c.sendWindow ≠ 0

/-- `ngx_http_v2_send_chain`: the connection and the DATA frames that are queued.
`http2_chunk_size` is a setting of the location. -/
def sendChain (before : Nat → Nat → Bool) (c : Connection) (sid : Nat) (chain : List Buf)
    (limit chunkSize alloc : Nat) : Connection × List DataFrame :=
  match c.streams sid, skipEmpty chain with
  | none, _ => (c, [])
  | some _, [] => (c, [])
  | some stream, buf :: chain =>
    if buf.size ≠ 0 ∧ ¬ flowControl c stream then (exhaust c sid, [])
    else
      let limit := if limit = 0 ∨ limit > c.sendWindow then c.sendWindow else limit
      let limit := if (limit : Int) > stream.sendWindow then stream.sendWindow.toNat else limit
      let frameSize := if chunkSize < c.frameSize then chunkSize else c.frameSize
      sendFrames before sid alloc frameSize limit (buf :: chain) c []

def queueHeaders (c : Connection) (sid length : Nat) : Connection :=
  match c.streams sid with
  | none => c
  | some stream =>
    { c.setStream sid { stream with queued := stream.queued + 1 } with
      lastOut := queueBlockedFrame ⟨some sid, length, true, false⟩ c.lastOut }

/-- `ngx_http_v2_handle_frame` for a frame that was sent. -/
def handleFrame (c : Connection) (frame : OutFrame) : Connection :=
  match frame.stream with
  | none => c
  | some sid =>
    match c.streams sid with
    | none => c
    | some stream => c.setStream sid { stream with queued := stream.queued - 1 }

def blockFirst : List OutFrame → List OutFrame
  | [] => []
  | frame :: rest => { frame with blocked := true } :: rest

/-- `ngx_http_v2_send_output_queue` where the first `sent` frames go out and the
next one does not or not completely. The queue has the last frame first. -/
def sendOutputQueue (c : Connection) (sent : Nat) : Connection :=
  let out := c.lastOut.reverse
  (out.take sent).foldl handleFrame { c with lastOut := (blockFirst (out.drop sent)).reverse }

/-- The loop of `ngx_http_v2_filter_cleanup`: the frames that stay, the bytes of
those that are taken out, and `stream->queued`. -/
def takeUnsent (sid : Nat) : Nat → List OutFrame → List OutFrame × Nat × Nat
  | queued, [] => ([], 0, queued)
  | queued, frame :: rest =>
    if frame.stream = some sid ∧ frame.blocked = false then
      if queued - 1 = 0 then (rest, frame.length, 0)
      else
        let taken := takeUnsent sid (queued - 1) rest
        (taken.1, frame.length + taken.2.1, taken.2.2)
    else
      let taken := takeUnsent sid queued rest
      (frame :: taken.1, taken.2)

def filterCleanup (c : Connection) (sid : Nat) : Connection :=
  match c.streams sid with
  | none => c
  | some stream =>
    if stream.queued = 0 then c
    else
      let taken := takeUnsent sid stream.queued c.lastOut
      { c.setStream sid { stream with queued := taken.2.2 } with
        sendWindow := toSize (c.sendWindow + taken.2.1)
        lastOut := taken.1 }

/-- `ngx_http_v2_close_stream`: it waits while frames are queued. -/
def closeStream (c : Connection) (sid : Nat) : Connection :=
  match c.streams sid with
  | none => c
  | some stream =>
    if stream.queued ≠ 0 then c else { c with streams := update c.streams sid none }

end ServerCore.NginxHttpV2FlowControl
