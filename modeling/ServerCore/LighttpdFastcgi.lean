import ServerCore.LighttpdChunkFifo

/-!
# Requests to FastCGI backends

`fcgi_create_env`, `fcgi_stdin_append` and `fcgi_env_add`, and the callers that
decide when the body of a request is framed: `gw_handle_subrequest` with
`connection_handle_read_post_state`, and `gw_send_request` from the point on at
which the backend is connected. The queues are the chunkqueues of the connection
and of the context, in one memory. The environment is the list of the pairs that
`http_cgi_headers` hands to its callback.
-/

namespace ServerCore.LighttpdFastcgi

open LighttpdChunk LighttpdChunkFifo

def readQueue : QueueId := 0

def requestContentQueue : QueueId := 1

def wbQueue : QueueId := 2

inductive GwMode where
  | responder
  | authorizer
  | filter
  deriving DecidableEq

def GwMode.role : GwMode → Byte
  | .responder => 1
  | .authorizer => 2
  | .filter => 3

/-- `created` is whether `create_env` has run; `readPost` whether the connection is in
`CON_STATE_READ_POST`. -/
structure FcgiRequest where
  world : World
  contentLength : Nat
  pairs : List (Bytes × Bytes)
  gwMode : GwMode
  requestId : Nat
  wbReqlen : Int
  created : Bool
  readPost : Bool
  received : Bytes
  sent : Bytes

/-- What an `off_t` holds of a sum. -/
def offT (value : Int) : Int := value.bmod (2 ^ 64)

def fcgiMaxLength : Nat := 0xffff

def fcgiHeaderLen : Nat := 8

def fcgiBeginRequest : Byte := 1

def fcgiParams : Byte := 4

def fcgiStdin : Byte := 5

/-- `none` is a failed assertion. -/
def fcgiHeader (type : Byte) (requestId contentLength : Nat) (paddingLength : Byte) :
    Option Bytes :=
  if contentLength ≤ fcgiMaxLength then
    some [1, type, UInt8.ofNat ((requestId >>> 8) &&& 0xff), UInt8.ofNat (requestId &&& 0xff),
      UInt8.ofNat ((contentLength >>> 8) &&& 0xff), UInt8.ofNat (contentLength &&& 0xff),
      paddingLength, 0]
  else none

def lengthBytes (len : Nat) : Bytes :=
  if len > 127 then
    [UInt8.ofNat ((len >>> 24) &&& 0xff) ||| 0x80, UInt8.ofNat ((len >>> 16) &&& 0xff),
      UInt8.ofNat ((len >>> 8) &&& 0xff), UInt8.ofNat (len &&& 0xff)]
  else [UInt8.ofNat (len &&& 0xff)]

/-- `none` is -1. The assertions behind the first check follow from it. -/
def fcgiEnvAdd (env key val : Bytes) : Option Bytes :=
  let len := key.length + val.length + (if key.length > 127 then 4 else 1) +
    (if val.length > 127 then 4 else 1)
  if env.length + len ≥ fcgiMaxLength then none
  else some (env ++ (lengthBytes key.length ++ lengthBytes val.length) ++ key ++ val)

/-- `http_cgi_headers` calls on after a failure, and reports it at the end. -/
def httpCgiHeaders (pairs : List (Bytes × Bytes)) : Option Bytes :=
  let result := pairs.foldl (fun (state : Bool × Bytes) pair =>
    match fcgiEnvAdd state.2 pair.1 pair.2 with
    | some env => (state.1, env)
    | none => (true, state.2)) (false, [])
  if result.1 then none else some result.2

variable (r : FcgiRequest)

def cqLength (q : QueueId) : Nat := (r.world.queues q).bytesIn - (r.world.queues q).bytesOut

def onQueues (c : Call) : Option FcgiRequest := (call r.world c).map fun world => { r with world := world }

/-- One turn of the loop in `fcgi_stdin_append`. -/
def stdinRecord (weWant : Nat) : Option FcgiRequest := do
  let header ← fcgiHeader fcgiStdin r.requestId weWant 0
  let r ← onQueues r (.appendMem wbQueue header)
  let r :=
    if r.wbReqlen ≠ -1 then
      if r.wbReqlen ≥ 0 then { r with wbReqlen := offT (r.wbReqlen + fcgiHeaderLen) }
      else { r with wbReqlen := offT (r.wbReqlen - fcgiHeaderLen) }
    else r
  onQueues r (.steal wbQueue requestContentQueue weWant)

/-- The loop, with as many turns as bytes at most; `left` is what is left of `req_cqlen`. -/
def stdinLoop (r : FcgiRequest) : Nat → Nat → Option FcgiRequest
  | 0, _ => some r
  | turns + 1, left =>
    if left = 0 then some r
    else
      let weWant := if left > fcgiMaxLength then fcgiMaxLength else left
      (stdinRecord r weWant).bind fun r => stdinLoop r turns (left - weWant)

def stdinEnd : Option FcgiRequest :=
  if (r.world.queues wbQueue).bytesIn = r.wbReqlen then do
    let header ← fcgiHeader fcgiStdin r.requestId 0 0
    let r ← onQueues r (.appendMem wbQueue header)
    return { r with wbReqlen := offT (r.wbReqlen + fcgiHeaderLen) }
  else some r

def fcgiStdinAppend : Option FcgiRequest := do
  let left := cqLength r requestContentQueue
  let r ← stdinLoop r left left
  stdinEnd r

def beginBody (gwMode : GwMode) : Bytes := [0, gwMode.role, 0, 0, 0, 0, 0, 0]

def fcgiOpening (requestId : Nat) (gwMode : GwMode) (env : Bytes) : Option Bytes := do
  let beginHeader ← fcgiHeader fcgiBeginRequest requestId (beginBody gwMode).length 0
  let paramsHeader ← fcgiHeader fcgiParams requestId env.length 0
  let endHeader ← fcgiHeader fcgiParams requestId 0 0
  return beginHeader ++ beginBody gwMode ++ (paramsHeader ++ env) ++ endHeader

/-- An environment that is refused leaves the queue as it is. The content length is known. -/
def fcgiCreateEnv : Option FcgiRequest :=
  let r := { r with requestId := if r.requestId = 0 then 1 else r.requestId }
  match httpCgiHeaders r.pairs with
  | none => some r
  | some env => do
    let b ← fcgiOpening r.requestId r.gwMode env
    let r := { r with wbReqlen := b.length }
    let r ← onQueues r (.appendBuffer wbQueue (Buffer.init.appendStringLen b))
    let r := { r with wbReqlen := offT (r.wbReqlen + r.contentLength) }
    let r ← fcgiStdinAppend r
    return { r with created := true }

/-- What `network_read` finds: sizes asked of `chunkqueue_get_memory` and bytes for each read. -/
inductive NetworkRead where
  | notReadable
  | failed
  | closed
  | data (reads : List (Nat × Nat × Bytes))

/-- One read puts in no more than there is room for. -/
def readOnce (r : FcgiRequest) (minSize allocSize : Nat) (bytes : Bytes) : Option FcgiRequest :=
  let space := ((r.world.queues readQueue).getMemory r.world.memory minSize allocSize).2.2
  (onQueues r (.useMemory readQueue minSize allocSize (bytes.take space))).map fun r =>
    { r with received := r.received ++ bytes.take space }

def readAll (r : FcgiRequest) : List (Nat × Nat × Bytes) → Option FcgiRequest
  | [] => some r
  | (minSize, allocSize, bytes) :: reads =>
    (readOnce r minSize allocSize bytes).bind fun r => readAll r reads

inductive HandlerT where
  | goOn
  | finished
  | waitForEvent
  | error
  deriving DecidableEq

/-- The part of `connection_handle_read_post_state` behind the read. `writes` says how much each
`write` to a temporary file takes, and `streaming` whether the body may be handed on before it
is complete. -/
def takeBody (isClosed streaming : Bool) (writes : List Nat) : Option (FcgiRequest × HandlerT) := do
  let r ← onQueues r (.removeFinishedChunks readQueue)
  let weWant := r.contentLength - (r.world.queues requestContentQueue).bytesIn
  let r ← onQueues r
    (if r.contentLength ≤ 64 * 1024 then .steal requestContentQueue readQueue weWant
     else .stealWithTempfiles requestContentQueue readQueue weWant writes)
  let r ← onQueues r (.removeFinishedChunks readQueue)
  if (r.world.queues requestContentQueue).bytesIn = r.contentLength then
    return ({ r with readPost := false }, .goOn)
  else if isClosed then return (r, .error)
  else return (r, if streaming then .goOn else .waitForEvent)

def connectionHandleReadPostState (read : NetworkRead) (streaming : Bool) (writes : List Nat) :
    Option (FcgiRequest × HandlerT) :=
  match read with
  | .failed => some (r, .error)
  | .notReadable => takeBody r false streaming writes
  | .closed => takeBody r true streaming writes
  | .data reads => (readAll r reads).bind fun r => takeBody r false streaming writes

/-- `network_backend_write` takes some bytes from the front. -/
def writeBackend (written : Nat) : Option FcgiRequest := do
  let taken := min written (r.world.queues wbQueue).length
  let front := (LighttpdChunkContent.content r.world.memory (r.world.queues wbQueue)).take taken
  let r ← onQueues { r with sent := r.sent ++ front } (.markWritten wbQueue taken)
  onQueues r (.removeFinishedChunks wbQueue)

/-- `gw_send_request`, with whether the backend is connected by now. -/
def gwSendRequest (connected : Bool) (written : Nat) : Option FcgiRequest :=
  if r.created then writeBackend r written
  else if connected then do
    let r ← fcgiCreateEnv r
    if r.created then writeBackend r written else some r
  else some r

/-- What the outside does in one call of `gw_handle_subrequest`. -/
structure Subrequest where
  read : NetworkRead
  streaming : Bool
  writes : List Nat
  waitsForOut : Bool
  connected : Bool
  written : Nat

/-- The last part of `gw_handle_subrequest`. A connect that is delayed is one that is not
connected yet. -/
def sendRest (input : Subrequest) : Option FcgiRequest :=
  if (r.world.queues wbQueue).bytesIn = 0 ∨ (r.world.queues wbQueue).chunks ≠ [] then
    gwSendRequest r input.connected input.written
  else some r

/-- The part of `gw_handle_subrequest` behind the read. -/
def frameBody (input : Subrequest) (result : HandlerT) : Option FcgiRequest :=
  if ((r.world.queues wbQueue).bytesIn ≠ 0 ∨ r.wbReqlen = -1) ∧
      (r.world.queues requestContentQueue).chunks ≠ [] then
    (fcgiStdinAppend r).bind fun r =>
      if input.waitsForOut then some r
      else if result ≠ .goOn then some r
      else sendRest r input
  else if result ≠ .goOn then some r
  else sendRest r input

/-- Whether `gw_handle_subrequest` asks for more of the body. -/
def wantsBody : Prop :=
  r.gwMode ≠ .authorizer ∧
    if (r.world.queues wbQueue).bytesIn = 0 then r.readPost = true ∨ r.wbReqlen = -1
    else (r.world.queues wbQueue).bytesIn < r.wbReqlen ∨ r.wbReqlen < 0

instance : Decidable (wantsBody r) := by
  unfold wantsBody
  infer_instance

/-- Whether the backend has so much to take that the body has to wait. -/
def heldBack : Prop := cqLength r wbQueue > 65536 - 4096

instance : Decidable (heldBack r) := inferInstanceAs (Decidable (_ > _))

/-- `none` is an abort. -/
def gwHandleSubrequest (input : Subrequest) : Option FcgiRequest :=
  if wantsBody r then
    if heldBack r then
      if (r.world.queues wbQueue).bytesIn ≠ 0 then some r else sendRest r input
    else
      (connectionHandleReadPostState r input.read input.streaming input.writes).bind fun result =>
        frameBody result.1 input result.2
  else sendRest r input

/-- A request is called for the connection, or because the backend can take more. -/
inductive Event where
  | subrequest (input : Subrequest)
  | sendRequest (connected : Bool) (written : Nat)

def handle : Event → Option FcgiRequest
  | .subrequest input => gwHandleSubrequest r input
  | .sendRequest connected written => gwSendRequest r connected written

def run (r : FcgiRequest) : List Event → Option FcgiRequest
  | [] => some r
  | event :: events => (handle r event).bind fun r => run r events

end ServerCore.LighttpdFastcgi
