import ServerCore.NginxHttpChunked
import ServerCore.NginxInet

/-!
# The chunked body filter of nginx

`ngx_http_chunked_body_filter` puts the size of a chain in front of it and a line end
or the last chunk behind it. Its own buffers come back through `ctx->busy` to
`ctx->free` when the next filter has sent them. The buffers are a heap, since a chain
that is handed on shares them with the chain it was made from.
-/

namespace ServerCore.NginxHttpChunkedFilter

open NginxHttpParse (Bytes cr lf)
open NginxHttpChunked (ReturnCode)
open NginxInet (hexadecimal)

/-- `b->tag`: the buffers of this module, and all others. -/
inductive Tag where
  | ngxHttpChunkedFilterModule
  | other
  deriving DecidableEq

/-- `ngx_buf_t`. The bytes are those from `pos` to `last` or, of a buffer that is not in
memory, those of its file; `start` says that the buffer has memory of its own. -/
structure Buf where
  bytes : Bytes
  start : Bool := false
  tag : Tag := .other
  temporary : Bool := false
  memory : Bool := false
  mmap : Bool := false
  inFile : Bool := false
  flush : Bool := false
  sync : Bool := false
  lastBuf : Bool := false
  deriving DecidableEq

def ngxBufInMemory (b : Buf) : Bool := b.temporary || b.memory || b.mmap

def ngxBufSize (b : Buf) : Int := b.bytes.length

/-- What is stored in an `off_t`. -/
def offT (value : Int) : Int := Int.bmod value (2 ^ 64)

/-- The buffers by address, the first address not in use, and how the allocations to
come from the pool will end. -/
structure World where
  bufs : Nat → Buf
  next : Nat
  answers : List Bool

def World.write (world : World) (addr : Nat) (b : Buf) : World :=
  { world with bufs := Function.update world.bufs addr b }

def World.allocate (world : World) : Option World :=
  match world.answers with
  | true :: answers => some { world with answers := answers }
  | _ => none

/-- `ngx_http_chunked_filter_ctx_t`: the buffers that the links of the two chains have. -/
structure Ctx where
  free : List Nat
  busy : List Nat

/-- The buffer of the first free link, or a new one. -/
def ngxChainGetFreeBuf (free : List Nat) (world : World) : Option (Nat × List Nat × World) :=
  match free with
  | cl :: free => some (cl, free, world)
  | [] => do
    let world ← world.allocate
    let world ← world.allocate
    let blank : Buf := { bytes := [] }
    some (world.next, [], { world.write world.next blank with next := world.next + 1 })

/-- The second loop of `ngx_chain_update_chains`, over what is left of the busy chain. -/
def recycle (tag : Tag) (free : List Nat) (world : World) : List Nat → List Nat × List Nat × World
  | [] => (free, [], world)
  | cl :: busy =>
    if ngxBufSize (world.bufs cl) ≠ 0 then (free, cl :: busy, world)
    else if (world.bufs cl).tag ≠ tag then recycle tag free world busy
    else recycle tag (cl :: free) (world.write cl { world.bufs cl with bytes := [] }) busy

def ngxChainUpdateChains (ctx : Ctx) (out : List Nat) (tag : Tag) (world : World) : Ctx × World :=
  match recycle tag ctx.free world (ctx.busy ++ out) with
  | (free, busy, world) => (⟨free, busy⟩, world)

/-- A buffer that is copied to the chain for the next filter. -/
def copied (b : Buf) : Bool := b.flush || b.sync || ngxBufInMemory b || b.inFile

/-- The loop over `in`: the size of the chain so far and the links of the new one. -/
def copyChain (world : World) (size : Int) (out : List Nat) : List Nat → Option (Int × List Nat × World)
  | [] => some (size, out, world)
  | cl :: rest =>
    let size := offT (size + ngxBufSize (world.bufs cl))
    if copied (world.bufs cl) then do
      let world ← world.allocate
      copyChain world size (out ++ [cl]) rest
    else copyChain world size out rest

def crlf : Bytes := [cr, lf]

/-- CRLF "0" CRLF CRLF. -/
def lastChunk : Bytes := crlf ++ '0'.toUInt8 :: (crlf ++ crlf)

/-- The format `%xO`. -/
def formatSize (size : Int) : Bytes :=
  if size < 0 then '-'.toUInt8 :: hexadecimal size.natAbs else hexadecimal size.toNat

/-- The memory for the text of a size is allocated once for a buffer. -/
def ownMemory (world : World) (addr : Nat) : Option World :=
  if (world.bufs addr).start then some world else world.allocate

section

variable (free : List Nat) (world : World)

/-- The buffer in front of a chain that is not empty. -/
def sizeBuf (size : Int) : Option (Nat × List Nat × World) := do
  let (tl, free, world) ← ngxChainGetFreeBuf free world
  let world ← ownMemory world tl
  let b := { world.bufs tl with
    start := true
    tag := .ngxHttpChunkedFilterModule
    memory := false
    temporary := true
    bytes := formatSize size ++ crlf }
  some (tl, free, world.write tl b)

def lastChunkBuf (size : Int) : Option (Nat × List Nat × World) := do
  let (tl, free, world) ← ngxChainGetFreeBuf free world
  let b := { world.bufs tl with
    tag := .ngxHttpChunkedFilterModule
    temporary := false
    memory := true
    lastBuf := true
    bytes := if size = 0 then lastChunk.drop 2 else lastChunk }
  some (tl, free, world.write tl b)

/-- The buffer behind another chain that is not empty. -/
def crlfBuf : Option (Nat × List Nat × World) := do
  let (tl, free, world) ← ngxChainGetFreeBuf free world
  let b := { world.bufs tl with
    tag := .ngxHttpChunkedFilterModule
    temporary := false
    memory := true
    bytes := crlf }
  some (tl, free, world.write tl b)

def putSize (size : Int) : Option (List Nat × List Nat × World) :=
  if size ≠ 0 then do
    let (tl, free, world) ← sizeBuf free world size
    some ([tl], free, world)
  else some ([], free, world)

/-- The link behind the copied ones. `cl` is the last link of `in`. -/
def putEnd (size : Int) (cl : Nat) :
    Option (List Nat × List Nat × World) :=
  if (world.bufs cl).lastBuf then do
    let (tl, free, world) ← lastChunkBuf free world size
    some ([tl], free, world.write cl { world.bufs cl with lastBuf := false })
  else if size > 0 then do
    let (tl, free, world) ← crlfBuf free world
    some ([tl], free, world)
  else some ([], free, world)

end

/-- The chain for the next filter. Where nothing was copied, `ll` is still `&out`, and
what is stored there takes the place of the link in front. -/
def link (front out back : List Nat) : List Nat :=
  if out = [] then back else front ++ (out ++ back)

/-- What the filter reads of `ngx_http_request_t`. -/
structure Request where
  chunked : Bool
  headerOnly : Bool

/-- `ngx_http_next_body_filter` gets the buffers and a chain of them. -/
abbrev NextFilter : Type := World → List Nat → ReturnCode × World

/-- What is left of a call, with the buffers as the next filter was given them. -/
structure Result where
  rc : ReturnCode
  handed : List Buf
  ctx : Ctx
  world : World

/-- There is no result when an allocation fails and the filter returns `NGX_ERROR`. -/
def ngxHttpChunkedBodyFilter (next : NextFilter) (r : Request) (ctx : Ctx) (world : World)
    (chain : List Nat) : Option Result :=
  match chain.getLast? with
  | none =>
    let (rc, left) := next world chain
    some ⟨rc, [], ctx, left⟩
  | some cl =>
    if !r.chunked || r.headerOnly then
      let (rc, left) := next world chain
      some ⟨rc, chain.map world.bufs, ctx, left⟩
    else do
      let (size, out, world) ← copyChain world 0 [] chain
      let (front, free, world) ← putSize ctx.free world size
      let (back, free, world) ← putEnd free world size cl
      let out := link front out back
      let (rc, left) := next world out
      let (ctx, left) := ngxChainUpdateChains ⟨free, ctx.busy⟩ out .ngxHttpChunkedFilterModule left
      some ⟨rc, out.map world.bufs, ctx, left⟩

end ServerCore.NginxHttpChunkedFilter
