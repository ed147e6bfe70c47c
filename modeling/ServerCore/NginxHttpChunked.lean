import ServerCore.NginxHttpParse

/-!
# The chunked body parser of nginx

`ngx_http_parse_chunked` and the loop in which its callers drive it. The parser
stops at the data of a chunk, the caller takes as much of it as there is and
calls again; after `NGX_AGAIN` it waits for the next buffer.
-/

namespace ServerCore.NginxHttpChunked

open NginxHttpParse (Byte Bytes cr lf)

inductive ReturnCode where
  | ngxOk
  | ngxAgain
  | ngxDone
  | ngxError
  deriving DecidableEq

inductive State where
  | swChunkStart
  | swChunkSize
  | swChunkExtension
  | swChunkExtensionAlmostDone
  | swChunkData
  | swAfterData
  | swAfterDataAlmostDone
  | swLastChunkExtension
  | swLastChunkExtensionAlmostDone
  | swTrailer
  | swTrailerAlmostDone
  | swTrailerHeader
  | swTrailerHeaderAlmostDone
  deriving DecidableEq

/-- `ngx_http_chunked_t`. -/
structure Chunked where
  state : State
  size : Nat
  length : Nat
  deriving DecidableEq

def maxOffT : Nat := 2 ^ 63 - 1

/-- The value of a hexadecimal digit of either case. -/
def hexDigit (ch : Byte) : Option Nat :=
  if '0'.toUInt8 ≤ ch ∧ ch ≤ '9'.toUInt8 then some (ch.toNat - '0'.toUInt8.toNat)
  else
    let c := ch ||| 0x20
    if 'a'.toUInt8 ≤ c ∧ c ≤ 'f'.toUInt8 then some (c.toNat - 'a'.toUInt8.toNat + 10) else none

/-- What a byte leads to: another state and size, the label `data`, `done` or
`invalid`. -/
inductive Turn where
  | next (state : State) (size : Nat)
  | data
  | done
  | invalid
  deriving DecidableEq

def swChunkStart (ch : Byte) : Turn :=
  match hexDigit ch with
  | some digit => .next .swChunkSize digit
  | none => .invalid

/-- The end of a size is followed by the states of the last chunk when it is zero. -/
def swChunkSize (size : Nat) (ch : Byte) : Turn :=
  if size > maxOffT / 16 then .invalid
  else
    match hexDigit ch with
    | some digit => .next .swChunkSize (size * 16 + digit)
    | none =>
      if size = 0 then
        if ch = cr then .next .swLastChunkExtensionAlmostDone size
        else if ch = lf then .next .swTrailer size
        else if ch = ';'.toUInt8 ∨ ch = ' '.toUInt8 ∨ ch = '\t'.toUInt8 then
          .next .swLastChunkExtension size
        else .invalid
      else if ch = cr then .next .swChunkExtensionAlmostDone size
      else if ch = lf then .next .swChunkData size
      else if ch = ';'.toUInt8 ∨ ch = ' '.toUInt8 ∨ ch = '\t'.toUInt8 then .next .swChunkExtension size
      else .invalid

/-- A line up to its end: CR and LF lead on, and other bytes are skipped. -/
def skipLine (here almostDone after : State) (size : Nat) (ch : Byte) : Turn :=
  if ch = cr then .next almostDone size
  else if ch = lf then .next after size
  else .next here size

def expectLf (after : State) (size : Nat) (ch : Byte) : Turn :=
  if ch = lf then .next after size else .invalid

def swTrailer (size : Nat) (ch : Byte) : Turn :=
  if ch = cr then .next .swTrailerAlmostDone size
  else if ch = lf then .done
  else .next .swTrailerHeader size

def swTrailerAlmostDone (ch : Byte) : Turn := if ch = lf then .done else .invalid

def turn (state : State) (size : Nat) (ch : Byte) : Turn :=
  match state with
  | .swChunkStart => swChunkStart ch
  | .swChunkSize => swChunkSize size ch
  | .swChunkExtension => skipLine .swChunkExtension .swChunkExtensionAlmostDone .swChunkData size ch
  | .swChunkExtensionAlmostDone => expectLf .swChunkData size ch
  | .swChunkData => .data
  | .swAfterData => skipLine .swAfterData .swAfterDataAlmostDone .swChunkStart size ch
  | .swAfterDataAlmostDone => expectLf .swChunkStart size ch
  | .swLastChunkExtension =>
    skipLine .swLastChunkExtension .swLastChunkExtensionAlmostDone .swTrailer size ch
  | .swLastChunkExtensionAlmostDone => expectLf .swTrailer size ch
  | .swTrailer => swTrailer size ch
  | .swTrailerAlmostDone => swTrailerAlmostDone ch
  | .swTrailerHeader => skipLine .swTrailerHeader .swTrailerHeaderAlmostDone .swTrailer size ch
  | .swTrailerHeaderAlmostDone => expectLf .swTrailer size ch

/-- Where the loop over the bytes ends, with the bytes from `pos` on. -/
inductive Ending where
  | data (rc : ReturnCode) (state : State) (size : Nat) (rest : Bytes)
  | done (size : Nat) (rest : Bytes)
  | invalid (size : Nat)

def loop (state : State) (size : Nat) : Bytes → Ending
  | [] => .data .ngxAgain state size []
  | ch :: rest =>
    match turn state size ch with
    | .next state size => loop state size rest
    | .data => .data .ngxOk state size (ch :: rest)
    | .done => .done size rest
    | .invalid => .invalid size

/-- `ctx->length`, the least number of bytes still to come. -/
def lengthOf (state : State) (size : Nat) : Nat :=
  match state with
  | .swChunkStart => 3
  | .swChunkSize => 1 + if size ≠ 0 then size + 4 else 1
  | .swChunkExtension | .swChunkExtensionAlmostDone => 1 + size + 4
  | .swChunkData => size + 4
  | .swAfterData | .swAfterDataAlmostDone => 4
  | .swLastChunkExtension | .swLastChunkExtensionAlmostDone => 2
  | .swTrailer | .swTrailerAlmostDone => 1
  | .swTrailerHeader | .swTrailerHeaderAlmostDone => 2

/-- The local `state` at the start of a call. -/
def entryState (ctx : Chunked) : State :=
  if ctx.state = .swChunkData ∧ ctx.size = 0 then .swAfterData else ctx.state

/-- The return code, `ctx` and the bytes from `b->pos` on. -/
def ngxHttpParseChunked (ctx : Chunked) (b : Bytes) : ReturnCode × Chunked × Bytes :=
  match loop (entryState ctx) ctx.size b with
  | .data rc state size rest =>
    if size > maxOffT - 5 then (.ngxError, { ctx with state := state, size := size }, rest)
    else (rc, ⟨state, size, lengthOf state size⟩, rest)
  | .done size rest => (.ngxDone, { ctx with state := .swChunkStart, size := size }, rest)
  | .invalid size => (.ngxError, { ctx with size := size }, b)

/-- The data that a caller takes after `NGX_OK`, as the request body filter
compares the sizes. -/
def takeData (ctx : Chunked) (b : Bytes) : Bytes × Chunked × Bytes :=
  if b.length > ctx.size then (b.take ctx.size, { ctx with size := 0 }, b.drop ctx.size)
  else (b, { ctx with size := ctx.size - b.length }, [])

/-- The same with the comparison of the proxy module. -/
def takeDataProxy (ctx : Chunked) (b : Bytes) : Bytes × Chunked × Bytes :=
  if b.length ≥ ctx.size then (b.take ctx.size, { ctx with size := 0 }, b.drop ctx.size)
  else (b, { ctx with size := ctx.size - b.length }, [])

/-- What a caller has when it stops calling: the data it took, and the context
to go on with or the bytes behind the body. -/
inductive Outcome where
  | again (body : Bytes) (ctx : Chunked)
  | done (body : Bytes) (rest : Bytes)
  | error (body : Bytes)
  deriving DecidableEq

def Outcome.prepend (front : Bytes) : Outcome → Outcome
  | .again body ctx => .again (front ++ body) ctx
  | .done body rest => .done (front ++ body) rest
  | .error body => .error (front ++ body)

/-- The loop of a caller over one buffer. Every `NGX_OK` comes with a byte of
data, so the loop ends before its fuel does. -/
def drive : Nat → Chunked → Bytes → Option Outcome
  | 0, _, _ => none
  | fuel + 1, ctx, b =>
    match ngxHttpParseChunked ctx b with
    | (.ngxOk, ctx, b) =>
      match takeData ctx b with
      | (taken, ctx, b) => (drive fuel ctx b).map (Outcome.prepend taken)
    | (.ngxAgain, ctx, _) => some (.again [] ctx)
    | (.ngxDone, _, b) => some (.done [] b)
    | (.ngxError, _, _) => some (.error [])

/-- Buffer after buffer, until the body ends or is invalid; behind the end of
the body are the rest of its buffer and the buffers not looked at. -/
def driveAll (ctx : Chunked) : List Bytes → Option Outcome
  | [] => some (.again [] ctx)
  | b :: bs => do
    match ← drive (b.length + 1) ctx b with
    | .again body ctx => (driveAll ctx bs).map (Outcome.prepend body)
    | .done body rest => some (.done body (rest ++ bs.flatten))
    | .error body => some (.error body)

/-- `ngx_pcalloc` of the context. -/
def initial : Chunked := ⟨.swChunkStart, 0, 0⟩

end ServerCore.NginxHttpChunked
