import Mathlib.Algebra.GroupWithZero.Nat
import Mathlib.Data.List.Nodup

/-!
# The chunkqueue of lighttpd

`chunk.c` with what it uses of `buffer.c`; `chunkqueue_f` and `buffer_f` are `f`
in the namespaces of the types. A chunk has an address, and a queue is the list
of its chunks from `cq->first` on along `next`, with `cq->last` as an address
beside it: what is linked behind `last` is linked behind the chunk at that
address, wherever it is. A buffer is its string and its allocated size. The
functions that read from files or write to them do so with success: a temporary
file gets a name that no file had, a write may write less than it was given, and
what a file holds does not change but for what is appended to it, also not when a
temporary file is unlinked. The mapped area of a chunk has no part in this.
-/

namespace ServerCore.LighttpdChunk

abbrev Byte := UInt8

abbrev Bytes := List Byte

/-- `buffer`: `used` counts the string and its terminating zero. -/
structure Buffer where
  bytes : Bytes
  size : Nat
  deriving DecidableEq

namespace Buffer

def init : Buffer := ⟨[], 0⟩

def stringSpace (b : Buffer) : Nat := if b.size = 0 then 0 else b.size - (b.bytes.length + 1)

/-- `buffer_reset` frees what is larger than `BUFFER_MAX_REUSE_SIZE`. -/
def reset (b : Buffer) : Buffer := ⟨[], if b.size > 4096 then 0 else b.size⟩

def alignSize (size : Nat) : Nat := size + (64 - size % 64)

def stringPrepareCopy (b : Buffer) (size : Nat) : Buffer :=
  ⟨[], if size + 1 ≤ b.size then b.size else alignSize (size + 1)⟩

def stringPrepareAppend (b : Buffer) (size : Nat) : Buffer :=
  if b.bytes = [] then b.stringPrepareCopy size
  else
    let reqSize := b.bytes.length + 1 + size
    { b with size := if reqSize ≤ b.size then b.size else alignSize reqSize }

def copyStringLen (b : Buffer) (s : Bytes) : Buffer := { b.stringPrepareCopy s.length with bytes := s }

def appendStringLen (b : Buffer) (s : Bytes) : Buffer :=
  let b := b.stringPrepareAppend s.length
  { b with bytes := b.bytes ++ s }

end Buffer

inductive ChunkType where
  | memChunk
  | fileChunk
  deriving DecidableEq

abbrev ChunkPtr := Nat
abbrev FileName := Nat

/-- `chunk`; `fd` tells whether the descriptor is open. -/
structure Chunk where
  ptr : ChunkPtr
  type : ChunkType
  mem : Buffer
  name : FileName
  start : Nat
  length : Nat
  fd : Bool
  isTemp : Bool
  offset : Nat
  deriving DecidableEq

/-- `chunkqueue`; `chunks` starts at `first`. -/
structure Chunkqueue where
  chunks : List Chunk
  last : Option ChunkPtr
  unused : List Chunk
  unusedChunks : Nat
  bytesIn : Nat
  bytesOut : Nat
  uploadTempFileSize : Nat

/-- Memory and files: the next address, the contents of files, the next name of a
temporary file, and what the next calls of `write` return. -/
structure Memory where
  files : FileName → Bytes
  nextFile : FileName
  nextChunk : ChunkPtr
  writes : List Nat

/-- `chunk_init` at an address. -/
def chunkInit (ptr : ChunkPtr) : Chunk := ⟨ptr, .memChunk, .init, 0, 0, 0, false, false, 0⟩

def chunkReset (c : Chunk) : Chunk := ⟨c.ptr, .memChunk, c.mem.reset, 0, 0, 0, false, false, 0⟩

def chunkLength (c : Chunk) : Nat :=
  match c.type with
  | .memChunk => c.mem.bytes.length
  | .fileChunk => c.length

def chunkRemainingLength (c : Chunk) : Nat := chunkLength c - c.offset

namespace Chunkqueue

def pushUnusedChunk (cq : Chunkqueue) (c : Chunk) : Chunkqueue :=
  if cq.unusedChunks > 4 then cq
  else { cq with unused := chunkReset c :: cq.unused, unusedChunks := cq.unusedChunks + 1 }

def getUnusedChunk (m : Memory) (cq : Chunkqueue) : Memory × Chunkqueue × Chunk :=
  match cq.unused with
  | [] => ({ m with nextChunk := m.nextChunk + 1 }, cq, chunkInit m.nextChunk)
  | c :: unused => (m, { cq with unused := unused, unusedChunks := cq.unusedChunks - 1 }, c)

/-- `last->next = tail` for the chunk at the address `last`. -/
def setNext (last : ChunkPtr) (tail : List Chunk) : List Chunk → List Chunk
  | [] => []
  | c :: rest => if c.ptr = last then c :: tail else c :: setNext last tail rest

def prependChunk (cq : Chunkqueue) (c : Chunk) : Chunkqueue :=
  { cq with
    chunks := c :: cq.chunks
    last := if cq.last = none then some c.ptr else cq.last
    bytesIn := cq.bytesIn + chunkRemainingLength c }

/-- The list with another one behind `last`, which is the whole list when there is no `first`. -/
def linkLast (cq : Chunkqueue) (tail : List Chunk) : List Chunk :=
  match cq.last with
  | some last => setNext last tail cq.chunks
  | none => cq.chunks

def appendChunk (cq : Chunkqueue) (c : Chunk) : Chunkqueue :=
  let chunks := cq.linkLast [c]
  { cq with
    chunks := if chunks = [] then [c] else chunks
    last := some c.ptr
    bytesIn := cq.bytesIn + chunkRemainingLength c }

def reset (cq : Chunkqueue) : Chunkqueue :=
  let cq' := cq.chunks.foldl pushUnusedChunk { cq with chunks := [], last := none }
  { cq' with bytesIn := 0, bytesOut := 0 }

section

variable (m : Memory) (cq : Chunkqueue)

def appendFile (fn : FileName) (offset len : Nat) : Memory × Chunkqueue :=
  if len = 0 then (m, cq)
  else
    let (m, cq, c) := cq.getUnusedChunk m
    (m, cq.appendChunk { c with
      type := .fileChunk, name := fn, start := offset, length := len, offset := 0 })

/-- `chunkqueue_append_buffer`; the buffer of the caller is not looked at again. -/
def appendBuffer (mem : Buffer) : Memory × Chunkqueue :=
  if mem.bytes = [] then (m, cq)
  else
    let (m, cq, c) := cq.getUnusedChunk m
    (m, cq.appendChunk { c with type := .memChunk, mem := mem })

def prependBuffer (mem : Buffer) : Memory × Chunkqueue :=
  if mem.bytes = [] then (m, cq)
  else
    let (m, cq, c) := cq.getUnusedChunk m
    (m, cq.prependChunk { c with type := .memChunk, mem := mem })

def appendMem (mem : Bytes) : Memory × Chunkqueue :=
  if mem.length = 0 then (m, cq)
  else
    let (m, cq, c) := cq.getUnusedChunk m
    (m, cq.appendChunk { c with type := .memChunk, mem := c.mem.copyStringLen mem })

end

/-- `chunkqueue_append_chunkqueue`: the queue and its source. -/
def appendChunkqueue (cq src : Chunkqueue) : Chunkqueue × Chunkqueue :=
  if src.chunks = [] then (cq, src)
  else
    ({ cq with
        chunks := if cq.chunks = [] then src.chunks else cq.linkLast src.chunks
        last := src.last
        bytesIn := cq.bytesIn + (src.bytesIn - src.bytesOut) },
      { src with chunks := [], last := none, bytesOut := src.bytesIn })

def lastChunk (cq : Chunkqueue) : Option Chunk := cq.chunks.find? fun c => some c.ptr = cq.last

def modifyLast (cq : Chunkqueue) (change : Chunk → Chunk) : Chunkqueue :=
  { cq with chunks := cq.chunks.map fun c => if some c.ptr = cq.last then change c else c }

/-- What `chunkqueue_get_memory` does with the last memory buffer. -/
def prepareLast (b : Buffer) (minSize allocSize : Nat) : Buffer :=
  if b.bytes = [] then b.stringPrepareCopy allocSize
  else if b.stringSpace < minSize ∧ b.size ≤ 256 then
    let newSize := if b.bytes.length + minSize < allocSize then allocSize else b.bytes.length + minSize
    let append := newSize - b.bytes.length
    if append ≥ minSize then b.stringPrepareAppend append else b
  else b

def getMemoryNew (m : Memory) (cq : Chunkqueue) (allocSize : Nat) : Memory × Chunkqueue × Nat :=
  let (m, cq, c) := cq.getUnusedChunk m
  let cq := cq.appendChunk { c with type := .memChunk }
  let b := c.mem.stringPrepareAppend allocSize
  (m, cq.modifyLast fun c => { c with mem := b }, b.stringSpace)

/-- `chunkqueue_get_memory`: the queue whose last buffer has the memory, and its size. -/
def getMemory (m : Memory) (cq : Chunkqueue) (minSize allocSize : Nat) : Memory × Chunkqueue × Nat :=
  let minSize := if minSize = 0 then 1024 else minSize
  let allocSize := if allocSize = 0 then 4096 else allocSize
  let allocSize := if allocSize < minSize then minSize else allocSize
  match cq.lastChunk with
  | some c =>
    if c.type = .memChunk then
      let b := prepareLast c.mem minSize allocSize
      let cq := cq.modifyLast fun c => { c with mem := b }
      if b.stringSpace ≥ minSize then (m, cq, b.stringSpace) else cq.getMemoryNew m allocSize
    else cq.getMemoryNew m allocSize
  | none => cq.getMemoryNew m allocSize

/-- `chunkqueue_use_memory` after these bytes were written to the memory. -/
def useMemory (cq : Chunkqueue) (written : Bytes) : Option Chunkqueue :=
  match cq.lastChunk with
  | some c =>
    if c.type = .memChunk ∧ (written = [] ∨ c.mem.bytes.length + 1 + written.length ≤ c.mem.size) then
      if 0 < written.length then
        let cq := cq.modifyLast fun c => { c with mem := { c.mem with bytes := c.mem.bytes ++ written } }
        some { cq with bytesIn := cq.bytesIn + written.length }
      else if c.mem.bytes = [] then some (cq.modifyLast fun c => { c with mem := c.mem.reset })
      else some cq
    else none
  | none => none

/-- `first = c->next`, and no `last` when it was the last one. -/
def unlinkFirst (cq : Chunkqueue) (c : Chunk) (rest : List Chunk) : Chunkqueue :=
  { cq with chunks := rest, last := if cq.last = some c.ptr then none else cq.last }

def memBytes (c : Chunk) : Bytes := c.mem.bytes.drop c.offset

/-- The loop of `chunkqueue_steal` over the chunks of the source. -/
def stealLoop (m : Memory) (dest src : Chunkqueue) (len : Nat) :
    List Chunk → Memory × Chunkqueue × Chunkqueue
  | [] => (m, dest, src)
  | c :: rest =>
    if len = 0 then (m, dest, src)
    else
      let clen := chunkRemainingLength c
      if clen = 0 then stealLoop m dest ((src.unlinkFirst c rest).pushUnusedChunk c) len rest
      else if len ≥ clen then
        stealLoop m (dest.appendChunk c) { src.unlinkFirst c rest with bytesOut := src.bytesOut + clen }
          (len - clen) rest
      else
        let (m, dest) :=
          match c.type with
          | .memChunk => dest.appendMem m ((memBytes c).take len)
          | .fileChunk => dest.appendFile m c.name (c.start + c.offset) len
        (m, dest, { src with
          chunks := { c with offset := c.offset + len } :: rest, bytesOut := src.bytesOut + len })

def steal (m : Memory) (dest src : Chunkqueue) (len : Nat) : Memory × Chunkqueue × Chunkqueue :=
  stealLoop m dest src len src.chunks

def getAppendTempfile (m : Memory) (cq : Chunkqueue) : Memory × Chunkqueue :=
  let name := m.nextFile
  let (m, cq, c) := cq.getUnusedChunk { m with nextFile := name + 1 }
  (m, cq.appendChunk { c with type := .fileChunk, fd := true, isTemp := true, name := name, length := 0 })

def isOpenTempfile (c : Chunk) : Bool := c.type == .fileChunk && c.isTemp && c.fd && c.offset == 0

/-- The temporary file for the next write: `last`, or a new one. -/
def tempfileForWrite (m : Memory) (dest : Chunkqueue) : Memory × Chunkqueue :=
  match dest.lastChunk with
  | some c =>
    if isOpenTempfile c then
      if c.length ≥ dest.uploadTempFileSize then
        (dest.modifyLast fun c => { c with fd := false }).getAppendTempfile m
      else (m, dest)
    else dest.getAppendTempfile m
  | none => dest.getAppendTempfile m

/-- `write` to the file of the last chunk, which gets as much longer. -/
def writeTempfile (m : Memory) (dest : Chunkqueue) (written : Bytes) : Memory × Chunkqueue :=
  match dest.lastChunk with
  | some c =>
    ({ m with files := Function.update m.files c.name (m.files c.name ++ written) },
      { (dest.modifyLast fun c => { c with length := c.length + written.length }) with
        bytesIn := dest.bytesIn + written.length })
  | none => (m, dest)

/-- The loop of `chunkqueue_append_mem_to_tempfile`, with what the calls of `write` return;
a call that is interrupted is one that writes nothing. -/
def appendMemToTempfileLoop (m : Memory) (dest : Chunkqueue) (mem : Bytes) :
    List Nat → Memory × Chunkqueue
  | [] =>
    let (m, dest) := dest.tempfileForWrite m
    let (m, dest) := dest.writeTempfile m mem
    ({ m with writes := [] }, dest)
  | written :: writes =>
    let (m, dest) := dest.tempfileForWrite m
    if written ≥ mem.length then
      let (m, dest) := dest.writeTempfile m mem
      ({ m with writes := writes }, dest)
    else
      let (m, dest) := dest.writeTempfile m (mem.take written)
      appendMemToTempfileLoop m dest (mem.drop written) writes

def appendMemToTempfile (m : Memory) (dest : Chunkqueue) (mem : Bytes) : Memory × Chunkqueue :=
  appendMemToTempfileLoop m dest mem m.writes

def stealWithTempfilesLoop (m : Memory) (dest src : Chunkqueue) (len : Nat) :
    List Chunk → Memory × Chunkqueue × Chunkqueue
  | [] => (m, dest, src)
  | c :: rest =>
    if len = 0 then (m, dest, src)
    else
      let clen := chunkRemainingLength c
      if clen = 0 then stealWithTempfilesLoop m dest ((src.unlinkFirst c rest).pushUnusedChunk c) len rest
      else
        match c.type with
        | .fileChunk =>
          if len ≥ clen then
            stealWithTempfilesLoop m (dest.appendChunk c)
              { src.unlinkFirst c rest with bytesOut := src.bytesOut + clen } (len - clen) rest
          else
            let (m, dest) := dest.appendFile m c.name (c.start + c.offset) len
            (m, dest, { src with
              chunks := { c with offset := c.offset + len } :: rest
              bytesOut := src.bytesOut + len })
        | .memChunk =>
          if len ≥ clen then
            let (m, dest) := dest.appendMemToTempfile m (memBytes c)
            let src := (src.unlinkFirst c rest).pushUnusedChunk c
            stealWithTempfilesLoop m dest { src with bytesOut := src.bytesOut + clen } (len - clen) rest
          else
            let (m, dest) := dest.appendMemToTempfile m ((memBytes c).take len)
            (m, dest, { src with
              chunks := { c with offset := c.offset + len } :: rest
              bytesOut := src.bytesOut + len })

def stealWithTempfiles (m : Memory) (dest src : Chunkqueue) (len : Nat) : Memory × Chunkqueue × Chunkqueue :=
  stealWithTempfilesLoop m dest src len src.chunks

def length (cq : Chunkqueue) : Nat := (cq.chunks.map chunkRemainingLength).sum

/-- The loop of `chunkqueue_mark_written` with the bytes that are left. -/
def markWrittenLoop (cq : Chunkqueue) (written : Nat) : List Chunk → Chunkqueue × Nat
  | [] => (cq, written)
  | c :: rest =>
    let clen := chunkRemainingLength c
    if written = 0 ∧ clen ≠ 0 then (cq, written)
    else if written ≥ clen then
      markWrittenLoop ((cq.unlinkFirst c rest).pushUnusedChunk c) (written - clen) rest
    else ({ cq with chunks := { c with offset := c.offset + written } :: rest }, 0)

def markWritten (cq : Chunkqueue) (len : Nat) : Option Chunkqueue :=
  let (cq, written) := markWrittenLoop cq len cq.chunks
  if written = 0 then some { cq with bytesOut := cq.bytesOut + len } else none

def removeFinishedLoop (cq : Chunkqueue) : List Chunk → Chunkqueue
  | [] => cq
  | c :: rest =>
    if chunkRemainingLength c ≠ 0 then cq
    else removeFinishedLoop ((cq.unlinkFirst c rest).pushUnusedChunk c) rest

def removeFinishedChunks (cq : Chunkqueue) : Chunkqueue := removeFinishedLoop cq cq.chunks

end Chunkqueue

end ServerCore.LighttpdChunk
