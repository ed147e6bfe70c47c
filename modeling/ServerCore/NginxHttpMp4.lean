import Mathlib.Algebra.GroupWithZero.Nat
import Mathlib.Data.List.Basic

/-!
# Seeking in mp4 files

The updates of `ngx_http_mp4_module.c` that crop the sample tables of a track to a
start and a length: `stts`, `stss`, `ctts`, `stsc`, `stsz` and `stco` or `co64`, in
the order in which `ngx_http_mp4_process` calls them. The part of a table between
`data->pos` and `data->last` is a list; the loops over a table keep the entries they
have passed, so that a table that is cut at its end can be put together again.

Values of tables are read from and written to 32 bits (64 for `co64`); where the code
computes in 32 bits what may not fit, the model does too. The sizes of the atoms and
the logging are left out.
-/

namespace ServerCore.NginxHttpMp4

structure SttsEntry where
  count : Nat
  duration : Nat
  deriving DecidableEq

structure CttsEntry where
  count : Nat
  offset : Nat
  deriving DecidableEq

structure StscEntry where
  chunk : Nat
  samples : Nat
  id : Nat
  deriving DecidableEq

/-- A track with the data of its atoms; `none` is a null buffer. `stssAtom` is whether
the header of `stss` is written; the last two fields are the numbers of entries that are
written to the headers of `stsz` and of `stco` or `co64`. -/
structure Trak where
  timescale : Nat
  timeToSampleEntries : Nat
  sampleToChunkEntries : Nat
  syncSamplesEntries : Nat
  compositionOffsetEntries : Nat
  sampleSizesEntries : Nat
  chunks : Nat
  startSample : Nat
  endSample : Nat
  startChunk : Nat
  endChunk : Nat
  startChunkSamples : Nat
  endChunkSamples : Nat
  startChunkSamplesSize : Nat
  endChunkSamplesSize : Nat
  startOffset : Nat
  endOffset : Nat
  stts : Option (List SttsEntry)
  stssAtom : Bool
  stss : Option (List Nat)
  ctts : Option (List CttsEntry)
  stsc : Option (List StscEntry)
  stscStart : Option StscEntry
  stscEnd : Option StscEntry
  stsz : Option (List Nat)
  stco : Option (List Nat)
  co64 : Option (List Nat)
  stszAtomEntries : Nat
  stcoAtomEntries : Nat
  deriving DecidableEq

/-- The file; `start` and `length` are in milliseconds. -/
structure Mp4File where
  start : Nat
  length : Nat
  fileEnd : Nat
  mdatFileLast : Nat

def word32 (n : Nat) : Nat := n % 2 ^ 32

/-- Subtraction of `uint32_t`. -/
def sub32 (a b : Nat) : Nat := word32 (a + (2 ^ 32 - word32 b))

structure SttsScan where
  startTime : Nat
  startSample : Nat
  entries : Nat
  passed : List SttsEntry

/-- The product that is subtracted has 32 bits. -/
def SttsScan.turn (scan : SttsScan) (entry : SttsEntry) : SttsScan where
  startTime := scan.startTime - word32 (entry.count * entry.duration)
  startSample := scan.startSample + entry.count
  entries := scan.entries - 1
  passed := scan.passed ++ [entry]

/-- The loop of `ngx_http_mp4_crop_stts_data`, up to the entry that is found or to the end. -/
def sttsLoop (scan : SttsScan) : List SttsEntry → SttsScan × List SttsEntry
  | [] => (scan, [])
  | entry :: rest =>
    if scan.startTime < entry.count * entry.duration then (scan, entry :: rest)
    else sttsLoop (scan.turn entry) rest

/-- The first crop. `none` is `NGX_ERROR`. -/
def cropSttsStart (mp4 : Mp4File) (trak : Trak) (data : List SttsEntry) : Option Trak :=
  let startTime := mp4.start * trak.timescale % 2 ^ 64 / 1000
  match sttsLoop ⟨startTime, 0, trak.timeToSampleEntries, []⟩ data with
  | (_, []) => none
  | (scan, entry :: behind) =>
    let rest := word32 (scan.startTime / entry.duration)
    some { trak with
      stts := some ({ entry with count := entry.count - rest } :: behind)
      timeToSampleEntries := scan.entries
      startSample := scan.startSample + scan.startTime / entry.duration }

def cropSttsEnd (mp4 : Mp4File) (trak : Trak) (data : List SttsEntry) : Trak :=
  if mp4.length = 0 then trak
  else
    let startTime := mp4.length * trak.timescale % 2 ^ 64 / 1000
    match sttsLoop ⟨startTime, 0, trak.timeToSampleEntries, []⟩ data with
    | (scan, []) => { trak with endSample := trak.startSample + scan.startSample }
    | (scan, entry :: _) =>
      let rest := word32 (scan.startTime / entry.duration)
      { trak with
        stts := some (scan.passed ++ [{ entry with count := rest }])
        timeToSampleEntries := trak.timeToSampleEntries - (scan.entries - 1)
        endSample := trak.startSample + (scan.startSample + scan.startTime / entry.duration) }

def updateSttsAtom (mp4 : Mp4File) (trak : Trak) : Option Trak := do
  let data ← trak.stts
  let trak ← cropSttsStart mp4 trak data
  let data ← trak.stts
  return cropSttsEnd mp4 trak data

def stssLoop (startSample entries : Nat) (passed : List Nat) : List Nat → Nat × List Nat × List Nat
  | [] => (entries, passed, [])
  | sample :: rest =>
    if sample ≥ startSample then (entries, passed, sample :: rest)
    else stssLoop startSample (entries - 1) (passed ++ [sample]) rest

def cropStssStart (trak : Trak) (data : List Nat) : Trak :=
  let (entries, _, found) := stssLoop (word32 (trak.startSample + 1)) trak.syncSamplesEntries [] data
  { trak with stss := some found, syncSamplesEntries := entries }

def cropStssEnd (mp4 : Mp4File) (trak : Trak) (data : List Nat) : Trak :=
  if mp4.length = 0 then trak
  else
    let (entries, passed, _) := stssLoop (word32 (trak.endSample + 1)) trak.syncSamplesEntries [] data
    { trak with stss := some passed, syncSamplesEntries := trak.syncSamplesEntries - entries }

def updateStssAtom (mp4 : Mp4File) (trak : Trak) : Option Trak :=
  match trak.stss with
  | none => some trak
  | some data => do
    let trak := cropStssStart trak data
    let data ← trak.stss
    let trak := cropStssEnd mp4 trak data
    let data ← trak.stss
    if trak.syncSamplesEntries ≠ 0 then
      return { trak with stss := some (data.map fun sample => sub32 sample trak.startSample) }
    else return { trak with stss := none }

structure CttsScan where
  startSample : Nat
  entries : Nat
  passed : List CttsEntry

def CttsScan.turn (scan : CttsScan) (entry : CttsEntry) : CttsScan where
  startSample := scan.startSample - entry.count
  entries := scan.entries - 1
  passed := scan.passed ++ [entry]

def cttsLoop (scan : CttsScan) : List CttsEntry → CttsScan × List CttsEntry
  | [] => (scan, [])
  | entry :: rest =>
    if scan.startSample ≤ entry.count then (scan, entry :: rest)
    else cttsLoop (scan.turn entry) rest

def cropCttsStart (trak : Trak) (data : List CttsEntry) : Trak :=
  match cttsLoop ⟨word32 (trak.startSample + 1), trak.compositionOffsetEntries, []⟩ data with
  | (_, []) => { trak with ctts := some [], compositionOffsetEntries := 0 }
  | (scan, entry :: behind) =>
    { trak with
      ctts := some ({ entry with count := sub32 entry.count (sub32 scan.startSample 1) } :: behind)
      compositionOffsetEntries := scan.entries }

def cropCttsEnd (mp4 : Mp4File) (trak : Trak) (data : List CttsEntry) : Trak :=
  if mp4.length = 0 then trak
  else
    match cttsLoop ⟨word32 (trak.endSample - trak.startSample + 1),
      trak.compositionOffsetEntries, []⟩ data with
    | (_, []) => trak
    | (scan, entry :: _) =>
      { trak with
        ctts := some (scan.passed ++ [{ entry with count := sub32 scan.startSample 1 }])
        compositionOffsetEntries := trak.compositionOffsetEntries - (scan.entries - 1) }

def updateCttsAtom (mp4 : Mp4File) (trak : Trak) : Trak :=
  match trak.ctts with
  | none => trak
  | some data =>
    let trak := cropCttsStart trak data
    match trak.ctts with
    | none => trak
    | some data =>
      let trak := cropCttsEnd mp4 trak data
      if trak.compositionOffsetEntries = 0 then { trak with ctts := none } else trak

/-- The variables of `ngx_http_mp4_crop_stsc_data`; `entry` is the one that `chunk`,
`samples` and `id` were read from. -/
structure StscScan where
  startSample : Nat
  chunk : Nat
  samples : Nat
  id : Nat
  prevSamples : Nat
  entries : Nat
  passed : List StscEntry
  entry : StscEntry

def StscScan.turn (scan : StscScan) (next : StscEntry) (n : Nat) : StscScan where
  startSample := scan.startSample - n
  chunk := next.chunk
  samples := next.samples
  id := next.id
  prevSamples := scan.samples
  entries := scan.entries - 1
  passed := scan.passed ++ [scan.entry]
  entry := next

/-- The loop, with the number of the next run's chunk where it stops. -/
def stscLoop (scan : StscScan) : List StscEntry → StscScan × Option Nat × List StscEntry
  | [] => (scan, none, [])
  | next :: rest =>
    let n := word32 (sub32 next.chunk scan.chunk * scan.samples)
    if scan.startSample < n then (scan, some next.chunk, next :: rest)
    else stscLoop (scan.turn next n) rest

/-- `next_chunk` after the loop; the last run goes up to the last chunk. -/
def stscNext (chunks : Nat) (scan : StscScan) : Option Nat → Option Nat
  | some nextChunk => some nextChunk
  | none =>
    let n := word32 (sub32 (chunks + 1) scan.chunk * scan.samples)
    if scan.startSample > n then none else some (chunks + 1)

/-- What both crops do before they differ: the scan, `next_chunk` and the entries behind. -/
def stscFind (chunks startSample entries : Nat) :
    List StscEntry → Option (StscScan × Nat × List StscEntry)
  | [] => none
  | entry :: rest => do
    let (scan, found, behind) := stscLoop
      ⟨startSample, entry.chunk, entry.samples, entry.id, 0, entries, [], entry⟩ rest
    let nextChunk ← stscNext chunks scan found
    if scan.samples = 0 then none
    else return ({ scan with entries := scan.entries + 1 }, nextChunk, behind)

def targetChunk (scan : StscScan) : Nat := sub32 scan.chunk 1 + scan.startSample / scan.samples

def chunkSamples (scan : StscScan) : Nat := scan.startSample % scan.samples

def cropStscStart (trak : Trak) (data : List StscEntry) : Option Trak := do
  let (scan, nextChunk, behind) ←
    stscFind trak.chunks (word32 trak.startSample) (trak.sampleToChunkEntries - 1) data
  let target := targetChunk scan
  let trak := { trak with
    sampleToChunkEntries := scan.entries
    startChunk := target
    startChunkSamples := chunkSamples scan }
  let samples := scan.samples - chunkSamples scan
  if chunkSamples scan ≠ 0 ∧ nextChunk - target = 2 then
    return { trak with stsc := some ({ scan.entry with chunk := target + 1, samples := samples } :: behind) }
  else if chunkSamples scan ≠ 0 then
    return { trak with
      stscStart := some ⟨1, samples, scan.id⟩
      stsc := some ({ scan.entry with chunk := target + 2 } :: behind)
      sampleToChunkEntries := trak.sampleToChunkEntries + 1 }
  else return { trak with stsc := some ({ scan.entry with chunk := target + 1 } :: behind) }

/-- The entry for a first chunk that was cut takes its share of the samples. -/
def cropStartEntry (startSample : Nat) : Option StscEntry → Option StscEntry × Nat
  | none => (none, startSample)
  | some first =>
    let samples := if first.samples > startSample then startSample else first.samples
    (some { first with samples := samples }, startSample - samples)

def cropStscEnd (mp4 : Mp4File) (trak : Trak) (data : List StscEntry) : Option Trak :=
  if mp4.length = 0 then some trak
  else do
    let (first, startSample) := cropStartEntry (word32 (trak.endSample - trak.startSample)) trak.stscStart
    let entries := trak.sampleToChunkEntries - 1 - (if first.isSome then 1 else 0)
    let (scan, _, _) ← stscFind trak.chunks startSample entries data
    let target := targetChunk scan
    let cut := chunkSamples scan
    let trak := { trak with
      stscStart := first
      stsc := some (if scan.startSample ≠ 0 then scan.passed ++ [scan.entry] else scan.passed)
      sampleToChunkEntries := trak.sampleToChunkEntries -
        (if scan.startSample ≠ 0 then scan.entries - 1 else scan.entries)
      endChunk := if cut ≠ 0 then target + 1 else target
      endChunkSamples :=
        if cut ≠ 0 then cut else if scan.startSample ≠ 0 then scan.samples else scan.prevSamples }
    if cut ≠ 0 ∧ scan.chunk + 1 - target = 2 then
      return { trak with stsc := some (scan.passed ++ [{ scan.entry with samples := cut }]) }
    else if cut ≠ 0 then
      return { trak with
        stscEnd := some ⟨trak.endChunk - trak.startChunk, cut, scan.id⟩
        sampleToChunkEntries := trak.sampleToChunkEntries + 1 }
    else return trak

def updateStscAtom (mp4 : Mp4File) (trak : Trak) : Option Trak := do
  let data ← trak.stsc
  if trak.sampleToChunkEntries = 0 then none
  else
    let trak ← cropStscStart trak data
    let data ← trak.stsc
    let trak ← cropStscEnd mp4 trak data
    let data ← trak.stsc
    return { trak with
      stsc := some (data.map fun entry => { entry with chunk := sub32 entry.chunk trak.startChunk }) }

/-- The sizes of the last `n` of these samples. -/
def lastSizes (n : Nat) (sizes : List Nat) : Nat := (sizes.drop (sizes.length - n)).sum

def updateStszAtom (mp4 : Mp4File) (trak : Trak) : Option Trak :=
  match trak.stsz with
  | none => some trak
  | some data =>
    let entries := trak.sampleSizesEntries
    if trak.startSample > entries then none
    else
      let entries := entries - trak.startSample
      let trak := { trak with
        startChunkSamplesSize := trak.startChunkSamplesSize +
          lastSizes trak.startChunkSamples (data.take trak.startSample) }
      if mp4.length = 0 then
        some { trak with stsz := some (data.drop trak.startSample), stszAtomEntries := entries }
      else if trak.endSample - trak.startSample > entries then none
      else
        let entries := trak.endSample - trak.startSample
        some { trak with
          stsz := some ((data.drop trak.startSample).take entries)
          stszAtomEntries := entries
          endChunkSamplesSize := trak.endChunkSamplesSize +
            lastSizes trak.endChunkSamples (data.take (trak.startSample + entries)) }

/-- What `ngx_http_mp4_update_stco_atom` and `ngx_http_mp4_update_co64_atom` share; `limit`
bounds the offsets that can be written. The result is the track and the new table. -/
def updateChunkOffsets (limit : Nat) (mp4 : Mp4File) (trak : Trak) (data : List Nat) :
    Option (Trak × List Nat) :=
  if trak.startChunk > trak.chunks then none
  else
    match data.drop trak.startChunk with
    | [] => none
    | first :: rest =>
      let startOffset := first + trak.startChunkSamplesSize
      let table := startOffset % limit :: rest
      if mp4.length ≠ 0 ∧ trak.endChunk > trak.chunks then none
      else
        let entries :=
          if mp4.length ≠ 0 then trak.endChunk - trak.startChunk else trak.chunks - trak.startChunk
        let table := if mp4.length ≠ 0 then table.take entries else table
        let endOffset :=
          if mp4.length ≠ 0 then
            match table.getLast? with
            | some last => last + trak.endChunkSamplesSize
            | none => trak.endOffset
          else mp4.mdatFileLast
        some ({ trak with
          startOffset := if entries = 0 then mp4.fileEnd else startOffset
          endOffset := if entries = 0 then 0 else endOffset
          stcoAtomEntries := entries }, table)

def updateStcoAtom (mp4 : Mp4File) (trak : Trak) : Option Trak := do
  let data ← trak.stco
  let (trak, table) ← updateChunkOffsets (2 ^ 32) mp4 trak data
  return { trak with stco := some table }

def updateCo64Atom (mp4 : Mp4File) (trak : Trak) : Option Trak := do
  let data ← trak.co64
  let (trak, table) ← updateChunkOffsets (2 ^ 64) mp4 trak data
  return { trak with co64 := some table }

/-- The updates of one track in `ngx_http_mp4_process`. -/
def updateTrak (mp4 : Mp4File) (trak : Trak) : Option Trak := do
  let trak ← updateSttsAtom mp4 trak
  let trak ← updateStssAtom mp4 trak
  let trak := updateCttsAtom mp4 trak
  let trak ← updateStscAtom mp4 trak
  let trak ← updateStszAtom mp4 trak
  if trak.co64.isSome then updateCo64Atom mp4 trak else updateStcoAtom mp4 trak

def writtenStsc (trak : Trak) : List StscEntry :=
  trak.stscStart.toList ++ trak.stsc.getD [] ++ trak.stscEnd.toList

end ServerCore.NginxHttpMp4
