import ServerCore.NginxHttpMp4Chunks

/-!
# What a seek keeps of a track

A sample of a track is what its tables say of it: its duration, its composition
offset, whether it is a sync sample, its size, its description and where it is
in the file.
-/

namespace ServerCore.NginxHttpMp4Seek

open RunTables NginxHttpMp4 NginxHttpMp4Times NginxHttpMp4Chunks List Option

variable {n skipped whole : Nat} {front part : List (Nat × Nat)} {α : Type} {data : List α}

section Sizes

variable {mp4 : Mp4File} {trak after : Trak} {sizes offsets : List Nat}

theorem last_sizes_take (inside : n ≤ sizes.length) (fewer : skipped ≤ n) :
    lastSizes skipped (sizes.take n) = ((sizes.drop (n - skipped)).take skipped).sum := by
  have isSkipped : n - (n - skipped) = skipped := by omega
  rw [lastSizes, length_take, Nat.min_eq_left inside, drop_take, isSkipped]

theorem update_stsz_spec (present : trak.stsz = some sizes)
    (counted : trak.sampleSizesEntries = sizes.length) {kept : Nat}
    (window : Window mp4 sizes.length trak.startSample kept)
    (isKept : mp4.length ≠ 0 → trak.endSample - trak.startSample = kept)
    (fewer : trak.startChunkSamples ≤ trak.startSample) (updated : updateStszAtom mp4 trak = some after)
    : ∃ endChunkSamplesSize, after = { trak with
      stsz := some ((sizes.drop trak.startSample).take kept)
      stszAtomEntries := kept
      startChunkSamplesSize := trak.startChunkSamplesSize +
        ((sizes.drop (trak.startSample - trak.startChunkSamples)).take trak.startChunkSamples).sum
      endChunkSamplesSize := endChunkSamplesSize } := by
  have start := window.start
  have within := window.within
  unfold updateStszAtom at updated
  rw [present] at updated
  dsimp only at updated
  rw [if_neg (by omega : ¬ trak.startSample > trak.sampleSizesEntries),
    last_sizes_take (Nat.le_of_lt start) fewer] at updated
  by_cases isWhole : mp4.length = 0
  · have keepsAll := window.whole isWhole
    have entries : trak.sampleSizesEntries - trak.startSample = kept := by omega
    have allTaken : (sizes.drop trak.startSample).take kept = sizes.drop trak.startSample := by
      apply take_of_length_le
      rw [length_drop]
      omega
    rw [if_pos isWhole, entries] at updated
    refine ⟨trak.endChunkSamplesSize, ?_⟩
    rw [allTaken]
    exact (Option.some.inj updated).symm
  · rw [if_neg isWhole, isKept isWhole,
      if_neg (by omega : ¬ kept > trak.sampleSizesEntries - trak.startSample)] at updated
    exact ⟨_, (Option.some.inj updated).symm⟩

theorem update_chunk_offsets_spec {limit first : Nat} {behind table : List Nat}
    (counted : trak.chunks = offsets.length) (startBefore : trak.startChunk < trak.chunks)
    (endBefore : lastChunk mp4 trak ≤ trak.chunks)
    (isDropped : offsets.drop trak.startChunk = first :: behind)
    (small : first + trak.startChunkSamplesSize < limit)
    (updated : updateChunkOffsets limit mp4 trak offsets = some (after, table)) :
    (∃ startOffset endOffset, after = { trak with
        startOffset := startOffset
        endOffset := endOffset
        stcoAtomEntries := lastChunk mp4 trak - trak.startChunk }) ∧
      table = ((first + trak.startChunkSamplesSize) :: behind).take
        (lastChunk mp4 trak - trak.startChunk) := by
  unfold updateChunkOffsets at updated
  rw [if_neg (by omega : ¬ trak.startChunk > trak.chunks), isDropped] at updated
  dsimp only at updated
  rw [Nat.mod_eq_of_lt small] at updated
  by_cases isWhole : mp4.length = 0
  · have isLast : lastChunk mp4 trak = trak.chunks := if_pos isWhole
    have length : (first :: behind).length = trak.chunks - trak.startChunk := by
      rw [← isDropped, length_drop, counted]
    have notCut : ¬ (mp4.length ≠ 0) := fun cut => cut isWhole
    rw [if_neg (fun both => notCut both.1)] at updated
    simp only [if_neg notCut] at updated
    obtain ⟨isAfter, isTable⟩ := Prod.mk.inj (Option.some.inj updated)
    rw [isLast]
    refine ⟨⟨_, _, isAfter.symm⟩, ?_⟩
    rw [← isTable, take_of_length_le]
    exact Nat.le_of_eq length
  · have isLast : lastChunk mp4 trak = trak.endChunk := if_neg isWhole
    rw [isLast] at endBefore ⊢
    rw [if_neg (by omega)] at updated
    simp only [if_pos isWhole] at updated
    obtain ⟨isAfter, isTable⟩ := Prod.mk.inj (Option.some.inj updated)
    exact ⟨⟨_, _, isAfter.symm⟩, isTable.symm⟩

end Sizes

section Samples

/-- The chunk offsets; `co64` is taken where there is one. -/
def chunkOffsets (trak : Trak) : List Nat :=
  match trak.co64 with
  | some table => table
  | none => trak.stco.getD []

def chunks (trak : Trak) : List (Nat × Nat) :=
  chunkTable ((chunkOffsets trak).length + 1) (writtenStsc trak)

/-- Where every sample is in the file: the offset of its chunk and the sizes of the
samples before it in the chunk. -/
def sampleOffsets (trak : Trak) : List Nat :=
  groupPlaces ((chunks trak).map Prod.fst) (chunkOffsets trak) (trak.stsz.getD [])

structure Sample where
  duration : Option Nat
  compositionOffset : Option Nat
  sync : Bool
  size : Option Nat
  description : Option Nat
  fileOffset : Option Nat

/-- The sample with this number, from 0 on; without `stss` all samples are sync samples. -/
def sampleAt (trak : Trak) (i : Nat) : Sample where
  duration := (durations (trak.stts.getD []))[i]?
  compositionOffset := trak.ctts.bind fun table => (compositionOffsets table)[i]?
  sync := !trak.stssAtom || (trak.stss.getD []).contains (i + 1)
  size := (trak.stsz.getD [])[i]?
  description := (expand (chunks trak))[i]?
  fileOffset := (sampleOffsets trak)[i]?

/-- The tables of the track all describe `n` samples, and the numbers of entries are the
lengths of the tables. -/
structure Describes (trak : Trak) (n : Nat) : Prop where
  durations : (durations (trak.stts.getD [])).length = n
  compositionOffsets : ∀ table, trak.ctts = some table → (compositionOffsets table).length = n
  sizes : (trak.stsz.getD []).length = n
  chunks : total (chunks trak) = n
  fileOffsets : (sampleOffsets trak).length = n

/-- Tables of chunks and sizes that fit together, with numbers that fit their widths. -/
structure ConsistentChunks (trak : Trak) (stsc : List StscEntry) (sizes offsets : List Nat) : Prop where
  isStsc : trak.stsc = some stsc
  isStsz : trak.stsz = some sizes
  isOffsets : trak.co64 = some offsets ∨ trak.co64 = none ∧ trak.stco = some offsets
  stscCounted : trak.sampleToChunkEntries = stsc.length
  stszCounted : trak.sampleSizesEntries = sizes.length
  chunksCounted : trak.chunks = offsets.length
  stscTotal : total (chunkTable (offsets.length + 1) stsc) = sizes.length
  stscFirst : firstChunk (offsets.length + 1) stsc = 1
  stscAscending : Ascending (offsets.length + 1) (stsc.map stscStep)
  stscSamples : ∀ entry ∈ stsc, 0 < entry.samples
  fresh : trak.stscStart = none ∧ trak.stscEnd = none ∧ trak.startChunkSamplesSize = 0
  samplesFit : sizes.length + 1 < 2 ^ 32
  chunksFit : offsets.length + 1 < 2 ^ 32
  offsetsFit : ∀ place ∈ groupPlaces ((chunkTable (offsets.length + 1) stsc).map Prod.fst) offsets sizes,
    place < if trak.co64.isSome then 2 ^ 64 else 2 ^ 32

structure Consistent (trak : Trak) (stts : List SttsEntry) (stsc : List StscEntry)
    (sizes offsets : List Nat) : Prop extends ConsistentChunks trak stsc sizes offsets where
  isStts : trak.stts = some stts
  sttsCounted : trak.timeToSampleEntries = stts.length
  sttsTotal : (durations stts).length = sizes.length
  isStss : trak.stssAtom = trak.stss.isSome
  stssInOrder : ∀ data, trak.stss = some data → trak.syncSamplesEntries = data.length ∧
    data.Pairwise (· < ·) ∧ ∀ sample ∈ data, sample < 2 ^ 32
  isCtts : ∀ data, trak.ctts = some data → trak.compositionOffsetEntries = data.length ∧
    (compositionOffsets data).length = sizes.length

variable {mp4 : Mp4File} {trak after : Trak} {stts : List SttsEntry} {stsc : List StscEntry}
  {sizes offsets : List Nat} {startSample kept : Nat}

theorem consistent_in_order (agree : ConsistentChunks trak stsc sizes offsets) :
    InOrder (offsets.length + 1) stsc := by
  have fits := agree.samplesFit
  have isTotal := agree.stscTotal
  exact ⟨agree.stscAscending, agree.stscSamples, agree.chunksFit, by omega⟩

theorem stts_counts_small (agree : Consistent trak stts stsc sizes offsets) :
    ∀ entry ∈ stts, entry.count < 2 ^ 32 := by
  intro entry mem
  obtain ⟨before, behind, isParted⟩ := append_of_mem mem
  have isTotal := agree.sttsTotal
  have fits := agree.samplesFit
  rw [isParted, durations_append, length_append] at isTotal
  have first : (durations (entry :: behind)).length = entry.count + (durations behind).length :=
    expand_cons_length (sttsRun entry) (behind.map sttsRun)
  omega

theorem stss_updated (stssAtom : trak.stssAtom = trak.stss.isSome)
    (inOrder : ∀ data, trak.stss = some data → trak.syncSamplesEntries = data.length ∧
      data.Pairwise (· < ·) ∧ ∀ sample ∈ data, sample < 2 ^ 32)
    (window : Window mp4 sizes.length trak.startSample kept) (small : sizes.length + 1 < 2 ^ 32)
    (isEnd : mp4.length ≠ 0 → trak.endSample = trak.startSample + kept)
    (updated : updateStssAtom mp4 trak = some after) :
    ∃ stss entries, after = { trak with stss := stss, syncSamplesEntries := entries } ∧
      entries = (if trak.stssAtom then (stss.getD []).length else trak.syncSamplesEntries) ∧
      ∀ i < kept, (!trak.stssAtom || (stss.getD []).contains (i + 1)) =
        (!trak.stssAtom || (trak.stss.getD []).contains (trak.startSample + i + 1)) := by
  cases isStss : trak.stss with
  | none =>
    rw [isStss] at stssAtom
    rw [updateStssAtom, isStss] at updated
    refine ⟨none, trak.syncSamplesEntries, ?_, ?_, ?_⟩
    · rw [← isStss]
      exact (Option.some.inj updated).symm
    · rw [stssAtom]
      rfl
    · intro i inside
      rw [stssAtom]
      rfl
  | some data =>
    obtain ⟨counted, ascending, small32⟩ := inOrder data isStss
    rw [isStss] at stssAtom
    obtain ⟨table, isAfter, isTable⟩ :=
      update_stss_spec isStss ascending counted window small isEnd updated
    have sameTable : (if table = [] then none else some table : Option (List Nat)).getD [] = table := by
      by_cases isNil : table = []
      · rw [if_pos isNil, isNil]
        rfl
      · rw [if_neg isNil]
        rfl
    refine ⟨_, _, isAfter, ?_, ?_⟩
    · rw [stssAtom, sameTable]
      rfl
    · intro i inside
      have sameFlag : i + 1 ∈ table ↔ trak.startSample + i + 1 ∈ data := by
        rw [isTable]
        exact kept_sync_spec inside small32
      have sameContains : table.contains (i + 1) = data.contains (trak.startSample + i + 1) := by
        rw [Bool.eq_iff_iff, contains_iff_mem, contains_iff_mem]
        exact sameFlag
      rw [sameTable, sameContains]
      rfl

theorem ctts_updated (isCtts : ∀ data, trak.ctts = some data →
      trak.compositionOffsetEntries = data.length ∧ (compositionOffsets data).length = sizes.length)
    (window : Window mp4 sizes.length trak.startSample kept) (small : sizes.length + 1 < 2 ^ 32)
    (isKept : mp4.length ≠ 0 → trak.endSample - trak.startSample = kept) :
    ∃ ctts entries, updateCttsAtom mp4 trak =
        { trak with ctts := ctts, compositionOffsetEntries := entries } ∧
      (∀ table, ctts = some table → entries = table.length) ∧
      (ctts.map compositionOffsets) = trak.ctts.map fun data =>
        ((compositionOffsets data).drop trak.startSample).take kept := by
  cases hasCtts : trak.ctts with
  | none =>
    refine ⟨none, trak.compositionOffsetEntries, ?_, ?_, rfl⟩
    · rw [updateCttsAtom, hasCtts]
      dsimp only
      rw [← hasCtts]
    · intro table isSome
      cases isSome
  | some data =>
    obtain ⟨counted, length⟩ := isCtts data hasCtts
    obtain ⟨table, isAfter, isTable⟩ := update_ctts_spec hasCtts counted
      (by rw [length]; exact window) (by rw [length]; exact small) isKept
    refine ⟨some table, table.length, isAfter, ?_, ?_⟩
    · intro other isSome
      cases isSome
      rfl
    · rw [map_some, map_some, isTable]

theorem chunk_offsets_updated {first : Nat} {behind : List Nat} (isOffsets : trak.co64 = some offsets ∨
      trak.co64 = none ∧ trak.stco = some offsets) (counted : trak.chunks = offsets.length)
    (startBefore : trak.startChunk < trak.chunks) (endBefore : lastChunk mp4 trak ≤ trak.chunks)
    (isDropped : offsets.drop trak.startChunk = first :: behind)
    (small : first + trak.startChunkSamplesSize < if trak.co64.isSome then 2 ^ 64 else 2 ^ 32)
    (updated : (if trak.co64.isSome then updateCo64Atom mp4 trak else updateStcoAtom mp4 trak) =
      some after) : ∃ stco co64 startOffset endOffset, after = { trak with
        stco := stco
        co64 := co64
        startOffset := startOffset
        endOffset := endOffset
        stcoAtomEntries := lastChunk mp4 trak - trak.startChunk } ∧
      chunkOffsets after = ((first + trak.startChunkSamplesSize) :: behind).take
        (lastChunk mp4 trak - trak.startChunk) := by
  rcases isOffsets with isCo64 | ⟨noCo64, isStco⟩
  · rw [isCo64] at small updated
    simp only [isSome_some, if_true] at small updated
    obtain ⟨given, isGiven, rest⟩ := bind_eq_some_iff.1 updated
    rw [isCo64] at isGiven
    cases isGiven
    obtain ⟨⟨middle, table⟩, isUpdated, rest⟩ := bind_eq_some_iff.1 rest
    obtain ⟨⟨startOffset, endOffset, rfl⟩, isTable⟩ :=
      update_chunk_offsets_spec counted startBefore endBefore isDropped small isUpdated
    refine ⟨trak.stco, some table, startOffset, endOffset, (Option.some.inj rest).symm, ?_⟩
    rw [← Option.some.inj rest]
    exact isTable
  · rw [noCo64] at small updated
    simp only [isSome_none, Bool.false_eq_true, if_false] at small updated
    obtain ⟨given, isGiven, rest⟩ := bind_eq_some_iff.1 updated
    rw [isStco] at isGiven
    cases isGiven
    obtain ⟨⟨middle, table⟩, isUpdated, rest⟩ := bind_eq_some_iff.1 rest
    obtain ⟨⟨startOffset, endOffset, rfl⟩, isTable⟩ :=
      update_chunk_offsets_spec counted startBefore endBefore isDropped small isUpdated
    refine ⟨some table, trak.co64, startOffset, endOffset, (Option.some.inj rest).symm, ?_⟩
    rw [← Option.some.inj rest, chunkOffsets]
    rw [noCo64]
    exact isTable

theorem chunks_kept (agree : ConsistentChunks trak stsc sizes offsets)
    (isFront : CutFront (chunkTable (offsets.length + 1) stsc) front startSample whole skipped)
    (isBack : CutBack front part kept) (startInside : startSample < sizes.length) :
    ∃ first behind, offsets.drop whole = first :: behind ∧
      first + ((sizes.drop (startSample - skipped)).take skipped).sum <
        (if trak.co64.isSome then 2 ^ 64 else 2 ^ 32) ∧ groupPlaces (part.map Prod.fst)
        (((first + ((sizes.drop (startSample - skipped)).take skipped).sum) :: behind).take part.length)
        ((sizes.drop startSample).take kept) =
        ((groupPlaces ((chunkTable (offsets.length + 1) stsc).map Prod.fst) offsets sizes).drop
          startSample).take kept := by
  have inOrder := consistent_in_order agree
  have isTotal := agree.stscTotal
  have isLength : (chunkTable (offsets.length + 1) stsc).length = offsets.length := by
    have length : (chunkTable (offsets.length + 1) stsc).length =
        offsets.length + 1 - firstChunk (offsets.length + 1) stsc := layout_length inOrder.ascending
    rw [length, agree.stscFirst, Nat.add_sub_cancel]
  have frontTotal := cut_front_total isFront
  have frontLength := cut_front_length isFront
  obtain ⟨first, behind, isDropped, frontPlaces⟩ :=
    group_places_cut_front isFront isLength (Nat.le_of_eq isTotal)
  refine ⟨first, behind, isDropped, ?_, ?_⟩
  · apply agree.offsetsFit
    have isPlace : first + ((sizes.drop (startSample - skipped)).take skipped).sum ∈
        groupPlaces (front.map Prod.fst)
          ((first + ((sizes.drop (startSample - skipped)).take skipped).sum) :: behind)
          (sizes.drop startSample) := cut_front_place isFront startInside
    rw [frontPlaces] at isPlace
    exact mem_of_mem_drop isPlace
  · have droppedLength : (first :: behind).length = offsets.length - whole := by
      rw [← isDropped, length_drop]
    rw [← frontPlaces]
    apply group_places_cut_back isBack
    · rw [length_cons] at droppedLength ⊢
      omega
    · rw [length_drop]
      omega

/-- The numbers of entries in the headers are the lengths of the tables. -/
structure Counted (trak : Trak) : Prop where
  stts : trak.timeToSampleEntries = (trak.stts.getD []).length
  stss : trak.stssAtom → trak.syncSamplesEntries = (trak.stss.getD []).length
  ctts : ∀ table, trak.ctts = some table → trak.compositionOffsetEntries = table.length
  stsc : trak.sampleToChunkEntries = (writtenStsc trak).length
  stsz : trak.stszAtomEntries = (trak.stsz.getD []).length
  stco : trak.stcoAtomEntries = (chunkOffsets trak).length

theorem window_get {i : Nat} (inside : i < kept) :
    ((data.drop startSample).take kept)[i]? = data[startSample + i]? := by
  rw [getElem?_take_of_lt inside, getElem?_drop]

theorem window_length (window : Window mp4 n startSample kept)
    (isLength : data.length = n) : ((data.drop startSample).take kept).length = kept := by
  have within := window.within
  rw [length_take, length_drop]
  omega

theorem chunk_offsets_eq (agree : ConsistentChunks trak stsc sizes offsets) :
    chunkOffsets trak = offsets := by
  rcases agree.isOffsets with isCo64 | ⟨noCo64, isStco⟩
  · rw [chunkOffsets, isCo64]
  · rw [chunkOffsets, noCo64, isStco]
    rfl

theorem chunks_eq (agree : ConsistentChunks trak stsc sizes offsets) :
    chunks trak = chunkTable (offsets.length + 1) stsc := by
  rw [chunks, chunk_offsets_eq agree, writtenStsc, agree.fresh.1, agree.fresh.2.1, agree.isStsc]
  dsimp only [toList_none, getD_some]
  rw [nil_append, append_nil]

/-- The updates of `stts`, `stss` and `ctts`. -/
def updateTimes (mp4 : Mp4File) (trak : Trak) : Option Trak := do
  let trak ← updateSttsAtom mp4 trak
  let trak ← updateStssAtom mp4 trak
  return updateCttsAtom mp4 trak

/-- The updates of `stsc`, `stsz` and `stco` or `co64`. -/
def updateChunks (mp4 : Mp4File) (trak : Trak) : Option Trak := do
  let trak ← updateStscAtom mp4 trak
  let trak ← updateStszAtom mp4 trak
  if trak.co64.isSome then updateCo64Atom mp4 trak else updateStcoAtom mp4 trak

theorem update_trak_eq (mp4 : Mp4File) (trak : Trak) :
    updateTrak mp4 trak = (updateTimes mp4 trak).bind (updateChunks mp4) := by
  unfold updateTrak updateTimes updateChunks
  cases updateSttsAtom mp4 trak with
  | none => rfl
  | some middle =>
    dsimp only [bind_eq_bind, bind_some]
    cases updateStssAtom mp4 middle <;> rfl

structure TimesUpdated (mp4 : Mp4File) (trak after : Trak) (startSample kept : Nat) : Prop where
  frame : ∃ stts sttsEntries stss stssEntries ctts cttsEntries endSample, after = { trak with
    stts := stts
    timeToSampleEntries := sttsEntries
    stss := stss
    syncSamplesEntries := stssEntries
    ctts := ctts
    compositionOffsetEntries := cttsEntries
    startSample := startSample
    endSample := endSample }
  isCrop : ∃ cropped, updateSttsAtom mp4 trak = some cropped ∧ startSample = cropped.startSample ∧
    after.endSample = cropped.endSample
  isKept : mp4.length ≠ 0 → after.endSample = startSample + kept
  isStts : durations (after.stts.getD []) = ((durations (trak.stts.getD [])).drop startSample).take kept
  isCtts : (after.ctts.map compositionOffsets) = trak.ctts.map fun data =>
    ((compositionOffsets data).drop startSample).take kept
  isSync : ∀ i < kept, (!after.stssAtom || (after.stss.getD []).contains (i + 1)) =
    (!trak.stssAtom || (trak.stss.getD []).contains (startSample + i + 1))
  sttsCounted : after.timeToSampleEntries = (after.stts.getD []).length
  stssCounted : after.stssAtom → after.syncSamplesEntries = (after.stss.getD []).length
  cttsCounted : ∀ table, after.ctts = some table → after.compositionOffsetEntries = table.length

theorem update_times_spec (agree : Consistent trak stts stsc sizes offsets)
    (updated : updateTimes mp4 trak = some after) :
    ∃ startSample kept, Window mp4 sizes.length startSample kept ∧
      TimesUpdated mp4 trak after startSample kept := by
  have samplesFit := agree.samplesFit
  obtain ⟨afterStts, sttsUpdated, updated⟩ := bind_eq_some_iff.1 updated
  obtain ⟨sttsTable, startSample, kept, rfl, window, isStts⟩ := update_stts_spec agree.isStts
    agree.sttsCounted (stts_counts_small agree) sttsUpdated
  rw [agree.sttsTotal] at window
  have isEnd : mp4.length ≠ 0 →
      (if mp4.length = 0 then trak.endSample else startSample + kept) = startSample + kept :=
    fun isCropped => if_neg isCropped
  have isKept : mp4.length ≠ 0 →
      (if mp4.length = 0 then trak.endSample else startSample + kept) - startSample = kept := by
    intro isCropped
    rw [isEnd isCropped]
    exact Nat.add_sub_cancel_left _ _
  obtain ⟨afterStss, stssUpdated, updated⟩ := bind_eq_some_iff.1 updated
  obtain ⟨stss, syncEntries, rfl, stssCounted, sameSync⟩ := @stss_updated mp4
    { trak with
      stts := some sttsTable
      timeToSampleEntries := sttsTable.length
      startSample := startSample
      endSample := if mp4.length = 0 then trak.endSample else startSample + kept }
    afterStss sizes kept agree.isStss agree.stssInOrder window samplesFit isEnd stssUpdated
  obtain ⟨ctts, cttsEntries, isCtts, cttsCounted, sameOffsets⟩ := @ctts_updated mp4
    { trak with
      stts := some sttsTable
      timeToSampleEntries := sttsTable.length
      startSample := startSample
      endSample := if mp4.length = 0 then trak.endSample else startSample + kept
      stss := stss
      syncSamplesEntries := syncEntries }
    sizes kept agree.isCtts window samplesFit isKept
  rw [isCtts] at updated
  rw [← Option.some.inj updated]
  refine ⟨startSample, kept, window,
    ⟨⟨_, _, _, _, _, _, _, rfl⟩, ⟨_, sttsUpdated, rfl, rfl⟩, isEnd, ?_, sameOffsets, sameSync, rfl, ?_,
    cttsCounted⟩⟩
  · rw [agree.isStts]
    exact isStts
  · intro hasAtom
    rw [stssCounted]
    exact if_pos hasAtom

abbrev SameTimes (trak after : Trak) : Prop :=
  after.stts = trak.stts ∧ after.timeToSampleEntries = trak.timeToSampleEntries ∧
    after.stss = trak.stss ∧ after.stssAtom = trak.stssAtom ∧
    after.syncSamplesEntries = trak.syncSamplesEntries ∧ after.ctts = trak.ctts ∧
    after.compositionOffsetEntries = trak.compositionOffsetEntries ∧
    after.startSample = trak.startSample ∧ after.endSample = trak.endSample

structure ChunksUpdated (mp4 : Mp4File) (trak after : Trak) (kept : Nat) : Prop where
  sameTimes : SameTimes trak after
  isStsz : after.stsz.getD [] = ((trak.stsz.getD []).drop trak.startSample).take kept
  isChunks : expand (chunks after) = ((expand (chunks trak)).drop trak.startSample).take kept
  isPlaces : sampleOffsets after = ((sampleOffsets trak).drop trak.startSample).take kept
  stscCounted : after.sampleToChunkEntries = (writtenStsc after).length
  stszCounted : after.stszAtomEntries = (after.stsz.getD []).length
  stcoCounted : after.stcoAtomEntries = (chunkOffsets after).length

section

variable (agree : ConsistentChunks trak stsc sizes offsets)
    (window : Window mp4 sizes.length trak.startSample kept)
include agree window

theorem chunks_updated_of {first count : Nat}
    {behind : List Nat}
    (isFront : CutFront (chunkTable (offsets.length + 1) stsc) front trak.startSample whole skipped)
    (isBack : CutBack front part kept) (isDropped : offsets.drop whole = first :: behind)
    (samePlaces : groupPlaces (part.map Prod.fst)
        (((first + ((sizes.drop (trak.startSample - skipped)).take skipped).sum) :: behind).take part.length)
        ((sizes.drop trak.startSample).take kept) =
        ((groupPlaces ((chunkTable (offsets.length + 1) stsc).map Prod.fst) offsets sizes).drop
          trak.startSample).take kept) (isStsz : after.stsz = some ((sizes.drop trak.startSample).take kept))
    (isOffsets : chunkOffsets after =
      ((first + ((sizes.drop (trak.startSample - skipped)).take skipped).sum) :: behind).take count)
    (isTable : chunkTable (count + 1) (writtenStsc after) = part) (partLength : part.length = count)
    (countLe : count ≤ offsets.length - whole)
    (stscCounted : after.sampleToChunkEntries = (writtenStsc after).length)
    (stszCounted : after.stszAtomEntries = kept) (stcoCounted : after.stcoAtomEntries = count)
    (sameTimes : SameTimes trak after) :
    ChunksUpdated mp4 trak after kept := by
  have isChunks := chunks_eq agree
  have isOffsetsOf := chunk_offsets_eq agree
  have droppedLength : (first :: behind).length = offsets.length - whole := by
    rw [← isDropped, length_drop]
  rw [length_cons] at droppedLength
  have offsetsLength : (chunkOffsets after).length = count := by
    rw [isOffsets, length_take, length_cons]
    omega
  have isPart : chunks after = part := by rw [chunks, offsetsLength, isTable]
  have keptLength : ((sizes.drop trak.startSample).take kept).length = kept := window_length window rfl
  refine ⟨sameTimes, ?_, ?_, ?_, stscCounted, ?_, ?_⟩
  · rw [isStsz, agree.isStsz]
    rfl
  · rw [isPart, isChunks, expand_cut_back isBack, expand_cut_front isFront]
  · rw [sampleOffsets, isPart, isOffsets, isStsz, sampleOffsets, isChunks, isOffsetsOf,
      agree.isStsz, ← partLength]
    exact samePlaces
  · rw [stszCounted, isStsz, getD_some, keptLength]
  · rw [stcoCounted, offsetsLength]

theorem update_chunks_spec (isKept : mp4.length ≠ 0 → trak.endSample - trak.startSample = kept)
    (updated : updateChunks mp4 trak = some after) : ChunksUpdated mp4 trak after kept := by
  have isStop : trak.chunks + 1 = offsets.length + 1 := by rw [agree.chunksCounted]
  obtain ⟨afterStsc, stscUpdated, updated⟩ := bind_eq_some_iff.1 updated
  obtain ⟨stscEntries, startChunk, endChunk, startChunkSamples, endChunkSamples, stscTable, stscStart,
    stscEnd, rfl, stscSpec⟩ := update_stsc_spec agree.isStsc
      (by rw [isStop]; exact consistent_in_order agree)
      (by rw [isStop]; exact agree.stscFirst) agree.stscCounted agree.fresh.1
      agree.fresh.2.1 (by rw [isStop, agree.stscTotal]; exact window) isKept stscUpdated
  obtain ⟨⟨front, isFront, isBack⟩, partLength, startBefore, endBefore, stscCounted⟩ := stscSpec
  rw [isStop] at isFront
  obtain ⟨afterStsz, stszUpdated, updated⟩ := bind_eq_some_iff.1 updated
  obtain ⟨endChunkSamplesSize, rfl⟩ := @update_stsz_spec mp4
    { trak with
      sampleToChunkEntries := stscEntries
      startChunk := startChunk
      endChunk := endChunk
      startChunkSamples := startChunkSamples
      endChunkSamples := endChunkSamples
      stsc := some stscTable
      stscStart := stscStart
      stscEnd := stscEnd } afterStsz sizes agree.isStsz agree.stszCounted kept window
    isKept (cut_front_skipped isFront) stszUpdated
  obtain ⟨first, behind, isDropped, firstFits, samePlaces⟩ :=
    chunks_kept agree isFront isBack window.start
  obtain ⟨stco, co64, startOffset, endOffset, rfl, isKeptOffsets⟩ := @chunk_offsets_updated mp4
    { trak with
      sampleToChunkEntries := stscEntries
      startChunk := startChunk
      endChunk := endChunk
      startChunkSamples := startChunkSamples
      endChunkSamples := endChunkSamples
      stsc := some stscTable
      stscStart := stscStart
      stscEnd := stscEnd
      stsz := some ((sizes.drop trak.startSample).take kept)
      stszAtomEntries := kept
      startChunkSamplesSize := trak.startChunkSamplesSize +
        ((sizes.drop (trak.startSample - startChunkSamples)).take startChunkSamples).sum
      endChunkSamplesSize := endChunkSamplesSize } after offsets first behind
    agree.isOffsets agree.chunksCounted startBefore endBefore isDropped
    (by dsimp only; rw [agree.fresh.2.2, zero_add]; exact firstFits) updated
  rw [agree.fresh.2.2, zero_add] at isKeptOffsets
  exact chunks_updated_of agree window isFront isBack isDropped samePlaces rfl isKeptOffsets rfl
    partLength (by rw [← agree.chunksCounted]; exact Nat.sub_le_sub_right endBefore _)
    stscCounted rfl rfl ⟨rfl, rfl, rfl, rfl, rfl, rfl, rfl, rfl, rfl⟩

end

/-- A seek keeps the samples from the start to the end as they were, in all tables at
once. The crop of `stts` finds the start and the end. -/
theorem seek_keeps_samples (agree : Consistent trak stts stsc sizes offsets)
    (updated : updateTrak mp4 trak = some after) :
    ∃ kept, kept = (if mp4.length = 0 then sizes.length - after.startSample
        else after.endSample - after.startSample) ∧ after.startSample + kept ≤ sizes.length ∧
      (mp4.length ≠ 0 → after.startSample ≤ after.endSample) ∧
      (∃ cropped, updateSttsAtom mp4 trak = some cropped ∧ after.startSample = cropped.startSample ∧
        after.endSample = cropped.endSample) ∧ Describes after kept ∧ Counted after ∧
      ∀ i < kept, sampleAt after i = sampleAt trak (after.startSample + i) := by
  rw [update_trak_eq] at updated
  obtain ⟨middle, timesUpdated, chunksUpdated⟩ := bind_eq_some_iff.1 updated
  obtain ⟨startSample, kept, window, times⟩ := update_times_spec agree timesUpdated
  have isKept := times.isKept
  have sttsKept := times.isStts
  have cttsKept := times.isCtts
  have syncKept := times.isSync
  have sttsCounted := times.sttsCounted
  have stssCounted := times.stssCounted
  have cttsCounted := times.cttsCounted
  obtain ⟨stts', sttsEntries, stss', stssEntries, ctts', cttsEntries, endSample, isMiddle⟩ := times.frame
  have middleConsistent : ConsistentChunks middle stsc sizes offsets := by
    rw [isMiddle]
    exact ⟨agree.isStsc, agree.isStsz, agree.isOffsets, agree.stscCounted,
      agree.stszCounted, agree.chunksCounted, agree.stscTotal, agree.stscFirst,
      agree.stscAscending, agree.stscSamples, agree.fresh, agree.samplesFit,
      agree.chunksFit, agree.offsetsFit⟩
  have isStart : middle.startSample = startSample := by rw [isMiddle]
  have sameSizes : middle.stsz = trak.stsz := by rw [isMiddle]
  have sameChunks : chunks middle = chunks trak := by rw [isMiddle]; rfl
  have samePlaces : sampleOffsets middle = sampleOffsets trak := by rw [isMiddle]; rfl
  have spec := update_chunks_spec middleConsistent (by rw [isStart]; exact window)
    (fun isCropped => by rw [isKept isCropped, isStart]; exact Nat.add_sub_cancel_left _ _) chunksUpdated
  obtain ⟨sameStts, sameSttsEntries, sameStss, sameAtom, sameStssEntries, sameCtts, sameCttsEntries,
    sameStart, sameEnd⟩ := spec.sameTimes
  have sizesKept := spec.isStsz
  have chunksKept := spec.isChunks
  have placesKept := spec.isPlaces
  rw [sameSizes, isStart, agree.isStsz] at sizesKept
  rw [sameChunks, isStart] at chunksKept
  rw [samePlaces, isStart] at placesKept
  rw [isStart] at sameStart
  have chunkTotal : (expand (chunks trak)).length = sizes.length := by
    rw [expand_length, chunks_eq agree.toConsistentChunks, agree.stscTotal]
  have placeTotal : (sampleOffsets trak).length = sizes.length := by
    have paired : (chunkTable (offsets.length + 1) stsc).length = offsets.length := by
      have length : (chunkTable (offsets.length + 1) stsc).length =
          offsets.length + 1 - firstChunk (offsets.length + 1) stsc :=
        layout_length agree.stscAscending
      rw [length, agree.stscFirst, Nat.add_sub_cancel]
    have isTotal := agree.stscTotal
    rw [sampleOffsets, chunks_eq agree.toConsistentChunks,
      chunk_offsets_eq agree.toConsistentChunks, agree.isStsz]
    exact (group_places_length (by rw [length_map, paired]) (Nat.le_of_eq isTotal)).trans isTotal
  refine ⟨kept, ?_, ?_, ?_, ?_, ⟨?_, ?_, ?_, ?_, ?_⟩, ⟨?_, ?_, ?_, spec.stscCounted, spec.stszCounted,
    spec.stcoCounted⟩, ?_⟩
  · have whole := window.whole
    by_cases isWhole : mp4.length = 0
    · rw [if_pos isWhole, sameStart, ← whole isWhole, Nat.add_sub_cancel_left]
    · rw [if_neg isWhole, sameStart, sameEnd, isKept isWhole, Nat.add_sub_cancel_left]
  · rw [sameStart]
    exact window.within
  · intro isCropped
    rw [sameStart, sameEnd, isKept isCropped]
    exact Nat.le_add_right _ _
  · rw [sameStart, sameEnd]
    exact times.isCrop
  · rw [sameStts, sttsKept, agree.isStts]
    exact window_length window agree.sttsTotal
  · intro table isTable
    rw [← sameCtts, isTable, map_some] at cttsKept
    obtain ⟨data, isData, isKeptTable⟩ := map_eq_some_iff.1 cttsKept.symm
    rw [← isKeptTable]
    exact window_length window (agree.isCtts data isData).2
  · rw [sizesKept]
    exact window_length window rfl
  · rw [← expand_length, chunksKept]
    exact window_length window chunkTotal
  · rw [placesKept]
    exact window_length window placeTotal
  · rw [sameStts, sameSttsEntries]
    exact sttsCounted
  · rw [sameAtom, sameStss, sameStssEntries]
    exact stssCounted
  · rw [sameCtts, sameCttsEntries]
    exact cttsCounted
  · intro i inside
    have isSync := syncKept i inside
    have sameOffset : (after.ctts.bind fun table => (compositionOffsets table)[i]?) =
        trak.ctts.bind fun table => (compositionOffsets table)[startSample + i]? := by
      rw [sameCtts]
      cases hasCtts : trak.ctts with
      | none =>
        rw [hasCtts, map_none, map_eq_none_iff] at cttsKept
        rw [cttsKept]
        rfl
      | some data =>
        rw [hasCtts, map_some] at cttsKept
        obtain ⟨table, isTable, isKeptTable⟩ := map_eq_some_iff.1 cttsKept
        rw [isTable, bind_some, bind_some, isKeptTable]
        exact window_get inside
    unfold sampleAt
    rw [sameStart, sameOffset, sameStts, sttsKept, window_get inside, sameAtom, sameStss, isSync, sizesKept,
      window_get inside, chunksKept, window_get inside, placesKept, window_get inside,
      agree.isStsz, getD_some]

def sixSamples : Trak where
  timescale := 1000
  timeToSampleEntries := 1
  sampleToChunkEntries := 1
  syncSamplesEntries := 2
  compositionOffsetEntries := 2
  sampleSizesEntries := 6
  chunks := 3
  startSample := 0
  endSample := 0
  startChunk := 0
  endChunk := 0
  startChunkSamples := 0
  endChunkSamples := 0
  startChunkSamplesSize := 0
  endChunkSamplesSize := 0
  startOffset := 0
  endOffset := 0
  stts := some [⟨6, 100⟩]
  stssAtom := true
  stss := some [1, 4]
  ctts := some [⟨2, 0⟩, ⟨4, 5⟩]
  stsc := some [⟨1, 2, 1⟩]
  stscStart := none
  stscEnd := none
  stsz := some [10, 20, 30, 40, 50, 60]
  stco := some [100, 200, 300]
  co64 := none
  stszAtomEntries := 6
  stcoAtomEntries := 3

/-- The file in which 300 milliseconds are taken from the second sample on. -/
def threeSamples : Mp4File := ⟨100, 300, 1000, 900⟩

def keptTrak : Trak := (updateTrak threeSamples sixSamples).getD sixSamples

theorem three_samples_kept : updateTrak threeSamples sixSamples = some keptTrak ∧
      ∃ kept, kept = (if threeSamples.length = 0 then 6 - keptTrak.startSample
          else keptTrak.endSample - keptTrak.startSample) ∧ keptTrak.startSample + kept ≤ 6 ∧
        (threeSamples.length ≠ 0 → keptTrak.startSample ≤ keptTrak.endSample) ∧
        (∃ cropped, updateSttsAtom threeSamples sixSamples = some cropped ∧
          keptTrak.startSample = cropped.startSample ∧ keptTrak.endSample = cropped.endSample) ∧
        Describes keptTrak kept ∧ Counted keptTrak ∧
        ∀ i < kept, sampleAt keptTrak i = sampleAt sixSamples (keptTrak.startSample + i) := by
  have updated : updateTrak threeSamples sixSamples = some keptTrak := by decide
  have agree : Consistent sixSamples [⟨6, 100⟩] [⟨1, 2, 1⟩] [10, 20, 30, 40, 50, 60]
      [100, 200, 300] := by
    refine ⟨⟨rfl, rfl, Or.inr ⟨rfl, rfl⟩, rfl, rfl, rfl, rfl, rfl, ⟨by decide, trivial⟩, ?_,
      ⟨rfl, rfl, rfl⟩, by decide, by decide, by decide⟩, rfl, rfl, rfl, rfl, ?_, ?_⟩
    · intro entry mem
      rw [mem_singleton.1 mem]
      decide
    · intro data isData
      cases isData
      exact ⟨rfl, by decide, by decide⟩
    · intro data isData
      cases isData
      exact ⟨rfl, rfl⟩
  exact ⟨updated, seek_keeps_samples agree updated⟩

end Samples

end ServerCore.NginxHttpMp4Seek
