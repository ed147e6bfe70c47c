import ServerCore.NginxHttpMp4Times

/-!
# Cropping the sample-to-chunk table

An entry of `stsc` holds for every chunk up to that of the next entry. Laid out
chunk by chunk the table is a list of runs of samples, and a crop takes samples
from the front or from the back of that list: whole chunks, and a part of one.
-/

namespace ServerCore.NginxHttpMp4Chunks

open RunTables NginxHttpMp4 NginxHttpMp4Times List Option

variable {front : Option StscEntry}

variable {kept : List StscEntry}

def stscStep (entry : StscEntry) : Nat × Nat × Nat := (entry.chunk, entry.samples, entry.id)

/-- The number of samples and the description of every chunk, up to the chunk `stop`. -/
def chunkTable (stop : Nat) (data : List StscEntry) : List (Nat × Nat) :=
  layout stop (data.map stscStep)

def firstChunk (stop : Nat) (data : List StscEntry) : Nat := nextPlace stop (data.map stscStep)

/-- A table whose chunks are in order and whose sample counts can be computed. -/
structure InOrder (stop : Nat) (data : List StscEntry) : Prop where
  ascending : Ascending stop (data.map stscStep)
  someSamples : ∀ entry ∈ data, 0 < entry.samples
  small : stop < 2 ^ 32
  smallTotal : total (chunkTable stop data) < 2 ^ 32

theorem chunk_table_append (stop : Nat) (first rest : List StscEntry) :
    chunkTable stop (first ++ rest) = chunkTable (firstChunk stop rest) first ++ chunkTable stop rest := by
  rw [chunkTable, map_append, layout_append]
  rfl

theorem chunk_table_cons (stop : Nat) (entry : StscEntry) (rest : List StscEntry) :
    chunkTable stop (entry :: rest) =
      List.replicate (firstChunk stop rest - entry.chunk) (entry.samples, entry.id) ++
        chunkTable stop rest := by
  rw [chunkTable, map_cons, layout_cons]
  rfl

theorem first_chunk_cons (stop : Nat) (entry : StscEntry) (rest : List StscEntry) :
    firstChunk stop (entry :: rest) = entry.chunk := rfl

theorem first_chunk_append (stop : Nat) (first rest : List StscEntry) :
    firstChunk stop (first ++ rest) = firstChunk (firstChunk stop rest) first := by
  cases first <;> rfl

variable {stop : Nat} {entry : StscEntry} {rest passed behind data : List StscEntry}

theorem in_order_append (inOrder : InOrder stop (passed ++ rest)) :
    InOrder (firstChunk stop rest) passed ∧ InOrder stop rest := by
  have ascending := inOrder.ascending
  have sum := inOrder.smallTotal
  rw [map_append, ascending_append] at ascending
  rw [chunk_table_append, total_append] at sum
  refine ⟨⟨ascending.1, ?_, ?_, by omega⟩, ⟨ascending.2, ?_, inOrder.small, by omega⟩⟩
  · exact fun entry mem => inOrder.someSamples entry (mem_append_left rest mem)
  · exact Nat.lt_of_le_of_lt (next_place_le ascending.2) inOrder.small
  · exact fun entry mem => inOrder.someSamples entry (mem_append_right passed mem)

theorem run_samples (inOrder : InOrder stop (entry :: rest)) : entry.chunk < firstChunk stop rest ∧
      word32 (sub32 (firstChunk stop rest) entry.chunk * entry.samples) =
        (firstChunk stop rest - entry.chunk) * entry.samples := by
  have before : entry.chunk < firstChunk stop rest := inOrder.ascending.1
  have restInOrder := (@in_order_append stop rest [entry] inOrder).2
  have nextSmall : firstChunk stop rest < 2 ^ 32 :=
    Nat.lt_of_le_of_lt (next_place_le restInOrder.ascending) inOrder.small
  have sum := inOrder.smallTotal
  rw [chunk_table_cons, total_append, total_replicate] at sum
  dsimp only at sum
  rw [sub32_small nextSmall (Nat.le_of_lt before)]
  exact ⟨before, word32_small (by omega)⟩

def AtEntry (scan : StscScan) : Prop :=
  scan.chunk = scan.entry.chunk ∧ scan.samples = scan.entry.samples ∧ scan.id = scan.entry.id

theorem stsc_loop_spec (scan : StscScan) (inOrder : InOrder stop (scan.entry :: rest))
    (atEntry : AtEntry scan) :
    ∃ more, scan.entry :: rest = more ++ (stscLoop scan rest).1.entry :: (stscLoop scan rest).2.2 ∧
      (stscLoop scan rest).1.passed = scan.passed ++ more ∧
      scan.startSample = total (chunkTable (stscLoop scan rest).1.entry.chunk more) +
        (stscLoop scan rest).1.startSample ∧ (stscLoop scan rest).1.entries = scan.entries - more.length ∧
      AtEntry (stscLoop scan rest).1 ∧
      (stscLoop scan rest).2.1 = (stscLoop scan rest).2.2.head?.map StscEntry.chunk ∧
      ((stscLoop scan rest).2.2 ≠ [] → (stscLoop scan rest).1.startSample <
        (firstChunk stop (stscLoop scan rest).2.2 - (stscLoop scan rest).1.entry.chunk) *
          (stscLoop scan rest).1.entry.samples) := by
  induction rest generalizing scan with
  | nil =>
    refine ⟨[], rfl, (append_nil _).symm, (zero_add _).symm, rfl, atEntry, rfl, ?_⟩
    exact fun absurdly => absurd rfl absurdly
  | cons next behind ih =>
    obtain ⟨before, count⟩ := run_samples inOrder
    have restInOrder := (@in_order_append stop (next :: behind) [scan.entry] inOrder).2
    have samples : word32 (sub32 next.chunk scan.chunk * scan.samples) =
        (next.chunk - scan.entry.chunk) * scan.entry.samples := by
      rw [atEntry.1, atEntry.2.1]
      exact count
    by_cases found : scan.startSample < (next.chunk - scan.entry.chunk) * scan.entry.samples
    · have stops : stscLoop scan (next :: behind) = (scan, some next.chunk, next :: behind) := by
        simp only [stscLoop]
        rw [samples, if_pos found]
      rw [stops]
      refine ⟨[], rfl, (append_nil _).symm, (zero_add _).symm, rfl, atEntry, rfl, ?_⟩
      exact fun _ => found
    · have goes : stscLoop scan (next :: behind) =
          stscLoop (scan.turn next ((next.chunk - scan.entry.chunk) * scan.entry.samples)) behind := by
        simp only [stscLoop]
        rw [samples, if_neg found]
      rw [goes]
      obtain ⟨more, isRest, isPassed, isSample, isEntries, rest⟩ := ih
        (scan.turn next ((next.chunk - scan.entry.chunk) * scan.entry.samples)) restInOrder ⟨rfl, rfl, rfl⟩
      refine ⟨scan.entry :: more, ?_, ?_, ?_, ?_, rest⟩
      · rw [cons_append, ← isRest]
        rfl
      · rw [isPassed, StscScan.turn, append_assoc, singleton_append]
      · have isNext : firstChunk (stscLoop
            (scan.turn next ((next.chunk - scan.entry.chunk) * scan.entry.samples))
              behind).1.entry.chunk more =
              next.chunk := by
          have same := congrArg (firstChunk stop) isRest
          rw [first_chunk_append] at same
          exact same.symm
        rw [chunk_table_cons, total_append, total_replicate, isNext]
        dsimp only [StscScan.turn] at isSample ⊢
        omega
      · rw [isEntries, length_cons]
        dsimp only [StscScan.turn]
        omega

/-- Where the scan ends: in the run of the sample, `scan.startSample` samples from the start
of the run. -/
structure Found (stop startSample : Nat) (data : List StscEntry) (scan : StscScan) (nextChunk : Nat)
    (behind : List StscEntry) : Prop where
  isData : data = scan.passed ++ scan.entry :: behind
  isSample : startSample = total (chunkTable scan.entry.chunk scan.passed) + scan.startSample
  isEntries : scan.entries = behind.length + 1
  atEntry : AtEntry scan
  isNext : nextChunk = firstChunk stop behind
  within : scan.startSample ≤ (nextChunk - scan.entry.chunk) * scan.entry.samples
  before : behind ≠ [] → scan.startSample < (nextChunk - scan.entry.chunk) * scan.entry.samples

theorem stsc_find_spec {chunks startSample entries nextChunk : Nat} {scan : StscScan}
    (inOrder : InOrder (chunks + 1) data) (count : entries + 1 = data.length)
    (found : stscFind chunks startSample entries data = some (scan, nextChunk, behind)) :
    Found (chunks + 1) startSample data scan nextChunk behind := by
  cases data with
  | nil => cases found
  | cons entry rest =>
    obtain ⟨more, isRest, isPassed, isSample, isEntries, atEntry, isFound, before⟩ := stsc_loop_spec
      ⟨startSample, entry.chunk, entry.samples, entry.id, 0, entries, [], entry⟩ inOrder ⟨rfl, rfl, rfl⟩
    dsimp only [stscFind] at found
    generalize stscLoop
      ⟨startSample, entry.chunk, entry.samples, entry.id, 0, entries, [], entry⟩ rest = looped at *
    obtain ⟨last, next, left⟩ := looped
    dsimp only at *
    rw [isRest] at inOrder
    have lastInOrder := (in_order_append inOrder).2
    obtain ⟨inRun, samples⟩ := run_samples lastInOrder
    have length : entries + 1 = more.length + (left.length + 1) := by
      rw [count, isRest, length_append, length_cons]
    obtain ⟨chunk, isChunk, rest⟩ := bind_eq_some_iff.1 found
    have bounds : chunk = firstChunk (chunks + 1) left ∧
        last.startSample ≤ (chunk - last.entry.chunk) * last.entry.samples := by
      cases left with
      | nil =>
        rw [isFound] at isChunk
        dsimp only [head?_nil, map_none, stscNext] at isChunk
        rw [atEntry.1, atEntry.2.1] at isChunk
        have isStop : firstChunk (chunks + 1) [] = chunks + 1 := rfl
        rw [isStop] at samples
        rw [samples] at isChunk
        by_cases tooFar : last.startSample > (chunks + 1 - last.entry.chunk) * last.entry.samples
        · rw [if_pos tooFar] at isChunk
          cases isChunk
        · rw [if_neg tooFar] at isChunk
          cases isChunk
          exact ⟨rfl, by omega⟩
      | cons first left =>
        rw [isFound] at isChunk
        cases isChunk
        exact ⟨rfl, Nat.le_of_lt (before (cons_ne_nil _ _))⟩
    have someSamples : ¬ last.samples = 0 := by
      have pos := lastInOrder.someSamples last.entry mem_cons_self
      rw [atEntry.2.1]
      omega
    rw [if_neg someSamples] at rest
    cases rest
    refine ⟨?_, ?_, ?_, atEntry, bounds.1, bounds.2, ?_⟩
    · rw [isPassed]
      exact isRest
    · rw [isPassed]
      exact isSample
    · dsimp only
      omega
    · rw [bounds.1]
      exact before

section Found

variable {startSample nextChunk : Nat} {scan : StscScan}

theorem found_table (found : Found stop startSample data scan nextChunk behind) :
    chunkTable stop data = chunkTable scan.entry.chunk scan.passed ++
      (List.replicate (nextChunk - scan.entry.chunk) (scan.entry.samples, scan.entry.id) ++
        chunkTable stop behind) := by
  rw [found.isData, chunk_table_append, chunk_table_cons, found.isNext]
  rfl

theorem found_in_order (inOrder : InOrder stop data)
    (found : Found stop startSample data scan nextChunk behind) :
    InOrder scan.entry.chunk scan.passed ∧ InOrder stop (scan.entry :: behind) := by
  rw [found.isData] at inOrder
  exact in_order_append inOrder

theorem found_first (found : Found stop startSample data scan nextChunk behind) :
    firstChunk scan.entry.chunk scan.passed = firstChunk stop data := by
  rw [found.isData, first_chunk_append]
  rfl

section

variable (inOrder : InOrder stop data) (found : Found stop startSample data scan nextChunk behind)
include inOrder found

theorem found_length :
    (chunkTable scan.entry.chunk scan.passed).length + firstChunk stop data = scan.entry.chunk := by
  have passedInOrder := (found_in_order inOrder found).1
  have isLength : (chunkTable scan.entry.chunk scan.passed).length =
      scan.entry.chunk - firstChunk scan.entry.chunk scan.passed :=
    layout_length passedInOrder.ascending
  have notBehind : firstChunk scan.entry.chunk scan.passed ≤ scan.entry.chunk :=
    next_place_le passedInOrder.ascending
  rw [found_first found] at isLength notBehind
  omega

theorem found_samples : 0 < scan.entry.samples :=
  (found_in_order inOrder found).2.someSamples scan.entry mem_cons_self

end

theorem found_before (inside : startSample < total (chunkTable stop data))
    (found : Found stop startSample data scan nextChunk behind) :
    scan.startSample < (nextChunk - scan.entry.chunk) * scan.entry.samples := by
  by_cases isLast : behind = []
  · have isSample := found.isSample
    have nothing : total (chunkTable stop behind) = 0 := by
      rw [isLast]
      rfl
    rw [found_table found, total_append, total_append, total_replicate, nothing] at inside
    dsimp only at inside
    omega
  · exact found.before isLast

theorem in_order_cut {cut : StscEntry} (inOrder : InOrder stop (entry :: rest))
    (later : entry.chunk ≤ cut.chunk) (before : cut.chunk < firstChunk stop rest)
    (fewer : cut.samples ≤ entry.samples) (someSamples : 0 < cut.samples) : InOrder stop (cut :: rest) := by
  have restInOrder := (@in_order_append stop rest [entry] inOrder).2
  have sum := inOrder.smallTotal
  rw [chunk_table_cons, total_append, total_replicate] at sum
  have less : (firstChunk stop rest - cut.chunk) * cut.samples ≤
      (firstChunk stop rest - entry.chunk) * entry.samples :=
    Nat.mul_le_mul (by omega) fewer
  refine ⟨⟨before, restInOrder.ascending⟩, ?_, inOrder.small, ?_⟩
  · intro other mem
    rcases mem_cons.1 mem with isCut | isRest
    · rw [isCut]
      exact someSamples
    · exact restInOrder.someSamples other isRest
  · rw [chunk_table_cons, total_append, total_replicate]
    dsimp only at sum ⊢
    omega

end Found

theorem replicate_split {Value : Type*} (value : Value) {n k : Nat} (inside : k < n) :
    List.replicate n value = List.replicate k value ++ value :: List.replicate (n - k - 1) value := by
  have isSum : n = k + (n - k - 1 + 1) := by omega
  rw [isSum, ← replicate_append_replicate, replicate_succ]
  congr 3
  omega

section Target

variable {startSample nextChunk : Nat} {scan : StscScan}

theorem found_target (inOrder : InOrder stop data) (fromOne : 0 < firstChunk stop data)
    (found : Found stop startSample data scan nextChunk behind) :
    targetChunk scan + 1 = scan.entry.chunk + scan.startSample / scan.entry.samples ∧
      chunkSamples scan = scan.startSample % scan.entry.samples ∧
      0 < scan.entry.chunk ∧ scan.entry.chunk < nextChunk ∧
      scan.startSample / scan.entry.samples * scan.entry.samples +
        scan.startSample % scan.entry.samples = scan.startSample := by
  have length := found_length inOrder found
  have atEntry := found.atEntry
  have runInOrder := (found_in_order inOrder found).2
  have inRun : scan.entry.chunk < nextChunk := by
    rw [found.isNext]
    exact (run_samples runInOrder).1
  have chunkSmall : scan.entry.chunk < 2 ^ 32 := by
    have notBehind : firstChunk stop behind ≤ stop := next_place_le runInOrder.ascending.2
    have small := inOrder.small
    have isNext := found.isNext
    omega
  refine ⟨?_, ?_, by omega, inRun, Nat.div_add_mod' _ _⟩
  · rw [targetChunk, atEntry.1, atEntry.2.1, sub32_small chunkSmall (by omega)]
    omega
  · rw [chunkSamples, atEntry.2.1]

theorem found_cut_front (inOrder : InOrder stop data) (fromOne : firstChunk stop data = 1)
    (inside : startSample < total (chunkTable stop data))
    (found : Found stop startSample data scan nextChunk behind) :
    scan.startSample / scan.entry.samples < nextChunk - scan.entry.chunk ∧ CutFront (chunkTable stop data)
        ((scan.entry.samples - chunkSamples scan, scan.entry.id) :: (List.replicate
            (nextChunk - scan.entry.chunk - scan.startSample / scan.entry.samples - 1)
            (scan.entry.samples, scan.entry.id) ++ chunkTable stop behind))
        startSample (targetChunk scan) (chunkSamples scan) := by
  obtain ⟨isTarget, isRest, pos, inRun, isSum⟩ := found_target inOrder (by omega) found
  have inQuotient : scan.startSample / scan.entry.samples < nextChunk - scan.entry.chunk := by
    apply Nat.div_lt_of_lt_mul
    rw [mul_comm]
    exact found_before inside found
  refine ⟨inQuotient, ⟨chunkTable scan.entry.chunk scan.passed ++
    List.replicate (scan.startSample / scan.entry.samples) (scan.entry.samples, scan.entry.id),
    scan.entry.samples, scan.entry.id, _, ?_, ?_, ?_, ?_, rfl⟩⟩
  · rw [found_table found, replicate_split _ inQuotient]
    simp
  · have length := found_length inOrder found
    rw [length_append, length_replicate]
    omega
  · rw [total_append, total_replicate, isRest, found.isSample]
    dsimp only
    omega
  · rw [isRest]
    exact Nat.mod_lt _ (found_samples inOrder found)

end Target

def frontRuns (front : Option StscEntry) : List (Nat × Nat) :=
  front.toList.map fun entry => (entry.samples, entry.id)

variable {trak after : Trak}

theorem crop_stsc_start_spec (inOrder : InOrder (trak.chunks + 1) data)
    (fromOne : firstChunk (trak.chunks + 1) data = 1) (count : trak.sampleToChunkEntries = data.length)
    (inside : trak.startSample < total (chunkTable (trak.chunks + 1) data))
    (noFront : trak.stscStart = none) (cropped : cropStscStart trak data = some after) :
    ∃ front table startChunk startChunkSamples, after = { trak with
        sampleToChunkEntries := front.toList.length + table.length
        startChunk := startChunk
        startChunkSamples := startChunkSamples
        stscStart := front
        stsc := some table } ∧
      InOrder (trak.chunks + 1) table ∧ table ≠ [] ∧
      firstChunk (trak.chunks + 1) table = startChunk + 1 + front.toList.length ∧
      (∀ entry ∈ front.toList, entry.chunk = 1) ∧
      CutFront (chunkTable (trak.chunks + 1) data)
        (frontRuns front ++ chunkTable (trak.chunks + 1) table)
        trak.startSample startChunk startChunkSamples := by
  have someData : data ≠ [] := by
    rintro rfl
    cases inside
  have counts : trak.sampleToChunkEntries - 1 + 1 = data.length := by
    have := length_pos_of_ne_nil someData
    omega
  have startSmall : trak.startSample < 2 ^ 32 := Nat.lt_trans inside inOrder.smallTotal
  unfold cropStscStart at cropped
  rw [word32_small startSmall] at cropped
  obtain ⟨⟨scan, nextChunk, behind⟩, isFound, rest⟩ := bind_eq_some_iff.1 cropped
  have found := stsc_find_spec inOrder counts isFound
  have atEntry := found.atEntry
  have runInOrder := (found_in_order inOrder found).2
  have someSamples := found_samples inOrder found
  have isNext := found.isNext
  obtain ⟨isTarget, isRest, pos, inRun, isSum⟩ := found_target inOrder (by omega) found
  obtain ⟨inQuotient, isCut⟩ := found_cut_front inOrder fromOne inside found
  have fewer : chunkSamples scan < scan.entry.samples := by
    rw [isRest]
    exact Nat.mod_lt _ someSamples
  generalize scan.startSample / scan.entry.samples = quotient at *
  dsimp only at rest
  by_cases isPatch : chunkSamples scan ≠ 0 ∧ nextChunk - targetChunk scan = 2
  · rw [if_pos isPatch] at rest
    have cutInOrder : InOrder (trak.chunks + 1) ({ scan.entry with
        chunk := targetChunk scan + 1
        samples := scan.samples - chunkSamples scan } :: behind) :=
      in_order_cut runInOrder (by dsimp only; omega) (by dsimp only; omega)
        (by rw [atEntry.2.1]; exact Nat.sub_le _ _) (by rw [atEntry.2.1]; dsimp only; omega)
    refine ⟨none, { scan.entry with
      chunk := targetChunk scan + 1
      samples := scan.samples - chunkSamples scan } :: behind, targetChunk scan, chunkSamples scan,
      ?_, cutInOrder, cons_ne_nil _ _, ?_, ?_, ?_⟩
    · rw [toList_none, length_nil, length_cons, zero_add, ← found.isEntries, ← noFront]
      exact (Option.some.inj rest).symm
    · rw [first_chunk_cons, toList_none, length_nil, add_zero]
    · intro other mem
      cases mem
    · have noOther : nextChunk - scan.entry.chunk - quotient - 1 = 0 := by
        omega
      have oneChunk : nextChunk - (targetChunk scan + 1) = 1 := by omega
      rw [noOther] at isCut
      rw [chunk_table_cons, ← isNext, atEntry.2.1]
      rw [oneChunk]
      exact isCut
  · rw [if_neg isPatch] at rest
    by_cases isCutChunk : chunkSamples scan ≠ 0
    · rw [if_pos isCutChunk] at rest
      have cutInOrder : InOrder (trak.chunks + 1)
          ({ scan.entry with chunk := targetChunk scan + 2 } :: behind) :=
        in_order_cut runInOrder (by dsimp only; omega) (by dsimp only; omega) (Nat.le_refl _) someSamples
      refine ⟨some ⟨1, scan.samples - chunkSamples scan, scan.id⟩,
        { scan.entry with chunk := targetChunk scan + 2 } :: behind, targetChunk scan,
        chunkSamples scan, ?_, cutInOrder, cons_ne_nil _ _, ?_, ?_, ?_⟩
      · rw [toList_some, length_singleton, length_cons, add_comm 1, ← found.isEntries]
        exact (Option.some.inj rest).symm
      · rw [first_chunk_cons, toList_some, length_singleton]
      · intro other mem
        rw [mem_singleton.1 mem]
      · have others : nextChunk - (targetChunk scan + 2) =
            nextChunk - scan.entry.chunk - quotient - 1 := by
          omega
        rw [chunk_table_cons, ← isNext, atEntry.2.1, atEntry.2.2]
        rw [others]
        exact isCut
    · rw [if_neg isCutChunk] at rest
      have atStart : chunkSamples scan = 0 := by omega
      have cutInOrder : InOrder (trak.chunks + 1)
          ({ scan.entry with chunk := targetChunk scan + 1 } :: behind) :=
        in_order_cut runInOrder (by dsimp only; omega) (by dsimp only; omega) (Nat.le_refl _) someSamples
      refine ⟨none, { scan.entry with chunk := targetChunk scan + 1 } :: behind, targetChunk scan,
        chunkSamples scan, ?_, cutInOrder, cons_ne_nil _ _, ?_, ?_, ?_⟩
      · rw [toList_none, length_nil, length_cons, zero_add, ← found.isEntries, ← noFront]
        exact (Option.some.inj rest).symm
      · rw [first_chunk_cons, toList_none, length_nil, add_zero]
      · intro other mem
        cases mem
      · have others : nextChunk - (targetChunk scan + 1) =
            nextChunk - scan.entry.chunk - quotient - 1 + 1 := by
          omega
        rw [atStart, Nat.sub_zero] at isCut
        rw [chunk_table_cons, ← isNext, atStart]
        rw [others, replicate_succ]
        exact isCut

def relative (startChunk : Nat) (entry : StscEntry) : StscEntry :=
  { entry with chunk := entry.chunk - startChunk }

variable {endChunk startChunk : Nat}

section Back

variable {left nextChunk : Nat} {scan : StscScan}

/-- What a crop at the end leaves of a table: the table `kept` up to the chunk
`endChunk`. -/
structure Cropped (stop left endChunk : Nat) (data kept : List StscEntry) : Prop where
  ascending : Ascending (endChunk + 1) (kept.map stscStep)
  sameFirst : firstChunk (endChunk + 1) kept = firstChunk stop data
  isCut : CutBack (chunkTable stop data) (chunkTable (endChunk + 1) kept) left
  nothing : left = 0 → kept = []

theorem cropped_end_le (inOrder : InOrder stop data)
    (cropped : Cropped stop left endChunk data kept) : endChunk + 1 ≤ stop := by
  have keptLength : (chunkTable (endChunk + 1) kept).length =
      endChunk + 1 - firstChunk (endChunk + 1) kept := layout_length cropped.ascending
  have dataLength : (chunkTable stop data).length = stop - firstChunk stop data :=
    layout_length inOrder.ascending
  have dataFirst : firstChunk stop data ≤ stop := next_place_le inOrder.ascending
  have shorter := cut_back_length cropped.isCut
  have sameFirst := cropped.sameFirst
  omega

theorem total_pos (inOrder : InOrder stop data) (someData : data ≠ []) :
    0 < total (chunkTable stop data) := by
  cases data with
  | nil => cases someData rfl
  | cons entry rest =>
    have before := (run_samples inOrder).1
    have samples := inOrder.someSamples entry mem_cons_self
    have chunks : 0 < firstChunk stop rest - entry.chunk := by omega
    rw [chunk_table_cons, total_append, total_replicate]
    exact Nat.lt_of_lt_of_le (Nat.mul_pos chunks samples) (Nat.le_add_right _ _)

theorem cropped_run {tail : List StscEntry} (inOrder : InOrder stop data)
    (found : Found stop left data scan nextChunk behind)
    (tailFirst : firstChunk (endChunk + 1) tail = scan.entry.chunk)
    (tailAscending : Ascending (endChunk + 1) (tail.map stscStep))
    (isRun : CutBack (List.replicate (nextChunk - scan.entry.chunk) (scan.entry.samples, scan.entry.id))
      (chunkTable (endChunk + 1) tail) scan.startSample) (nothing : scan.startSample = 0 → tail = []) :
    Cropped stop left endChunk data (scan.passed ++ tail) := by
  have passedInOrder := (found_in_order inOrder found).1
  refine ⟨?_, ?_, ?_, ?_⟩
  · rw [map_append, ascending_append]
    have sameStop : nextPlace (endChunk + 1) (tail.map stscStep) = scan.entry.chunk := tailFirst
    rw [sameStop]
    exact ⟨passedInOrder.ascending, tailAscending⟩
  · rw [first_chunk_append, tailFirst, found_first found]
  · rw [found_table found, chunk_table_append, tailFirst, found.isSample]
    exact cut_back_append _ _ isRun
  · intro isZero
    have isSample := found.isSample
    have noPassed : scan.passed = [] := by
      by_contra someHere
      have := total_pos passedInOrder someHere
      omega
    rw [noPassed, nothing (by omega), append_nil]

section

variable (inOrder : InOrder stop data) (fromOne : 0 < firstChunk stop data)
  (found : Found stop left data scan nextChunk behind)
include inOrder fromOne found

theorem cropped_between (atStart : chunkSamples scan = 0) : Cropped stop left (targetChunk scan) data
      (if scan.startSample ≠ 0 then scan.passed ++ [scan.entry] else scan.passed) := by
  obtain ⟨isTarget, isRest, pos, inRun, isSum⟩ := found_target inOrder fromOne found
  have someSamples := found_samples inOrder found
  have within := found.within
  rw [← isRest, atStart, add_zero] at isSum
  by_cases noSamples : scan.startSample = 0
  · rw [if_neg (by simp [noSamples])]
    rw [noSamples, Nat.zero_div, add_zero] at isTarget
    rw [← append_nil scan.passed]
    refine cropped_run inOrder found ?_ trivial ?_ (fun _ => rfl)
    · rw [isTarget]
      rfl
    · rw [noSamples]
      exact CutBack.between [] _ rfl
  · rw [if_pos noSamples]
    generalize scan.startSample / scan.entry.samples = quotient at *
    have quotientPos : 0 < quotient := by
      rcases Nat.eq_zero_or_pos quotient with isZero | isPos
      · rw [isZero, Nat.zero_mul] at isSum
        exact absurd isSum.symm noSamples
      · exact isPos
    have quotientLe : quotient ≤ nextChunk - scan.entry.chunk := by
      rw [← isSum] at within
      exact Nat.le_of_mul_le_mul_right within someSamples
    have isTable : chunkTable (targetChunk scan + 1) [scan.entry] =
        List.replicate quotient (scan.entry.samples, scan.entry.id) := by
      rw [chunk_table_cons, isTarget]
      have distance : firstChunk (scan.entry.chunk + quotient) [] - scan.entry.chunk = quotient :=
        Nat.add_sub_cancel_left _ _
      rw [distance]
      exact append_nil _
    refine cropped_run inOrder found rfl ⟨?_, trivial⟩ ?_ (fun isZero => absurd isZero noSamples)
    · rw [isTarget]
      exact Nat.lt_add_of_pos_right quotientPos
    · have isTotal : total (List.replicate quotient (scan.entry.samples, scan.entry.id)) =
          scan.startSample := by
        rw [total_replicate]
        exact isSum
      have cut := CutBack.between (List.replicate quotient (scan.entry.samples, scan.entry.id))
        (List.replicate (nextChunk - scan.entry.chunk - quotient) (scan.entry.samples, scan.entry.id)) rfl
      rw [isTotal, replicate_append_replicate] at cut
      have isSum : quotient + (nextChunk - scan.entry.chunk - quotient) =
          nextChunk - scan.entry.chunk := by omega
      rw [isSum] at cut
      rw [isTable]
      exact cut

theorem found_cut_back (inChunk : chunkSamples scan ≠ 0) :
    CutBack (List.replicate (nextChunk - scan.entry.chunk) (scan.entry.samples, scan.entry.id))
      (List.replicate (scan.startSample / scan.entry.samples) (scan.entry.samples, scan.entry.id) ++
        [(chunkSamples scan, scan.entry.id)]) scan.startSample := by
  obtain ⟨isTarget, isRest, pos, inRun, isSum⟩ := found_target inOrder fromOne found
  have someSamples := found_samples inOrder found
  have within := found.within
  have fewer : chunkSamples scan < scan.entry.samples := by
    rw [isRest]
    exact Nat.mod_lt _ someSamples
  rw [← isRest] at isSum
  generalize scan.startSample / scan.entry.samples = quotient at *
  have quotientLt : quotient < nextChunk - scan.entry.chunk := by
    by_contra tooLarge
    have := Nat.mul_le_mul_right scan.entry.samples (Nat.le_of_not_lt tooLarge)
    omega
  have cut := CutBack.within (List.replicate quotient (scan.entry.samples, scan.entry.id))
    (List.replicate (nextChunk - scan.entry.chunk - quotient - 1) (scan.entry.samples, scan.entry.id))
    scan.entry.samples (chunkSamples scan) scan.entry.id (replicate_split _ quotientLt)
    (Nat.le_of_lt fewer)
  rw [total_replicate] at cut
  rw [isSum] at cut
  exact cut

theorem cropped_patch (inChunk : chunkSamples scan ≠ 0) (isFirst : scan.entry.chunk = targetChunk scan + 1) :
    Cropped stop left (targetChunk scan + 1) data
      (scan.passed ++ [{ scan.entry with samples := chunkSamples scan }]) := by
  obtain ⟨isTarget, isRest, pos, inRun, isSum⟩ := found_target inOrder fromOne found
  have isCut := found_cut_back inOrder fromOne found inChunk
  have isZero : scan.startSample / scan.entry.samples = 0 := by
    omega
  have isTable : chunkTable (targetChunk scan + 1 + 1)
      [{ scan.entry with samples := chunkSamples scan }] =
        List.replicate 0 (scan.entry.samples, scan.entry.id) ++ [(chunkSamples scan, scan.entry.id)] := by
    rw [chunk_table_cons]
    have distance : firstChunk (targetChunk scan + 1 + 1) [] - scan.entry.chunk = 1 := by
      rw [isFirst]
      exact Nat.add_sub_cancel_left _ _
    rw [distance]
    rfl
  refine cropped_run inOrder found rfl ⟨?_, trivial⟩ ?_ ?_
  · have inside : scan.entry.chunk < targetChunk scan + 1 + 1 := by omega
    exact inside
  · rw [isTable, ← isZero]
    exact isCut
  · intro noSamples
    rw [isRest, noSamples, Nat.zero_mod] at inChunk
    cases inChunk rfl

theorem cropped_extra (inChunk : chunkSamples scan ≠ 0) (later : scan.entry.chunk < targetChunk scan + 1) :
    Cropped stop left (targetChunk scan + 1) data
      (scan.passed ++ [scan.entry] ++ [⟨targetChunk scan + 1, chunkSamples scan, scan.entry.id⟩]) := by
  obtain ⟨isTarget, isRest, pos, inRun, isSum⟩ := found_target inOrder fromOne found
  have isCut := found_cut_back inOrder fromOne found inChunk
  have isTable : chunkTable (targetChunk scan + 1 + 1)
      [scan.entry, ⟨targetChunk scan + 1, chunkSamples scan, scan.entry.id⟩] =
        List.replicate (scan.startSample / scan.entry.samples) (scan.entry.samples, scan.entry.id) ++
          [(chunkSamples scan, scan.entry.id)] := by
    rw [chunk_table_cons, chunk_table_cons, first_chunk_cons]
    have distance : firstChunk (targetChunk scan + 1 + 1) [] - (targetChunk scan + 1) = 1 :=
      Nat.add_sub_cancel_left _ _
    have chunks : targetChunk scan + 1 - scan.entry.chunk = scan.startSample / scan.entry.samples := by
      rw [isTarget]
      exact Nat.add_sub_cancel_left _ _
    rw [distance, chunks]
    rfl
  rw [append_assoc]
  refine cropped_run inOrder found rfl ⟨later, ⟨Nat.lt_succ_self _, trivial⟩⟩ ?_ ?_
  · rw [singleton_append, isTable]
    exact isCut
  · intro noSamples
    rw [isRest, noSamples, Nat.zero_mod] at inChunk
    cases inChunk rfl

end

end Back

variable {mp4 : Mp4File}

theorem crop_stsc_end_spec (isCropped : mp4.length ≠ 0) (inOrder : InOrder (trak.chunks + 1) data)
    (fromOne : 0 < firstChunk (trak.chunks + 1) data) (someData : data ≠ [])
    (count : trak.sampleToChunkEntries = trak.stscStart.toList.length + data.length)
    (noLast : trak.stscEnd = none) {front : Option StscEntry} {left : Nat}
    (isFront : cropStartEntry (word32 (trak.endSample - trak.startSample)) trak.stscStart = (front, left))
    (cropped : cropStscEnd mp4 trak data = some after) :
    ∃ (kept : List StscEntry) (last : Option StscEntry) (endChunk endChunkSamples : Nat), after =
      { trak with
        stscStart := front
        stsc := some kept
        stscEnd := last.map (relative trak.startChunk)
        sampleToChunkEntries := front.toList.length + kept.length + last.toList.length
        endChunk := endChunk
        endChunkSamples := endChunkSamples } ∧
      Cropped (trak.chunks + 1) left endChunk data (kept ++ last.toList) := by
  have sameFront : trak.stscStart.toList.length = front.toList.length ∧
      (if front.isSome then 1 else 0) = front.toList.length := by
    cases isStart : trak.stscStart with
    | none | some first =>
      rw [isStart] at isFront
      cases isFront
      exact ⟨rfl, rfl⟩
  have length := length_pos_of_ne_nil someData
  unfold cropStscEnd at cropped
  rw [if_neg isCropped, isFront] at cropped
  dsimp only at cropped
  obtain ⟨⟨scan, nextChunk, behind⟩, isFound, rest⟩ := bind_eq_some_iff.1 cropped
  have counts : trak.sampleToChunkEntries - 1 - (if front.isSome then 1 else 0) + 1 = data.length := by
    omega
  have found := stsc_find_spec inOrder counts isFound
  obtain ⟨isTarget, isRest, pos, inRun, isSum⟩ := found_target inOrder fromOne found
  have atEntry := found.atEntry
  have isEntries := found.isEntries
  have isLength : data.length = scan.passed.length + (behind.length + 1) := by
    rw [found.isData, length_append, length_cons]
  have targetLe : scan.entry.chunk ≤ targetChunk scan + 1 := by
    rw [isTarget]
    exact Nat.le_add_right _ _
  by_cases inChunk : chunkSamples scan ≠ 0
  · have someSamples : scan.startSample ≠ 0 := by
      intro isZero
      rw [isRest, isZero, Nat.zero_mod] at inChunk
      cases inChunk rfl
    by_cases isPatch : scan.chunk + 1 - targetChunk scan = 2
    · rw [if_pos ⟨inChunk, isPatch⟩] at rest
      have isFirst : scan.entry.chunk = targetChunk scan + 1 := by
        rw [atEntry.1] at isPatch
        omega
      refine ⟨scan.passed ++ [{ scan.entry with samples := chunkSamples scan }], none,
        targetChunk scan + 1, chunkSamples scan, ?_, ?_⟩
      · have entriesLeft : trak.sampleToChunkEntries - (scan.entries - 1) = front.toList.length +
            (scan.passed ++ [{ scan.entry with samples := chunkSamples scan }]).length +
            (none : Option StscEntry).toList.length := by
          rw [length_append, length_singleton, toList_none, length_nil]
          omega
        rw [← Option.some.inj rest, ← entriesLeft, map_none, ← noLast]
        simp only [if_pos someSamples, if_pos inChunk]
      · rw [toList_none, append_nil]
        exact cropped_patch inOrder fromOne found inChunk isFirst
    · rw [if_neg (fun both => isPatch both.2), if_pos inChunk] at rest
      have later : scan.entry.chunk < targetChunk scan + 1 := by
        rw [atEntry.1] at isPatch
        omega
      refine ⟨scan.passed ++ [scan.entry], some ⟨targetChunk scan + 1, chunkSamples scan, scan.entry.id⟩,
        targetChunk scan + 1, chunkSamples scan, ?_, ?_⟩
      · have entriesLeft : trak.sampleToChunkEntries - (scan.entries - 1) + 1 = front.toList.length +
            (scan.passed ++ [scan.entry]).length +
            (some (⟨targetChunk scan + 1, chunkSamples scan, scan.entry.id⟩ : StscEntry)).toList.length := by
          rw [length_append, length_singleton, toList_some, length_singleton]
          omega
        rw [← Option.some.inj rest, ← entriesLeft, map_some, relative]
        simp only [if_pos someSamples, if_pos inChunk, atEntry.2.2]
      · exact cropped_extra inOrder fromOne found inChunk later
  · rw [if_neg (fun both => inChunk both.1), if_neg inChunk] at rest
    refine ⟨if scan.startSample ≠ 0 then scan.passed ++ [scan.entry] else scan.passed, none,
      targetChunk scan, if scan.startSample ≠ 0 then scan.samples else scan.prevSamples, ?_, ?_⟩
    · have entriesLeft : trak.sampleToChunkEntries -
          (if scan.startSample ≠ 0 then scan.entries - 1 else scan.entries) = front.toList.length +
          (if scan.startSample ≠ 0 then scan.passed ++ [scan.entry] else scan.passed).length +
          (none : Option StscEntry).toList.length := by
        by_cases someSamples : scan.startSample ≠ 0
        · rw [if_pos someSamples, if_pos someSamples, length_append, length_singleton,
            toList_none, length_nil]
          omega
        · rw [if_neg someSamples, if_neg someSamples, toList_none, length_nil]
          omega
      rw [← Option.some.inj rest, ← entriesLeft, map_none, ← noLast]
      simp only [if_neg inChunk]
    · rw [toList_none, append_nil]
      exact cropped_between inOrder fromOne found (by omega)

theorem crop_start_entry_spec {cutFront : Option StscEntry} {n left : Nat}
    (isFront : cropStartEntry n front = (cutFront, left))
    (numbered : ∀ entry ∈ front.toList, entry.chunk = 1) (cropped : Cropped stop left endChunk data kept) :
    cutFront.toList.length = front.toList.length ∧ (∀ entry ∈ cutFront.toList, entry.chunk = 1) ∧
      CutBack (frontRuns front ++ chunkTable stop data)
        (frontRuns cutFront ++ chunkTable (endChunk + 1) kept) n := by
  cases front with
  | none =>
    cases isFront
    exact ⟨rfl, numbered, cropped.isCut⟩
  | some first =>
    have isOne : first.chunk = 1 := numbered first mem_cons_self
    dsimp only [cropStartEntry] at isFront
    by_cases inside : first.samples > n
    · rw [if_pos inside, Nat.sub_self] at isFront
      cases isFront
      refine ⟨rfl, ?_, ?_⟩
      · intro entry mem
        rw [mem_singleton.1 mem]
        exact isOne
      · have isCut := CutBack.within [] (chunkTable stop data) first.samples n first.id rfl
          (Nat.le_of_lt inside)
        have isSum : total ([] : List (Nat × Nat)) + n = n := zero_add n
        rw [isSum] at isCut
        rw [cropped.nothing rfl]
        exact isCut
    · rw [if_neg inside] at isFront
      cases isFront
      refine ⟨rfl, numbered, ?_⟩
      have isCut := cut_back_cons (first.samples, first.id) cropped.isCut
      have isSum : first.samples + (n - first.samples) = n := by omega
      rw [isSum] at isCut
      exact isCut

theorem written_table
    (numbered : ∀ entry ∈ front.toList, entry.chunk = 1) (ascending : Ascending stop (kept.map stscStep))
    (isFirst : firstChunk stop kept = startChunk + 1 + front.toList.length) :
    chunkTable (stop - startChunk) (front.toList ++ kept.map (relative startChunk)) =
      frontRuns front ++ chunkTable stop kept := by
  have shifted : (kept.map (relative startChunk)).map stscStep =
      (kept.map stscStep).map fun step => (step.1 - startChunk, step.2) := by
    rw [List.map_map, List.map_map]
    rfl
  have beyond : ∀ step ∈ kept.map stscStep, startChunk ≤ step.1 := by
    intro step mem
    have least : firstChunk stop kept ≤ step.1 := next_place_le_mem ascending mem
    omega
  have sameTable : chunkTable (stop - startChunk) (kept.map (relative startChunk)) =
      chunkTable stop kept := by
    rw [chunkTable, shifted]
    exact layout_shift ascending beyond
  have sameFirst : firstChunk (stop - startChunk) (kept.map (relative startChunk)) =
      1 + front.toList.length := by
    have isShifted : firstChunk (stop - startChunk) (kept.map (relative startChunk)) =
        firstChunk stop kept - startChunk := by
      cases kept <;> rfl
    omega
  rw [chunk_table_append, sameTable, sameFirst]
  cases front with
  | none => rfl
  | some first =>
    have isOne : first.chunk = 1 := numbered first mem_cons_self
    rw [toList_some, chunk_table_cons, isOne]
    rfl

theorem renumbered (ascending : Ascending stop (kept.map stscStep))
    (small : stop < 2 ^ 32) (later : startChunk ≤ firstChunk stop kept) :
    (kept.map fun entry => { entry with chunk := sub32 entry.chunk startChunk }) =
      kept.map (relative startChunk) := by
  apply map_congr_left
  intro entry mem
  have isStep : stscStep entry ∈ kept.map stscStep := mem_map_of_mem mem
  have least : firstChunk stop kept ≤ entry.chunk := next_place_le_mem ascending isStep
  have most : entry.chunk < stop := mem_lt_stop ascending isStep
  rw [relative, sub32_small (Nat.lt_trans most small) (Nat.le_trans later least)]

def lastChunk (mp4 : Mp4File) (trak : Trak) : Nat :=
  if mp4.length = 0 then trak.chunks else trak.endChunk

/-- What the update of `stsc` leaves: of the chunks before the start none, of the first one what is
behind `startChunkSamples`, and samples up to the end. -/
structure StscUpdated (mp4 : Mp4File) (trak : Trak) (data : List StscEntry) (startSample kept : Nat) :
    Prop where
  isCut : ∃ front, CutFront (chunkTable (trak.chunks + 1) data) front startSample trak.startChunk
      trak.startChunkSamples ∧
    CutBack front (chunkTable (lastChunk mp4 trak - trak.startChunk + 1) (writtenStsc trak)) kept
  isLength : (chunkTable (lastChunk mp4 trak - trak.startChunk + 1) (writtenStsc trak)).length =
    lastChunk mp4 trak - trak.startChunk
  startBefore : trak.startChunk < trak.chunks
  endBefore : lastChunk mp4 trak ≤ trak.chunks
  counted : trak.sampleToChunkEntries = (writtenStsc trak).length

theorem front_table_length (ascending : Ascending stop (kept.map stscStep))
    (isFirst : firstChunk stop kept = startChunk + 1 + front.toList.length) :
    (frontRuns front ++ chunkTable stop kept).length + startChunk + 1 = stop := by
  have isLength : (chunkTable stop kept).length = stop - firstChunk stop kept :=
    layout_length ascending
  have notBehind : firstChunk stop kept ≤ stop := next_place_le ascending
  have frontLength : (frontRuns front).length = front.toList.length := length_map _
  rw [length_append, isLength, frontLength]
  omega

theorem stsc_updated_of {startSample n : Nat} {front cutFront last : Option StscEntry}
    {table kept : List StscEntry} (isStart : trak.stscStart = cutFront)
    (isStsc : trak.stsc = some (kept.map (relative trak.startChunk)))
    (isEnd : trak.stscEnd = last.map (relative trak.startChunk)) (isEntries : trak.sampleToChunkEntries =
      cutFront.toList.length + kept.length + last.toList.length)
    (tableInOrder : InOrder (trak.chunks + 1) table) (someTable : table ≠ [])
    (isFirst : firstChunk (trak.chunks + 1) table = trak.startChunk + 1 + front.toList.length)
    (sameLen : cutFront.toList.length = front.toList.length)
    (numbered : ∀ entry ∈ cutFront.toList, entry.chunk = 1)
    (isCutFront : CutFront (chunkTable (trak.chunks + 1) data)
      (frontRuns front ++ chunkTable (trak.chunks + 1) table) startSample trak.startChunk
      trak.startChunkSamples)
    (ascending : Ascending (lastChunk mp4 trak + 1) ((kept ++ last.toList).map stscStep))
    (sameFirst : firstChunk (lastChunk mp4 trak + 1) (kept ++ last.toList) =
      firstChunk (trak.chunks + 1) table)
    (isCutBack : CutBack (frontRuns front ++ chunkTable (trak.chunks + 1) table)
      (frontRuns cutFront ++ chunkTable (lastChunk mp4 trak + 1) (kept ++ last.toList)) n) :
    StscUpdated mp4 trak data startSample n := by
  have keptFirst : firstChunk (lastChunk mp4 trak + 1) (kept ++ last.toList) =
      trak.startChunk + 1 + cutFront.toList.length := by
    rw [sameFirst, isFirst, sameLen]
  have keptLength := front_table_length ascending keptFirst
  have tableLength := front_table_length tableInOrder.ascending isFirst
  have shorter := cut_back_length isCutBack
  have written : writtenStsc trak =
      cutFront.toList ++ (kept ++ last.toList).map (relative trak.startChunk) := by
    rw [writtenStsc, isStart, isStsc, isEnd, map_append, append_assoc]
    cases last <;> rfl
  have isStop : lastChunk mp4 trak - trak.startChunk + 1 = lastChunk mp4 trak + 1 - trak.startChunk := by
    omega
  have isTable : chunkTable (lastChunk mp4 trak - trak.startChunk + 1) (writtenStsc trak) =
      frontRuns cutFront ++ chunkTable (lastChunk mp4 trak + 1) (kept ++ last.toList) := by
    rw [written, isStop]
    exact written_table numbered ascending keptFirst
  refine ⟨⟨_, isCutFront, ?_⟩, ?_, ?_, by omega, ?_⟩
  · rw [isTable]
    exact isCutBack
  · rw [isTable]
    omega
  · cases table with
    | nil => cases someTable rfl
    | cons entry rest =>
      have inside := mem_lt_stop tableInOrder.ascending (mem_cons_self)
      have isChunk : (stscStep entry).1 = trak.startChunk + 1 + front.toList.length := isFirst
      omega
  · rw [written, isEntries, length_append, length_map, length_append, add_assoc]

theorem update_stsc_spec (present : trak.stsc = some data) (inOrder : InOrder (trak.chunks + 1) data)
    (fromOne : firstChunk (trak.chunks + 1) data = 1) (count : trak.sampleToChunkEntries = data.length)
    (noFront : trak.stscStart = none) (noLast : trak.stscEnd = none) {kept : Nat}
    (window : Window mp4 (total (chunkTable (trak.chunks + 1) data)) trak.startSample kept)
    (isKept : mp4.length ≠ 0 → trak.endSample - trak.startSample = kept)
    (updated : updateStscAtom mp4 trak = some after) :
    ∃ entries startChunk endChunk startChunkSamples endChunkSamples stsc stscStart stscEnd, after =
      { trak with
        sampleToChunkEntries := entries
        startChunk := startChunk
        endChunk := endChunk
        startChunkSamples := startChunkSamples
        endChunkSamples := endChunkSamples
        stsc := some stsc
        stscStart := stscStart
        stscEnd := stscEnd } ∧
      StscUpdated mp4 after data trak.startSample kept := by
  have start := window.start
  have within := window.within
  obtain ⟨given, isGiven, updated⟩ := bind_eq_some_iff.1 updated
  rw [present] at isGiven
  cases isGiven
  have someEntries : ¬ trak.sampleToChunkEntries = 0 := by
    rw [count]
    intro isZero
    rw [length_eq_zero_iff.1 isZero] at start
    cases start
  rw [if_neg someEntries] at updated
  obtain ⟨middle, cropped, rest⟩ := bind_eq_some_iff.1 updated
  obtain ⟨front, table, startChunk, startChunkSamples, rfl, tableInOrder, someTable, isFirst, numbered,
    isCutFront⟩ := crop_stsc_start_spec inOrder fromOne count start noFront cropped
  obtain ⟨given, isGiven, rest⟩ := bind_eq_some_iff.1 rest
  cases isGiven
  obtain ⟨final, croppedEnd, rest⟩ := bind_eq_some_iff.1 rest
  by_cases isWhole : mp4.length = 0
  · rw [cropStscEnd, if_pos isWhole] at croppedEnd
    cases croppedEnd
    obtain ⟨given, isGiven, rest⟩ := bind_eq_some_iff.1 rest
    cases isGiven
    have later : startChunk ≤ firstChunk (trak.chunks + 1) table := by omega
    rw [renumbered tableInOrder.ascending tableInOrder.small later] at rest
    refine ⟨front.toList.length + table.length, startChunk, trak.endChunk, startChunkSamples,
      trak.endChunkSamples, table.map (relative startChunk), front, trak.stscEnd,
      (Option.some.inj rest).symm, ?_⟩
    have isLast : ∀ other : Trak, lastChunk mp4 other = other.chunks := fun _ => if_pos isWhole
    have isTotal := cut_front_total isCutFront
    have isCutBack : CutBack (frontRuns front ++ chunkTable (trak.chunks + 1) table)
        (frontRuns front ++ chunkTable (trak.chunks + 1) (table ++ [])) kept := by
      have keepsAll : kept = total (frontRuns front ++ chunkTable (trak.chunks + 1) table) := by
        have := window.whole isWhole
        omega
      rw [keepsAll, append_nil]
      exact CutBack.between _ [] (append_nil _).symm
    rw [← Option.some.inj rest]
    refine @stsc_updated_of data _ mp4 trak.startSample kept front front none table table rfl rfl ?_ ?_
      tableInOrder someTable isFirst rfl numbered isCutFront ?_ ?_ ?_
    · rw [noLast, map_none]
    · rfl
    · rw [isLast, toList_none, append_nil]
      exact tableInOrder.ascending
    · rw [isLast, toList_none, append_nil]
    · rw [isLast]
      exact isCutBack
  · have isFrontCut : cropStartEntry (word32 (trak.endSample - trak.startSample)) front =
        ((cropStartEntry kept front).1, (cropStartEntry kept front).2) := by
      have small := inOrder.smallTotal
      rw [isKept isWhole, word32_small (by omega)]
    obtain ⟨keptTable, last, endChunk, endChunkSamples, rfl, cropped⟩ := @crop_stsc_end_spec table
      { trak with
        sampleToChunkEntries := front.toList.length + table.length
        startChunk := startChunk
        startChunkSamples := startChunkSamples
        stscStart := front
        stsc := some table } final mp4 isWhole tableInOrder (by dsimp only; omega) someTable rfl noLast
      _ _ isFrontCut croppedEnd
    obtain ⟨given, isGiven, rest⟩ := bind_eq_some_iff.1 rest
    cases isGiven
    obtain ⟨sameLen, cutNumbered, isCutBack⟩ := crop_start_entry_spec rfl numbered cropped
    have keptAscending : Ascending (firstChunk (endChunk + 1) last.toList) (keptTable.map stscStep) := by
      have ascending := cropped.ascending
      rw [map_append, ascending_append] at ascending
      exact ascending.1
    dsimp only at rest cropped
    have later : startChunk ≤ firstChunk (firstChunk (endChunk + 1) last.toList) keptTable := by
      rw [← first_chunk_append, cropped.sameFirst]
      omega
    have stopSmall : firstChunk (endChunk + 1) last.toList < 2 ^ 32 := by
      have ascending := cropped.ascending
      rw [map_append, ascending_append] at ascending
      have notBehind : firstChunk (endChunk + 1) last.toList ≤ endChunk + 1 := next_place_le ascending.2
      have endLe := cropped_end_le tableInOrder cropped
      exact Nat.lt_of_le_of_lt (Nat.le_trans notBehind endLe) tableInOrder.small
    rw [renumbered keptAscending stopSmall later] at rest
    refine ⟨_, startChunk, endChunk, startChunkSamples, endChunkSamples,
      keptTable.map (relative startChunk), _, _, (Option.some.inj rest).symm, ?_⟩
    have isLast : ∀ other : Trak, lastChunk mp4 other = other.endChunk := fun _ => if_neg isWhole
    rw [← Option.some.inj rest]
    refine @stsc_updated_of data _ mp4 trak.startSample kept front (cropStartEntry kept front).1 last
      table keptTable rfl rfl rfl rfl tableInOrder someTable isFirst sameLen cutNumbered isCutFront
      ?_ ?_ ?_
    · rw [isLast]
      exact cropped.ascending
    · rw [isLast]
      exact cropped.sameFirst
    · rw [isLast]
      exact isCutBack

end ServerCore.NginxHttpMp4Chunks
