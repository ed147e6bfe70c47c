import ServerCore.NginxHttpMp4
import ServerCore.RunTables

/-!
# Cropping the tables of times and sync samples

The crops of `stts` and `ctts` find the run in which the cut lies and shorten it, so the lists of
durations and of composition offsets lose what is before the start and behind
the end. `stss` lists the numbers of the sync samples in order, and keeps those
between the cuts, counted from the start.
-/

namespace ServerCore.NginxHttpMp4Times

open RunTables NginxHttpMp4 List

variable {kept : Nat}

theorem word32_small {n : Nat} (small : n < 2 ^ 32) : word32 n = n := Nat.mod_eq_of_lt small

theorem sub32_small {a b : Nat} (small : a < 2 ^ 32) (below : b ≤ a) : sub32 a b = a - b := by
  unfold sub32 word32
  rw [Nat.mod_eq_of_lt (by omega : b < 2 ^ 32)]
  have moved : a + (2 ^ 32 - b) = (a - b) + 2 ^ 32 := by omega
  rw [moved, Nat.add_mod_right]
  exact Nat.mod_eq_of_lt (by omega)

section Stts

def sttsRun (entry : SttsEntry) : Nat × Nat := (entry.count, entry.duration)

def durations (data : List SttsEntry) : List Nat := expand (data.map sttsRun)

theorem durations_append (first second : List SttsEntry) :
    durations (first ++ second) = durations first ++ durations second := by
  rw [durations, map_append, expand_append]
  rfl

theorem durations_singleton_length (entry : SttsEntry) : (durations [entry]).length = entry.count := by
  simp [durations, expand, sttsRun]

theorem stts_loop_spec (data : List SttsEntry) (scan : SttsScan) :
    ∃ passed, data = passed ++ (sttsLoop scan data).2 ∧
      (sttsLoop scan data).1.passed = scan.passed ++ passed ∧
      (sttsLoop scan data).1.startSample = scan.startSample + (durations passed).length ∧
      (sttsLoop scan data).1.entries = scan.entries - passed.length ∧
      ∀ entry behind, (sttsLoop scan data).2 = entry :: behind →
        (sttsLoop scan data).1.startTime < entry.count * entry.duration := by
  induction data generalizing scan with
  | nil =>
    refine ⟨[], rfl, (append_nil _).symm, rfl, rfl, ?_⟩
    intro entry behind isCons
    cases isCons
  | cons entry rest ih =>
    by_cases found : scan.startTime < entry.count * entry.duration
    · have stops : sttsLoop scan (entry :: rest) = (scan, entry :: rest) := by
        rw [sttsLoop, if_pos found]
      rw [stops]
      refine ⟨[], rfl, (append_nil _).symm, rfl, rfl, ?_⟩
      intro other behind isCons
      cases isCons
      exact found
    · have goes : sttsLoop scan (entry :: rest) = sttsLoop (scan.turn entry) rest := by
        rw [sttsLoop, if_neg found]
      rw [goes]
      obtain ⟨passed, isData, isPassed, isSample, isEntries, whenFound⟩ := ih (scan.turn entry)
      refine ⟨entry :: passed, ?_, ?_, ?_, ?_, whenFound⟩
      · rw [cons_append, ← isData]
      · rw [isPassed, SttsScan.turn, append_assoc, singleton_append]
      · have split : durations (entry :: passed) = durations [entry] ++ durations passed :=
          durations_append [entry] passed
        rw [isSample, SttsScan.turn, split, length_append, durations_singleton_length, add_assoc]
      · rw [isEntries, length_cons]
        dsimp only [SttsScan.turn]
        omega

theorem time_in_run {startTime count duration : Nat} (found : startTime < count * duration)
    (small : count < 2 ^ 32) :
    startTime / duration < count ∧ word32 (startTime / duration) = startTime / duration := by
  have within : startTime / duration < count := Nat.div_lt_of_lt_mul (by rwa [mul_comm])
  exact ⟨within, word32_small (Nat.lt_trans within small)⟩

variable {mp4 : Mp4File} {trak after : Trak} {data : List SttsEntry}

theorem crop_stts_start_spec (counted : trak.timeToSampleEntries = data.length)
    (small : ∀ entry ∈ data, entry.count < 2 ^ 32) (cropped : cropSttsStart mp4 trak data = some after) :
    ∃ table startSample, after = { trak with
        stts := some table
        timeToSampleEntries := table.length
        startSample := startSample } ∧
      startSample < (durations data).length ∧ durations table = (durations data).drop startSample ∧
      ∀ entry ∈ table, entry.count < 2 ^ 32 := by
  unfold cropSttsStart at cropped
  dsimp only at cropped
  generalize mp4.start * trak.timescale % 2 ^ 64 / 1000 = startTime at cropped
  obtain ⟨passed, isData, isPassed, isSample, isEntries, whenFound⟩ :=
    stts_loop_spec data ⟨startTime, 0, trak.timeToSampleEntries, []⟩
  generalize sttsLoop ⟨startTime, 0, trak.timeToSampleEntries, []⟩ data = looped at *
  obtain ⟨scan, found⟩ := looped
  cases found with
  | nil => cases cropped
  | cons entry behind =>
    dsimp only at *
    have entrySmall : entry.count < 2 ^ 32 := small entry (by rw [isData]; simp)
    obtain ⟨within, sameRest⟩ := time_in_run (whenFound entry behind rfl) entrySmall
    rw [sameRest] at cropped
    rw [zero_add] at isSample
    cases cropped
    have runs : data.map sttsRun =
        passed.map sttsRun ++ (entry.count, entry.duration) :: behind.map sttsRun := by
      rw [isData, map_append, map_cons]
      rfl
    have length : data.length = passed.length + (behind.length + 1) := by
      rw [isData, length_append, length_cons]
    refine ⟨{ entry with count := entry.count - scan.startTime / entry.duration } :: behind,
      scan.startSample + scan.startTime / entry.duration, ?_, ?_, ?_, ?_⟩
    · have entriesLeft : scan.entries = behind.length + 1 := by
        rw [isEntries, counted, length]
        omega
      rw [entriesLeft]
      rfl
    · have total : (durations data).length =
          (durations passed).length + (entry.count + (durations behind).length) := by
        rw [durations, runs, expand_append, length_append, expand_cons_length]
        rfl
      omega
    · simp only [isSample, durations, runs]
      exact (expand_drop _ _ _ (Nat.le_of_lt within)).symm
    · intro other mem
      rcases mem_cons.1 mem with isFirst | isBehind
      · rw [isFirst]
        exact Nat.lt_of_le_of_lt (Nat.sub_le _ _) entrySmall
      · exact small other (by rw [isData]; simp [isBehind])

theorem crop_stts_end_spec (present : trak.stts = some data)
    (counted : trak.timeToSampleEntries = data.length) (small : ∀ entry ∈ data, entry.count < 2 ^ 32) :
    ∃ table kept, cropSttsEnd mp4 trak data = { trak with
        stts := some table
        timeToSampleEntries := table.length
        endSample := if mp4.length = 0 then trak.endSample else trak.startSample + kept } ∧
      kept ≤ (durations data).length ∧ (mp4.length = 0 → kept = (durations data).length) ∧
      durations table = (durations data).take kept := by
  unfold cropSttsEnd
  by_cases whole : mp4.length = 0
  · rw [if_pos whole]
    refine ⟨data, (durations data).length, ?_, Nat.le_refl _, fun _ => rfl, take_length.symm⟩
    rw [if_pos whole, ← counted, ← present]
  · rw [if_neg whole]
    dsimp only
    generalize mp4.length * trak.timescale % 2 ^ 64 / 1000 = startTime
    obtain ⟨passed, isData, isPassed, isSample, isEntries, whenFound⟩ :=
      stts_loop_spec data ⟨startTime, 0, trak.timeToSampleEntries, []⟩
    generalize sttsLoop ⟨startTime, 0, trak.timeToSampleEntries, []⟩ data = looped at *
    obtain ⟨scan, found⟩ := looped
    cases found with
    | nil =>
      dsimp only at *
      rw [append_nil] at isData
      refine ⟨data, (durations data).length, ?_, Nat.le_refl _, fun _ => rfl, take_length.symm⟩
      rw [if_neg whole, isSample, isData, ← isData, ← counted, ← present, zero_add]
    | cons entry behind =>
      dsimp only at *
      have entrySmall : entry.count < 2 ^ 32 := small entry (by rw [isData]; simp)
      obtain ⟨within, sameRest⟩ := time_in_run (whenFound entry behind rfl) entrySmall
      rw [sameRest, isPassed]
      rw [zero_add] at isSample
      have runs : data.map sttsRun =
          passed.map sttsRun ++ (entry.count, entry.duration) :: behind.map sttsRun := by
        rw [isData, map_append, map_cons]
        rfl
      have length : data.length = passed.length + (behind.length + 1) := by
        rw [isData, length_append, length_cons]
      have total : (durations data).length =
          (durations passed).length + (entry.count + (durations behind).length) := by
        rw [durations, runs, expand_append, length_append, expand_cons_length]
        rfl
      refine ⟨passed ++ [{ entry with count := scan.startTime / entry.duration }],
        scan.startSample + scan.startTime / entry.duration, ?_, by omega,
        fun isWhole => absurd isWhole whole, ?_⟩
      · have entriesLeft : trak.timeToSampleEntries - (scan.entries - 1) =
            (passed ++ [{ entry with count := scan.startTime / entry.duration }]).length := by
          rw [isEntries, counted, length, length_append, length_singleton]
          omega
        rw [if_neg whole, entriesLeft, nil_append]
      · simp only [isSample, durations, runs, map_append]
        exact (expand_take _ _ _ (Nat.le_of_lt within)).symm

/-- The samples that are kept: `kept` of them from `startSample` on. -/
structure Window (mp4 : Mp4File) (total startSample kept : Nat) : Prop where
  start : startSample < total
  within : startSample + kept ≤ total
  whole : mp4.length = 0 → startSample + kept = total

theorem update_stts_spec (present : trak.stts = some data)
    (counted : trak.timeToSampleEntries = data.length) (small : ∀ entry ∈ data, entry.count < 2 ^ 32)
    (updated : updateSttsAtom mp4 trak = some after) : ∃ table startSample kept, after = { trak with
        stts := some table
        timeToSampleEntries := table.length
        startSample := startSample
        endSample := if mp4.length = 0 then trak.endSample else startSample + kept } ∧
      Window mp4 (durations data).length startSample kept ∧
      durations table = ((durations data).drop startSample).take kept := by
  obtain ⟨given, isGiven, updated⟩ := Option.bind_eq_some_iff.1 updated
  rw [present] at isGiven
  cases isGiven
  obtain ⟨middle, cropped, rest⟩ := Option.bind_eq_some_iff.1 updated
  obtain ⟨front, startSample, rfl, isStart, isFront, frontSmall⟩ :=
    crop_stts_start_spec counted small cropped
  obtain ⟨table, kept, isEnd, within, whole, isTable⟩ := @crop_stts_end_spec mp4 { trak with
    stts := some front
    timeToSampleEntries := front.length
    startSample := startSample } front rfl rfl frontSmall
  rw [isFront, length_drop] at within whole
  have isAfter := Option.some.inj rest
  rw [isEnd] at isAfter
  refine ⟨table, startSample, kept, isAfter.symm, ⟨isStart, by omega, ?_⟩, ?_⟩
  · intro isWhole
    omega
  · rw [isTable, isFront]

end Stts

section Ctts

def cttsRun (entry : CttsEntry) : Nat × Nat := (entry.count, entry.offset)

def compositionOffsets (data : List CttsEntry) : List Nat := expand (data.map cttsRun)

theorem composition_offsets_cons_length (entry : CttsEntry) (rest : List CttsEntry) :
    (compositionOffsets (entry :: rest)).length = entry.count + (compositionOffsets rest).length :=
  expand_cons_length (cttsRun entry) (rest.map cttsRun)

theorem ctts_loop_spec (data : List CttsEntry) (scan : CttsScan) (counts : 0 < scan.startSample) :
    ∃ passed, data = passed ++ (cttsLoop scan data).2 ∧
      (cttsLoop scan data).1.passed = scan.passed ++ passed ∧
      scan.startSample = (cttsLoop scan data).1.startSample + (compositionOffsets passed).length ∧
      (cttsLoop scan data).1.entries = scan.entries - passed.length ∧
      0 < (cttsLoop scan data).1.startSample ∧
      ∀ entry behind, (cttsLoop scan data).2 = entry :: behind →
        (cttsLoop scan data).1.startSample ≤ entry.count := by
  induction data generalizing scan with
  | nil =>
    refine ⟨[], rfl, (append_nil _).symm, rfl, rfl, counts, ?_⟩
    intro entry behind isCons
    cases isCons
  | cons entry rest ih =>
    by_cases found : scan.startSample ≤ entry.count
    · have stops : cttsLoop scan (entry :: rest) = (scan, entry :: rest) := by
        rw [cttsLoop, if_pos found]
      rw [stops]
      refine ⟨[], rfl, (append_nil _).symm, rfl, rfl, counts, ?_⟩
      intro other behind isCons
      cases isCons
      exact found
    · have goes : cttsLoop scan (entry :: rest) = cttsLoop (scan.turn entry) rest := by
        rw [cttsLoop, if_neg found]
      rw [goes]
      obtain ⟨passed, isData, isPassed, isSample, isEntries, pos, whenFound⟩ := ih (scan.turn entry)
        (by dsimp only [CttsScan.turn]; omega)
      refine ⟨entry :: passed, ?_, ?_, ?_, ?_, pos, whenFound⟩
      · rw [cons_append, ← isData]
      · rw [isPassed, CttsScan.turn, append_assoc, singleton_append]
      · rw [composition_offsets_cons_length]
        change scan.startSample - entry.count = _ at isSample
        omega
      · rw [isEntries, length_cons]
        dsimp only [CttsScan.turn]
        omega

variable {mp4 : Mp4File} {trak : Trak} {data : List CttsEntry}

section

variable {passed behind : List CttsEntry} {entry : CttsEntry}
  (isData : data = passed ++ entry :: behind)
include isData

theorem ctts_runs :
    data.map cttsRun = passed.map cttsRun ++ (entry.count, entry.offset) :: behind.map cttsRun := by
  rw [isData, map_append, map_cons]
  rfl

theorem ctts_count_le : entry.count ≤ (compositionOffsets data).length := by
  rw [compositionOffsets, ctts_runs isData, expand_append, length_append, expand_cons_length]
  omega

end

theorem crop_ctts_start_spec (counted : trak.compositionOffsetEntries = data.length)
    (small : (compositionOffsets data).length + 1 < 2 ^ 32)
    (inside : trak.startSample < (compositionOffsets data).length) :
    ∃ entry behind, cropCttsStart trak data = { trak with
        ctts := some (entry :: behind)
        compositionOffsetEntries := behind.length + 1 } ∧
      compositionOffsets (entry :: behind) = (compositionOffsets data).drop trak.startSample := by
  unfold cropCttsStart
  rw [word32_small (by omega : trak.startSample + 1 < 2 ^ 32)]
  obtain ⟨passed, isData, isPassed, isSample, isEntries, pos, whenFound⟩ :=
    ctts_loop_spec data ⟨trak.startSample + 1, trak.compositionOffsetEntries, []⟩ (Nat.succ_pos _)
  generalize cttsLoop ⟨trak.startSample + 1, trak.compositionOffsetEntries, []⟩ data = looped at *
  obtain ⟨scan, found⟩ := looped
  cases found with
  | nil =>
    dsimp only at *
    rw [append_nil] at isData
    rw [isData] at inside
    omega
  | cons entry behind =>
    dsimp only at *
    have within := whenFound entry behind rfl
    have entrySmall : entry.count < 2 ^ 32 := Nat.lt_of_le_of_lt (ctts_count_le isData) (by omega)
    rw [sub32_small (Nat.lt_of_le_of_lt within entrySmall) pos,
      sub32_small entrySmall (Nat.le_trans (Nat.sub_le _ _) within)]
    refine ⟨{ entry with count := entry.count - (scan.startSample - 1) }, behind, ?_, ?_⟩
    · have entriesLeft : scan.entries = behind.length + 1 := by
        rw [isEntries, counted, isData, length_append, length_cons]
        omega
      rw [entriesLeft]
    · have cut : trak.startSample =
          (expand (passed.map cttsRun)).length + (scan.startSample - 1) := by
        unfold compositionOffsets at isSample
        omega
      simp only [compositionOffsets, ctts_runs isData]
      rw [cut]
      exact (expand_drop _ _ _ (Nat.le_trans (Nat.sub_le _ _) within)).symm

section

variable (present : trak.ctts = some data) (counted : trak.compositionOffsetEntries = data.length)
include present counted

theorem crop_ctts_end_spec {kept : Nat}
    (small : (compositionOffsets data).length + 1 < 2 ^ 32)
    (inside : kept ≤ (compositionOffsets data).length)
    (isKept : mp4.length ≠ 0 → trak.endSample - trak.startSample = kept)
    (whole : mp4.length = 0 → kept = (compositionOffsets data).length) (someLeft : data ≠ []) :
    ∃ table, cropCttsEnd mp4 trak data = { trak with
        ctts := some table
        compositionOffsetEntries := table.length } ∧
      table ≠ [] ∧ compositionOffsets table = (compositionOffsets data).take kept := by
  unfold cropCttsEnd
  by_cases isWhole : mp4.length = 0
  · rw [if_pos isWhole]
    refine ⟨data, ?_, someLeft, ?_⟩
    · rw [← counted, ← present]
    · rw [whole isWhole, take_length]
  · rw [if_neg isWhole, isKept isWhole, word32_small (by omega : kept + 1 < 2 ^ 32)]
    obtain ⟨passed, isData, isPassed, isSample, isEntries, pos, whenFound⟩ :=
      ctts_loop_spec data ⟨kept + 1, trak.compositionOffsetEntries, []⟩ (Nat.succ_pos _)
    generalize cttsLoop ⟨kept + 1, trak.compositionOffsetEntries, []⟩ data = looped at *
    obtain ⟨scan, found⟩ := looped
    cases found with
    | nil =>
      dsimp only at *
      rw [append_nil] at isData
      refine ⟨data, ?_, someLeft, ?_⟩
      · rw [← counted, ← present]
      · rw [← isData] at isSample
        rw [take_of_length_le (by omega)]
    | cons entry behind =>
      dsimp only at *
      have within := whenFound entry behind rfl
      have entrySmall : entry.count < 2 ^ 32 :=
        Nat.lt_of_le_of_lt (ctts_count_le isData) (by omega)
      rw [isPassed, nil_append, sub32_small (Nat.lt_of_le_of_lt within entrySmall) pos]
      refine ⟨passed ++ [{ entry with count := scan.startSample - 1 }], ?_, by simp, ?_⟩
      · have entriesLeft : trak.compositionOffsetEntries - (scan.entries - 1) =
            (passed ++ [{ entry with count := scan.startSample - 1 }]).length := by
          rw [isEntries, counted, isData, length_append, length_append, length_cons,
            length_singleton]
          omega
        rw [entriesLeft]
      · have cut : kept = (expand (passed.map cttsRun)).length + (scan.startSample - 1) := by
          unfold compositionOffsets at isSample
          omega
        simp only [compositionOffsets, ctts_runs isData, map_append]
        rw [cut]
        exact (expand_take _ _ _ (Nat.le_trans (Nat.sub_le _ _) within)).symm

theorem update_ctts_spec (window : Window mp4 (compositionOffsets data).length trak.startSample kept)
    (small : (compositionOffsets data).length + 1 < 2 ^ 32)
    (isKept : mp4.length ≠ 0 → trak.endSample - trak.startSample = kept) :
    ∃ table, updateCttsAtom mp4 trak = { trak with
        ctts := some table
        compositionOffsetEntries := table.length } ∧
      compositionOffsets table = ((compositionOffsets data).drop trak.startSample).take kept := by
  have start := window.start
  have within := window.within
  have whole := window.whole
  obtain ⟨entry, behind, isFront, isOffsets⟩ := crop_ctts_start_spec counted small start
  have left : (compositionOffsets (entry :: behind)).length =
      (compositionOffsets data).length - trak.startSample := by
    rw [isOffsets, length_drop]
  obtain ⟨table, isEnd, someTable, isTable⟩ := @crop_ctts_end_spec mp4 { trak with
      ctts := some (entry :: behind)
      compositionOffsetEntries := behind.length + 1 } (entry :: behind) rfl rfl kept (by rw [left]; omega)
    (by omega) isKept (by omega) (cons_ne_nil _ _)
  have someEntries : table.length ≠ 0 := fun isZero => someTable (length_eq_zero_iff.1 isZero)
  refine ⟨table, ?_, ?_⟩
  · unfold updateCttsAtom
    rw [present]
    dsimp only
    rw [isFront]
    dsimp only
    rw [isEnd, if_neg someEntries]
  · rw [isTable, isOffsets]

end

end Ctts

section Stss

variable {mp4 : Mp4File} {trak after : Trak} {data : List Nat}

theorem stss_loop_spec (startSample entries : Nat) (passed data : List Nat)
    (inOrder : data.Pairwise (· < ·)) : stssLoop startSample entries passed data =
      (entries - (data.filter fun sample => sample < startSample).length,
        passed ++ data.filter fun sample => sample < startSample,
        data.filter fun sample => startSample ≤ sample) := by
  induction data generalizing entries passed with
  | nil => simp [stssLoop]
  | cons sample rest ih =>
    obtain ⟨later, restInOrder⟩ := pairwise_cons.1 inOrder
    rw [stssLoop]
    by_cases found : sample ≥ startSample
    · have allLater : ∀ other ∈ rest, startSample ≤ other := by
        intro other mem
        have := later other mem
        omega
      have noneBefore : rest.filter (fun other => other < startSample) = [] := by
        rw [filter_eq_nil_iff]
        intro other mem
        have := allLater other mem
        simp only [decide_eq_true_eq]
        omega
      have allKept : rest.filter (fun other => startSample ≤ other) = rest := by
        rw [filter_eq_self]
        intro other mem
        exact decide_eq_true (allLater other mem)
      have notBefore : ¬ sample < startSample := by omega
      rw [if_pos found]
      simp [found, notBefore, noneBefore, allKept]
    · have before : sample < startSample := by omega
      rw [if_neg found, ih (entries - 1) (passed ++ [sample]) restInOrder]
      simp only [filter_cons, before, decide_true, if_true, length_cons,
        decide_eq_false found, append_assoc, singleton_append]
      simp only [Bool.false_eq_true, if_false]
      congr 1
      omega

theorem filter_part_length (data : List Nat) (bound : Nat) :
    (data.filter fun sample => sample < bound).length +
      (data.filter fun sample => bound ≤ sample).length = data.length := by
  simp only [data.length_eq_length_filter_add fun sample => sample < bound, ← decide_not, Nat.not_lt]

def keptSync (mp4 : Mp4File) (startSample kept : Nat) (data : List Nat) : List Nat :=
  data.filter fun sample =>
    startSample + 1 ≤ sample ∧ (mp4.length ≠ 0 → sample < startSample + kept + 1)

theorem crop_stss_start_spec (inOrder : data.Pairwise (· < ·))
    (counted : trak.syncSamplesEntries = data.length) (small : trak.startSample + 1 < 2 ^ 32) :
    cropStssStart trak data = { trak with
      stss := some (data.filter fun sample => trak.startSample + 1 ≤ sample)
      syncSamplesEntries := (data.filter fun sample => trak.startSample + 1 ≤ sample).length } := by
  have parts := filter_part_length data (trak.startSample + 1)
  have left : data.length - (data.filter fun sample => sample < trak.startSample + 1).length =
      (data.filter fun sample => trak.startSample + 1 ≤ sample).length := by omega
  unfold cropStssStart
  rw [word32_small small, stss_loop_spec _ _ _ _ inOrder, counted, left]

theorem crop_stss_end_spec (isCropped : mp4.length ≠ 0) (inOrder : data.Pairwise (· < ·))
    (counted : trak.syncSamplesEntries = data.length) (small : trak.endSample + 1 < 2 ^ 32) :
    cropStssEnd mp4 trak data = { trak with
      stss := some (data.filter fun sample => sample < trak.endSample + 1)
      syncSamplesEntries := (data.filter fun sample => sample < trak.endSample + 1).length } := by
  have parts := filter_part_length data (trak.endSample + 1)
  have left : data.length - (data.length -
      (data.filter fun sample => sample < trak.endSample + 1).length) =
      (data.filter fun sample => sample < trak.endSample + 1).length := by omega
  unfold cropStssEnd
  rw [if_neg isCropped, word32_small small, stss_loop_spec _ _ _ _ inOrder, counted]
  dsimp only
  rw [left, nil_append]

theorem crop_stss_spec (inOrder : data.Pairwise (· < ·))
    (counted : trak.syncSamplesEntries = data.length) {total : Nat}
    (window : Window mp4 total trak.startSample kept) (small : total + 1 < 2 ^ 32)
    (isEnd : mp4.length ≠ 0 → trak.endSample = trak.startSample + kept) :
    ∃ front, (cropStssStart trak data).stss = some front ∧
      cropStssEnd mp4 (cropStssStart trak data) front = { trak with
        stss := some (keptSync mp4 trak.startSample kept data)
        syncSamplesEntries := (keptSync mp4 trak.startSample kept data).length } := by
  have within := window.within
  rw [crop_stss_start_spec inOrder counted (by omega)]
  refine ⟨_, rfl, ?_⟩
  by_cases isWhole : mp4.length = 0
  · have same : keptSync mp4 trak.startSample kept data =
        data.filter fun sample => trak.startSample + 1 ≤ sample := by
      unfold keptSync
      congr 1
      funext sample
      simp [isWhole]
    rw [cropStssEnd, if_pos isWhole, same]
  · have ends := isEnd isWhole
    have same : keptSync mp4 trak.startSample kept data =
        (data.filter fun sample => trak.startSample + 1 ≤ sample).filter fun sample =>
          sample < trak.endSample + 1 := by
      unfold keptSync
      rw [filter_filter, ends]
      congr 1
      funext sample
      simp [isWhole, Bool.and_comm]
    have endSmall : trak.endSample + 1 < 2 ^ 32 := by omega
    rw [same]
    exact @crop_stss_end_spec mp4 { trak with
      stss := some (data.filter fun sample => trak.startSample + 1 ≤ sample)
      syncSamplesEntries := (data.filter fun sample => trak.startSample + 1 ≤ sample).length }
      _ isWhole (inOrder.filter _) rfl endSmall

theorem update_stss_spec (present : trak.stss = some data) (inOrder : data.Pairwise (· < ·))
    (counted : trak.syncSamplesEntries = data.length) {total : Nat}
    (window : Window mp4 total trak.startSample kept) (small : total + 1 < 2 ^ 32)
    (isEnd : mp4.length ≠ 0 → trak.endSample = trak.startSample + kept)
    (updated : updateStssAtom mp4 trak = some after) : ∃ table, after = { trak with
        stss := if table = [] then none else some table
        syncSamplesEntries := table.length } ∧
      table = (keptSync mp4 trak.startSample kept data).map fun sample =>
        sub32 sample trak.startSample := by
  unfold updateStssAtom at updated
  rw [present] at updated
  obtain ⟨front, isFront, isCropped⟩ := crop_stss_spec inOrder counted window small isEnd
  obtain ⟨given, isGiven, rest⟩ := Option.bind_eq_some_iff.1 updated
  rw [isFront] at isGiven
  cases isGiven
  rw [isCropped] at rest
  obtain ⟨given, isGiven, rest⟩ := Option.bind_eq_some_iff.1 rest
  cases isGiven
  refine ⟨_, ?_, rfl⟩
  by_cases noneLeft : keptSync mp4 trak.startSample kept data = []
  · rw [noneLeft, length_nil, if_neg (fun absurdly => absurdly rfl)] at rest
    rw [noneLeft, map_nil, if_pos rfl]
    exact (Option.some.inj rest).symm
  · have counts : (keptSync mp4 trak.startSample kept data).length ≠ 0 := by
      intro isZero
      exact noneLeft (length_eq_zero_iff.1 isZero)
    have someLeft : ¬ ((keptSync mp4 trak.startSample kept data).map fun sample =>
        sub32 sample trak.startSample) = [] := by
      intro isNil
      exact noneLeft (map_eq_nil_iff.1 isNil)
    rw [if_pos counts] at rest
    rw [if_neg someLeft, length_map]
    exact (Option.some.inj rest).symm

theorem kept_sync_spec {startSample i : Nat} (inside : i < kept)
    (small : ∀ sample ∈ data, sample < 2 ^ 32) :
    i + 1 ∈ ((keptSync mp4 startSample kept data).map fun sample => sub32 sample startSample) ↔
      startSample + i + 1 ∈ data := by
  constructor
  · intro mem
    obtain ⟨sample, isKept, isNumber⟩ := mem_map.1 mem
    obtain ⟨inData, bounds⟩ := mem_filter.1 isKept
    have after := (of_decide_eq_true bounds).1
    rw [sub32_small (small sample inData) (by omega)] at isNumber
    have isSample : startSample + i + 1 = sample := by omega
    rw [isSample]
    exact inData
  · intro mem
    refine mem_map.2 ⟨startSample + i + 1, mem_filter.2 ⟨mem, ?_⟩, ?_⟩
    · refine decide_eq_true ⟨by omega, fun _ => by omega⟩
    · rw [sub32_small (small _ mem) (by omega)]
      omega

end Stss

end ServerCore.NginxHttpMp4Times
