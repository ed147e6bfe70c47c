import ServerCore.NginxHttpChunkedDecoding

/-!
# How much of a chunked body is still to come

`ctx->length` is an estimate from below, computed by hand for every state. No byte
brings the end of the body nearer than by one, so a caller that waits for this many
bytes never waits for bytes behind the body.
-/

namespace ServerCore.NginxHttpChunkedBounds

open NginxHttpParse (Byte Bytes cr lf)
open NginxHttpChunked NginxHttpChunkedDecoding

variable {machine : Machine}

section Steps

variable {state next : State} {size count : Nat} {ch : Byte}

theorem chunk_size_length (moved : swChunkSize size ch = .next next count) :
    lengthOf .swChunkSize size ≤ 1 + lengthOf next count := by
  unfold swChunkSize at moved
  split at moved
  · cases moved
  · split at moved
    · injection moved with isNext isCount
      rw [← isNext, lengthOf, lengthOf]
      split_ifs <;> omega
    · split at moved
      · rename_i isZero
        split_ifs at moved <;> injection moved with isNext isCount <;> rw [← isNext, ← isCount, isZero] <;>
          decide
      · rename_i notZero
        have isLength : lengthOf .swChunkSize size = 1 + (size + 4) := by rw [lengthOf, if_pos notZero]
        rw [isLength]
        split_ifs at moved <;> injection moved with isNext isCount <;> rw [← isNext, ← isCount] <;>
          simp only [lengthOf] <;> omega

theorem turn_length (moved : turn state size ch = .next next count) :
    lengthOf state size ≤ 1 + lengthOf next count := by
  cases state with
  | swChunkStart =>
    simp only [turn, swChunkStart] at moved
    split at moved
    · injection moved with isNext isCount
      rw [← isNext, lengthOf, lengthOf]
      split_ifs <;> omega
    · cases moved
  | swChunkSize => exact chunk_size_length moved
  | swChunkData => cases moved
  | _ =>
    simp only [turn, skipLine, expectLf, swTrailer, swTrailerAlmostDone] at moved
    split_ifs at moved <;> injection moved with isNext isCount <;> rw [← isNext, ← isCount] <;>
      simp only [lengthOf] <;> omega

theorem turn_done_length (moved : turn state size ch = .done) : lengthOf state size = 1 := by
  cases state with
  | swTrailer => rfl
  | swTrailerAlmostDone => rfl
  | swChunkStart =>
    simp only [turn, swChunkStart] at moved
    split at moved <;> cases moved
  | swChunkSize =>
    simp only [turn, swChunkSize] at moved
    split at moved
    · cases moved
    · split at moved
      · cases moved
      · split_ifs at moved
  | swChunkData => cases moved
  | _ =>
    simp only [turn, skipLine, expectLf] at moved
    split_ifs at moved

theorem after_byte_length (isData : machine.state = .swChunkData) :
    lengthOf machine.state machine.size ≤ 1 + lengthOf (afterByte machine).state
      (afterByte machine).size := by
  rw [isData, afterByte]
  split_ifs <;> simp only [lengthOf] <;> omega

theorem run_done_length {input body tail : Bytes}
    (finished : run machine input = .done body tail) :
    lengthOf machine.state machine.size + tail.length ≤ input.length := by
  induction input generalizing machine body with
  | nil =>
    rw [run] at finished
    split at finished <;> cases finished
  | cons ch rest ih =>
    rw [List.length_cons]
    by_cases isData : machine.state = .swChunkData
    · have less := after_byte_length isData
      rw [run_data isData] at finished
      cases later : run (afterByte machine) rest with
      | again body' ctx | error body' => rw [later] at finished; cases finished
      | done body' tail' =>
        rw [later] at finished
        injection finished with _ isTail
        rw [isTail] at later
        have rest_ := ih later
        omega
    · cases moved : turn machine.state machine.size ch with
      | next state size =>
        have less := turn_length moved
        rw [run_next _ moved] at finished
        have rest_ := ih finished
        dsimp only at rest_
        omega
      | data => exact absurd (turn_data moved) isData
      | done =>
        rw [run_done _ moved] at finished
        injection finished with _ isTail
        rw [turn_done_length moved, isTail]
        omega
      | invalid => rw [run_invalid _ moved] at finished; cases finished

end Steps

section Calls

/-- The contexts with which a caller may come to a call: it has made calls that ended with
`NGX_OK` or `NGX_AGAIN`, and of the data of a chunk it has taken some, but not more than
`ctx->size`. -/
inductive Context : Chunked → Prop
  | initial : Context initial
  | called {ctx after : Chunked} {b rest : Bytes} {rc : ReturnCode} (before : Context ctx)
      (isCall : ngxHttpParseChunked ctx b = (rc, after, rest)) (goesOn : rc = .ngxOk ∨ rc = .ngxAgain) :
      Context after
  | consumed {ctx : Chunked} {taken : Nat} (before : Context ctx) (isData : ctx.state = .swChunkData)
      (fits : taken ≤ ctx.size) : Context { ctx with size := ctx.size - taken }

variable {ctx after : Chunked} {b rest : Bytes} {rc : ReturnCode}

structure Estimated (after : Chunked) : Prop where
  proper : Proper ⟨after.state, after.size⟩
  small : after.size ≤ maxOffT - 5
  isLength : after.length = lengthOf after.state after.size

theorem call_estimated (proper : Proper (entry ctx)) (isCall : ngxHttpParseChunked ctx b = (rc, after, rest))
    (goesOn : rc = .ngxOk ∨ rc = .ngxAgain) : Estimated after := by
  have meets := loop_meets proper b
  unfold ngxHttpParseChunked at isCall
  match ended : loop (entryState ctx) ctx.size b, meets with
  | .data .ngxAgain state size rest, meets =>
    rw [ended] at isCall
    dsimp only at isCall
    by_cases large : size > maxOffT - 5
    · rw [if_pos large] at isCall
      cases isCall
      rcases goesOn with isOk | isAgain
      · cases isOk
      · cases isAgain
    · rw [if_neg large] at isCall
      cases isCall
      change run (entry ctx) b = run ⟨state, size⟩ [] at meets
      rw [run.eq_def ⟨state, size⟩ [], if_neg large] at meets
      exact ⟨run_again_proper proper meets, Nat.not_lt.1 large, rfl⟩
  | .data .ngxOk state size rest, meets =>
    obtain ⟨isData, stateProper, _, _, _⟩ := meets
    rw [isData] at stateProper
    have small := data_small stateProper
    rw [ended] at isCall
    dsimp only at isCall
    rw [if_neg small] at isCall
    cases isCall
    rw [← isData] at stateProper
    exact ⟨stateProper, Nat.not_lt.1 small, rfl⟩
  | .done size rest, meets | .invalid size, meets =>
    rw [ended] at isCall
    cases isCall
    rcases goesOn with isOk | isAgain
    · cases isOk
    · cases isAgain

theorem estimated_entry (estimated : Estimated after) : entry after = ⟨after.state, after.size⟩ := by
  have pos := estimated.proper.awaits
  unfold entry entryState
  rw [if_neg]
  rintro ⟨isData, isZero⟩
  have some_ := pos (.inr (.inr isData))
  dsimp only at some_
  omega

theorem consumed_proper {taken : Nat} (proper : Proper (entry ctx)) (isData : ctx.state = .swChunkData)
    (fits : taken ≤ ctx.size) : Proper (entry { ctx with size := ctx.size - taken }) := by
  unfold entry entryState
  dsimp only
  by_cases isEmpty : ctx.size - taken = 0
  · rw [if_pos ⟨isData, isEmpty⟩, isEmpty]
    exact proper_of_small (Nat.zero_le _) (by simp [AwaitsData])
  · rw [if_neg fun both => isEmpty both.2]
    have isEntry : entry ctx = ⟨ctx.state, ctx.size⟩ := by
      unfold entry entryState
      rw [if_neg fun both => by omega]
    rw [isEntry, isData] at proper
    have small : ctx.size ≤ maxOffT / 16 := by
      by_contra large
      cases proper.limit (Nat.not_le.1 large)
    exact proper_of_small (by omega) fun _ => by omega

theorem context_proper (context : Context ctx) : Proper (entry ctx) := by
  induction context with
  | initial => exact initial_proper
  | called before isCall goesOn ih =>
    have estimated := call_estimated ih isCall goesOn
    rw [estimated_entry estimated]
    exact estimated.proper
  | consumed before isData fits ih => exact consumed_proper ih isData fits

theorem length_fits {state : State} {size : Nat} (small : size ≤ maxOffT - 5) :
    lengthOf state size ≤ maxOffT := by
  have room : 5 ≤ maxOffT := by decide
  cases state <;> simp only [lengthOf] <;> try split_ifs
  all_goals omega

/-- After every call that goes on, `ctx->length` is in the range of `off_t`, and whatever
comes next and however it is cut, the end of the body is at least that far away. -/
theorem chunked_length_bound (context : Context ctx)
    (isCall : ngxHttpParseChunked ctx b = (rc, after, rest)) (goesOn : rc ≠ .ngxError ∧ rc ≠ .ngxDone) :
    after.size ≤ maxOffT - 5 ∧ after.length ≤ maxOffT ∧ ∀ (bs : List Bytes) (body tail : Bytes),
        driveAll after bs = some (.done body tail) → after.length + tail.length ≤ bs.flatten.length := by
  have estimated : Estimated after := by
    refine call_estimated (context_proper context) isCall ?_
    cases rc with
    | ngxOk => exact .inl rfl
    | ngxAgain => exact .inr rfl
    | ngxDone => exact absurd rfl goesOn.2
    | ngxError => exact absurd rfl goesOn.1
  rw [estimated.isLength]
  refine ⟨estimated.small, length_fits estimated.small, ?_⟩
  intro bs body tail finished
  have isEntry := estimated_entry estimated
  cases bs with
  | nil =>
    cases finished
  | cons first bs =>
    rw [drive_all_cons bs first after (by rw [isEntry]; exact estimated.proper), isEntry] at finished
    exact run_done_length (Option.some.inj finished)

/-- A chunk of five bytes, the rest of the body in two pieces and one byte behind it. -/
theorem five_bytes_to_come : ∃ after, ngxHttpParseChunked initial ['5'.toUInt8, cr, lf] =
    (.ngxAgain, after, []) ∧
      after.length = 9 ∧ after.length + 1 ≤ 13 := by
  have isCall : ngxHttpParseChunked initial ['5'.toUInt8, cr, lf] =
      (.ngxAgain, ⟨.swChunkData, 5, 9⟩, []) := rfl
  have bound := (chunked_length_bound Context.initial isCall ⟨nofun, nofun⟩).2.2
    [[104, 101, 108, 108, 111, cr], [lf, 48, cr, lf, cr, lf, 71]] [104, 101, 108, 108, 111] [71]
  exact ⟨_, isCall, rfl, bound rfl⟩

end Calls

end ServerCore.NginxHttpChunkedBounds
