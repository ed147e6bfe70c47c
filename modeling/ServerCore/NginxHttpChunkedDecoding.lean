import ServerCore.NginxHttpChunked

/-!
# Decoding of chunked bodies

The parser and its caller together read one byte after the other: a byte of
data is taken, every other byte moves the state. The run of this machine over
all bytes says what any sequence of buffers gives.
-/

namespace ServerCore.NginxHttpChunkedDecoding

open NginxHttpParse (Byte Bytes cr lf)
open NginxHttpChunked List Option

variable {rest : Bytes} {size : Nat}
variable {after : State} {count size : Nat} {b text : Bytes} {lineEnd : LineEnd}
  {digits : List Digit}

structure Machine where
  state : State
  size : Nat

def move (m : Machine) (ch : Byte) (goOn : Machine → Outcome) (rest : Bytes) : Outcome :=
  match turn m.state m.size ch with
  | .next state size => goOn ⟨state, size⟩
  | .done => .done [] rest
  | .data | .invalid => .error []

def afterByte (m : Machine) : Machine :=
  if m.size = 1 then ⟨.swAfterData, 0⟩ else ⟨.swChunkData, m.size - 1⟩

/-- The bytes of a body one after the other. At the end of the input a size
that is too large is an error. -/
def run (m : Machine) : Bytes → Outcome
  | [] => if m.size > maxOffT - 5 then .error []
      else .again [] ⟨m.state, m.size, lengthOf m.state m.size⟩
  | ch :: rest =>
    if m.state = .swChunkData then (run (afterByte m) rest).prepend [ch]
    else move m ch (fun m => run m rest) rest

def AwaitsData (state : State) : Prop :=
  state = .swChunkExtension ∨ state = .swChunkExtensionAlmostDone ∨ state = .swChunkData

/-- A size beyond the limit is only met while it is read, and data is to come
while the size is positive. -/
structure Proper (m : Machine) : Prop where
  awaits : AwaitsData m.state → 0 < m.size
  limit : maxOffT / 16 < m.size → m.state = .swChunkSize

@[simp] theorem prepend_nil (outcome : Outcome) : outcome.prepend [] = outcome := by
  cases outcome <;> rfl

@[simp] theorem prepend_prepend (front back : Bytes) (outcome : Outcome) :
    (outcome.prepend back).prepend front = outcome.prepend (front ++ back) := by
  cases outcome <;> simp [Outcome.prepend]

variable {state : State} {ch : Byte} {ctx : Chunked} {m : Machine}

section Steps

variable {m : Machine} {ch : Byte}

theorem hex_digit_lt {digit : Nat} (isDigit : hexDigit ch = some digit) : digit < 16 := by
  revert isDigit
  unfold hexDigit
  split
  · rename_i inside
    intro same
    injection same with same
    have upper : ch.toNat ≤ 57 := inside.2
    change ch.toNat - 48 = digit at same
    omega
  · dsimp only
    split
    · rename_i inside
      intro same
      injection same with same
      have upper : (ch ||| 0x20).toNat ≤ 102 := inside.2
      change (ch ||| 0x20).toNat - 97 + 10 = digit at same
      omega
    · intro same
      cases same

theorem skip_line_next {here almostDone : State}
    (moved : skipLine here almostDone after count ch = .next state size) :
    (state = here ∨ state = almostDone ∨ state = after) ∧ size = count := by
  unfold skipLine at moved
  split_ifs at moved <;> injection moved with isState isSize <;> simp [isState, isSize]

theorem expect_lf_next
    (moved : expectLf after count ch = .next state size) : state = after ∧ size = count := by
  unfold expectLf at moved
  split_ifs at moved
  injection moved with isState isSize
  exact ⟨isState.symm, isSize.symm⟩

theorem chunk_size_next (moved : swChunkSize count ch = .next state size) :
    count ≤ maxOffT / 16 ∧ (state = .swChunkSize ∨ (size = count ∧ (AwaitsData state → 0 < count))) := by
  unfold swChunkSize at moved
  split at moved
  · cases moved
  · rename_i notOver
    refine ⟨Nat.not_lt.mp notOver, ?_⟩
    split at moved
    · injection moved with isState isSize
      exact .inl isState.symm
    · right
      split at moved
      · split_ifs at moved <;> injection moved with isState isSize <;>
          exact ⟨isSize.symm, by rw [← isState]; simp [AwaitsData]⟩
      · split_ifs at moved <;> injection moved with isState isSize <;>
          exact ⟨isSize.symm, fun _ => by omega⟩

theorem proper_of_small (small : size ≤ maxOffT / 16)
    (awaits : AwaitsData state → 0 < size) : Proper ⟨state, size⟩ :=
  ⟨awaits, fun large => absurd large (Nat.not_lt.mpr small)⟩

theorem turn_proper (proper : Proper m)
    (moved : turn m.state m.size ch = .next state size) : Proper ⟨state, size⟩ := by
  obtain ⟨here, count⟩ := m
  obtain ⟨awaits, limit⟩ := proper
  dsimp only at awaits limit moved
  have small : here ≠ .swChunkSize → count ≤ maxOffT / 16 := by
    intro differ
    by_contra large
    exact differ (limit (by omega))
  have quiet : ∀ other, ¬AwaitsData other → here ≠ .swChunkSize → Proper ⟨other, count⟩ :=
    fun other notData differ => proper_of_small (small differ) fun isData => absurd isData notData
  have loud : here ≠ .swChunkSize → AwaitsData here → ∀ other, Proper ⟨other, count⟩ :=
    fun differ isData other => proper_of_small (small differ) fun _ => awaits isData
  cases here with
  | swChunkStart =>
    simp only [turn, swChunkStart] at moved
    split at moved
    · injection moved with isState isSize
      rw [← isState]
      exact ⟨by simp [AwaitsData], fun _ => rfl⟩
    · cases moved
  | swChunkSize =>
    obtain ⟨notOver, rfl | ⟨rfl, pos⟩⟩ := chunk_size_next moved
    · exact ⟨by simp [AwaitsData], fun _ => rfl⟩
    · exact proper_of_small notOver pos
  | swChunkExtension =>
    obtain ⟨-, rfl⟩ := skip_line_next moved
    exact loud State.noConfusion (.inl rfl) state
  | swChunkExtensionAlmostDone =>
    obtain ⟨-, rfl⟩ := expect_lf_next moved
    exact loud State.noConfusion (.inr (.inl rfl)) state
  | swChunkData => cases moved
  | swAfterData | swLastChunkExtension | swTrailerHeader =>
    obtain ⟨isState, rfl⟩ := skip_line_next moved
    rcases isState with rfl | rfl | rfl <;> exact quiet _ (by simp [AwaitsData]) nofun
  | swAfterDataAlmostDone | swLastChunkExtensionAlmostDone | swTrailerHeaderAlmostDone =>
    obtain ⟨rfl, rfl⟩ := expect_lf_next moved
    exact quiet _ (by simp [AwaitsData]) nofun
  | swTrailer =>
    simp only [turn, swTrailer] at moved
    split_ifs at moved <;> injection moved with isState isSize <;> rw [← isState, ← isSize] <;>
      exact quiet _ (by simp [AwaitsData]) nofun
  | swTrailerAlmostDone =>
    simp only [turn, swTrailerAlmostDone] at moved
    split_ifs at moved

theorem after_byte_proper (proper : Proper m) (isData : m.state = .swChunkData) :
    Proper (afterByte m) := by
  have pos := proper.awaits (.inr (.inr isData))
  have small : m.size ≤ maxOffT / 16 := by
    by_contra large
    have isSize := proper.limit (by omega)
    rw [isData] at isSize
    cases isSize
  unfold afterByte
  split
  · exact proper_of_small (Nat.zero_le _) (by simp [AwaitsData])
  · exact proper_of_small (by omega) fun _ => by omega

theorem over_large_invalid (proper : Proper m) (large : m.size > maxOffT - 5) (ch : Byte) :
    m.state ≠ .swChunkData ∧ turn m.state m.size ch = .invalid := by
  have beyond : maxOffT / 16 < m.size := by
    omega
  have isSize := proper.limit beyond
  rw [isSize]
  exact ⟨nofun, if_pos beyond⟩

end Steps

/-- What is known after some bytes, and the bytes that follow them. -/
def resume (outcome : Outcome) (more : Bytes) : Outcome :=
  match outcome with
  | .again body ctx => (run ⟨ctx.state, ctx.size⟩ more).prepend body
  | .done body rest => .done body (rest ++ more)
  | .error body => .error body

theorem resume_prepend (front more : Bytes) (outcome : Outcome) :
    resume (outcome.prepend front) more = (resume outcome more).prepend front := by
  cases outcome with
  | again body ctx =>
    change (run ⟨ctx.state, ctx.size⟩ more).prepend (front ++ body) = _
    rw [resume, prepend_prepend]
  | done body rest => rfl
  | error body => rfl

section

variable {m : Machine}

theorem run_data (isData : m.state = .swChunkData) (ch : Byte) (rest : Bytes) :
    run m (ch :: rest) = (run (afterByte m) rest).prepend [ch] := if_pos isData

theorem run_next (rest : Bytes) (moved : turn m.state m.size ch = .next state size) :
    run m (ch :: rest) = run ⟨state, size⟩ rest := by
  have notData : m.state ≠ .swChunkData := by
    intro isData
    rw [isData] at moved
    cases moved
  rw [run, if_neg notData, move, moved]

theorem run_done (rest : Bytes)
    (moved : turn m.state m.size ch = .done) : run m (ch :: rest) = .done [] rest := by
  have notData : m.state ≠ .swChunkData := by
    intro isData
    rw [isData] at moved
    cases moved
  rw [run, if_neg notData, move, moved]

theorem run_invalid (rest : Bytes)
    (moved : turn m.state m.size ch = .invalid) : run m (ch :: rest) = .error [] := by
  have notData : m.state ≠ .swChunkData := by
    intro isData
    rw [isData] at moved
    cases moved
  rw [run, if_neg notData, move, moved]

theorem turn_data (moved : turn m.state m.size ch = .data) : m.state = .swChunkData := by
  obtain ⟨state, size⟩ := m
  cases state with
  | swChunkData => rfl
  | swChunkStart =>
    simp only [turn, swChunkStart] at moved
    split at moved <;> cases moved
  | swChunkSize =>
    simp only [turn, swChunkSize] at moved
    split at moved
    · cases moved
    · split at moved
      · cases moved
      · split_ifs at moved
  | _ =>
    simp only [turn, skipLine, expectLf, swTrailer, swTrailerAlmostDone] at moved
    split_ifs at moved

theorem run_append (proper : Proper m) (first more : Bytes) :
    run m (first ++ more) = resume (run m first) more := by
  induction first generalizing m with
  | nil =>
    rw [nil_append]
    by_cases large : m.size > maxOffT - 5
    · rw [run.eq_def m [], if_pos large, resume]
      cases more with
      | nil => rw [run, if_pos large]
      | cons ch rest => exact run_invalid rest (over_large_invalid proper large ch).2
    · rw [run.eq_def m [], if_neg large, resume, prepend_nil]
  | cons ch first ih =>
    rw [cons_append]
    by_cases isData : m.state = .swChunkData
    · rw [run_data isData, run_data isData, resume_prepend, ih (after_byte_proper proper isData)]
    · cases moved : turn m.state m.size ch with
      | next state size => rw [run_next _ moved, run_next _ moved, ih (turn_proper proper moved)]
      | data => exact absurd (turn_data moved) isData
      | done => rw [run_done _ moved, run_done _ moved, resume]
      | invalid => rw [run_invalid _ moved, run_invalid _ moved, resume]

theorem run_again_proper (proper : Proper m) {body : Bytes}
    (again : run m b = .again body ctx) : Proper ⟨ctx.state, ctx.size⟩ := by
  induction b generalizing m body with
  | nil =>
    rw [run] at again
    split at again
    · cases again
    · injection again with _ isCtx
      rw [← isCtx]
      exact proper
  | cons ch rest ih =>
    by_cases isData : m.state = .swChunkData
    · rw [run_data isData] at again
      cases later : run (afterByte m) rest with
      | again body' ctx' =>
        rw [later] at again
        injection again with _ isCtx
        subst isCtx
        exact ih (after_byte_proper proper isData) later
      | done body' rest' => rw [later] at again; cases again
      | error body' => rw [later] at again; cases again
    · cases moved : turn m.state m.size ch with
      | next state size =>
        rw [run_next _ moved] at again
        exact ih (turn_proper proper moved) again
      | data => exact absurd (turn_data moved) isData
      | done => rw [run_done _ moved] at again; cases again
      | invalid => rw [run_invalid _ moved] at again; cases again

end

theorem run_take (pos : 0 < size) (b : Bytes) : run ⟨.swChunkData, size⟩ b =
      (run (if b.length < size then ⟨.swChunkData, size - b.length⟩ else ⟨.swAfterData, 0⟩)
        (b.drop size)).prepend (b.take size) := by
  induction b generalizing size with
  | nil => rw [length_nil, if_pos pos, drop_nil, take_nil, prepend_nil, Nat.sub_zero]
  | cons ch rest ih =>
    rw [run_data rfl, afterByte]
    obtain ⟨less, rfl⟩ : ∃ less, size = less + 1 := ⟨size - 1, by omega⟩
    rw [drop_succ_cons, take_succ_cons, length_cons]
    by_cases last : less + 1 = 1
    · rw [if_pos last, show less = 0 by omega, if_neg (by omega), drop_zero, take_zero]
    · rw [if_neg last, Nat.add_sub_cancel, ih (by omega), prepend_prepend, singleton_append,
        Nat.add_sub_add_right]
      congr 2
      by_cases short : rest.length < less
      · rw [if_pos short, if_pos (by omega)]
      · rw [if_neg short, if_neg (by omega)]

def Meets (m : Machine) (b : Bytes) : Ending → Prop
  | .data .ngxAgain state size _ => run m b = run ⟨state, size⟩ []
  | .data .ngxOk state size rest => state = .swChunkData ∧ Proper ⟨state, size⟩ ∧ rest ≠ [] ∧
      rest.length ≤ b.length ∧ run m b = run ⟨state, size⟩ rest
  | .done _ rest => run m b = .done [] rest
  | .invalid _ => run m b = .error []
  | _ => False

theorem meets_next {ending : Ending} (moved : turn m.state m.size ch = .next state size)
    (meets : Meets ⟨state, size⟩ rest ending) : Meets m (ch :: rest) ending := by
  have same := run_next rest moved
  match ending, meets with
  | .data .ngxAgain _ _ _, meets => exact same.trans meets
  | .data .ngxOk _ _ _, ⟨isData, proper, nonempty, shorter, meets⟩ =>
    exact ⟨isData, proper, nonempty, Nat.le_succ_of_le shorter, same.trans meets⟩
  | .done _ _, meets => exact same.trans meets
  | .invalid _, meets => exact same.trans meets

theorem loop_meets (proper : Proper m) (b : Bytes) : Meets m b (loop m.state m.size b) := by
  induction b generalizing m with
  | nil => rfl
  | cons ch rest ih =>
    rw [loop]
    cases moved : turn m.state m.size ch with
    | next state size => exact meets_next moved (ih (turn_proper proper moved))
    | data => exact ⟨turn_data moved, proper, cons_ne_nil _ _, Nat.le_refl _, rfl⟩
    | done => exact run_done rest moved
    | invalid => exact run_invalid rest moved

def entry (ctx : Chunked) : Machine := ⟨entryState ctx, ctx.size⟩

theorem data_small (proper : Proper ⟨.swChunkData, size⟩) : ¬size > maxOffT - 5 := by
  intro large
  exact (over_large_invalid proper large 0).1 rfl

theorem take_data_proxy (ctx : Chunked) (b : Bytes) : takeDataProxy ctx b = takeData ctx b := by
  unfold takeDataProxy takeData
  by_cases more : b.length > ctx.size
  · rw [if_pos more, if_pos (Nat.le_of_lt more)]
  · rw [if_neg more]
    by_cases all : b.length ≥ ctx.size
    · rw [if_pos all, take_of_length_le (Nat.not_lt.mp more), drop_of_length_le (Nat.not_lt.mp more),
        Nat.sub_eq_zero_of_le all]
    · rw [if_neg all]

theorem drive_run {fuel : Nat} (ctx : Chunked) (b : Bytes) (proper : Proper (entry ctx))
    (enough : b.length < fuel) : drive fuel ctx b = some (run (entry ctx) b) := by
  induction fuel generalizing ctx b with
  | zero => omega
  | succ fuel ih =>
    have meets := loop_meets proper b
    rw [drive, ngxHttpParseChunked]
    match ended : loop (entryState ctx) ctx.size b, meets with
    | .data .ngxAgain state size rest, meets =>
      rw [meets, run]
      dsimp only
      by_cases large : size > maxOffT - 5
      · rw [if_pos large, if_pos large]
      · rw [if_neg large, if_neg large]
    | .done size rest, meets => exact congrArg some meets.symm
    | .invalid size, meets => exact congrArg some meets.symm
    | .data .ngxOk state size rest, meets =>
      obtain ⟨rfl, dataProper, some_, shorter, same⟩ := meets
      have pos : 0 < size := dataProper.awaits (.inr (.inr rfl))
      have nonempty : 0 < rest.length := length_pos_iff.mpr some_
      dsimp only
      rw [if_neg (data_small dataProper), same, run_take pos]
      dsimp only
      rw [takeData]
      dsimp only
      by_cases more : rest.length > size
      · rw [if_pos more, if_neg (Nat.not_lt.mpr (Nat.le_of_lt more))]
        rw [ih _ _ _ (by rw [length_drop]; omega)]
        · rfl
        · exact proper_of_small (Nat.zero_le _) (by simp [AwaitsData, entryState])
      · have all : rest.take size = rest := take_of_length_le (Nat.not_lt.mp more)
        have none_ : rest.drop size = [] := drop_of_length_le (Nat.not_lt.mp more)
        rw [if_neg more, all, none_]
        have isEntry : entry ⟨.swChunkData, size - rest.length, lengthOf .swChunkData size⟩ =
            if rest.length < size then ⟨.swChunkData, size - rest.length⟩ else ⟨.swAfterData, 0⟩ := by
          unfold entry entryState
          dsimp only
          by_cases short : rest.length < size
          · rw [if_pos short, if_neg (fun both => by omega)]
          · rw [if_neg short, if_pos ⟨rfl, by omega⟩, show size - rest.length = 0 by omega]
        have newProper : Proper (entry ⟨.swChunkData, size - rest.length, lengthOf .swChunkData size⟩) := by
          rw [isEntry]
          split
          · refine proper_of_small ?_ fun _ => by omega
            have small : size ≤ maxOffT / 16 := by
              by_contra large
              nomatch dataProper.limit (Nat.not_le.mp large)
            omega
          · exact proper_of_small (Nat.zero_le _) (by simp [AwaitsData])
        rw [ih _ [] newProper (by rw [length_nil]; omega), isEntry]
        rfl

theorem entry_again (proper : Proper m) {body : Bytes}
    (again : run m b = .again body ctx) : entry ctx = ⟨ctx.state, ctx.size⟩ := by
  have pos := (run_again_proper proper again).awaits
  unfold entry entryState
  rw [if_neg]
  rintro ⟨isData, isZero⟩
  have some_ := pos (.inr (.inr isData))
  dsimp only at some_
  omega

theorem drive_all_cons (bs : List Bytes) (b : Bytes) (ctx : Chunked) (proper : Proper (entry ctx)) :
    driveAll ctx (b :: bs) = some (run (entry ctx) (b :: bs).flatten) := by
  induction bs generalizing b ctx with
  | nil =>
    rw [driveAll, drive_run _ _ proper (Nat.lt_succ_self _), flatten_cons, flatten_nil,
      append_nil]
    cases run (entry ctx) b with
    | again body final => simp [driveAll, Outcome.prepend]
    | done body rest => simp
    | error body => rfl
  | cons next bs ih =>
    rw [driveAll, drive_run _ _ proper (Nat.lt_succ_self _)]
    rw [show (b :: next :: bs).flatten = b ++ (next :: bs).flatten from rfl, run_append proper]
    cases again : run (entry ctx) b with
    | again body final =>
      have isEntry := entry_again proper again
      have laterProper := run_again_proper proper again
      change (driveAll final (next :: bs)).map (Outcome.prepend body) = _
      rw [ih next final (by rw [isEntry]; exact laterProper), resume, isEntry]
      rfl
    | done body rest => rfl
    | error body => rfl

/-- What a caller learns: the last result, the data, and the bytes behind the
end of the body. -/
def report : Outcome → ReturnCode × Bytes × Option Bytes
  | .again body _ => (.ngxAgain, body, none)
  | .done body rest => (.ngxDone, body, some rest)
  | .error body => (.ngxError, body, none)

theorem initial_proper : Proper (entry initial) :=
  proper_of_small (Nat.zero_le _) (by simp [AwaitsData, entryState, initial])

theorem drive_all_report (bs : List Bytes) :
    (driveAll initial bs).map report = some (report (run (entry initial) bs.flatten)) := by
  cases bs with
  | nil => rfl
  | cons b bs => rw [drive_all_cons bs b initial initial_proper, map_some]

inductive LineEnd where
  | crlf
  | lf

def LineEnd.bytes : LineEnd → Bytes
  | .crlf => [cr, NginxHttpParse.lf]
  | .lf => [NginxHttpParse.lf]

structure Digit where
  value : Fin 16
  upper : Bool

def Digit.byte (digit : Digit) : Byte :=
  if digit.value.val < 10 then UInt8.ofNat ('0'.toNat + digit.value.val)
  else UInt8.ofNat ((if digit.upper then 'A'.toNat else 'a'.toNat) + (digit.value.val - 10))

def valueFrom (start : Nat) (digits : List Digit) : Nat :=
  digits.foldl (fun value digit => value * 16 + digit.value.val) start

structure SizeLine where
  digits : List Digit
  extension : Option Bytes
  lineEnd : LineEnd

def SizeLine.bytes (line : SizeLine) : Bytes :=
  line.digits.map Digit.byte ++
    ((match line.extension with
      | none => []
      | some text => ';'.toUInt8 :: text) ++ line.lineEnd.bytes)

structure Chunk where
  line : SizeLine
  data : Bytes
  dataEnd : LineEnd

def Chunk.bytes (chunk : Chunk) : Bytes := chunk.line.bytes ++ (chunk.data ++ chunk.dataEnd.bytes)

/-- A chunked body: chunks, the last chunk, trailer lines and an empty line. -/
structure Encoding where
  chunks : List Chunk
  last : SizeLine
  trailers : List (Bytes × LineEnd)
  finish : LineEnd

def Encoding.bytes (encoding : Encoding) : Bytes :=
  encoding.chunks.flatMap Chunk.bytes ++ (encoding.last.bytes ++
    (encoding.trailers.flatMap (fun trailer => trailer.1 ++ trailer.2.bytes) ++ encoding.finish.bytes))

def Encoding.body (encoding : Encoding) : Bytes := encoding.chunks.flatMap Chunk.data

def OneLine (text : Bytes) : Prop := ∀ ch ∈ text, ch ≠ cr ∧ ch ≠ lf

def Spells (line : SizeLine) (size : Nat) : Prop :=
  line.digits ≠ [] ∧ valueFrom 0 line.digits = size ∧ ∀ text, line.extension = some text → OneLine text

structure WellFormed (encoding : Encoding) : Prop where
  chunks : ∀ chunk ∈ encoding.chunks, chunk.data ≠ [] ∧ chunk.data.length < 2 ^ 59 ∧
    Spells chunk.line chunk.data.length
  last : Spells encoding.last 0
  trailers : ∀ trailer ∈ encoding.trailers, trailer.1 ≠ [] ∧ OneLine trailer.1

section Encodings

variable {state almostDone after : State} {size : Nat}

section

variable (skips : ∀ ch, turn state size ch = skipLine state almostDone after size ch)
  (expects : ∀ ch, turn almostDone size ch = expectLf after size ch)
include skips expects

theorem run_line_end : run ⟨state, size⟩ (lineEnd.bytes ++ rest) = run ⟨after, size⟩ rest := by
  have ofLf : turn state size lf = .next after size := (skips lf).trans rfl
  have ofCr : turn state size cr = .next almostDone size := (skips cr).trans rfl
  have almost : turn almostDone size lf = .next after size := (expects lf).trans rfl
  cases lineEnd with
  | lf => exact run_next rest ofLf
  | crlf => exact (run_next (lf :: rest) ofCr).trans (run_next rest almost)

theorem run_line (oneLine : OneLine text) :
    run ⟨state, size⟩ (text ++ (lineEnd.bytes ++ rest)) = run ⟨after, size⟩ rest := by
  induction text with
  | nil => exact run_line_end skips expects
  | cons ch text ih =>
    obtain ⟨notCr, notLf⟩ := oneLine ch (mem_cons_self ..)
    have stays : turn state size ch = .next state size := by
      rw [skips, skipLine, if_neg notCr, if_neg notLf]
    rw [cons_append, run_next _ stays]
    exact ih fun other mem => oneLine other (mem_cons_of_mem _ mem)

end

theorem hex_digit_byte (digit : Digit) : hexDigit digit.byte = some digit.value.val := by
  obtain ⟨value, upper⟩ := digit
  revert value upper
  decide

theorem value_from_ge (digits : List Digit) (start : Nat) : start ≤ valueFrom start digits := by
  induction digits generalizing start with
  | nil => exact Nat.le_refl _
  | cons digit digits ih =>
    have later := ih (start * 16 + digit.value.val)
    change _ ≤ valueFrom (start * 16 + digit.value.val) digits
    omega

theorem run_digits (start : Nat) (limit : valueFrom start digits ≤ maxOffT / 16)
    : run ⟨.swChunkSize, start⟩ (digits.map Digit.byte ++ rest) =
      run ⟨.swChunkSize, valueFrom start digits⟩ rest := by
  induction digits generalizing start with
  | nil => rfl
  | cons digit digits ih =>
    have least := value_from_ge (digit :: digits) start
    have moved : turn .swChunkSize start digit.byte =
        .next .swChunkSize (start * 16 + digit.value.val) := by
      rw [turn, swChunkSize, if_neg (by omega), hex_digit_byte]
    rw [map_cons, cons_append, run_next _ moved]
    exact ih _ limit

theorem run_size (nonempty : digits ≠ []) (start : Nat)
    (limit : valueFrom 0 digits ≤ maxOffT / 16) (rest : Bytes) :
    run ⟨.swChunkStart, start⟩ (digits.map Digit.byte ++ rest) =
      run ⟨.swChunkSize, valueFrom 0 digits⟩ rest := by
  cases digits with
  | nil => cases nonempty rfl
  | cons digit digits =>
    have moved : turn .swChunkStart start digit.byte = .next .swChunkSize digit.value.val := by
      rw [turn, swChunkStart, hex_digit_byte]
    have first : valueFrom 0 (digit :: digits) = valueFrom digit.value.val digits := by
      change valueFrom (0 * 16 + digit.value.val) digits = _
      rw [Nat.zero_mul, Nat.zero_add]
    rw [first] at limit ⊢
    rw [map_cons, cons_append, run_next _ moved]
    exact run_digits _ limit

theorem run_size_line {line : SizeLine} (spells : Spells line size) (limit : size ≤ maxOffT / 16)
    (start : Nat) (rest : Bytes) : run ⟨.swChunkStart, start⟩ (line.bytes ++ rest) =
      run ⟨if size = 0 then .swTrailer else .swChunkData, size⟩ rest := by
  obtain ⟨nonempty, isSize, oneLine⟩ := spells
  rw [SizeLine.bytes, append_assoc, run_size nonempty start (by rw [isSize]; exact limit), isSize]
  have notOver : ¬size > maxOffT / 16 := Nat.not_lt.mpr limit
  have noDigit : hexDigit cr = none ∧ hexDigit lf = none ∧ hexDigit ';'.toUInt8 = none := by decide
  cases isExtension : line.extension with
  | some text =>
    have oneText := oneLine text isExtension
    by_cases zero : size = 0
    · have moved : turn .swChunkSize size ';'.toUInt8 = .next .swLastChunkExtension size := by
        rw [turn, swChunkSize, if_neg notOver, noDigit.2.2, zero]
        rfl
      rw [cons_append, cons_append, run_next _ moved, if_pos zero, append_assoc]
      exact run_line (fun _ => rfl) (fun _ => rfl) oneText
    · have moved : turn .swChunkSize size ';'.toUInt8 = .next .swChunkExtension size := by
        rw [turn, swChunkSize, if_neg notOver, noDigit.2.2]
        rw [if_neg zero]
        rfl
      rw [cons_append, cons_append, run_next _ moved, if_neg zero, append_assoc]
      exact run_line (fun _ => rfl) (fun _ => rfl) oneText
  | none =>
    rw [nil_append]
    by_cases zero : size = 0
    · have ofCr : turn .swChunkSize size cr = .next .swLastChunkExtensionAlmostDone size := by
        rw [turn, swChunkSize, if_neg notOver, noDigit.1, zero]
        rfl
      have ofLf : turn .swChunkSize size lf = .next .swTrailer size := by
        rw [turn, swChunkSize, if_neg notOver, noDigit.2.1, zero]
        rfl
      rw [if_pos zero]
      cases line.lineEnd with
      | lf => exact run_next rest ofLf
      | crlf => exact (run_next (lf :: rest) ofCr).trans (run_next rest rfl)
    · have ofCr : turn .swChunkSize size cr = .next .swChunkExtensionAlmostDone size := by
        rw [turn, swChunkSize, if_neg notOver, noDigit.1]
        rw [if_neg zero]
        rfl
      have ofLf : turn .swChunkSize size lf = .next .swChunkData size := by
        rw [turn, swChunkSize, if_neg notOver, noDigit.2.1]
        rw [if_neg zero]
        rfl
      rw [if_neg zero]
      cases line.lineEnd with
      | lf => exact run_next rest ofLf
      | crlf => exact (run_next (lf :: rest) ofCr).trans (run_next rest rfl)

theorem run_chunk {chunk : Chunk} (nonempty : chunk.data ≠ []) (small : chunk.data.length < 2 ^ 59)
    (spells : Spells chunk.line chunk.data.length) (rest : Bytes) :
    run ⟨.swChunkStart, 0⟩ (chunk.bytes ++ rest) = (run ⟨.swChunkStart, 0⟩ rest).prepend chunk.data := by
  have pos : 0 < chunk.data.length := length_pos_iff.mpr nonempty
  rw [Chunk.bytes, append_assoc, run_size_line spells (by unfold maxOffT; omega),
    if_neg (by omega), run_take pos, if_neg (by simp), append_assoc, drop_left,
    take_left, run_line_end (fun _ => rfl) (fun _ => rfl)]

theorem run_trailer (nonempty : text ≠ []) (oneLine : OneLine text) (lineEnd : LineEnd)
    (rest : Bytes) :
    run ⟨.swTrailer, 0⟩ (text ++ (lineEnd.bytes ++ rest)) = run ⟨.swTrailer, 0⟩ rest := by
  cases text with
  | nil => cases nonempty rfl
  | cons ch text =>
    obtain ⟨notCr, notLf⟩ := oneLine ch (mem_cons_self ..)
    have moved : turn .swTrailer 0 ch = .next .swTrailerHeader 0 := by
      rw [turn, swTrailer, if_neg notCr, if_neg notLf]
    rw [cons_append, run_next _ moved]
    exact run_line (fun _ => rfl) (fun _ => rfl)
      (fun other mem => oneLine other (mem_cons_of_mem _ mem))

theorem run_trailers {trailers : List (Bytes × LineEnd)}
    (fine : ∀ trailer ∈ trailers, trailer.1 ≠ [] ∧ OneLine trailer.1) {finish : LineEnd} :
    run ⟨.swTrailer, 0⟩
      (trailers.flatMap (fun trailer => trailer.1 ++ trailer.2.bytes) ++ (finish.bytes ++ rest)) =
      .done [] rest := by
  induction trailers with
  | nil =>
    cases finish with
    | lf => exact run_done rest rfl
    | crlf => exact (run_next (lf :: rest) rfl).trans (run_done rest rfl)
  | cons trailer trailers ih =>
    obtain ⟨nonempty, oneLine⟩ := fine trailer (mem_cons_self ..)
    rw [flatMap_cons, append_assoc, append_assoc, run_trailer nonempty oneLine]
    exact ih fun other mem => fine other (mem_cons_of_mem _ mem)

theorem run_encoding {encoding : Encoding} (wellFormed : WellFormed encoding) :
    run ⟨.swChunkStart, 0⟩ (encoding.bytes ++ rest) = .done encoding.body rest := by
  obtain ⟨chunks, last, trailers, finish⟩ := encoding
  obtain ⟨chunksFine, lastFine, trailersFine⟩ := wellFormed
  unfold Encoding.bytes Encoding.body
  dsimp only at chunksFine lastFine trailersFine ⊢
  induction chunks with
  | nil =>
    rw [flatMap_nil, nil_append, append_assoc, run_size_line lastFine (Nat.zero_le _),
      if_pos rfl, append_assoc]
    exact run_trailers trailersFine
  | cons chunk chunks ih =>
    obtain ⟨nonempty, small, spells⟩ := chunksFine chunk (mem_cons_self ..)
    rw [flatMap_cons, append_assoc, append_assoc, run_chunk nonempty small spells,
      ← append_assoc, ih fun other mem => chunksFine other (mem_cons_of_mem _ mem)]
    rfl

end Encodings

/-- Cutting the input makes no difference to what the callers learn, and every
chunked encoding is decoded to its data, whatever follows it and however it is
cut. -/
theorem chunked_body_decoded : (∀ bs : List Bytes, ∃ outcome whole, driveAll initial bs = some outcome ∧
      driveAll initial [bs.flatten] = some whole ∧ report outcome = report whole) ∧
    ∀ encoding, WellFormed encoding → ∀ (rest : Bytes) (bs : List Bytes),
      bs.flatten = encoding.bytes ++ rest → ∃ outcome, driveAll initial bs = some outcome ∧
        report outcome = (.ngxDone, encoding.body, some rest) := by
  constructor
  · intro bs
    obtain ⟨outcome, isOutcome, isReport⟩ := map_eq_some_iff.mp (drive_all_report bs)
    obtain ⟨whole, isWhole, isReport'⟩ := map_eq_some_iff.mp (drive_all_report [bs.flatten])
    refine ⟨outcome, whole, isOutcome, isWhole, isReport.trans ?_⟩
    rw [isReport', flatten_singleton]
  · intro encoding wellFormed rest bs isInput
    obtain ⟨outcome, isOutcome, isReport⟩ := map_eq_some_iff.mp (drive_all_report bs)
    refine ⟨outcome, isOutcome, isReport.trans ?_⟩
    rw [isInput]
    exact congrArg report (run_encoding wellFormed)

/-- "2;x" CRLF "ab" LF "00" LF "t" CRLF LF, cut inside the data. -/
def exampleEncoding : Encoding where
  chunks := [⟨⟨[⟨2, false⟩], some ['x'.toUInt8], .crlf⟩, ['a'.toUInt8, 'b'.toUInt8], .lf⟩]
  last := ⟨[⟨0, false⟩, ⟨0, false⟩], none, .lf⟩
  trailers := [(['t'.toUInt8], .crlf)]
  finish := .lf

theorem chunked_body_two_bytes :
    ∃ outcome, driveAll initial [exampleEncoding.bytes.take 6, exampleEncoding.bytes.drop 6] =
        some outcome ∧ report outcome = (.ngxDone, ['a'.toUInt8, 'b'.toUInt8], some []) := by
  have wellFormed : WellFormed exampleEncoding := by
    refine ⟨?_, ?_, ?_⟩
    · intro chunk mem
      rw [mem_singleton.mp mem]
      refine ⟨by decide, by decide, by decide, by decide, ?_⟩
      intro text isText
      cases isText
      intro ch inText
      rw [mem_singleton.mp inText]
      decide
    · exact ⟨by decide, by decide, nofun⟩
    · intro trailer mem
      rw [mem_singleton.mp mem]
      refine ⟨by decide, ?_⟩
      intro ch inText
      rw [mem_singleton.mp inText]
      decide
  exact chunked_body_decoded.2 exampleEncoding wellFormed [] _ (by decide)

end ServerCore.NginxHttpChunkedDecoding
