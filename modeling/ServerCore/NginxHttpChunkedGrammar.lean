import ServerCore.NginxHttpChunkedDecoding

/-!
# The grammar of chunked bodies

What a body has to be for the parser to come to its end. Behind the data of a
chunk the parser waits for CR or LF and skips every other byte, so it accepts
more than the grammar has.
-/

namespace ServerCore.NginxHttpChunkedGrammar

open NginxHttpParse (Byte Bytes cr lf)
open NginxHttpChunked NginxHttpChunkedDecoding List

variable {size start : Nat} {digit : Digit}

/-- The line of a size. An extension begins with a semicolon, a space or a tab. -/
structure SizeText where
  digits : List Digit
  extension : Option (Byte × Bytes)
  lineEnd : LineEnd

def extensionBytes : Option (Byte × Bytes) → Bytes
  | none => []
  | some (opening, text) => opening :: text

def SizeText.bytes (line : SizeText) : Bytes :=
  line.digits.map Digit.byte ++ (extensionBytes line.extension ++ line.lineEnd.bytes)

def Opens (ch : Byte) : Prop := ch = ';'.toUInt8 ∨ ch = ' '.toUInt8 ∨ ch = '\t'.toUInt8

structure SizeText.Reads (line : SizeText) (size : Nat) : Prop where
  digits : line.digits ≠ []
  value : valueFrom 0 line.digits = size
  extension : ∀ opening text, line.extension = some (opening, text) → Opens opening ∧ OneLine text

/-- The data is followed by its line end, with nothing between the two. -/
structure ChunkText where
  line : SizeText
  data : Bytes
  dataEnd : LineEnd

def ChunkText.bytes (chunk : ChunkText) : Bytes :=
  chunk.line.bytes ++ (chunk.data ++ chunk.dataEnd.bytes)

def trailerBytes (trailer : Bytes × LineEnd) : Bytes := trailer.1 ++ trailer.2.bytes

structure BodyText where
  chunks : List ChunkText
  last : SizeText
  trailers : List (Bytes × LineEnd)
  finish : LineEnd

def BodyText.bytes (text : BodyText) : Bytes :=
  text.chunks.flatMap ChunkText.bytes ++
    (text.last.bytes ++ (text.trailers.flatMap trailerBytes ++ text.finish.bytes))

def BodyText.body (text : BodyText) : Bytes := text.chunks.flatMap ChunkText.data

structure BodyText.Grammatical (text : BodyText) : Prop where
  chunks : ∀ chunk ∈ text.chunks, chunk.data ≠ [] ∧ chunk.line.Reads chunk.data.length
  last : text.last.Reads 0
  trailers : ∀ trailer ∈ text.trailers, trailer.1 ≠ [] ∧ OneLine trailer.1

def following (machine : Machine) (ch : Byte) : Option Machine :=
  if machine.state = .swChunkData then some (afterByte machine)
  else
    match turn machine.state machine.size ch with
    | .next state size => some ⟨state, size⟩
    | _ => none

/-- Whenever the parser is in `sw_after_data`, the next byte is CR or LF. -/
def NothingSkipped (machine : Machine) : Bytes → Prop
  | [] => True
  | ch :: rest =>
    (machine.state = .swAfterData → ch = cr ∨ ch = lf) ∧
      ∀ after ∈ following machine ch, NothingSkipped after rest

instance decidableNothingSkipped : ∀ (machine : Machine) (input : Bytes),
    Decidable (NothingSkipped machine input)
  | _, [] => isTrue trivial
  | machine, ch :: rest =>
    have later : ∀ after, Decidable (NothingSkipped after rest) :=
      fun after => decidableNothingSkipped after rest
    inferInstanceAs (Decidable ((machine.state = .swAfterData → ch = cr ∨ ch = lf) ∧
      ∀ after ∈ following machine ch, NothingSkipped after rest))

variable {state : State} {line : SizeText} {rest : Bytes} {digits : List Digit} {lineEnd : LineEnd}

section Reading

variable {machine later : Machine} {ch : Byte} {text rest : Bytes}

/-- The bytes of a text lead from one machine to another, and none of them is skipped
behind data. -/
inductive Passes : Machine → Bytes → Machine → Prop
  | nil (machine : Machine) : Passes machine [] machine
  | cons {machine after later : Machine} {ch : Byte} {text : Bytes}
      (fine : machine.state = .swAfterData → ch = cr ∨ ch = lf)
      (follows : following machine ch = some after) (passes : Passes after text later) :
      Passes machine (ch :: text) later

theorem nothing_skipped_cons {after : Machine} (fine : machine.state = .swAfterData → ch = cr ∨ ch = lf)
    (follows : following machine ch = some after) :
    NothingSkipped machine (ch :: rest) ↔ NothingSkipped after rest := by
  rw [NothingSkipped, follows]
  constructor
  · intro nothing
    exact nothing.2 after rfl
  · intro nothing
    refine ⟨fine, ?_⟩
    intro other isAfter
    cases isAfter
    exact nothing

theorem passes_nothing_skipped (passes : Passes machine text later) :
    NothingSkipped machine (text ++ rest) ↔ NothingSkipped later rest := by
  induction passes with
  | nil => rfl
  | cons fine follows passes ih => exact (nothing_skipped_cons fine follows).trans ih

theorem passes_append {middle : Machine} {more : Bytes} (first : Passes machine text middle)
    (second : Passes middle more later) : Passes machine (text ++ more) later := by
  induction first with
  | nil => exact second
  | cons fine follows passes ih => exact .cons fine follows (ih second)

theorem following_next (moved : turn machine.state machine.size ch = .next state size) :
    following machine ch = some ⟨state, size⟩ := by
  have notData : machine.state ≠ .swChunkData := by
    intro isData
    rw [isData] at moved
    cases moved
  rw [following, if_neg notData, moved]

theorem passes_next (fine : machine.state = .swAfterData → ch = cr ∨ ch = lf)
    (moved : turn machine.state machine.size ch = .next state size)
    (passes : Passes ⟨state, size⟩ text later) : Passes machine (ch :: text) later :=
  .cons fine (following_next moved) passes

end Reading

/-- The states behind a size, which are those of the last chunk when it is zero. -/
def extensionState (size : Nat) : State := if size = 0 then .swLastChunkExtension else .swChunkExtension

def almostDoneState (size : Nat) : State :=
  if size = 0 then .swLastChunkExtensionAlmostDone else .swChunkExtensionAlmostDone

def behindLine (size : Nat) : State := if size = 0 then .swTrailer else .swChunkData

section Lines

variable {state almostDone after : State} {size start : Nat} {ch : Byte}

theorem extension_skips (ch : Byte) : turn (extensionState size) size ch =
      skipLine (extensionState size) (almostDoneState size) (behindLine size) size ch := by
  unfold extensionState almostDoneState behindLine
  split_ifs <;> rfl

theorem almost_done_expects (ch : Byte) :
    turn (almostDoneState size) size ch = expectLf (behindLine size) size ch := by
  unfold almostDoneState behindLine
  split_ifs <;> rfl

theorem size_digit {digit : Nat} (limit : start ≤ maxOffT / 16) (isDigit : hexDigit ch = some digit) :
    turn .swChunkSize start ch = .next .swChunkSize (start * 16 + digit) := by
  rw [turn, swChunkSize, if_neg (Nat.not_lt.2 limit), isDigit]

theorem size_end (limit : size ≤ maxOffT / 16) (noDigit : hexDigit ch = none) : turn .swChunkSize size ch =
      if ch = cr then .next (almostDoneState size) size
      else if ch = lf then .next (behindLine size) size
      else if ch = ';'.toUInt8 ∨ ch = ' '.toUInt8 ∨ ch = '\t'.toUInt8 then .next (extensionState size) size
      else .invalid := by
  rw [turn, swChunkSize, if_neg (Nat.not_lt.2 limit), noDigit]
  dsimp only [almostDoneState, behindLine, extensionState]
  by_cases isZero : size = 0
  · simp only [if_pos isZero]
  · simp only [if_neg isZero]

theorem no_digit_end : hexDigit cr = none ∧ hexDigit lf = none ∧ ∀ ch, Opens ch → hexDigit ch = none := by
  refine ⟨by decide, by decide, ?_⟩
  rintro ch (rfl | rfl | rfl) <;> decide

theorem opens_not_end (opens : Opens ch) : ch ≠ cr ∧ ch ≠ lf := by
  rcases opens with rfl | rfl | rfl <;> decide

theorem passes_line_end (skips : ∀ ch, turn state size ch = skipLine state almostDone after size ch)
    (expects : ∀ ch, turn almostDone size ch = expectLf after size ch) :
    Passes ⟨state, size⟩ lineEnd.bytes ⟨after, size⟩ := by
  have ofLf : turn state size lf = .next after size := (skips lf).trans rfl
  have ofCr : turn state size cr = .next almostDone size := (skips cr).trans rfl
  have almost : turn almostDone size lf = .next after size := (expects lf).trans rfl
  cases lineEnd with
  | lf => exact passes_next (fun _ => .inr rfl) ofLf (.nil _)
  | crlf => exact passes_next (fun _ => .inl rfl) ofCr (passes_next (fun _ => .inr rfl) almost (.nil _))

theorem passes_line (notAfter : state ≠ .swAfterData)
    (skips : ∀ ch, turn state size ch = skipLine state almostDone after size ch)
    (expects : ∀ ch, turn almostDone size ch = expectLf after size ch) {text : Bytes}
    (oneLine : OneLine text) : Passes ⟨state, size⟩ (text ++ lineEnd.bytes) ⟨after, size⟩ := by
  induction text with
  | nil => exact passes_line_end skips expects
  | cons ch text ih =>
    obtain ⟨notCr, notLf⟩ := oneLine ch (mem_cons_self ..)
    have stays : turn state size ch = .next state size := by
      rw [skips, skipLine, if_neg notCr, if_neg notLf]
    have others := ih fun other mem => oneLine other (mem_cons_of_mem _ mem)
    exact passes_next (fun isAfter => absurd isAfter notAfter) stays others

theorem passes_digits (start : Nat) (limit : valueFrom start digits ≤ maxOffT / 16) :
    Passes ⟨.swChunkSize, start⟩ (digits.map Digit.byte) ⟨.swChunkSize, valueFrom start digits⟩ := by
  induction digits generalizing start with
  | nil => exact .nil _
  | cons digit digits ih =>
    have least := value_from_ge (digit :: digits) start
    have moved := size_digit (Nat.le_trans least limit) (hex_digit_byte digit)
    exact passes_next (nofun) moved (ih _ limit)

theorem passes_first_digit (start : Nat) :
    Passes ⟨.swChunkStart, start⟩ [digit.byte] ⟨.swChunkSize, digit.value.val⟩ := by
  have moved : turn .swChunkStart start digit.byte = .next .swChunkSize digit.value.val := by
    rw [turn, swChunkStart, hex_digit_byte]
  exact passes_next (by simp) moved (.nil _)

theorem value_from_cons : valueFrom 0 (digit :: digits) = valueFrom digit.value.val digits := by
  change valueFrom (0 * 16 + digit.value.val) digits = _
  rw [Nat.zero_mul, Nat.zero_add]

theorem passes_extension (limit : size ≤ maxOffT / 16) {ext : Option (Byte × Bytes)}
    (fine : ∀ opening text, ext = some (opening, text) → Opens opening ∧ OneLine text) :
    Passes ⟨.swChunkSize, size⟩ (extensionBytes ext ++ lineEnd.bytes) ⟨behindLine size, size⟩ := by
  obtain ⟨crNone, lfNone, openNone⟩ := no_digit_end
  have neverAfter : extensionState size ≠ .swAfterData := by
    unfold extensionState
    split_ifs <;> nofun
  cases ext with
  | none =>
    have ofCr := (size_end limit crNone).trans (if_pos rfl)
    have ofLf : turn .swChunkSize size lf = .next (behindLine size) size :=
      (size_end limit lfNone).trans rfl
    have almost : turn (almostDoneState size) size lf = .next (behindLine size) size :=
      (almost_done_expects lf).trans rfl
    cases lineEnd with
    | lf => exact passes_next (fun _ => .inr rfl) ofLf (.nil _)
    | crlf => exact passes_next (fun _ => .inl rfl) ofCr (passes_next (fun _ => .inr rfl) almost (.nil _))
  | some parts =>
    obtain ⟨opening, text⟩ := parts
    obtain ⟨opens, oneLine⟩ := fine opening text rfl
    obtain ⟨notCr, notLf⟩ := opens_not_end opens
    have moved : turn .swChunkSize size opening = .next (extensionState size) size := by
      rw [size_end limit (openNone opening opens), if_neg notCr, if_neg notLf]
      exact if_pos opens
    exact passes_next (nofun) moved
      (passes_line neverAfter extension_skips almost_done_expects oneLine)

theorem passes_size_line (reads : line.Reads size) (limit : size ≤ maxOffT / 16) :
    Passes ⟨.swChunkStart, start⟩ line.bytes ⟨behindLine size, size⟩ := by
  obtain ⟨digits, ext, lineEnd⟩ := line
  obtain ⟨nonempty, isValue, fine⟩ := reads
  rw [SizeText.bytes]
  cases digits with
  | nil => cases nonempty rfl
  | cons digit digits =>
    rw [value_from_cons] at isValue
    subst isValue
    have front := passes_append (passes_first_digit start) (passes_digits _ limit)
    exact passes_append front (passes_extension limit fine)

theorem passes_data {data : Bytes} (isSize : data.length = size) (pos : 0 < size) :
    Passes ⟨.swChunkData, size⟩ data ⟨.swAfterData, 0⟩ := by
  induction data generalizing size with
  | nil => exact absurd isSize (Nat.ne_of_lt pos)
  | cons ch data ih =>
    rw [length_cons] at isSize
    have follows : following ⟨.swChunkData, size⟩ ch = some (afterByte ⟨.swChunkData, size⟩) := if_pos rfl
    refine .cons (nofun) follows ?_
    dsimp only [afterByte]
    by_cases isLast : size = 1
    · have isEmpty : data = [] := length_eq_zero_iff.1 (by omega)
      rw [if_pos isLast, isEmpty]
      exact .nil _
    · rw [if_neg isLast]
      exact ih (show data.length = size - 1 by omega) (by omega)

end Lines

section Written

variable {size : Nat}

theorem over_large_nothing_skipped (large : maxOffT / 16 < size) {input : Bytes} :
    NothingSkipped ⟨.swChunkSize, size⟩ input := by
  cases input with
  | nil => exact trivial
  | cons ch rest =>
    have moved : turn .swChunkSize size ch = .invalid := if_pos large
    refine ⟨nofun, ?_⟩
    intro after isAfter
    rw [following, if_neg (nofun), moved] at isAfter
    cases isAfter

theorem large_digits_nothing_skipped (start : Nat) (large : maxOffT / 16 < valueFrom start digits)
    (rest : Bytes) : NothingSkipped ⟨.swChunkSize, start⟩ (digits.map Digit.byte ++ rest) := by
  induction digits generalizing start with
  | nil => exact over_large_nothing_skipped large
  | cons digit digits ih =>
    by_cases limit : start ≤ maxOffT / 16
    · have follows : following ⟨.swChunkSize, start⟩ digit.byte = some _ :=
        following_next (size_digit limit (hex_digit_byte digit))
      exact (nothing_skipped_cons (fun isAfter => State.noConfusion isAfter) follows).2 (ih _ large)
    · exact over_large_nothing_skipped (Nat.not_le.1 limit)

theorem size_line_nothing_skipped (reads : line.Reads size)
    (later : NothingSkipped ⟨behindLine size, size⟩ rest) :
    NothingSkipped ⟨.swChunkStart, start⟩ (line.bytes ++ rest) := by
  by_cases limit : size ≤ maxOffT / 16
  · exact (passes_nothing_skipped (passes_size_line reads limit)).2 later
  · obtain ⟨digits, ext, lineEnd⟩ := line
    obtain ⟨nonempty, isValue, fine⟩ := reads
    cases digits with
    | nil => cases nonempty rfl
    | cons digit digits =>
      rw [value_from_cons] at isValue
      rw [SizeText.bytes, append_assoc]
      exact (passes_nothing_skipped (passes_first_digit start)).2
        (large_digits_nothing_skipped _ (by omega) _)

def Trailing (state : State) : Prop :=
  state = .swTrailer ∨ state = .swTrailerAlmostDone ∨ state = .swTrailerHeader ∨
    state = .swTrailerHeaderAlmostDone

theorem turn_trailing {next : State} {count : Nat} {ch : Byte} (trailing : Trailing state)
    (moved : turn state size ch = .next next count) : Trailing next := by
  rcases trailing with rfl | rfl | rfl | rfl
  · simp only [turn, swTrailer] at moved
    split_ifs at moved <;> injection moved with isNext <;> simp [← isNext, Trailing]
  · simp only [turn, swTrailerAlmostDone] at moved
    split_ifs at moved
  · obtain ⟨rfl | rfl | rfl, -⟩ := skip_line_next moved <;> simp [Trailing]
  · obtain ⟨rfl, -⟩ := expect_lf_next moved
    simp [Trailing]

theorem trailing_nothing_skipped (trailing : Trailing state) (size : Nat)
    (input : Bytes) : NothingSkipped ⟨state, size⟩ input := by
  induction input generalizing state size with
  | nil => exact trivial
  | cons ch rest ih =>
    have notAfter : state ≠ .swAfterData ∧ state ≠ .swChunkData := by
      rcases trailing with rfl | rfl | rfl | rfl <;> decide
    refine ⟨fun isAfter => absurd isAfter notAfter.1, ?_⟩
    intro after isAfter
    rw [following, if_neg notAfter.2] at isAfter
    split at isAfter
    · rename_i next count moved
      cases isAfter
      exact ih (turn_trailing trailing moved) count
    · cases isAfter

theorem body_nothing_skipped {text : BodyText} (grammatical : text.Grammatical) (start : Nat)
    (rest : Bytes) : NothingSkipped ⟨.swChunkStart, start⟩ (text.bytes ++ rest) := by
  obtain ⟨chunks, last, trailers, finish⟩ := text
  obtain ⟨chunksFine, lastFine, trailersFine⟩ := grammatical
  dsimp only at chunksFine lastFine trailersFine
  simp only [BodyText.bytes, append_assoc]
  induction chunks generalizing start with
  | nil => exact size_line_nothing_skipped lastFine (trailing_nothing_skipped (.inl rfl) 0 _)
  | cons chunk chunks ih =>
    obtain ⟨nonempty, reads⟩ := chunksFine chunk (mem_cons_self ..)
    have pos : 0 < chunk.data.length := length_pos_iff.mpr nonempty
    have isData : behindLine chunk.data.length = .swChunkData := if_neg (by omega)
    have others := ih 0 fun other mem => chunksFine other (mem_cons_of_mem _ mem)
    have dataEnd : Passes ⟨.swAfterData, 0⟩ chunk.dataEnd.bytes ⟨.swChunkStart, 0⟩ :=
      passes_line_end (fun _ => rfl) (fun _ => rfl)
    have behind := (passes_nothing_skipped (passes_append (passes_data rfl pos) dataEnd)).2 others
    rw [flatMap_cons, ChunkText.bytes, append_assoc, append_assoc]
    refine size_line_nothing_skipped reads ?_
    rw [isData]
    exact behind

end Written

section Accepted

variable {state almostDone after : State} {size start : Nat} {ch : Byte} {input body tail : Bytes}

variable {machine : Machine}

theorem run_nil_not_done : run machine [] ≠ .done body tail := by
  rw [run]
  split <;> simp

theorem run_not_invalid (finished : run machine (ch :: rest) = .done body tail) :
    turn machine.state machine.size ch ≠ .invalid := by
  intro moved
  rw [run_invalid rest moved] at finished
  cases finished

theorem expect_lf_accepted (expects : ∀ ch, turn almostDone size ch = expectLf after size ch)
    (finished : run ⟨almostDone, size⟩ input = .done body tail) :
    ∃ rest, input = lf :: rest ∧ run ⟨after, size⟩ rest = .done body tail := by
  cases input with
  | nil => exact absurd finished run_nil_not_done
  | cons ch rest =>
    by_cases isLf : ch = lf
    · subst isLf
      have moved : turn almostDone size lf = .next after size := (expects lf).trans rfl
      exact ⟨rest, rfl, (run_next rest moved).symm.trans finished⟩
    · exact absurd ((expects ch).trans (if_neg isLf)) (run_not_invalid finished)

theorem skip_line_accepted (skips : ∀ ch, turn state size ch = skipLine state almostDone after size ch)
    (expects : ∀ ch, turn almostDone size ch = expectLf after size ch)
    (finished : run ⟨state, size⟩ input = .done body tail) :
    ∃ (text : Bytes) (lineEnd : LineEnd) (rest : Bytes), OneLine text ∧
      input = text ++ (lineEnd.bytes ++ rest) ∧ run ⟨after, size⟩ rest = .done body tail := by
  induction input with
  | nil => exact absurd finished run_nil_not_done
  | cons ch rest ih =>
    by_cases isCr : ch = cr
    · subst isCr
      have moved : turn state size cr = .next almostDone size := (skips cr).trans rfl
      rw [run_next rest moved] at finished
      obtain ⟨others, rfl, later⟩ := expect_lf_accepted expects finished
      exact ⟨[], .crlf, others, nofun, rfl, later⟩
    · by_cases isLf : ch = lf
      · subst isLf
        have moved : turn state size lf = .next after size := (skips lf).trans rfl
        rw [run_next rest moved] at finished
        exact ⟨[], .lf, rest, nofun, rfl, finished⟩
      · have moved : turn state size ch = .next state size := by
          rw [skips, skipLine, if_neg isCr, if_neg isLf]
        rw [run_next rest moved] at finished
        obtain ⟨text, lineEnd, others, oneLine, rfl, later⟩ := ih finished
        refine ⟨ch :: text, lineEnd, others, ?_, rfl, later⟩
        intro other mem
        rcases mem_cons.1 mem with rfl | inText
        · exact ⟨isCr, isLf⟩
        · exact oneLine other inText

theorem digit_of_value : ∀ (code : Fin 256) (value : Fin 16),
    hexDigit (UInt8.ofNat code.val) = some value.val →
    Digit.byte ⟨value, decide (UInt8.ofNat code.val < 'a'.toUInt8)⟩ = UInt8.ofNat code.val := by
  decide +kernel

theorem digit_of_hex {value : Nat} (isDigit : hexDigit ch = some value) :
    ∃ digit : Digit, digit.byte = ch ∧ digit.value.val = value := by
  have same : UInt8.ofNat ch.toNat = ch := UInt8.ofNat_toNat
  have found := digit_of_value ⟨ch.toNat, ch.toNat_lt⟩ ⟨value, hex_digit_lt isDigit⟩
  rw [same] at found
  exact ⟨_, found isDigit, rfl⟩

theorem digits_accepted (finished : run ⟨.swChunkSize, start⟩ input = .done body tail) :
    ∃ (digits : List Digit) (ext : Option (Byte × Bytes)) (lineEnd : LineEnd) (rest : Bytes),
      (∀ opening text, ext = some (opening, text) → Opens opening ∧ OneLine text) ∧
      input = digits.map Digit.byte ++ ((extensionBytes ext ++ lineEnd.bytes) ++ rest) ∧
      valueFrom start digits ≤ maxOffT / 16 ∧
      run ⟨behindLine (valueFrom start digits), valueFrom start digits⟩ rest = .done body tail := by
  induction input generalizing start with
  | nil => exact absurd finished run_nil_not_done
  | cons ch rest ih =>
    have limit : start ≤ maxOffT / 16 := by
      by_contra large
      exact run_not_invalid finished (if_pos (Nat.not_le.1 large))
    cases isDigit : hexDigit ch with
    | some value =>
      rw [run_next rest (size_digit limit isDigit)] at finished
      obtain ⟨digits, ext, lineEnd, others, fine, rfl, small, later⟩ := ih finished
      obtain ⟨digit, rfl, rfl⟩ := digit_of_hex isDigit
      exact ⟨digit :: digits, ext, lineEnd, others, fine, rfl, small, later⟩
    | none =>
      have moved := size_end limit isDigit
      have noExtension : ∀ (opening : Byte) (text : Bytes),
          (none : Option (Byte × Bytes)) = some (opening, text) → Opens opening ∧ OneLine text :=
        nofun
      by_cases isCr : ch = cr
      · subst isCr
        rw [run_next rest moved] at finished
        obtain ⟨others, rfl, later⟩ := expect_lf_accepted almost_done_expects finished
        exact ⟨[], none, .crlf, others, noExtension, rfl, limit, later⟩
      · rw [if_neg isCr] at moved
        by_cases isLf : ch = lf
        · subst isLf
          rw [run_next rest moved] at finished
          exact ⟨[], none, .lf, rest, noExtension, rfl, limit, finished⟩
        · rw [if_neg isLf] at moved
          by_cases opens : Opens ch
          · replace moved := moved.trans (if_pos opens)
            rw [run_next rest moved] at finished
            obtain ⟨text, lineEnd, others, oneLine, rfl, later⟩ :=
              skip_line_accepted extension_skips almost_done_expects finished
            refine ⟨[], some (ch, text), lineEnd, others, ?_, ?_, limit, later⟩
            · intro opening other isExtension
              injection isExtension with isPair
              injection isPair with isOpening isText
              rw [← isOpening, ← isText]
              exact ⟨opens, oneLine⟩
            · simp [extensionBytes]
          · exact absurd (moved.trans (if_neg opens)) (run_not_invalid finished)

theorem size_line_accepted (finished : run ⟨.swChunkStart, start⟩ input = .done body tail) :
    ∃ (line : SizeText) (size : Nat) (rest : Bytes), line.Reads size ∧ size ≤ maxOffT / 16 ∧
      input = line.bytes ++ rest ∧ run ⟨behindLine size, size⟩ rest = .done body tail := by
  cases input with
  | nil => exact absurd finished run_nil_not_done
  | cons ch rest =>
    cases isDigit : hexDigit ch with
    | none =>
      have moved : turn .swChunkStart start ch = .invalid := by rw [turn, swChunkStart, isDigit]
      exact absurd moved (run_not_invalid finished)
    | some value =>
      have moved : turn .swChunkStart start ch = .next .swChunkSize value := by
        rw [turn, swChunkStart, isDigit]
      rw [run_next rest moved] at finished
      obtain ⟨digits, ext, lineEnd, others, fine, rfl, limit, later⟩ := digits_accepted finished
      obtain ⟨digit, rfl, rfl⟩ := digit_of_hex isDigit
      refine ⟨⟨digit :: digits, ext, lineEnd⟩, _, others,
        ⟨cons_ne_nil _ _, value_from_cons, fine⟩, limit, ?_, later⟩
      simp [SizeText.bytes]

theorem trailers_accepted (finished : run ⟨.swTrailer, 0⟩ input = .done body tail) :
    body = [] ∧ ∃ (trailers : List (Bytes × LineEnd)) (finish : LineEnd),
      (∀ trailer ∈ trailers, trailer.1 ≠ [] ∧ OneLine trailer.1) ∧
      input = trailers.flatMap trailerBytes ++ (finish.bytes ++ tail) := by
  induction length : input.length using Nat.strongRecOn generalizing input with
  | ind length ih =>
    subst length
    cases input with
    | nil => exact absurd finished run_nil_not_done
    | cons ch rest =>
      by_cases isCr : ch = cr
      · subst isCr
        have moved : turn .swTrailer 0 cr = .next .swTrailerAlmostDone 0 := rfl
        rw [run_next rest moved] at finished
        cases rest with
        | nil => exact absurd finished run_nil_not_done
        | cons second others =>
          by_cases isLf : second = lf
          · subst isLf
            injection finished with isBody isTail
            refine ⟨isBody.symm, [], .crlf, ?_, by rw [isTail]; rfl⟩
            exact nofun
          · have moved : turn .swTrailerAlmostDone 0 second = .invalid := if_neg isLf
            exact absurd moved (run_not_invalid finished)
      · by_cases isLf : ch = lf
        · subst isLf
          injection finished with isBody isTail
          refine ⟨isBody.symm, [], .lf, ?_, by rw [isTail]; rfl⟩
          exact nofun
        · have moved : turn .swTrailer 0 ch = .next .swTrailerHeader 0 := by
            rw [turn, swTrailer, if_neg isCr, if_neg isLf]
          rw [run_next rest moved] at finished
          obtain ⟨text, lineEnd, others, oneLine, rfl, later⟩ :=
            skip_line_accepted (fun _ => rfl) (fun _ => rfl) finished
          have shorter : others.length < (ch :: (text ++ (lineEnd.bytes ++ others))).length := by
            simp only [length_cons, length_append]
            omega
          obtain ⟨isBody, trailers, finish, fine, rfl⟩ := ih _ shorter later rfl
          refine ⟨isBody, (ch :: text, lineEnd) :: trailers, finish, ?_, ?_⟩
          · intro trailer mem
            rcases mem_cons.1 mem with rfl | inOthers
            · refine ⟨cons_ne_nil _ _, ?_⟩
              intro other inText
              rcases mem_cons.1 inText with rfl | inRest
              · exact ⟨isCr, isLf⟩
              · exact oneLine other inRest
            · exact fine trailer inOthers
          · simp [trailerBytes]

theorem prepend_done {outcome : Outcome} {front : Bytes}
    (finished : outcome.prepend front = .done body tail) :
    ∃ rest, outcome = .done rest tail ∧ body = front ++ rest := by
  cases outcome with
  | again rest ctx => cases finished
  | error rest => cases finished
  | done rest behind =>
    injection finished with isBody isTail
    exact ⟨rest, by rw [isTail], isBody.symm⟩

theorem data_accepted (pos : 0 < size) (finished : run ⟨.swChunkData, size⟩ input = .done body tail) :
    ∃ data rest later : Bytes, data.length = size ∧ input = data ++ rest ∧ body = data ++ later ∧
      run ⟨.swAfterData, 0⟩ rest = .done later tail := by
  rw [run_take pos] at finished
  obtain ⟨later, finished, isBody⟩ := prepend_done finished
  by_cases short : input.length < size
  · rw [if_pos short, drop_of_length_le (Nat.le_of_lt short)] at finished
    exact absurd finished run_nil_not_done
  · rw [if_neg short] at finished
    refine ⟨input.take size, input.drop size, later, ?_, (take_append_drop size input).symm, isBody,
      finished⟩
    rw [length_take]
    omega

theorem data_end_accepted (nothing : NothingSkipped ⟨.swAfterData, 0⟩ input)
    (finished : run ⟨.swAfterData, 0⟩ input = .done body tail) :
    ∃ (dataEnd : LineEnd) (rest : Bytes), input = dataEnd.bytes ++ rest ∧
      run ⟨.swChunkStart, 0⟩ rest = .done body tail := by
  obtain ⟨text, dataEnd, rest, oneLine, isInput, later⟩ :=
    skip_line_accepted (fun _ => rfl) (fun _ => rfl) finished
  cases text with
  | nil => exact ⟨dataEnd, rest, isInput, later⟩
  | cons ch text =>
    obtain ⟨notCr, notLf⟩ := oneLine ch (mem_cons_self ..)
    rw [isInput] at nothing
    rcases nothing.1 rfl with isCr | isLf
    · exact absurd isCr notCr
    · exact absurd isLf notLf

theorem body_accepted (nothing : NothingSkipped ⟨.swChunkStart, start⟩ input)
    (finished : run ⟨.swChunkStart, start⟩ input = .done body tail) :
    ∃ text : BodyText, text.Grammatical ∧ input = text.bytes ++ tail ∧ body = text.body := by
  induction length : input.length using Nat.strongRecOn generalizing input start body with
  | ind length ih =>
    subst length
    obtain ⟨line, size, rest, reads, limit, rfl, later⟩ := size_line_accepted finished
    have nothing := (passes_nothing_skipped (passes_size_line reads limit)).1 nothing
    by_cases isZero : size = 0
    · subst isZero
      obtain ⟨rfl, trailers, finish, fine, rfl⟩ := trailers_accepted later
      refine ⟨⟨[], line, trailers, finish⟩, ⟨nofun, reads, fine⟩,
        ?_, rfl⟩
      simp [BodyText.bytes]
    · have isData : behindLine size = .swChunkData := if_neg isZero
      rw [isData] at later nothing
      obtain ⟨data, behind, others, isSize, rfl, rfl, fromEnd⟩ :=
        data_accepted (Nat.pos_of_ne_zero isZero) later
      have passesData := passes_data isSize (Nat.pos_of_ne_zero isZero)
      have nothingAfter := (passes_nothing_skipped passesData).1 nothing
      obtain ⟨dataEnd, next, rfl, fromNext⟩ := data_end_accepted nothingAfter fromEnd
      have passesEnd : Passes ⟨.swAfterData, 0⟩ dataEnd.bytes ⟨.swChunkStart, 0⟩ :=
        passes_line_end (fun _ => rfl) (fun _ => rfl)
      have nothingNext := (passes_nothing_skipped passesEnd).1 nothingAfter
      have shorter : next.length < (line.bytes ++ (data ++ (dataEnd.bytes ++ next))).length := by
        simp only [length_append]
        omega
      obtain ⟨⟨chunks, last, trailers, finish⟩, fine, rfl, rfl⟩ := ih _ shorter nothingNext fromNext rfl
      refine ⟨⟨⟨line, data, dataEnd⟩ :: chunks, last, trailers, finish⟩, ⟨?_, fine.last, fine.trailers⟩,
        ?_, rfl⟩
      · intro chunk mem
        rcases mem_cons.1 mem with rfl | inChunks
        · refine ⟨?_, by rw [isSize]; exact reads⟩
          intro isEmpty
          have noData : data.length = 0 := congrArg List.length isEmpty
          exact isZero (isSize.symm.trans noData)
        · exact fine.chunks chunk inChunks
      · simp [BodyText.bytes, ChunkText.bytes]

end Accepted

/-- A body that the parser accepts is one of the grammar if and only if the byte behind
the data of each chunk is CR or LF. -/
theorem accepted_body_grammatical {bs : List Bytes} {body tail : Bytes}
    (finished : driveAll initial bs = some (.done body tail)) :
    (∃ text : BodyText, text.Grammatical ∧ bs.flatten = text.bytes ++ tail ∧ body = text.body) ↔
      NothingSkipped ⟨.swChunkStart, 0⟩ bs.flatten := by
  constructor
  · rintro ⟨text, grammatical, isInput, -⟩
    rw [isInput]
    exact body_nothing_skipped grammatical 0 tail
  · intro nothing
    cases bs with
    | nil => cases finished
    | cons b bs =>
      rw [drive_all_cons bs b initial initial_proper] at finished
      exact body_accepted nothing (Option.some.inj finished)

/-- "1" CR LF "a" and a line end, and the last chunk. -/
def plainInput : Bytes :=
  ['1'.toUInt8, cr, lf, 'a'.toUInt8, cr, lf, '0'.toUInt8, cr, lf, cr, lf]

theorem plain_input_grammatical :
    ∃ text : BodyText, text.Grammatical ∧ plainInput = text.bytes ++ [] ∧ ['a'.toUInt8] = text.body :=
  (accepted_body_grammatical
    (by decide : driveAll initial [plainInput] = some (.done ['a'.toUInt8] []))).2 (by decide)

def paddedInput : Bytes :=
  ['1'.toUInt8, cr, lf, 'a'.toUInt8, 'X'.toUInt8, cr, lf, '0'.toUInt8, cr, lf, cr, lf]

theorem padded_input_accepted : driveAll initial [paddedInput] = some (.done ['a'.toUInt8] []) ∧
      ¬∃ text : BodyText, text.Grammatical ∧ paddedInput = text.bytes ++ [] := by
  refine ⟨by decide, ?_⟩
  rintro ⟨text, grammatical, isInput⟩
  have nothing := body_nothing_skipped grammatical 0 []
  rw [← isInput] at nothing
  have skipped : ¬NothingSkipped ⟨.swChunkStart, 0⟩ paddedInput := by decide
  exact skipped nothing

end ServerCore.NginxHttpChunkedGrammar
