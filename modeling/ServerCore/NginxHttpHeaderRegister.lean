import ServerCore.NginxHttpParseStreaming

/-!
# The register of the lower-cased header name

`ngx_http_parse_header_line` keeps the first 32 bytes of a name in lower case,
with their number modulo 32 and their hash. Where that number is the length of
the name, the caller takes the register as the lower-cased key and the hash as
its hash.
-/

namespace ServerCore.NginxHttpHeaderRegister

open NginxHttpParse (Byte Bytes Buf cr lf)
open NginxHttpParse.HeaderLine
open NginxHttpParseStreaming.HeaderLine
open ResumableScan List

variable {next : Request}

def ngxTolower (c : Byte) : Byte :=
  if 'A'.toUInt8 ≤ c ∧ c ≤ 'Z'.toUInt8 then c ||| 0x20 else c

def ngxHashKey (data : Bytes) : Nat := data.foldl ngxHash 0

def isTaken (allow : Bool) (ch : Byte) : Bool :=
  lowcase ch ≠ 0 || (ch == '_'.toUInt8 && allow)

/-- The bytes of the input from `start` up to `stop`. -/
def bytesBetween (input : Nat → Byte) (start stop : Nat) : Bytes :=
  (List.range (stop - start)).map fun index => input (start + index)

theorem bytes_between_next {input : Nat → Byte} {start position : Nat} (order : start ≤ position) :
    bytesBetween input start (position + 1) = bytesBetween input start position ++ [input position] := by
  rw [bytesBetween, Nat.succ_sub order, range_succ, map_append, bytesBetween,
    map_singleton, Nat.add_sub_cancel' order]

theorem bytes_between_one (input : Nat → Byte) (position : Nat) :
    bytesBetween input position (position + 1) = [input position] := by
  rw [bytes_between_next (Nat.le_refl position)]
  simp [bytesBetween]

variable {ch : Byte} {allow : Bool} {r : Request}

theorem lowcase_tolower (isName : lowcase ch ≠ 0) : lowcase ch = ngxTolower ch := by
  unfold ngxTolower
  by_cases isUpper : 'A'.toUInt8 ≤ ch ∧ ch ≤ 'Z'.toUInt8
  · have notDash : ch ≠ '-'.toUInt8 := by
      rintro rfl
      exact absurd isUpper (by decide)
    have notDigit : ¬ ('0'.toUInt8 ≤ ch ∧ ch ≤ '9'.toUInt8) := fun isDigit =>
      absurd (UInt8.le_trans isUpper.1 isDigit.2) (by decide)
    rw [lowcase, if_neg notDash, if_neg notDigit, if_pos isUpper, if_pos isUpper]
  · rw [if_neg isUpper]
    unfold lowcase at isName ⊢
    rw [if_neg isUpper] at isName ⊢
    split_ifs at isName ⊢ <;> first | rfl | cases isName rfl

theorem tolower_underscore : ngxTolower '_'.toUInt8 = '_'.toUInt8 := by decide

def startsTaken (allow : Bool) (name : Bytes) : Bool :=
  name.head?.any (isTaken allow)

def takenBytes (allow : Bool) (name : Bytes) : Bytes :=
  (name.filter (isTaken allow)).map ngxTolower

/-- What the register says of a name whose first byte has started it. -/
def Registered (allow : Bool) (name : Bytes) (r : Request) : Prop :=
  startsTaken allow name = true →
    r.lowcaseIndex = (takenBytes allow name).length % ngxHttpLcHeaderLen ∧
      r.headerHash = ngxHashKey (takenBytes allow name) ∧
      ((takenBytes allow name).length < ngxHttpLcHeaderLen →
        r.fields.lowcaseHeader.take (takenBytes allow name).length =
          takenBytes allow name)

abbrev Sized (fields : Fields) : Prop := fields.lowcaseHeader.length = ngxHttpLcHeaderLen

theorem registered_skipped {name : Bytes} (notTaken : isTaken allow ch = false)
    (nonempty : name ≠ []) (registered : Registered allow name r)
    (sameIndex : next.lowcaseIndex = r.lowcaseIndex) (sameHash : next.headerHash = r.headerHash)
    (sameRegister : next.fields.lowcaseHeader = r.fields.lowcaseHeader) :
    Registered allow (name ++ [ch]) next := by
  have sameTaken : takenBytes allow (name ++ [ch]) = takenBytes allow name := by
    simp [takenBytes, filter_append, notTaken]
  intro starts
  rw [sameTaken, sameIndex, sameHash, sameRegister]
  apply registered
  rw [startsTaken, head?_append_of_ne_nil name nonempty] at starts
  exact starts

theorem registered_next {name : Bytes} (taken : isTaken allow ch = true) (nonempty : name ≠ [])
    (size : Sized r.fields) (registered : Registered allow name r)
    (isNext : nextByte r (ngxTolower ch) = .more next) : Registered allow (name ++ [ch]) next := by
  have moreTaken : takenBytes allow (name ++ [ch]) =
      takenBytes allow name ++ [ngxTolower ch] := by
    simp [takenBytes, filter_append, taken]
  cases isNext
  intro starts
  rw [startsTaken, head?_append_of_ne_nil name nonempty] at starts
  rcases registered starts with ⟨index, hash, content⟩
  rw [moreTaken, length_append, length_singleton]
  generalize takenBytes allow name = before at *
  have wraps : (r.lowcaseIndex + 1) &&& (ngxHttpLcHeaderLen - 1) =
      (before.length + 1) % ngxHttpLcHeaderLen := by
    rw [index]
    exact (Nat.and_two_pow_sub_one_eq_mod _ 5).trans (by simp [ngxHttpLcHeaderLen])
  constructor
  · exact wraps
  constructor
  · rw [hash, ngxHashKey, ngxHashKey, foldl_concat]
  · intro short
    have fits : before.length < ngxHttpLcHeaderLen := Nat.lt_of_succ_lt short
    rw [Nat.mod_eq_of_lt fits] at index
    rw [index, set_eq_take_append_cons_drop, if_pos (by rw [size]; exact fits), content fits,
      take_length_add_append, take_succ_cons, take_zero]

theorem registered_first {r : Fields}
    (taken : isTaken allow ch = true) (size : r.lowcaseHeader.length = ngxHttpLcHeaderLen)
    (isFirst : firstByte r (ngxTolower ch) = .more next) : Registered allow [ch] next := by
  have one : takenBytes allow [ch] = [ngxTolower ch] := by simp [takenBytes, taken]
  cases isFirst
  intro starts
  rw [one]
  constructor
  · rfl
  constructor
  · rfl
  · intro short
    rw [set_eq_take_append_cons_drop, if_pos (by rw [size]; decide)]
    rfl

section Invariant

variable (allow : Bool) (input : Nat → Byte)

def NameRead (r : Request) : Prop :=
  ∃ start stop, r.fields.headerNameStart = some start ∧ r.fields.headerNameEnd = some stop ∧
    Registered allow (bytesBetween input start stop) r

/-- The part of the name before `position` is in the register. -/
def NameBegun (r : Request) (position : Nat) : Prop :=
  ∃ start, r.fields.headerNameStart = some start ∧ start < position ∧
    Registered allow (bytesBetween input start position) r

/-- What is known before the byte at `position`. -/
def Known (r : Request) (position : Nat) : Prop :=
  Sized r.fields ∧ match r.state with
    | .swStart | .swIgnoreLine | .swHeaderAlmostDone => True
    | .swName => NameBegun allow input r position
    | .swSpaceBeforeValue | .swValue | .swSpaceAfterValue | .swAlmostDone =>
      NameRead allow input r

def Ended : Stop → Prop
  | .done r => Sized r.fields ∧ NameRead allow input r
  | .headerDone fields => Sized fields
  | .error _ => True

end Invariant

section Steps

variable {allow : Bool} {input : Nat → Byte} {r : Request} {position : Nat}

/-- A step keeps what is known. -/
abbrev Keeps (allow : Bool) (input : Nat → Byte) (position : Nat) (verdict : Verdict Request Stop) : Prop :=
  verdict.Meets (fun next => Known allow input next (position + 1)) (Ended allow input)

theorem first_known {fields : Fields} (taken : isTaken allow (input position) = true)
    (size : Sized fields) (starts : fields.headerNameStart = some position) :
    Keeps allow input position (firstByte fields (ngxTolower (input position))) := by
  have registered := registered_first taken size rfl
  rw [← bytes_between_one input position] at registered
  have sameSize : (fields.lowcaseHeader.set 0 (ngxTolower (input position))).length =
      ngxHttpLcHeaderLen := by
    rw [length_set, size]
  exact ⟨sameSize, position, starts, Nat.lt_succ_self position, registered⟩

theorem not_taken_known (notTaken : isTaken allow (input position) = false)
    (isName : next.state = .swName) (size : Sized next.fields)
    (starts : next.fields.headerNameStart = some position) : Known allow input next (position + 1) := by
  apply And.intro size
  rw [isName]
  apply Exists.intro position
  apply And.intro starts
  apply And.intro (Nat.lt_succ_self position)
  intro startsTaken
  rw [bytes_between_one] at startsTaken
  exact absurd startsTaken (by simp [NginxHttpHeaderRegister.startsTaken, notTaken])

theorem start_known (size : Sized r.fields) :
    Keeps allow input position (swStart allow r position (input position)) := by
  have underscore : lowcase '_'.toUInt8 = 0 := by decide
  unfold swStart
  by_cases isCr : input position = cr
  · rw [if_pos isCr]
    exact ⟨size, trivial⟩
  by_cases isLf : input position = lf
  · rw [if_neg isCr, if_pos isLf]
    exact size
  rw [if_neg isCr, if_neg isLf]
  by_cases isName : lowcase (input position) ≠ 0
  · rw [if_pos isName, lowcase_tolower isName]
    exact first_known (by simp [isTaken, isName]) size rfl
  rw [if_neg isName]
  by_cases isUnderscore : input position = '_'.toUInt8
  · rw [if_pos isUnderscore]
    cases allow with
    | true =>
      have isSame : input position = ngxTolower (input position) := by
        rw [isUnderscore, tolower_underscore]
      rw [if_pos rfl, isSame]
      exact first_known (by simp [isTaken, isUnderscore]) size rfl
    | false =>
      rw [if_neg Bool.false_ne_true]
      exact not_taken_known (by simp [isTaken, isUnderscore, underscore]) rfl size rfl
  rw [if_neg isUnderscore]
  by_cases isNul : input position = 0
  · rw [if_pos isNul]
    exact trivial
  rw [if_neg isNul]
  exact not_taken_known (by simpa [isTaken, isUnderscore] using isName) rfl size rfl

theorem next_known (taken : isTaken allow (input position) = true)
    (size : Sized r.fields) (begun : NameBegun allow input r position) :
    Keeps allow input position (nextByte r (ngxTolower (input position))) := by
  rcases begun with ⟨start, starts, order, registered⟩
  have nonempty : bytesBetween input start position ≠ [] := by
    simp only [bytesBetween, ne_eq, map_eq_nil_iff, range_eq_nil]
    omega
  have further := registered_next taken nonempty size registered rfl
  rw [← bytes_between_next (Nat.le_of_lt order)] at further
  have sameSize : (r.fields.lowcaseHeader.set r.lowcaseIndex (ngxTolower (input position))).length =
      ngxHttpLcHeaderLen := by
    rw [length_set, size]
  exact ⟨sameSize, start, starts, Nat.lt_succ_of_lt order, further⟩

theorem skipped_known (notTaken : isTaken allow (input position) = false)
    (size : Sized r.fields) (begun : NameBegun allow input r position) :
    Keeps allow input position (go .swName r { r.fields with invalidHeader := true }) := by
  rcases begun with ⟨start, starts, order, registered⟩
  have nonempty : bytesBetween input start position ≠ [] := by
    simp only [bytesBetween, ne_eq, map_eq_nil_iff, range_eq_nil]
    omega
  apply And.intro size
  apply Exists.intro start
  apply And.intro starts
  apply And.intro (Nat.lt_succ_of_lt order)
  rw [bytes_between_next (Nat.le_of_lt order)]
  exact registered_skipped notTaken nonempty registered rfl rfl rfl

theorem name_ends (begun : NameBegun allow input r position)
    (sameStart : next.fields.headerNameStart = r.fields.headerNameStart)
    (stops : next.fields.headerNameEnd = some position)
    (sameIndex : next.lowcaseIndex = r.lowcaseIndex) (sameHash : next.headerHash = r.headerHash)
    (sameRegister : next.fields.lowcaseHeader = r.fields.lowcaseHeader) :
    NameRead allow input next := by
  rcases begun with ⟨start, starts, -, registered⟩
  apply Exists.intro start
  apply Exists.intro position
  apply And.intro (sameStart.trans starts)
  apply And.intro stops
  unfold Registered
  rw [sameIndex, sameHash, sameRegister]
  exact registered

theorem name_known (size : Sized r.fields) (begun : NameBegun allow input r position) :
    Keeps allow input position (swName allow input r position (input position)) := by
  have underscore : lowcase '_'.toUInt8 = 0 := by decide
  unfold swName
  by_cases isName : lowcase (input position) ≠ 0
  · rw [if_pos isName, lowcase_tolower isName]
    exact next_known (by simp [isTaken, isName]) size begun
  rw [if_neg isName]
  by_cases isUnderscore : input position = '_'.toUInt8
  · rw [if_pos isUnderscore]
    cases allow with
    | true =>
      have isSame : input position = ngxTolower (input position) := by
        rw [isUnderscore, tolower_underscore]
      rw [if_pos rfl, isSame]
      exact next_known (by simp [isTaken, isUnderscore]) size begun
    | false =>
      rw [if_neg Bool.false_ne_true]
      exact skipped_known (by simp [isTaken, isUnderscore, underscore]) size begun
  have notTaken : isTaken allow (input position) = false := by
    simpa [isTaken, isUnderscore] using isName
  rw [if_neg isUnderscore]
  simp only [meets_ite]
  constructor
  · intro isColon
    exact ⟨size, name_ends begun rfl rfl rfl rfl rfl⟩
  intro notColon
  constructor
  · intro isCr
    exact ⟨size, name_ends begun rfl rfl rfl rfl rfl⟩
  intro notCr
  constructor
  · intro isLf
    exact ⟨size, name_ends begun rfl rfl rfl rfl rfl⟩
  intro notLf
  constructor
  · intro isRepeated
    exact ⟨size, trivial⟩
  intro notRepeated
  constructor
  · intro isNul
    exact trivial
  · intro notNul
    exact skipped_known notTaken size begun

theorem read_known (size : Sized r.fields) (read : NameRead allow input r) :
    Keeps allow input position (swSpaceBeforeValue r position (input position)) ∧
      Keeps allow input position (swValue r position (input position)) ∧
      Keeps allow input position (swSpaceAfterValue r (input position)) ∧
      Keeps allow input position (swAlmostDone r (input position)) := by
  unfold swSpaceBeforeValue swValue swSpaceAfterValue swAlmostDone go done invalidHeader
  simp only [meets_ite, meets_more, meets_stop]
  have kept : Sized r.fields ∧ NameRead allow input r := ⟨size, read⟩
  exact ⟨⟨fun _ => kept, fun _ => ⟨fun _ => kept, fun _ => ⟨fun _ => kept, fun _ =>
      ⟨fun _ => trivial, fun _ => kept⟩⟩⟩⟩,
    ⟨fun _ => kept, fun _ => ⟨fun _ => kept, fun _ => ⟨fun _ => kept, fun _ =>
      ⟨fun _ => trivial, fun _ => kept⟩⟩⟩⟩,
    ⟨fun _ => kept, fun _ => ⟨fun _ => kept, fun _ => ⟨fun _ => kept, fun _ =>
      ⟨fun _ => trivial, fun _ => kept⟩⟩⟩⟩,
    ⟨fun _ => kept, fun _ => ⟨fun _ => kept, fun _ => trivial⟩⟩⟩

theorem step_known (known : Known allow input r position) :
    Keeps allow input position (step allow input r position (input position)) := by
  rcases known with ⟨size, stateKnown⟩
  unfold step
  cases isState : r.state with
  | swStart => exact start_known size
  | swName =>
    rw [isState] at stateKnown
    exact name_known size stateKnown
  | swSpaceBeforeValue =>
    rw [isState] at stateKnown
    exact (read_known size stateKnown).1
  | swValue =>
    rw [isState] at stateKnown
    exact (read_known size stateKnown).2.1
  | swSpaceAfterValue =>
    rw [isState] at stateKnown
    exact (read_known size stateKnown).2.2.1
  | swAlmostDone =>
    rw [isState] at stateKnown
    exact (read_known size stateKnown).2.2.2
  | swIgnoreLine =>
    simp only [swIgnoreLine, meets_ite]
    exact ⟨fun _ => ⟨size, trivial⟩, fun _ => ⟨size, trivial⟩⟩
  | swHeaderAlmostDone =>
    simp only [swHeaderAlmostDone, meets_ite]
    exact ⟨fun _ => size, fun _ => trivial⟩

end Steps

/-- A header line with the buffer it begins in and the pieces in which the rest arrives. -/
structure Line where
  b : Buf
  pieces : List Bytes
  allowUnderscores : Bool
  inside : b.pos ≤ b.data.length

def Line.data (line : Line) : Bytes := line.b.data ++ line.pieces.flatten

def Line.feed (line : Line) (r : Request) : Parsed :=
  feedPieces line.allowUnderscores r line.b line.pieces

/-- The bytes from `r->header_name_start` to `r->header_name_end`. -/
def Line.name (line : Line) (r : Request) : Bytes :=
  bytesBetween (readAt 0 line.data) (r.fields.headerNameStart.getD 0)
    (r.fields.headerNameEnd.getD 0)

/-- The request after lines that are all returned with `NGX_OK`. -/
def headerLines (r : Request) : List Line → Option Request
  | [] => some r
  | line :: lines =>
    if (line.feed r).rc = .ngxOk then headerLines (line.feed r).r lines else none

/-- A request between two lines. What the register and the hash hold is left open. -/
def BetweenLines (r : Request) : Prop :=
  r.state = .swStart ∧ Sized r.fields

theorem returned_known {line : Line} (between : BetweenLines r)
    (returned : (line.feed r).rc = .ngxOk) : BetweenLines (line.feed r).r ∧
      NameRead line.allowUnderscores (readAt 0 line.data) (line.feed r).r := by
  rcases between with ⟨fresh, size⟩
  have agrees := feed_pieces_agree line.allowUnderscores r line.b line.pieces fresh line.inside
  have atOnce : line.feed r =
      ngxHttpParseHeaderLine r ⟨line.b.pos, line.data⟩ line.allowUnderscores :=
    agrees.2.2.1 (.inl (agrees.1.symm.trans returned))
  rw [atOnce] at returned ⊢
  have start : Known line.allowUnderscores (readAt 0 line.data) r line.b.pos := by
    apply And.intro size
    rw [fresh]
    exact trivial
  have kept : ∀ r position, Known line.allowUnderscores (readAt 0 line.data) r position →
      (step line.allowUnderscores (readAt 0 line.data) r position
        (readAt 0 line.data position)).Meets
        (fun next => Known line.allowUnderscores (readAt 0 line.data) next (position + 1))
        (Ended line.allowUnderscores (readAt 0 line.data)) :=
    fun _ _ known => step_known known
  have outcome := scan_rest_meets kept start
  unfold ngxHttpParseHeaderLine at returned ⊢
  generalize scanRest (step line.allowUnderscores) 0 r line.b.pos line.data = result at *
  rcases result with ⟨verdict, reached⟩
  cases verdict with
  | more saved => exact absurd returned (by simp [conclude])
  | stop reason =>
    cases reason with
    | headerDone fields | error fields => exact absurd returned (by simp [conclude])
    | done saved =>
      rcases outcome with ⟨savedSize, read⟩
      exact ⟨⟨rfl, savedSize⟩, read⟩

theorem between_lines {after : Request} {lines : List Line} (between : BetweenLines r)
    (ran : headerLines r lines = some after) : BetweenLines after := by
  induction lines generalizing r with
  | nil =>
    cases ran
    exact between
  | cons line lines ih =>
    rw [headerLines] at ran
    split_ifs at ran with returned
    exact ih (returned_known between returned).1 ran

theorem whole_name_taken {name : Bytes}
    (whole : (takenBytes allow name).length % ngxHttpLcHeaderLen = name.length) :
    (takenBytes allow name).length < ngxHttpLcHeaderLen ∧
      takenBytes allow name = name.map ngxTolower := by
  have shorter : (takenBytes allow name).length ≤ name.length := by
    rw [takenBytes, length_map]
    exact length_filter_le _ _
  have wrapped : name.length < ngxHttpLcHeaderLen := by
    rw [← whole]
    exact Nat.mod_lt _ (by decide)
  have fits : (takenBytes allow name).length < ngxHttpLcHeaderLen :=
    Nat.lt_of_le_of_lt shorter wrapped
  apply And.intro fits
  rw [Nat.mod_eq_of_lt fits, takenBytes, length_map] at whole
  rw [takenBytes, length_filter_eq_length_iff.mp whole |> filter_eq_self.mpr]

/-- The register holds the lower-cased name, and the hash is that of the register. -/
def RegisterRight (r : Request) (name : Bytes) : Prop :=
  r.fields.lowcaseHeader.take r.lowcaseIndex = name.map ngxTolower ∧
    r.headerHash = ngxHashKey (name.map ngxTolower)

/-- In every run of lines, a register as long as the name is right for each line whose name
begins with a byte that the register takes. -/
theorem lowcase_register_right {r after : Request} {before : List Line} (line : Line)
    (between : BetweenLines r) (ran : headerLines r before = some after)
    (returned : (line.feed after).rc = .ngxOk)
    (starts : startsTaken line.allowUnderscores (line.name (line.feed after).r) = true)
    (whole : (line.feed after).r.lowcaseIndex = (line.name (line.feed after).r).length) :
    RegisterRight (line.feed after).r (line.name (line.feed after).r) := by
  have read := (returned_known (between_lines between ran) returned).2
  rcases read with ⟨start, stop, isStart, isStop, registered⟩
  have isName : line.name (line.feed after).r = bytesBetween (readAt 0 line.data) start stop := by
    rw [Line.name, isStart, isStop, Option.getD_some, Option.getD_some]
  rw [isName] at starts whole ⊢
  rcases registered starts with ⟨index, hash, content⟩
  rcases whole_name_taken (index.symm.trans whole) with ⟨fits, sameBytes⟩
  constructor
  · rw [index, Nat.mod_eq_of_lt fits, content fits, sameBytes]
  · rw [hash, sameBytes]

def lineOf (text : String) : Line where
  b := ⟨0, text.toList.map Char.toUInt8⟩
  pieces := []
  allowUnderscores := false
  inside := Nat.zero_le _

theorem register_right_of_host : RegisterRight ((lineOf "Host: b\n").feed ((lineOf "=: a\n").feed {}).r).r
      ((lineOf "Host: b\n").name ((lineOf "Host: b\n").feed ((lineOf "=: a\n").feed {}).r).r) :=
  lowcase_register_right (lineOf "Host: b\n") (show BetweenLines {} from ⟨rfl, rfl⟩)
    (show headerLines {} [lineOf "=: a\n"] = some ((lineOf "=: a\n").feed {}).r by decide)
    (by decide) (by decide) (by decide)

/-- The name `=b` behind a line with the name `a`: the register still begins with the `a`. -/
theorem register_stale_behind_a : headerLines {} [lineOf "a: x\n"] = some ((lineOf "a: x\n").feed {}).r ∧
      ((lineOf "=b: y\n").feed ((lineOf "a: x\n").feed {}).r).rc = .ngxOk ∧
      (lineOf "=b: y\n").name ((lineOf "=b: y\n").feed ((lineOf "a: x\n").feed {}).r).r =
        "=b".toList.map Char.toUInt8 ∧
      ((lineOf "=b: y\n").feed ((lineOf "a: x\n").feed {}).r).r.lowcaseIndex = 2 ∧
      ¬ RegisterRight ((lineOf "=b: y\n").feed ((lineOf "a: x\n").feed {}).r).r
        ("=b".toList.map Char.toUInt8) := by
  unfold RegisterRight
  decide

end ServerCore.NginxHttpHeaderRegister
