import ServerCore.NginxHttpComplexUri

/-!
# The scanners that find out whether a URI has to be normalised

`ngx_http_parse_uri` is the scanner of the HTTP/2 module. It sets flags and
positions of a request whose `r->uri_start` and `r->uri_end` are known, as the
URI states of `ngx_http_parse_request_line` do on the way. The branches for
`NGX_WIN32` are left out.
-/

namespace ServerCore.NginxHttpUriScan

open NginxHttpParse (Byte Bytes cr lf)
open NginxHttpParse.RequestLine (Fields isUsual)
open NginxHttpComplexUri (Machine Parsed complexLoop ngxHttpParseComplexUri slash dot)
open ResumableScan List

variable {next : State × Fields}

inductive State where
  | swStart
  | swAfterSlashInUri
  | swCheckUri
  | swUri
  deriving DecidableEq

def swStart (r : Fields) (ch : Byte) : Option (State × Fields) :=
  if ch ≠ slash then none else some (.swAfterSlashInUri, r)

def swAfterSlashInUri (r : Fields) (p : Nat) (ch : Byte) : State × Fields :=
  if isUsual ch then (.swCheckUri, r)
  else if ch = ' '.toUInt8 then (.swCheckUri, { r with spaceInUri := true })
  else if ch = dot then (.swUri, { r with complexUri := true })
  else if ch = '%'.toUInt8 then (.swUri, { r with quotedUri := true })
  else if ch = slash then (.swUri, { r with complexUri := true })
  else if ch = '?'.toUInt8 then (.swUri, { r with argsStart := some (p + 1) })
  else if ch = '#'.toUInt8 then (.swUri, { r with complexUri := true })
  else if ch = '+'.toUInt8 then (.swAfterSlashInUri, { r with plusInUri := true })
  else (.swCheckUri, r)

def swCheckUri (r : Fields) (p : Nat) (ch : Byte) : State × Fields :=
  if isUsual ch then (.swCheckUri, r)
  else if ch = slash then (.swAfterSlashInUri, { r with uriExt := none })
  else if ch = dot then (.swCheckUri, { r with uriExt := some (p + 1) })
  else if ch = ' '.toUInt8 then (.swCheckUri, { r with spaceInUri := true })
  else if ch = '%'.toUInt8 then (.swUri, { r with quotedUri := true })
  else if ch = '?'.toUInt8 then (.swUri, { r with argsStart := some (p + 1) })
  else if ch = '#'.toUInt8 then (.swUri, { r with complexUri := true })
  else if ch = '+'.toUInt8 then (.swCheckUri, { r with plusInUri := true })
  else (.swCheckUri, r)

def swUri (r : Fields) (ch : Byte) : State × Fields :=
  if isUsual ch then (.swUri, r)
  else if ch = ' '.toUInt8 then (.swUri, { r with spaceInUri := true })
  else if ch = '#'.toUInt8 then (.swUri, { r with complexUri := true })
  else (.swUri, r)

/-- The body of the loop for the byte `ch` at `p`. -/
def uriTurn (state : State) (r : Fields) (p : Nat) (ch : Byte) : Option (State × Fields) :=
  match state with
  | .swStart => swStart r ch
  | .swAfterSlashInUri => some (swAfterSlashInUri r p ch)
  | .swCheckUri => some (swCheckUri r p ch)
  | .swUri => some (swUri r ch)

def uriLoop (state : State) (r : Fields) (p : Nat) : Bytes → Option Fields
  | [] => some r
  | ch :: rest =>
    match uriTurn state r p ch with
    | none => none
    | some (state, r) => uriLoop state r (p + 1) rest

/-- `none` is `NGX_ERROR`. The bytes stand from `uriStart` on. -/
def ngxHttpParseUri (r : Fields) (uriStart : Nat) (uri : Bytes) : Option Fields :=
  uriLoop .swStart r uriStart uri

/-- A byte that may stand in a URI of a request line. -/
def Allowed (ch : Byte) : Prop := ch ≠ 0 ∧ ch ≠ cr ∧ ch ≠ lf ∧ ch ≠ ' '.toUInt8

instance (ch : Byte) : Decidable (Allowed ch) := inferInstanceAs (Decidable (_ ∧ _ ∧ _ ∧ _))

/-- The state of the request line parser with the same name. -/
def lineState : State → NginxHttpParse.RequestLine.State
  | .swStart => .swSpacesBeforeUri
  | .swAfterSlashInUri => .swAfterSlashInUri
  | .swCheckUri => .swCheckUri
  | .swUri => .swUri

/-- A turn of the request line parser is one of this scanner. -/
def Agrees (next : State × Fields) (verdict : NginxHttpParse.RequestLine.Outcome) : Prop :=
  next.1 ≠ .swStart ∧ verdict = .more ⟨lineState next.1, next.2⟩

theorem agrees_ite {cond : Prop} [Decidable cond] {yes no : State × Fields}
    {yesVerdict noVerdict : NginxHttpParse.RequestLine.Outcome}
    (ifYes : cond → Agrees yes yesVerdict) (ifNo : ¬ cond → Agrees no noVerdict) :
    Agrees (if cond then yes else no) (if cond then yesVerdict else noVerdict) := by
  by_cases holds : cond
  · rw [if_pos holds, if_pos holds]
    exact ifYes holds
  · rw [if_neg holds, if_neg holds]
    exact ifNo holds

variable {state : State} {ch : Byte} {r scanned : Fields} {p : Nat} {rest : Bytes}

theorem turn_agrees (begun : state ≠ .swStart) (input : Nat → Byte) (r : Fields)
    (p : Nat) (allowed : Allowed ch) : ∃ next, uriTurn state r p ch = some next ∧
      Agrees next (NginxHttpParse.RequestLine.step input ⟨lineState state, r⟩ p ch) := by
  rcases allowed with ⟨notNul, notCr, notLf, notSpace⟩
  cases state with
  | swStart => cases begun rfl
  | swAfterSlashInUri =>
    apply Exists.intro (swAfterSlashInUri r p ch)
    apply And.intro rfl
    simp only [swAfterSlashInUri, lineState, NginxHttpParse.RequestLine.step,
      NginxHttpParse.RequestLine.swAfterSlashInUri, NginxHttpParse.RequestLine.go, notNul, notCr,
      notLf, notSpace, if_false, slash, dot]
    repeat' (apply agrees_ite <;> intro _)
    all_goals exact ⟨by simp, rfl⟩
  | swCheckUri =>
    apply Exists.intro (swCheckUri r p ch)
    apply And.intro rfl
    simp only [swCheckUri, lineState, NginxHttpParse.RequestLine.step,
      NginxHttpParse.RequestLine.swCheckUri, NginxHttpParse.RequestLine.go, notNul, notCr,
      notLf, notSpace, if_false, slash, dot]
    repeat' (apply agrees_ite <;> intro _)
    all_goals exact ⟨by simp, rfl⟩
  | swUri =>
    apply Exists.intro (swUri r ch)
    apply And.intro rfl
    simp only [swUri, lineState, NginxHttpParse.RequestLine.step,
      NginxHttpParse.RequestLine.swUri, NginxHttpParse.RequestLine.go, notNul, notCr,
      notLf, notSpace, if_false]
    repeat' (apply agrees_ite <;> intro _)
    all_goals exact ⟨by simp, rfl⟩

theorem loop_agrees (input : Nat → Byte) (rest : Bytes) (allowed : ∀ ch ∈ rest, Allowed ch)
    (begun : state ≠ .swStart) (r : Fields) (p : Nat) :
    ∃ reached scanned, uriLoop state r p rest = some scanned ∧
      scan NginxHttpParse.RequestLine.step input ⟨lineState state, r⟩ p rest =
        (.more ⟨lineState reached, scanned⟩, p + rest.length) := by
  induction rest generalizing state r p with
  | nil => exact ⟨state, r, rfl, rfl⟩
  | cons ch rest ih =>
    rcases turn_agrees begun input r p (allowed ch (by simp)) with
      ⟨next, turned, nextBegun, went⟩
    rcases ih (fun other mem => allowed other (mem_cons_of_mem _ mem)) nextBegun
      next.2 (p + 1) with ⟨reached, scanned, looped, ended⟩
    apply Exists.intro reached
    apply Exists.intro scanned
    constructor
    · rw [uriLoop, turned]
      exact looped
    · rw [scan, went, length_cons, ← Nat.add_assoc, Nat.add_right_comm]
      exact ended

def Flagged (r : Fields) : Prop := r.complexUri = true ∨ r.quotedUri = true

theorem turn_flagged
    (flagged : Flagged r) (turned : uriTurn state r p ch = some next) : Flagged next.2 := by
  cases state with
  | swStart =>
    simp only [uriTurn, swStart] at turned
    split_ifs at turned
    cases turned
    exact flagged
  | swAfterSlashInUri =>
    cases turned
    unfold swAfterSlashInUri
    split_ifs <;> first | exact flagged | exact .inl rfl | exact .inr rfl
  | swCheckUri =>
    cases turned
    unfold swCheckUri
    split_ifs <;> first | exact flagged | exact .inl rfl | exact .inr rfl
  | swUri =>
    cases turned
    unfold swUri
    split_ifs <;> first | exact flagged | exact .inl rfl

theorem loop_flagged
    (flagged : Flagged r) (looped : uriLoop state r p rest = some scanned) : Flagged scanned := by
  induction rest generalizing state r p with
  | nil =>
    cases looped
    exact flagged
  | cons ch rest ih =>
    rw [uriLoop] at looped
    cases turned : uriTurn state r p ch with
    | none =>
      rw [turned] at looped
      cases looped
    | some next =>
      rw [turned] at looped
      exact ih (turn_flagged flagged turned) looped

theorem loop_in_args (allowed : ∀ ch ∈ rest, Allowed ch) :
    uriLoop .swUri r p rest = some { r with complexUri := r.complexUri || decide ('#'.toUInt8 ∈ rest) } := by
  induction rest generalizing r p with
  | nil => simp [uriLoop]
  | cons ch rest ih =>
    have restAllowed : ∀ other ∈ rest, Allowed other := fun other mem =>
      allowed other (mem_cons_of_mem _ mem)
    rcases allowed ch (by simp) with ⟨-, -, -, notSpace⟩
    rw [uriLoop]
    simp only [uriTurn, swUri, notSpace, if_false]
    by_cases isFragment : ch = '#'.toUInt8
    · have special : isUsual '#'.toUInt8 = false := by decide
      subst isFragment
      simp only [special, Bool.false_eq_true, if_false, if_true]
      rw [ih restAllowed]
      simp
    · have differs : ¬ '#'.toUInt8 = ch := Ne.symm isFragment
      simp only [isFragment, if_false, ite_self]
      rw [ih restAllowed]
      simp [differs]

/-- The scanner at `p`, with the URI from `start` on, and the normalisation of the same bytes
while it does nothing but copy them. -/
structure Copying (start : Nat) (quotedBefore plusBefore : Bool) (state : State) (r : Fields)
    (m : Machine) (p : Nat) : Prop where
  noEscape : m.escape = .none
  copied : p = start + m.u.length
  ext : r.uriExt = m.uriExt.map (start + ·)
  quoted : m.quotedUri = quotedBefore
  plus : m.plusInUri = (plusBefore || r.plusInUri)
  noArgs : r.argsStart = none
  states : (state = .swCheckUri ∧ m.state = .swUsual) ∨
    (state = .swAfterSlashInUri ∧ (m.state = .swSlash ∨ m.state = .swUsual))

/-- What one byte leads to: the normalisation is needed, or the arguments begin, or the byte
is copied. -/
def Turned (start : Nat) (quotedBefore plusBefore mergeSlashes : Bool) (r : Fields) (m : Machine)
    (p : Nat) (ch : Byte) (next : State × Fields) : Prop :=
  Flagged next.2 ∨
    (ch = '?'.toUInt8 ∧ next = (.swUri, { r with argsStart := some (p + 1) }) ∧
      NginxHttpComplexUri.turn mergeSlashes m ch = .args m) ∨
    ch ≠ '?'.toUInt8 ∧ ∃ m', NginxHttpComplexUri.turn mergeSlashes m ch = .next m' ∧
      m'.u = m.u ++ [ch] ∧ Copying start quotedBefore plusBefore next.1 next.2 m' (p + 1)

section Copying

variable {start : Nat} {quotedBefore plusBefore : Bool} {state : State} {r : Fields} {m : Machine}
  {p : Nat} {ch : Byte}

theorem copying_put (copying : Copying start quotedBefore plusBefore state r m p) :
    Copying start quotedBefore plusBefore .swCheckUri r (m.put .swUsual ch) (p + 1) where
  noEscape := copying.noEscape
  copied := by
    rw [copying.copied, NginxHttpComplexUri.Machine.put, length_append, length_singleton]
    rfl
  ext := copying.ext
  quoted := copying.quoted
  plus := copying.plus
  noArgs := copying.noArgs
  states := .inl ⟨rfl, rfl⟩

theorem turn_usual (mergeSlashes : Bool) (noEscape : m.escape = .none) (isPlain : isUsual ch = true) :
    NginxHttpComplexUri.turn mergeSlashes m ch = .next (m.put .swUsual ch) := by
  unfold NginxHttpComplexUri.turn NginxHttpComplexUri.pathTurn
  rw [noEscape]
  cases m.state with
  | swUsual => simp [NginxHttpComplexUri.swUsual, isPlain]
  | swSlash => simp [NginxHttpComplexUri.swSlash, isPlain]
  | swDot => simp [NginxHttpComplexUri.swDot, isPlain]
  | swDotDot => simp [NginxHttpComplexUri.swDotDot, isPlain]

theorem turn_other (mergeSlashes : Bool) (noEscape : m.escape = .none)
    (notPlain : isUsual ch = false) (notSlash : ch ≠ slash) (notDot : ch ≠ dot) :
    NginxHttpComplexUri.turn mergeSlashes m ch = NginxHttpComplexUri.otherCases m ch := by
  unfold NginxHttpComplexUri.turn NginxHttpComplexUri.pathTurn
  rw [noEscape]
  cases m.state with
  | swUsual =>
    simp [NginxHttpComplexUri.swUsual, notPlain, notSlash, notDot]
  | swSlash =>
    simp [NginxHttpComplexUri.swSlash, notPlain, notSlash, notDot]
  | swDot =>
    simp [NginxHttpComplexUri.swDot, notPlain, notSlash, notDot]
  | swDotDot =>
    simp [NginxHttpComplexUri.swDotDot, notPlain, notSlash]

theorem other_copies (mergeSlashes : Bool) (copying : Copying start quotedBefore plusBefore state r m p)
    (notPlain : isUsual ch = false) (notSlash : ch ≠ slash) (notDot : ch ≠ dot) {afterPlus : State}
    (plusStates : afterPlus = .swCheckUri ∨ afterPlus = .swAfterSlashInUri) :
    Turned start quotedBefore plusBefore mergeSlashes r m p ch
      (if ch = ' '.toUInt8 then (.swCheckUri, { r with spaceInUri := true })
        else if ch = '%'.toUInt8 then (.swUri, { r with quotedUri := true })
        else if ch = '?'.toUInt8 then (.swUri, { r with argsStart := some (p + 1) })
        else if ch = '#'.toUInt8 then (.swUri, { r with complexUri := true })
        else if ch = '+'.toUInt8 then (afterPlus, { r with plusInUri := true })
        else (.swCheckUri, r)) := by
  have went := turn_other mergeSlashes copying.noEscape notPlain notSlash notDot
  unfold NginxHttpComplexUri.otherCases at went
  split_ifs with isSpace isPercent isArgs isFragment isPlus
  · subst isSpace
    exact .inr (.inr ⟨by decide, m.put .swUsual ' '.toUInt8, went, rfl,
      { copying_put copying with }⟩)
  · exact .inl (.inr rfl)
  · rw [if_neg isPercent, if_pos isArgs] at went
    exact .inr (.inl ⟨isArgs, rfl, went⟩)
  · exact .inl (.inl rfl)
  · rw [if_neg isPercent, if_neg isArgs, if_neg isFragment, if_pos isPlus] at went
    have flagged : Copying start quotedBefore plusBefore afterPlus { r with plusInUri := true }
        { m.put .swUsual ch with plusInUri := true } (p + 1) := by
      constructor
      · exact copying.noEscape
      · exact (copying_put copying).copied
      · exact copying.ext
      · exact copying.quoted
      · exact (Bool.or_true plusBefore).symm
      · exact copying.noArgs
      · rcases plusStates with isCheck | isAfterSlash
        · exact .inl ⟨isCheck, rfl⟩
        · exact .inr ⟨isAfterSlash, .inr rfl⟩
    exact .inr (.inr ⟨isArgs, _, went, rfl, flagged⟩)
  · rw [if_neg isPercent, if_neg isArgs, if_neg isFragment, if_neg isPlus] at went
    exact .inr (.inr ⟨isArgs, m.put .swUsual ch, went, rfl, copying_put copying⟩)

theorem turn_copies (mergeSlashes : Bool)
    (copying : Copying start quotedBefore plusBefore state r m p)
    (turned : uriTurn state r p ch = some next) :
    Turned start quotedBefore plusBefore mergeSlashes r m p ch next := by
  by_cases isPlain : isUsual ch = true
  · have notArgs : ch ≠ '?'.toUInt8 := by
      rintro rfl
      exact absurd isPlain (by decide)
    have isNext : next = (.swCheckUri, r) := by
      rcases copying.states with ⟨rfl, -⟩ | ⟨rfl, -⟩
      · simpa only [uriTurn, swCheckUri, isPlain, if_true, Option.some.injEq, eq_comm] using turned
      · simpa only [uriTurn, swAfterSlashInUri, isPlain, if_true, Option.some.injEq,
          eq_comm] using turned
    rw [isNext]
    exact .inr (.inr ⟨notArgs, _, turn_usual mergeSlashes copying.noEscape isPlain, rfl,
      copying_put copying⟩)
  rw [Bool.not_eq_true] at isPlain
  by_cases isSlash : ch = slash
  · subst isSlash
    rcases copying.states with ⟨rfl, usual⟩ | ⟨rfl, -⟩
    · cases turned
      have went : NginxHttpComplexUri.turn mergeSlashes m slash =
          .next { m.put .swSlash slash with uriExt := none } := by
        unfold NginxHttpComplexUri.turn NginxHttpComplexUri.pathTurn
        rw [copying.noEscape, usual]
        rfl
      have opened : Copying start quotedBefore plusBefore .swAfterSlashInUri
          { r with uriExt := none } { m.put .swSlash slash with uriExt := none } (p + 1) := by
        constructor
        · exact copying.noEscape
        · exact (copying_put copying).copied
        · rfl
        · exact copying.quoted
        · exact copying.plus
        · exact copying.noArgs
        · exact .inr ⟨rfl, .inl rfl⟩
      exact .inr (.inr ⟨by decide, _, went, rfl, opened⟩)
    · cases turned
      exact .inl (.inl rfl)
  by_cases isDot : ch = dot
  · subst isDot
    rcases copying.states with ⟨rfl, usual⟩ | ⟨rfl, -⟩
    · cases turned
      have went : NginxHttpComplexUri.turn mergeSlashes m dot =
          .next { m.put .swUsual dot with uriExt := some (m.u.length + 1) } := by
        unfold NginxHttpComplexUri.turn NginxHttpComplexUri.pathTurn
        rw [copying.noEscape, usual]
        rfl
      have extended : Copying start quotedBefore plusBefore .swCheckUri
          { r with uriExt := some (p + 1) }
          { m.put .swUsual dot with uriExt := some (m.u.length + 1) } (p + 1) := by
        constructor
        · exact copying.noEscape
        · exact (copying_put copying).copied
        · exact congrArg (fun place => some (place + 1)) copying.copied
        · exact copying.quoted
        · exact copying.plus
        · exact copying.noArgs
        · exact .inl ⟨rfl, rfl⟩
      exact .inr (.inr ⟨by decide, _, went, rfl, extended⟩)
    · cases turned
      exact .inl (.inl rfl)
  rcases copying.states with ⟨rfl, -⟩ | ⟨rfl, -⟩
  · simp only [uriTurn, swCheckUri, isPlain, isSlash, isDot, if_false, Bool.false_eq_true,
      Option.some.injEq] at turned
    rw [← turned]
    exact other_copies mergeSlashes copying isPlain isSlash isDot (.inl rfl)
  · simp only [uriTurn, swAfterSlashInUri, isPlain, isSlash, isDot, if_false, Bool.false_eq_true,
      Option.some.injEq] at turned
    rw [← turned]
    exact other_copies mergeSlashes copying isPlain isSlash isDot (.inr rfl)

/-- What the normalisation should say of the bytes from `start` on, by the scanner. -/
structure SameParts (start : Nat) (plusBefore quotedBefore : Bool) (path : Bytes)
    (scanned : Fields) (parsed : Parsed) : Prop where
  uri : parsed.uri = path
  argsStart : scanned.argsStart = parsed.argsStart.map (start + ·)
  argsPlace : ∀ place, parsed.argsStart = some place → place = path.length + 1
  args : parsed.args = none
  exten : ∃ ext : Option Nat, scanned.uriExt = ext.map (start + ·) ∧
    parsed.exten = ext.map fun place => path.drop place
  quoted : parsed.quotedUri = quotedBefore
  plus : parsed.plusInUri = (plusBefore || scanned.plusInUri)

theorem finish_same (copying : Copying start quotedBefore plusBefore state r m p)
    {argsStart : Option Nat} (sameExt : scanned.uriExt = r.uriExt)
    (samePlus : scanned.plusInUri = r.plusInUri)
    (isArgs : scanned.argsStart = argsStart.map (start + ·))
    (isPlace : ∀ place, argsStart = some place → place = m.u.length + 1) :
    SameParts start plusBefore quotedBefore m.u scanned
      (NginxHttpComplexUri.finish m argsStart none) where
  uri := rfl
  argsStart := isArgs
  argsPlace := isPlace
  args := rfl
  exten := ⟨m.uriExt, sameExt.trans copying.ext, rfl⟩
  quoted := copying.quoted
  plus := by
    rw [samePlus]
    exact copying.plus

theorem loop_copies (mergeSlashes : Bool)
    (allowed : ∀ byte ∈ rest, Allowed byte) (copying : Copying start quotedBefore plusBefore state r m p)
    (looped : uriLoop state r p rest = some scanned) (plain : ¬ Flagged scanned) :
    ∃ parsed, complexLoop mergeSlashes m (p - start) rest = some parsed ∧
      SameParts start plusBefore quotedBefore (m.u ++ rest.takeWhile (· ≠ '?'.toUInt8)) scanned parsed ∧
      (parsed.argsStart = none → '?'.toUInt8 ∉ rest) := by
  induction rest generalizing state r m p with
  | nil =>
    cases looped
    rw [takeWhile_nil, append_nil]
    exact ⟨_, rfl, finish_same copying rfl rfl copying.noArgs (by simp), by simp⟩
  | cons ch rest ih =>
    have restAllowed : ∀ byte ∈ rest, Allowed byte := fun byte mem =>
      allowed byte (mem_cons_of_mem _ mem)
    have place : p - start = m.u.length := by
      rw [copying.copied, Nat.add_sub_cancel_left]
    rw [uriLoop] at looped
    rw [complexLoop]
    cases turned : uriTurn state r p ch with
    | none =>
      rw [turned] at looped
      cases looped
    | some next =>
      rw [turned] at looped
      rcases turn_copies mergeSlashes copying turned with flagged |
        ⟨isArgs, isNext, went⟩ | ⟨notArgs, m', went, appended, copies⟩
      · exact absurd (loop_flagged flagged looped) plain
      · rw [isNext] at looped
        have inArgs := (loop_in_args restAllowed).symm.trans looped
        cases inArgs
        have noFragment : '#'.toUInt8 ∉ rest := by
          intro mem
          exact plain (.inl (by simp [mem]))
        rw [went]
        simp only [NginxHttpComplexUri.gotoArgs, if_neg noFragment, isArgs, place]
        rw [takeWhile_cons_of_neg (by simp), append_nil]
        have isPlace : some (p + 1) = (some (m.u.length + 1)).map (start + ·) := by
          rw [Option.map_some, copying.copied, Nat.add_assoc]
        have samePlace : ∀ other, some (m.u.length + 1) = some other →
            other = m.u.length + 1 := by
          intro other isOther
          cases isOther
          rfl
        exact ⟨_, rfl, finish_same copying rfl rfl isPlace samePlace, by
          simp [NginxHttpComplexUri.finish]⟩
      · have looped' : uriLoop next.1 next.2 (p + 1) rest = some scanned := looped
        rcases ih restAllowed copies looped' with ⟨parsed, accepted, same, without⟩
        have sameBytes : m'.u ++ rest.takeWhile (· ≠ '?'.toUInt8) =
            m.u ++ (ch :: rest).takeWhile (· ≠ '?'.toUInt8) := by
          rw [appended, takeWhile_cons_of_pos (by simpa using notArgs), append_assoc]
          rfl
        rw [sameBytes] at same
        have step : p - start + 1 = p + 1 - start := by
          rw [copying.copied]
          omega
        rw [went]
        simp only [step]
        apply Exists.intro parsed
        apply And.intro accepted
        apply And.intro same
        intro noArgs
        simpa [Ne.symm notArgs] using without noArgs

end Copying

/-- `r->exten` as `ngx_http_process_request_uri` sets it from what the scanner has recorded. -/
def scannedExten (uriStart : Nat) (uri : Bytes) (scanned : Fields) : Option Bytes :=
  scanned.uriExt.map fun ext =>
    let stop := match scanned.argsStart with
      | some argsStart => argsStart - 1
      | none => uriStart + uri.length
    (uri.drop (ext - uriStart)).take (stop - ext)

theorem exten_same {start : Nat} {plusBefore quotedBefore : Bool} {uri : Bytes} {parsed : Parsed}
    (same : SameParts start plusBefore quotedBefore (uri.takeWhile (· ≠ '?'.toUInt8)) scanned parsed)
    (without : parsed.argsStart = none → '?'.toUInt8 ∉ uri) :
    parsed.exten = scannedExten start uri scanned := by
  rcases same.exten with ⟨ext, isExt, isExten⟩
  have pre : uri.takeWhile (· ≠ '?'.toUInt8) =
      uri.take (uri.takeWhile (· ≠ '?'.toUInt8)).length :=
    prefix_iff_eq_take.mp <| takeWhile_prefix _
  have stops : (match scanned.argsStart with
      | some argsStart => argsStart - 1
      | none => start + uri.length) = start + (uri.takeWhile (· ≠ '?'.toUInt8)).length := by
    rw [same.argsStart]
    cases isArgs : parsed.argsStart with
    | none =>
      have whole : uri.takeWhile (· ≠ '?'.toUInt8) = uri := by
        rw [takeWhile_eq_self_iff]
        intro byte mem
        simpa using fun isMark : byte = '?'.toUInt8 => without isArgs (isMark ▸ mem)
      rw [whole]
      rfl
    | some place =>
      rw [same.argsPlace place isArgs, Option.map_some]
      rfl
  rw [isExten, scannedExten, isExt, Option.map_map]
  congr 1
  funext place
  simp only [Function.comp_apply]
  rw [stops, Nat.add_sub_add_left, Nat.add_sub_cancel_left, ← drop_take, ← pre]

/-- Both scanners record the same, and where they set no flag the normalisation would change
nothing and record the same as well. -/
theorem uri_paths_agree {uri : Bytes} (starts : uri.head? = some slash)
    (allowed : ∀ byte ∈ uri, Allowed byte) {r : Fields} (noPlus : r.plusInUri = false)
    (noExt : r.uriExt = none) (noArgs : r.argsStart = none) (uriStart : Nat) :
    ∃ scanned, ngxHttpParseUri r uriStart uri = some scanned ∧
      (∀ input, ∃ state, scan NginxHttpParse.RequestLine.step input ⟨.swAfterSlashInUri, r⟩
        (uriStart + 1) uri.tail = (.more ⟨state, scanned⟩, uriStart + uri.length)) ∧
      (scanned.complexUri = false → scanned.quotedUri = false → ∀ quotedUri plusInUri mergeSlashes, ∃ parsed,
          ngxHttpParseComplexUri quotedUri plusInUri mergeSlashes uri = some parsed ∧
            parsed.uri = uri.takeWhile (· ≠ '?'.toUInt8) ∧
            scanned.argsStart = parsed.argsStart.map (uriStart + ·) ∧ parsed.args = none ∧
            parsed.exten = scannedExten uriStart uri scanned ∧ parsed.quotedUri = quotedUri ∧
            parsed.plusInUri = (plusInUri || scanned.plusInUri)) := by
  cases uri with
  | nil => exact absurd starts (by simp)
  | cons first rest =>
    simp only [head?_cons, Option.some.injEq] at starts
    subst starts
    have restAllowed : ∀ byte ∈ rest, Allowed byte := fun byte mem =>
      allowed byte (mem_cons_of_mem _ mem)
    have begins : ngxHttpParseUri r uriStart (slash :: rest) =
        uriLoop .swAfterSlashInUri r (uriStart + 1) rest := rfl
    rcases loop_agrees (fun _ => 0) rest restAllowed (show State.swAfterSlashInUri ≠ .swStart by
      decide) r (uriStart + 1) with ⟨-, scanned, looped, -⟩
    apply Exists.intro scanned
    apply And.intro (begins.trans looped)
    constructor
    · intro input
      rcases loop_agrees input rest restAllowed (show State.swAfterSlashInUri ≠ .swStart by
        decide) r (uriStart + 1) with ⟨reached, same, loopedAgain, ended⟩
      cases looped.symm.trans loopedAgain
      apply Exists.intro (lineState reached)
      rw [tail_cons, length_cons, ← Nat.add_assoc, Nat.add_right_comm]
      exact ended
    · intro notComplex notQuoted quotedUri plusInUri mergeSlashes
      let opened : Machine :=
        { state := .swSlash, u := [slash], quotedUri := quotedUri, plusInUri := plusInUri }
      have copying : Copying uriStart quotedUri plusInUri .swAfterSlashInUri r opened
          (uriStart + 1) :=
        ⟨rfl, rfl, noExt, rfl, by rw [noPlus, Bool.or_false], noArgs, .inr ⟨rfl, .inl rfl⟩⟩
      have plain : ¬ Flagged scanned := by
        simp [Flagged, notComplex, notQuoted]
      rcases loop_copies mergeSlashes restAllowed copying looped plain with
        ⟨parsed, accepted, same, without⟩
      have isPath : opened.u ++ rest.takeWhile (· ≠ '?'.toUInt8) =
          (slash :: rest).takeWhile (· ≠ '?'.toUInt8) := by
        rw [takeWhile_cons_of_pos (by decide)]
        rfl
      rw [isPath] at same
      rw [Nat.add_sub_cancel_left] at accepted
      have isExten := exten_same same fun isNone => by
        have notFirst : ¬ '?'.toUInt8 = slash := by decide
        simpa [notFirst] using without isNone
      exact ⟨parsed, accepted, same.uri, same.argsStart, same.args, isExten, same.quoted, same.plus⟩

def textBytes (text : String) : Bytes := text.toList.map Char.toUInt8

theorem uri_paths_agree_on_page : ngxHttpParseUri {} 4 (textBytes "/a+b/c.html?x=1") =
        some { uriExt := some 11, argsStart := some 16, plusInUri := true } ∧
      ∃ parsed, ngxHttpParseComplexUri false false true (textBytes "/a+b/c.html?x=1") = some parsed ∧
        parsed.uri = textBytes "/a+b/c.html" ∧ parsed.exten = some (textBytes "html") := by
  have scans : ngxHttpParseUri {} 4 (textBytes "/a+b/c.html?x=1") =
      some { uriExt := some 11, argsStart := some 16, plusInUri := true } := by decide +kernel
  apply And.intro scans
  rcases uri_paths_agree (show (textBytes "/a+b/c.html?x=1").head? = some slash by decide)
    (by decide +kernel) (show ({} : Fields).plusInUri = false from rfl) rfl rfl 4 with
    ⟨scanned, isScanned, -, copies⟩
  cases scans.symm.trans isScanned
  rcases copies rfl rfl false false true with ⟨parsed, accepted, isUri, -, -, isExten, -, -⟩
  exact ⟨parsed, accepted, isUri.trans (by decide +kernel), isExten.trans (by decide +kernel)⟩

end ServerCore.NginxHttpUriScan
