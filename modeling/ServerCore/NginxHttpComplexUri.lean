import Mathlib.Data.List.TakeWhile
import ServerCore.NginxHttpParse
import ServerCore.PathSegments

/-!
# The normalisation of request URIs

`ngx_http_parse_complex_uri` reads the raw URI from `r->uri_start` to
`r->uri_end` and writes `r->uri`. Pointers into the raw URI are offsets from its
start, `u` is the list of the bytes written so far, and `r->uri_ext` is an offset
in it. Of the six states of the switch the two that read an escape stand in a
field of their own, beside the state to which the escape will return: `state` is
the source's `state` outside an escape and its `quoted_state` inside one. A byte
that an escape stands for is handled by that state at once, because the loop does
not advance before it. The branches for `NGX_WIN32` are left out.
-/

namespace ServerCore.NginxHttpComplexUri

open NginxHttpParse (Byte Bytes)
open NginxHttpParse.RequestLine (isUsual)
open PathSegments List

variable {next : Machine}
variable {m : Machine} {u : Bytes} {mergeSlashes : Bool} {decoded : Byte}

inductive State where
  | swUsual
  | swSlash
  | swDot
  | swDotDot
  deriving DecidableEq

inductive Escape where
  | none
  | swQuoted
  | swQuotedSecond (decoded : Byte)

structure Machine where
  state : State := .swUsual
  escape : Escape := .none
  u : Bytes := []
  uriExt : Option Nat := none
  quotedUri : Bool := false
  plusInUri : Bool := false

/-- How a byte is left: with the next one, by `goto args`, by `goto done` or with
`NGX_HTTP_PARSE_INVALID_REQUEST`. -/
inductive Turn where
  | next (m : Machine)
  | args (m : Machine)
  | done (m : Machine)
  | invalid

def slash : Byte := '/'.toUInt8

def dot : Byte := '.'.toUInt8

/-- `*u++ = ch` on the way to `state`. -/
def Machine.put (m : Machine) (state : State) (ch : Byte) : Machine :=
  { m with state := state, u := m.u ++ [ch] }

def otherCases (m : Machine) (ch : Byte) : Turn :=
  if ch = '%'.toUInt8 then .next { m with escape := .swQuoted }
  else if ch = '?'.toUInt8 then .args m
  else if ch = '#'.toUInt8 then .done m
  else if ch = '+'.toUInt8 then .next { m.put .swUsual ch with plusInUri := true }
  else .next (m.put .swUsual ch)

def swUsual (m : Machine) (ch : Byte) : Turn :=
  if isUsual ch then .next (m.put .swUsual ch)
  else if ch = slash then .next { m.put .swSlash ch with uriExt := none }
  else if ch = dot then .next { m.put .swUsual ch with uriExt := some (m.u.length + 1) }
  else otherCases m ch

def swSlash (mergeSlashes : Bool) (m : Machine) (ch : Byte) : Turn :=
  if isUsual ch then .next (m.put .swUsual ch)
  else if ch = slash then .next (if mergeSlashes then m else m.put .swSlash ch)
  else if ch = dot then .next (m.put .swDot ch)
  else otherCases m ch

def swDot (m : Machine) (ch : Byte) : Turn :=
  if isUsual ch then .next (m.put .swUsual ch)
  else if ch = slash then .next { m with state := .swSlash, u := m.u.dropLast }
  else if ch = dot then .next (m.put .swDotDot ch)
  else otherCases m ch

def scanBack (u : Bytes) : Nat → Option Bytes
  | 0 => if u[0]? = some slash then some (u.take 1) else none
  | offset + 1 =>
    if u[offset + 1]? = some slash then some (u.take (offset + 2)) else scanBack u offset

/-- `u -= 5` and the loop behind it. -/
def dropSegment (u : Bytes) : Option Bytes :=
  if u.length < 5 then none else scanBack u (u.length - 5)

def swDotDot (m : Machine) (ch : Byte) : Turn :=
  if isUsual ch then .next (m.put .swUsual ch)
  else if ch = slash then
    match dropSegment m.u with
    | none => .invalid
    | some u => .next { m with state := .swSlash, u := u }
  else otherCases m ch

def pathTurn (mergeSlashes : Bool) (m : Machine) (ch : Byte) : Turn :=
  match m.state with
  | .swUsual => swUsual m ch
  | .swSlash => swSlash mergeSlashes m ch
  | .swDot => swDot m ch
  | .swDotDot => swDotDot m ch

def swQuoted (m : Machine) (ch : Byte) : Turn :=
  let m := { m with quotedUri := true }
  if '0'.toUInt8 ≤ ch ∧ ch ≤ '9'.toUInt8 then
    .next { m with escape := .swQuotedSecond (ch - '0'.toUInt8) }
  else
    let c := ch ||| 0x20
    if 'a'.toUInt8 ≤ c ∧ c ≤ 'f'.toUInt8 then
      .next { m with escape := .swQuotedSecond (c - 'a'.toUInt8 + 10) }
    else .invalid

def swQuotedSecond (mergeSlashes : Bool) (m : Machine) (decoded ch : Byte) : Turn :=
  let m := { m with escape := .none }
  if '0'.toUInt8 ≤ ch ∧ ch ≤ '9'.toUInt8 then
    let ch := (decoded <<< 4) + ch - '0'.toUInt8
    if ch = '%'.toUInt8 ∨ ch = '#'.toUInt8 then .next (m.put .swUsual ch)
    else if ch = 0 then .invalid
    else pathTurn mergeSlashes m ch
  else
    let c := ch ||| 0x20
    if 'a'.toUInt8 ≤ c ∧ c ≤ 'f'.toUInt8 then
      let ch := (decoded <<< 4) + c - 'a'.toUInt8 + 10
      if ch = '?'.toUInt8 then .next (m.put .swUsual ch)
      else if ch = '+'.toUInt8 then pathTurn mergeSlashes { m with plusInUri := true } ch
      else pathTurn mergeSlashes m ch
    else .invalid

def turn (mergeSlashes : Bool) (m : Machine) (ch : Byte) : Turn :=
  match m.escape with
  | .none => pathTurn mergeSlashes m ch
  | .swQuoted => swQuoted m ch
  | .swQuotedSecond decoded => swQuotedSecond mergeSlashes m decoded ch

/-- What the call leaves in the request. `exten` and `args` are the strings that it
stores in `r->exten` and `r->args`, where it does. -/
structure Parsed where
  uri : Bytes
  exten : Option Bytes
  argsStart : Option Nat
  args : Option Bytes
  quotedUri : Bool
  plusInUri : Bool
  deriving DecidableEq

/-- The label `done`, and the end of the label `args`. -/
def finish (m : Machine) (argsStart : Option Nat) (args : Option Bytes) : Parsed where
  uri := m.u
  exten := m.uriExt.map fun ext => m.u.drop ext
  argsStart := argsStart
  args := args
  quotedUri := m.quotedUri
  plusInUri := m.plusInUri

/-- The label `args`, with the raw bytes left behind the `?`. -/
def gotoArgs (m : Machine) (argsStart : Nat) (rest : Bytes) : Parsed :=
  if '#'.toUInt8 ∈ rest then finish m none (some (rest.takeWhile (· ≠ '#'.toUInt8)))
  else finish m (some argsStart) none

def complexLoop (mergeSlashes : Bool) (m : Machine) (p : Nat) : Bytes → Option Parsed
  | [] => some (finish m none none)
  | ch :: rest =>
    match turn mergeSlashes m ch with
    | .next m => complexLoop mergeSlashes m (p + 1) rest
    | .args m => some (gotoArgs m (p + 1) rest)
    | .done m => some (finish m none none)
    | .invalid => none

/-- `none` is `NGX_HTTP_PARSE_INVALID_REQUEST`. The flags are those that the request has
before the call. -/
def ngxHttpParseComplexUri (quotedUri plusInUri mergeSlashes : Bool) (uri : Bytes) :
    Option Parsed :=
  complexLoop mergeSlashes { quotedUri := quotedUri, plusInUri := plusInUri } 0 uri

def IsDots (seg : Bytes) : Prop := seg = [dot] ∨ seg = [dot, dot]

instance (seg : Bytes) : Decidable (IsDots seg) :=
  inferInstanceAs (Decidable (_ ∨ _))

def stateOf (seg : Bytes) : State :=
  if seg = [] then .swSlash
  else if seg = [dot] then .swDot
  else if seg = [dot, dot] then .swDotDot
  else .swUsual

/-- The bytes written are a path without dots, a slash and the segment being written. -/
structure Writing (m : Machine) (front seg : Bytes) : Prop where
  written : m.u = front ++ slash :: seg
  state : m.state = stateOf seg
  clean : ∀ closed ∈ front.splitOn slash, ¬ IsDots closed
  rooted : (front ++ [slash]).head? = some slash

theorem head_of_front (front seg : Bytes) :
    (front ++ slash :: seg).head? = (front ++ [slash]).head? := by
  cases front <;> rfl

variable {seg front v raw : Bytes} {ch : Byte} {state : State} {mergeSlashes : Bool} {p : Nat}
  {parsed : Parsed}

theorem state_of_concat (notDot : ch ≠ dot) : stateOf (seg ++ [ch]) = .swUsual := by
  unfold stateOf
  rw [if_neg (by simp), if_neg, if_neg]
  · intro same
    have last := congrArg List.getLast? same
    exact notDot (by simpa using last)
  · intro same
    have last := congrArg List.getLast? same
    exact notDot (by simpa using last)

theorem writing_put (writing : Writing m front seg) (notDot : ch ≠ dot)
    (notSlash : ch ≠ slash) : Writing (m.put .swUsual ch) front (follow slash seg ch) := by
  rw [follow, if_neg notSlash]
  constructor
  · rw [Machine.put, writing.written, append_assoc]
    rfl
  · exact (state_of_concat notDot).symm
  · exact writing.clean
  · exact writing.rooted

theorem state_of_dot (seg : Bytes) : stateOf (seg ++ [dot]) =
      match stateOf seg with
      | .swSlash => .swDot
      | .swDot => .swDotDot
      | _ => .swUsual := by
  by_cases isEmpty : seg = []
  · rw [isEmpty]
    decide
  by_cases isDot : seg = [dot]
  · rw [isDot]
    decide
  by_cases isDots : seg = [dot, dot]
  · rw [isDots]
    decide
  have notOne : seg ++ [dot] ≠ [dot] := fun same =>
    isEmpty (append_cancel_right (same.trans (nil_append [dot]).symm))
  have notTwo : seg ++ [dot] ≠ [dot, dot] := fun same =>
    isDot (append_cancel_right (same.trans (singleton_append).symm))
  have isUsual : stateOf seg = .swUsual := by
    rw [stateOf, if_neg isEmpty, if_neg isDot, if_neg isDots]
  rw [isUsual, stateOf, if_neg (by simp), if_neg notOne, if_neg notTwo]

theorem writing_dot (writing : Writing m front seg) (isState : stateOf (seg ++ [dot]) = state) :
    Writing (m.put state dot) front (follow slash seg dot) := by
  rw [follow, if_neg (by decide)]
  constructor
  · rw [Machine.put, writing.written, append_assoc]
    rfl
  · exact isState.symm
  · exact writing.clean
  · exact writing.rooted

theorem writing_slash (writing : Writing m front seg)
    (plain : slash ∉ seg) (notDots : ¬ IsDots seg) :
    Writing (m.put .swSlash slash) (front ++ slash :: seg) (follow slash seg slash) := by
  rw [follow, if_pos rfl]
  constructor
  · rw [Machine.put, writing.written]
  · rfl
  · rw [split_append_segment front plain]
    intro closed mem
    rcases mem_append.mp mem with before | isLast
    · exact writing.clean closed before
    · rw [mem_singleton.mp isLast]
      exact notDots
  · rw [append_assoc, cons_append, head_of_front]
    exact writing.rooted

theorem scan_back_found {offset : Nat} (found : scanBack u offset = some v) :
    ∃ place ≤ offset, u[place]? = some slash ∧ v = u.take (place + 1) := by
  induction offset with
  | zero =>
    rw [scanBack] at found
    split_ifs at found with isSlash
    cases found
    exact ⟨0, le_refl 0, isSlash, rfl⟩
  | succ offset ih =>
    rw [scanBack] at found
    split_ifs at found with isSlash
    · cases found
      exact ⟨offset + 1, le_rfl, isSlash, rfl⟩
    · rcases ih found with ⟨place, within, isThere, isCut⟩
      exact ⟨place, Nat.le_succ_of_le within, isThere, isCut⟩

theorem drop_segment_front (found : dropSegment (front ++ slash :: [dot, dot]) = some v) :
    ∃ before behind, front = before ++ slash :: behind ∧ v = before ++ [slash] := by
  unfold dropSegment at found
  split_ifs at found with short
  rcases scan_back_found found with ⟨place, within, isThere, isCut⟩
  simp only [length_append, length_cons, length_nil] at short within
  have inside : place < front.length := by omega
  rw [getElem?_append_left inside, getElem?_eq_getElem inside, Option.some.injEq] at isThere
  apply Exists.intro (front.take place)
  apply Exists.intro (front.drop (place + 1))
  constructor
  · rw [← isThere, getElem_cons_drop, take_append_drop]
  · rw [isCut, take_append_of_le_length inside, take_succ_eq_append_getElem inside, isThere]

theorem writing_dropped (writing : Writing m front [dot, dot]) (found : dropSegment m.u = some v) :
    ∃ before, Writing { m with state := .swSlash, u := v } before [] := by
  rw [writing.written] at found
  rcases drop_segment_front found with ⟨before, behind, isFront, isCut⟩
  apply Exists.intro before
  constructor
  · exact isCut
  · rfl
  · intro closed mem
    apply writing.clean
    rw [isFront, splitOn_append_cons_self]
    exact mem_append_left _ mem
  · have rooted := writing.rooted
    rw [isFront, append_assoc, cons_append, head_of_front] at rooted
    exact rooted

def PathByte (ch : Byte) : Prop := ch ≠ '%'.toUInt8 ∧ ch ≠ '?'.toUInt8 ∧ ch ≠ '#'.toUInt8

instance (ch : Byte) : Decidable (PathByte ch) := inferInstanceAs (Decidable (_ ∧ _ ∧ _))

theorem usual_not_special (isPlain : isUsual ch = true) : ch ≠ dot ∧ ch ≠ slash ∧ PathByte ch := by
  have special : ∀ other : Byte, isUsual other = false → ch ≠ other := by
    intro other notUsual same
    rw [same, notUsual] at isPlain
    exact absurd isPlain (by decide)
  exact ⟨special dot (by decide), special slash (by decide), special _ (by decide),
    special _ (by decide), special _ (by decide)⟩

theorem writing_same {m' : Machine} (writing : Writing m front seg) (sameState : m'.state = m.state)
    (sameBytes : m'.u = m.u) : Writing m' front seg where
  written := sameBytes.trans writing.written
  state := sameState.trans writing.state
  clean := writing.clean
  rooted := writing.rooted

/-- What the bytes written look like when a byte of the path has been handled. An escape
has begun, or the segment has been followed. -/
def Followed (seg : Bytes) (ch : Byte) : Turn → Prop
  | .next m => ∃ front,
      (ch = '%'.toUInt8 ∧ m.escape = .swQuoted ∧ Writing m front seg) ∨
        (PathByte ch ∧ m.escape = .none ∧ Writing m front (follow slash seg ch))
  | .args m => ch = '?'.toUInt8 ∧ ∃ front, Writing m front seg
  | .done m => ch = '#'.toUInt8 ∧ ∃ front, Writing m front seg
  | .invalid => True

theorem state_of_inverse (seg : Bytes) : match stateOf seg with
    | .swUsual => ¬ IsDots seg
    | .swSlash => seg = []
    | .swDot => seg = [dot]
    | .swDotDot => seg = [dot, dot] := by
  by_cases isEmpty : seg = []
  · rw [isEmpty]
    rfl
  by_cases isDot : seg = [dot]
  · rw [isDot]
    rfl
  by_cases isDots : seg = [dot, dot]
  · rw [isDots]
    rfl
  rw [stateOf, if_neg isEmpty, if_neg isDot, if_neg isDots]
  exact not_or.mpr ⟨isDot, isDots⟩

section PathTurn

variable {m : Machine} {front seg : Bytes} {ch : Byte}

section

variable (writing : Writing m front seg) (noEscape : m.escape = .none)
include writing noEscape

theorem put_followed (notDot : ch ≠ dot) (notSlash : ch ≠ slash) (inPath : PathByte ch) :
    Followed seg ch (.next (m.put .swUsual ch)) :=
  ⟨front, .inr ⟨inPath, noEscape, writing_put writing notDot notSlash⟩⟩

theorem usual_followed (isPlain : isUsual ch = true) : Followed seg ch (.next (m.put .swUsual ch)) := by
  rcases usual_not_special isPlain with ⟨notDot, notSlash, inPath⟩
  exact put_followed writing noEscape notDot notSlash inPath

theorem other_cases_followed (notDot : ch ≠ dot) (notSlash : ch ≠ slash) :
    Followed seg ch (otherCases m ch) := by
  unfold otherCases
  split_ifs with isPercent isArgs isFragment isPlus
  · exact ⟨front, .inl ⟨isPercent, rfl, writing_same writing rfl rfl⟩⟩
  · exact ⟨isArgs, front, writing⟩
  · exact ⟨isFragment, front, writing⟩
  · exact ⟨front, .inr ⟨⟨isPercent, isArgs, isFragment⟩, noEscape,
      writing_same (writing_put writing notDot notSlash) rfl rfl⟩⟩
  · exact put_followed writing noEscape notDot notSlash ⟨isPercent, isArgs, isFragment⟩

theorem dot_followed (isState : stateOf (seg ++ [dot]) = state)
    (sameState : next.state = state) (sameBytes : next.u = m.u ++ [dot])
    (sameEscape : next.escape = m.escape) : Followed seg dot (.next next) :=
  ⟨front, .inr ⟨by decide, sameEscape.trans noEscape,
    writing_same (writing_dot writing isState) sameState sameBytes⟩⟩

theorem slash_followed (plain : slash ∉ seg) (notDots : ¬ IsDots seg)
    (sameState : next.state = .swSlash) (sameBytes : next.u = m.u ++ [slash])
    (sameEscape : next.escape = m.escape) : Followed seg slash (.next next) :=
  ⟨front ++ slash :: seg, .inr ⟨by decide, sameEscape.trans noEscape,
    writing_same (writing_slash writing plain notDots) sameState sameBytes⟩⟩

end

theorem closed_followed {before : Bytes} (writing : Writing next before [])
    (noEscape : next.escape = .none) : Followed seg slash (.next next) := by
  have closed : follow slash seg slash = [] := if_pos rfl
  exact ⟨before, .inr ⟨by decide, noEscape, by rw [closed]; exact writing⟩⟩

theorem path_turn_followed (writing : Writing m front seg)
    (noEscape : m.escape = .none) (plain : slash ∉ seg) :
    Followed seg ch (pathTurn mergeSlashes m ch) := by
  have known := state_of_inverse seg
  have afterDot := state_of_dot seg
  rw [← writing.state] at known afterDot
  unfold pathTurn
  cases isState : m.state with
  | swUsual =>
    rw [isState] at known afterDot
    simp only [swUsual]
    split_ifs with isPlain isSlash isDot
    · exact usual_followed writing noEscape isPlain
    · subst isSlash
      exact slash_followed writing noEscape plain known rfl rfl rfl
    · subst isDot
      exact dot_followed writing noEscape afterDot rfl rfl rfl
    · exact other_cases_followed writing noEscape isDot isSlash
  | swSlash =>
    rw [isState] at known afterDot
    simp only [swSlash]
    split_ifs with isPlain isSlash merged isDot
    · exact usual_followed writing noEscape isPlain
    · subst isSlash known
      exact closed_followed writing noEscape
    · subst isSlash
      exact slash_followed writing noEscape plain (by rw [known]; decide) rfl rfl rfl
    · subst isDot
      exact dot_followed writing noEscape afterDot rfl rfl rfl
    · exact other_cases_followed writing noEscape isDot isSlash
  | swDot =>
    rw [isState] at known afterDot
    simp only [swDot]
    split_ifs with isPlain isSlash isDot
    · exact usual_followed writing noEscape isPlain
    · subst isSlash known
      have cut : Writing { m with state := .swSlash, u := m.u.dropLast } front [] := by
        constructor
        · rw [writing.written]
          exact dropLast_append_of_ne_nil (by simp)
        · rfl
        · exact writing.clean
        · exact writing.rooted
      exact closed_followed cut noEscape
    · subst isDot
      exact dot_followed writing noEscape afterDot rfl rfl rfl
    · exact other_cases_followed writing noEscape isDot isSlash
  | swDotDot =>
    rw [isState] at known afterDot
    simp only [swDotDot]
    split_ifs with isPlain isSlash
    · exact usual_followed writing noEscape isPlain
    · subst isSlash known
      cases found : dropSegment m.u with
      | none => exact trivial
      | some v =>
        rcases writing_dropped writing found with ⟨before, cut⟩
        exact closed_followed cut noEscape
    · by_cases isDot : ch = dot
      · subst isDot
        have wanted : otherCases m dot = .next (m.put .swUsual dot) := rfl
        rw [wanted]
        exact dot_followed writing noEscape afterDot rfl rfl rfl
      · exact other_cases_followed writing noEscape isDot isSlash

end PathTurn

def firstDigit (ch : Byte) : Byte :=
  if '0'.toUInt8 ≤ ch ∧ ch ≤ '9'.toUInt8 then ch - '0'.toUInt8
  else (ch ||| 0x20) - 'a'.toUInt8 + 10

def escapedByte (decoded ch : Byte) : Byte :=
  if '0'.toUInt8 ≤ ch ∧ ch ≤ '9'.toUInt8 then (decoded <<< 4) + ch - '0'.toUInt8
  else (decoded <<< 4) + (ch ||| 0x20) - 'a'.toUInt8 + 10

/-- The bytes that a raw path stands for, up to its arguments or fragment. An escape that
is cut off at the end stands for nothing. -/
def decodedFrom : Escape → Bytes → Bytes
  | _, [] => []
  | .none, ch :: rest =>
    if ch = '?'.toUInt8 ∨ ch = '#'.toUInt8 then []
    else if ch = '%'.toUInt8 then decodedFrom .swQuoted rest
    else ch :: decodedFrom .none rest
  | .swQuoted, ch :: rest => decodedFrom (.swQuotedSecond (firstDigit ch)) rest
  | .swQuotedSecond decoded, ch :: rest => escapedByte decoded ch :: decodedFrom .none rest

def decodedPath (uri : Bytes) : Bytes := decodedFrom .none uri

theorem byte_add_sub (a b c : Byte) : a + b - c = a + (b - c) := by
  rw [UInt8.sub_eq_add_neg, UInt8.add_assoc, ← UInt8.sub_eq_add_neg]

theorem low_half (decoded digit : Byte) (small : digit.toNat < 16) :
    ((decoded <<< 4) + digit).toNat % 16 = digit.toNat := by
  have shifted : (decoded <<< 4).toNat = decoded.toNat * 16 % 256 := by
    rw [UInt8.toNat_shiftLeft, Nat.shiftLeft_eq]
    rfl
  rw [UInt8.toNat_add, shifted]
  omega

theorem digit_escape (isDigit : '0'.toUInt8 ≤ ch ∧ ch ≤ '9'.toUInt8) :
    (decoded <<< 4) + ch - '0'.toUInt8 ≠ '?'.toUInt8 := by
  have low : (ch - '0'.toUInt8).toNat < 10 := by
    have upper : ch.toNat ≤ 57 := UInt8.le_iff_toNat_le.mp isDigit.2
    rw [UInt8.toNat_sub_of_le _ _ isDigit.1]
    change ch.toNat - 48 < 10
    omega
  intro same
  have half := low_half decoded (ch - '0'.toUInt8) (by omega)
  rw [← byte_add_sub, same] at half
  change 15 = _ at half
  omega

theorem letter_escape {c : Byte} (isLetter : 'a'.toUInt8 ≤ c ∧ c ≤ 'f'.toUInt8) :
    (decoded <<< 4) + c - 'a'.toUInt8 + 10 ≠ '%'.toUInt8 ∧
      (decoded <<< 4) + c - 'a'.toUInt8 + 10 ≠ '#'.toUInt8 ∧ (decoded <<< 4) + c - 'a'.toUInt8 + 10 ≠ 0 := by
  have low : 10 ≤ (c - 'a'.toUInt8 + 10).toNat ∧ (c - 'a'.toUInt8 + 10).toNat < 16 := by
    have upper : c.toNat ≤ 102 := UInt8.le_iff_toNat_le.mp isLetter.2
    have minus : (c - 'a'.toUInt8).toNat = c.toNat - 97 := UInt8.toNat_sub_of_le _ _ isLetter.1
    have ten : (10 : Byte).toNat = 10 := rfl
    rw [UInt8.toNat_add, minus, ten]
    omega
  have half := low_half decoded (c - 'a'.toUInt8 + 10) low.2
  have regrouped : (decoded <<< 4) + (c - 'a'.toUInt8 + (10 : Byte)) =
      (decoded <<< 4) + c - 'a'.toUInt8 + (10 : Byte) := by
    rw [← UInt8.add_assoc, ← byte_add_sub]
  rw [regrouped] at half
  refine ⟨?_, ?_, ?_⟩ <;> intro same <;> rw [same] at half
  · change 5 = _ at half
    omega
  · change 3 = _ at half
    omega
  · change 0 = _ at half
    omega

def Decoded (seg : Bytes) (value : Byte) : Turn → Prop
  | .next m => m.escape = .none ∧ ∃ front, Writing m front (follow slash seg value)
  | .args _ => False
  | .done _ => False
  | .invalid => True

theorem decoded_of_followed {value : Byte} {result : Turn}
    (followed : Followed seg value result) (inPath : PathByte value) : Decoded seg value result := by
  cases result with
  | next m =>
    rcases followed with ⟨front, begun | ⟨-, noEscape, writing⟩⟩
    · exact absurd begun.1 inPath.1
    · exact ⟨noEscape, front, writing⟩
  | args m => exact inPath.2.1 followed.1
  | done m => exact inPath.2.2 followed.1
  | invalid => exact trivial

theorem quoted_second_decoded (mergeSlashes : Bool)
    (decoded ch : Byte) (writing : Writing m front seg) (plain : slash ∉ seg) :
    Decoded seg (escapedByte decoded ch) (swQuotedSecond mergeSlashes m decoded ch) := by
  have unescaped : Writing { m with escape := .none } front seg := writing_same writing rfl rfl
  unfold swQuotedSecond escapedByte
  by_cases isDigit : '0'.toUInt8 ≤ ch ∧ ch ≤ '9'.toUInt8
  · simp only [if_pos isDigit]
    have notArgs : (decoded <<< 4) + ch - '0'.toUInt8 ≠ '?'.toUInt8 := digit_escape isDigit
    generalize (decoded <<< 4) + ch - '0'.toUInt8 = value at notArgs
    split_ifs with isLiteral isNul
    · have special : value ≠ dot ∧ value ≠ slash := by
        rcases isLiteral with rfl | rfl <;> decide
      exact ⟨rfl, front, writing_put unescaped special.1 special.2⟩
    · exact trivial
    · rcases not_or.mp isLiteral with ⟨notPercent, notFragment⟩
      exact decoded_of_followed (path_turn_followed unescaped rfl plain)
        ⟨notPercent, notArgs, notFragment⟩
  · simp only [if_neg isDigit]
    by_cases isLetter : 'a'.toUInt8 ≤ ch ||| 0x20 ∧ ch ||| 0x20 ≤ 'f'.toUInt8
    · rw [if_pos isLetter]
      rcases @letter_escape decoded _ isLetter with ⟨notPercent, notFragment, -⟩
      generalize (decoded <<< 4) + (ch ||| 0x20) - 'a'.toUInt8 + 10 = value at notPercent notFragment
      split_ifs with isArgs isPlus
      · have special : value ≠ dot ∧ value ≠ slash := by
          rw [isArgs]
          decide
        exact ⟨rfl, front, writing_put unescaped special.1 special.2⟩
      · have flagged : Writing { m with escape := .none, plusInUri := true } front seg :=
          writing_same writing rfl rfl
        exact decoded_of_followed (path_turn_followed flagged rfl plain)
          ⟨notPercent, isArgs, notFragment⟩
      · exact decoded_of_followed (path_turn_followed unescaped rfl plain)
          ⟨notPercent, isArgs, notFragment⟩
    · rw [if_neg isLetter]
      exact trivial

theorem quoted_first (m : Machine) (ch : Byte) :
    swQuoted m ch = .invalid ∨ ∃ next, swQuoted m ch = .next next ∧
      next.escape = .swQuotedSecond (firstDigit ch) ∧ next.state = m.state ∧ next.u = m.u := by
  simp only [swQuoted, firstDigit]
  split_ifs
  · exact .inr ⟨_, rfl, rfl, rfl, rfl⟩
  · exact .inr ⟨_, rfl, rfl, rfl, rfl⟩
  · exact .inl rfl

theorem follow_plain (plain : slash ∉ seg) : slash ∉ follow slash seg ch := by
  unfold follow
  split_ifs with isSlash
  · simp
  · simp [plain, Ne.symm isSlash]

def Normal (uri seg : Bytes) : Prop :=
  ∃ front, uri = front ++ slash :: seg ∧ slash ∉ seg ∧
    (∀ closed ∈ front.splitOn slash, ¬ IsDots closed) ∧ (front ++ [slash]).head? = some slash

section

variable {m : Machine} {front seg : Bytes} (writing : Writing m front seg) (plain : slash ∉ seg)
include writing plain

theorem finish_normal {argsStart : Option Nat} {args : Option Bytes} :
    Normal (finish m argsStart args).uri seg :=
  ⟨front, writing.written, plain, writing.clean, writing.rooted⟩

theorem args_normal (argsStart : Nat) (rest : Bytes) :
    Normal (gotoArgs m argsStart rest).uri seg := by
  unfold gotoArgs
  split_ifs <;> exact finish_normal writing plain

end

theorem loop_normal (writing : Writing m front seg) (plain : slash ∉ seg)
    (accepted : complexLoop mergeSlashes m p raw = some parsed) :
    Normal parsed.uri ((decodedFrom m.escape raw).foldl (follow slash) seg) := by
  induction raw generalizing m front seg p with
  | nil =>
    cases accepted
    have nothing : decodedFrom m.escape [] = [] := by cases m.escape <;> rfl
    rw [nothing]
    exact finish_normal writing plain
  | cons ch rest ih =>
    rw [complexLoop] at accepted
    unfold turn at accepted
    cases escape : m.escape with
    | none =>
      have followed : Followed seg ch (pathTurn mergeSlashes m ch) :=
        path_turn_followed writing escape plain
      simp only [escape] at accepted
      rw [decodedFrom]
      cases result : pathTurn mergeSlashes m ch with
      | invalid =>
        rw [result] at accepted
        cases accepted
      | args next =>
        rw [result] at accepted followed
        rcases followed with ⟨isArgs, before, stillWriting⟩
        cases accepted
        rw [if_pos (.inl isArgs)]
        exact args_normal stillWriting plain _ _
      | done next =>
        rw [result] at accepted followed
        rcases followed with ⟨isFragment, before, stillWriting⟩
        cases accepted
        rw [if_pos (.inr isFragment)]
        exact finish_normal stillWriting plain
      | next next =>
        rw [result] at accepted followed
        rcases followed with ⟨before, ⟨isPercent, quoted, stillWriting⟩ |
          ⟨⟨notPercent, notEnd⟩, noEscape, stillWriting⟩⟩
        · rw [if_neg (by rw [isPercent]; decide), if_pos isPercent, ← quoted]
          exact ih stillWriting plain accepted
        · rw [if_neg (not_or.mpr notEnd), if_neg notPercent, ← noEscape, foldl_cons]
          exact ih stillWriting (follow_plain plain) accepted
    | swQuoted =>
      simp only [escape] at accepted
      rw [decodedFrom]
      rcases quoted_first m ch with stopped | ⟨next, went, second, sameState, sameBytes⟩
      · rw [stopped] at accepted
        cases accepted
      · rw [went] at accepted
        rw [← second]
        exact ih (writing_same writing sameState sameBytes) plain accepted
    | swQuotedSecond decoded =>
      have ends := quoted_second_decoded mergeSlashes decoded ch writing plain
      simp only [escape] at accepted
      rw [decodedFrom, foldl_cons]
      cases result : swQuotedSecond mergeSlashes m decoded ch with
      | invalid =>
        rw [result] at accepted
        cases accepted
      | args next | done next =>
        rw [result] at ends
        exact ends.elim
      | next next =>
        rw [result] at accepted ends
        rcases ends with ⟨noEscape, before, stillWriting⟩
        rw [← noEscape]
        exact ih stillWriting (follow_plain plain) accepted

section Growth

/-- `holds` is true of the machine that a byte leaves. -/
def Turn.Leaves (holds : Machine → Prop) : Turn → Prop
  | .next m | .args m | .done m => holds m
  | .invalid => True

/-- At most `limit` bytes have been written, and no NUL among them. -/
def Bounded (limit : Nat) (m : Machine) : Prop := m.u.length ≤ limit ∧ 0 ∉ m.u

variable {m : Machine} {limit : Nat} {ch : Byte}

theorem bounded_put (bound : Bounded limit m) (notNul : ch ≠ 0)
    (appended : next.u = m.u ++ [ch]) : Bounded (limit + 1) next := by
  rcases bound with ⟨short, noNul⟩
  constructor
  · rw [appended, length_append, length_singleton]
    exact Nat.succ_le_succ short
  · rw [appended]
    simp [noNul, Ne.symm notNul]

theorem bounded_take (bound : Bounded limit m) (shrunk : next.u <+: m.u) :
    Bounded (limit + 1) next := by
  rcases bound with ⟨short, noNul⟩
  constructor
  · exact Nat.le_succ_of_le (le_trans shrunk.length_le short)
  · exact fun mem => noNul (shrunk.subset mem)

theorem drop_segment_shrinks (found : dropSegment u = some v) : v <+: u := by
  unfold dropSegment at found
  split_ifs at found
  rcases scan_back_found found with ⟨place, -, -, isCut⟩
  rw [isCut]
  exact take_prefix _ _

theorem other_cases_bounded (bound : Bounded limit m) (notNul : ch ≠ 0) :
    (otherCases m ch).Leaves (Bounded (limit + 1)) := by
  have still : Bounded (limit + 1) m := bounded_take bound (prefix_refl _)
  unfold otherCases
  split_ifs
  · exact still
  · exact still
  · exact still
  · exact bounded_put bound notNul rfl
  · exact bounded_put bound notNul rfl

theorem path_turn_bounded (bound : Bounded limit m) (notNul : ch ≠ 0) :
    (pathTurn mergeSlashes m ch).Leaves (Bounded (limit + 1)) := by
  unfold pathTurn
  cases m.state with
  | swUsual =>
    simp only [swUsual]
    split_ifs
    · exact bounded_put bound notNul rfl
    · exact bounded_put bound notNul rfl
    · exact bounded_put bound notNul rfl
    · exact other_cases_bounded bound notNul
  | swSlash =>
    simp only [swSlash]
    split_ifs
    · exact bounded_put bound notNul rfl
    · exact bounded_take bound (prefix_refl _)
    · exact bounded_put bound notNul rfl
    · exact bounded_put bound notNul rfl
    · exact other_cases_bounded bound notNul
  | swDot =>
    simp only [swDot]
    split_ifs
    · exact bounded_put bound notNul rfl
    · exact bounded_take bound <| dropLast_prefix _
    · exact bounded_put bound notNul rfl
    · exact other_cases_bounded bound notNul
  | swDotDot =>
    simp only [swDotDot]
    split_ifs
    · exact bounded_put bound notNul rfl
    · cases found : dropSegment m.u with
      | none => exact trivial
      | some v => exact bounded_take bound (drop_segment_shrinks found)
    · exact other_cases_bounded bound notNul

theorem turn_bounded (mergeSlashes : Bool) (bound : Bounded limit m) (notNul : ch ≠ 0) :
    (turn mergeSlashes m ch).Leaves (Bounded (limit + 1)) := by
  unfold turn
  cases m.escape with
  | none => exact path_turn_bounded bound notNul
  | swQuoted =>
    rcases quoted_first m ch with stopped | ⟨next, went, -, -, sameBytes⟩
    · simp only [stopped]
      exact trivial
    · simp only [went]
      exact bounded_take bound (by simp [sameBytes])
  | swQuotedSecond decoded =>
    have unescaped : Bounded limit { m with escape := .none } := bound
    simp only [swQuotedSecond]
    split_ifs with isDigit isLiteral isNul isLetter isArgs isPlus
    · apply bounded_put unescaped _ rfl
      rcases isLiteral with same | same <;> rw [same] <;> decide
    · exact trivial
    · exact path_turn_bounded unescaped isNul
    · apply bounded_put unescaped _ rfl
      rw [isArgs]
      decide
    · exact path_turn_bounded (show Bounded limit { m with
        escape := .none, plusInUri := true } from bound) (letter_escape isLetter).2.2
    · exact path_turn_bounded unescaped (letter_escape isLetter).2.2
    · exact trivial

theorem args_uri (m : Machine) (argsStart : Nat) (rest : Bytes) :
    (gotoArgs m argsStart rest).uri = m.u := by
  unfold gotoArgs
  split_ifs <;> rfl

theorem loop_bounded (bound : Bounded limit m) (noNul : 0 ∉ raw)
    (accepted : complexLoop mergeSlashes m p raw = some parsed) :
    parsed.uri.length ≤ limit + raw.length ∧ 0 ∉ parsed.uri := by
  induction raw generalizing m p limit with
  | nil =>
    cases accepted
    exact bound
  | cons ch rest ih =>
    have notNul : ch ≠ 0 := fun same => noNul (by simp [same])
    have restNul : 0 ∉ rest := fun mem => noNul (mem_cons_of_mem _ mem)
    have leaves := turn_bounded mergeSlashes bound notNul
    rw [complexLoop] at accepted
    rw [length_cons]
    cases result : turn mergeSlashes m ch with
    | invalid =>
      rw [result] at accepted
      cases accepted
    | next next =>
      rw [result] at accepted leaves
      rcases ih leaves restNul accepted with ⟨short, fine⟩
      exact ⟨by omega, fine⟩
    | args next =>
      rw [result] at accepted leaves
      cases accepted
      rw [args_uri]
      exact ⟨le_trans leaves.1 (by omega), leaves.2⟩
    | done next =>
      rw [result] at accepted leaves
      cases accepted
      exact ⟨le_trans leaves.1 (by omega), leaves.2⟩

end Growth

def Clean (raw uri : Bytes) : Prop :=
  uri.head? = some slash ∧ uri.length ≤ raw.length ∧ 0 ∉ uri ∧
    ∀ seg ∈ uri.splitOn slash, ¬ IsDots seg

instance (raw uri : Bytes) : Decidable (Clean raw uri) :=
  inferInstanceAs (Decidable (_ ∧ _ ∧ _ ∧ _))

def EndsInDots (raw : Bytes) : Prop :=
  ∃ seg, ((decodedPath raw).splitOn slash).getLast? = some seg ∧ IsDots seg

/-- A URI is normalised unless its path ends in a segment of dots. Both callers refuse a
NUL byte in a raw URI. -/
theorem complex_uri_clean (quotedUri plusInUri mergeSlashes : Bool) {raw : Bytes}
    {parsed : Parsed} (starts : raw.head? = some slash) (noNul : 0 ∉ raw)
    (accepted : ngxHttpParseComplexUri quotedUri plusInUri mergeSlashes raw = some parsed) :
    Clean raw parsed.uri ↔ ¬ EndsInDots raw := by
  cases raw with
  | nil => exact absurd starts (by simp)
  | cons first rest =>
    simp only [head?_cons, Option.some.injEq] at starts
    subst starts
    let opened : Machine :=
      { state := .swSlash, u := [slash], quotedUri := quotedUri, plusInUri := plusInUri }
    have went : ngxHttpParseComplexUri quotedUri plusInUri mergeSlashes (slash :: rest) =
        complexLoop mergeSlashes opened 1 rest := rfl
    have writing : Writing opened [] [] := ⟨rfl, rfl, by decide, rfl⟩
    have normal := loop_normal writing (by simp) (went.symm.trans accepted)
    have sizes := loop_bounded (show Bounded 0 { quotedUri := quotedUri, plusInUri := plusInUri }
      from ⟨le_refl 0, by simp⟩) noNul accepted
    have last : ((decodedPath (slash :: rest)).splitOn slash).getLast? =
        some ((decodedFrom .none rest).foldl (follow slash) []) := by
      rw [last_split]
      rfl
    have ends : EndsInDots (slash :: rest) ↔
        IsDots ((decodedFrom .none rest).foldl (follow slash) []) := by
      unfold EndsInDots
      rw [last]
      simp
    rcases normal with ⟨front, isUri, plain, clean, rooted⟩
    rw [ends]
    constructor
    · rintro ⟨-, -, -, noDots⟩
      apply noDots
      rw [isUri, split_append_segment front plain]
      simp [opened]
    · intro fine
      refine ⟨?_, by simpa using sizes.1, sizes.2, ?_⟩
      · rw [isUri, head_of_front]
        exact rooted
      · intro seg mem
        rw [isUri, split_append_segment front plain] at mem
        rcases mem_append.mp mem with before | isLast
        · exact clean seg before
        · rw [mem_singleton.mp isLast]
          exact fine

def textBytes (text : String) : Bytes := text.toList.map Char.toUInt8

theorem complex_uri_clean_of_dots_inside : Clean (textBytes "/a/%2e%2E//b/./c?x") (textBytes "/b/c") ↔
      ¬ EndsInDots (textBytes "/a/%2e%2E//b/./c?x") :=
  complex_uri_clean false false true (by decide) (by decide)
    (show ngxHttpParseComplexUri false false true (textBytes "/a/%2e%2E//b/./c?x") =
      some ⟨textBytes "/b/c", none, some 17, none, true, false⟩ by decide)

/-- Two dots at the end stay. -/
theorem dots_at_end_stay : (ngxHttpParseComplexUri false false true (textBytes "/a/..")).map Parsed.uri =
        some (textBytes "/a/..") ∧ ¬ Clean (textBytes "/a/..") (textBytes "/a/..") := by
  decide

end ServerCore.NginxHttpComplexUri
