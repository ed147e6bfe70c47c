import Mathlib.Algebra.Group.Int.Defs
import ServerCore.NginxHttpParse

/-!
# The byte ranges of a request

`ngx_http_range_parse`, with the result of every computation in `off_t` before it is
stored. What does not fit wraps around. A text ends at its first NUL, and `*p` behind
the last byte of the list is that NUL.
-/

namespace ServerCore.NginxHttpRange

open NginxHttpParse (Byte Bytes)

inductive ReturnCode where
  | ngxOk
  | ngxError
  | ngxDeclined
  | ngxHttpRangeNotSatisfiable
  deriving DecidableEq

/-- `ngx_http_range_t`: from `start` to the byte before `end`. -/
structure Range where
  start : Int
  stop : Int

def maxOffT : Int := 2 ^ 63 - 1

def cutoff : Int := maxOffT / 10

def cutlim : Int := maxOffT % 10

/-- What is stored in an `off_t`. -/
def offT (value : Int) : Int := (value + 2 ^ 63) % 2 ^ 64 - 2 ^ 63

/-- The exact results of the computations, in their order. -/
abbrev Trace : Type := List Int

/-- A result that an `off_t` holds. -/
def Fits (value : Int) : Prop := -2 ^ 63 ≤ value ∧ value ≤ maxOffT

instance (value : Int) : Decidable (Fits value) := inferInstanceAs (Decidable (_ ∧ _))

/-- `*p`. -/
def peek (p : Bytes) : Byte := p.headD 0

def isDigit (ch : Byte) : Bool := '0'.toUInt8 ≤ ch && ch ≤ '9'.toUInt8

def digitValue (ch : Byte) : Nat := ch.toNat - '0'.toNat

/-- `while (*p == ' ') { p++; }` -/
def skipSpaces (p : Bytes) : Bytes := p.dropWhile fun ch => ch = ' '.toUInt8

/-- The loop over digits. The expression `value * 10 + *p++ - '0'` adds the code of the
digit before it subtracts that of zero. -/
def number (value : Int) : Bytes → Option (Int × Bytes) × Trace
  | [] => (some (value, []), [])
  | ch :: p =>
    if isDigit ch then
      if value ≥ cutoff ∧ (value > cutoff ∨ (digitValue ch : Int) > cutlim) then (none, [])
      else
        let product := value * 10
        let sum := offT product + ch.toNat
        let difference := offT sum - '0'.toNat
        let later := number (offT difference) p
        (later.1, product :: sum :: difference :: later.2)
    else (some (value, ch :: p), [])

/-- The place `found`: a range and the rest of the text. -/
structure Found where
  start : Int
  stop : Int
  p : Bytes

/-- The second half of a range: its last byte, or the length of a suffix. -/
def readEnd (contentLength start : Int) (suffix : Bool) (p : Bytes) : Option Found × Trace :=
  if ¬isDigit (peek p) then (none, [])
  else
    match number 0 p with
    | (none, trace) => (none, trace)
    | (some (stop, p), trace) =>
      let p := skipSpaces p
      if peek p ≠ ','.toUInt8 ∧ peek p ≠ 0 then (none, trace)
      else
        let suffixTrace := if suffix then [contentLength - stop, contentLength - 1] else []
        let start := if suffix then offT (contentLength - stop) else start
        let stop := if suffix then offT (contentLength - 1) else stop
        if stop ≥ contentLength then (some ⟨start, contentLength, p⟩, trace ++ suffixTrace)
        else (some ⟨start, offT (stop + 1), p⟩, trace ++ suffixTrace ++ [stop + 1])

/-- A range up to the label `found`; without one the answer is
`NGX_HTTP_RANGE_NOT_SATISFIABLE`. -/
def readRange (contentLength : Int) (p : Bytes) : Option Found × Trace :=
  let p := skipSpaces p
  if peek p ≠ '-'.toUInt8 then
    if ¬isDigit (peek p) then (none, [])
    else
      match number 0 p with
      | (none, trace) => (none, trace)
      | (some (start, p), trace) =>
        let p := skipSpaces p
        if peek p ≠ '-'.toUInt8 then (none, trace)
        else
          let p := skipSpaces p.tail
          if peek p = ','.toUInt8 ∨ peek p = 0 then (some ⟨start, contentLength, p⟩, trace)
          else
            let later := readEnd contentLength start false p
            (later.1, trace ++ later.2)
  else readEnd contentLength 0 true p.tail

/-- The variables of the loop, and how the allocations to come will end. -/
structure LoopState where
  p : Bytes
  size : Int
  ranges : Nat
  array : List Range
  answers : List Bool

/-- How an iteration ends: the next one follows, the loop is left, or the function returns. -/
inductive Iterated where
  | again (state : LoopState)
  | left (state : LoopState)
  | returned (rc : ReturnCode) (array : List Range)

/-- The end of an iteration: only a comma leads to another one. -/
def goOn (state : LoopState) : Iterated :=
  if peek state.p ≠ ','.toUInt8 then .left state else .again { state with p := state.p.tail }

/-- A range that is not empty is pushed before it is checked. -/
def pushRange (state : LoopState) (range : Range) : Iterated × Trace :=
  match state.answers with
  | true :: answers =>
    let array := state.array ++ [range]
    let length := range.stop - range.start
    let room := maxOffT - offT length
    if state.size > offT room then
      (.returned .ngxHttpRangeNotSatisfiable array, [length, room])
    else
      let sum := state.size + offT length
      if state.ranges = 0 then (.returned .ngxDeclined array, [length, room, length, sum])
      else
        (goOn ⟨state.p, offT sum, state.ranges - 1, array, answers⟩, [length, room, length, sum])
  | _ => (.returned .ngxError state.array, [])

/-- One iteration of `for ( ;; )`. -/
def iteration (contentLength : Int) (state : LoopState) : Iterated × Trace :=
  match readRange contentLength state.p with
  | (none, trace) => (.returned .ngxHttpRangeNotSatisfiable state.array, trace)
  | (some found, trace) =>
    let state := { state with p := found.p }
    if found.start < found.stop then
      let later := pushRange state ⟨found.start, found.stop⟩
      (later.1, trace ++ later.2)
    else (goOn state, trace)

def finish (contentLength : Int) (state : LoopState) : ReturnCode :=
  if state.array = [] then .ngxHttpRangeNotSatisfiable
  else if state.size > contentLength then .ngxDeclined
  else .ngxOk

/-- The return code, `ctx->ranges` and the results of the computations. -/
structure Parsed where
  rc : ReturnCode
  ranges : List Range
  trace : Trace

/-- The loop. Every iteration but the last one takes a comma. -/
def loop (contentLength : Int) : Nat → LoopState → Option Parsed
  | 0, _ => none
  | fuel + 1, state =>
    match iteration contentLength state with
    | (.again next, trace) =>
      (loop contentLength fuel next).map fun parsed => { parsed with trace := trace ++ parsed.trace }
    | (.left state, trace) => some ⟨finish contentLength state, state.array, trace⟩
    | (.returned rc array, trace) => some ⟨rc, array, trace⟩

/-- Behind "bytes=" the text of the ranges starts. -/
def firstState (value : Bytes) (ranges : Nat) (answers : List Bool) : LoopState :=
  ⟨value.drop 6, 0, ranges, [], answers⟩

/-- `mctx` is the context of the main request where this is another one that has it. -/
def ngxHttpRangeParse (mctx : Option (List Range)) (value : Bytes) (contentLength : Int)
    (ranges : Nat) (answers : List Bool) : Option Parsed :=
  match mctx with
  | some array => some ⟨.ngxOk, array, []⟩
  | none =>
    match answers with
    | true :: answers => loop contentLength (value.length + 1) (firstState value ranges answers)
    | _ => some ⟨.ngxError, [], []⟩

end ServerCore.NginxHttpRange
