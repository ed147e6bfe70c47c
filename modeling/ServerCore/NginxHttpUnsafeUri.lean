import Mathlib.Data.List.TakeWhile
import ServerCore.NginxHttpParse
import ServerCore.PathSegments

/-!
# The filter for unsafe URIs

`ngx_http_parse_unsafe_uri` with the `ngx_unescape_uri` that it calls. A pointer
`p` with the number `len` of bytes left is the list of these bytes, so that a
look ahead under a test of `len` is a match on the list. The branches for
`NGX_WIN32` are left out. The debug log is not modelled.
-/

namespace ServerCore.NginxHttpUnsafeUri

open NginxHttpParse (Byte Bytes)
open NginxHttpParse.RequestLine (isUsual)
open PathSegments List

variable {alloc : Bool} {uri args behind path : Bytes} {flags : Nat}

namespace Unescape

def typeUri : Nat := 1

def typeRedirect : Nat := 2

inductive State where
  | swUsual
  | swQuoted
  | swQuotedSecond

/-- What one byte of the source leads to: the bytes written for it, and the state
and `decoded` for the next one or `goto done`. -/
structure Turn where
  written : Bytes
  next : Option (State × Byte)

def swUsual (type : Nat) (decoded ch : Byte) : Turn :=
  if ch = '?'.toUInt8 ∧ type &&& (typeUri ||| typeRedirect) ≠ 0 then ⟨[ch], none⟩
  else if ch = '%'.toUInt8 then ⟨[], some (.swQuoted, decoded)⟩
  else ⟨[ch], some (.swUsual, decoded)⟩

def swQuoted (decoded ch : Byte) : Turn :=
  if '0'.toUInt8 ≤ ch ∧ ch ≤ '9'.toUInt8 then
    ⟨[], some (.swQuotedSecond, ch - '0'.toUInt8)⟩
  else
    let c := ch ||| 0x20
    if 'a'.toUInt8 ≤ c ∧ c ≤ 'f'.toUInt8 then
      ⟨[], some (.swQuotedSecond, c - 'a'.toUInt8 + 10)⟩
    else ⟨[ch], some (.swUsual, decoded)⟩

/-- A redirect keeps the escapes of bytes that are not plain text. -/
def redirected (first second ch : Byte) : Bytes :=
  if ch > '%'.toUInt8 ∧ ch < 0x7f then [ch] else ['%'.toUInt8, first, second]

/-- `first` is the byte before `ch` in the source. -/
def swQuotedSecond (type : Nat) (decoded first ch : Byte) : Turn :=
  if '0'.toUInt8 ≤ ch ∧ ch ≤ '9'.toUInt8 then
    let value := (decoded <<< 4) + ch - '0'.toUInt8
    if type &&& typeRedirect ≠ 0 then ⟨redirected first ch value, some (.swUsual, decoded)⟩
    else ⟨[value], some (.swUsual, decoded)⟩
  else
    let c := ch ||| 0x20
    if 'a'.toUInt8 ≤ c ∧ c ≤ 'f'.toUInt8 then
      let value := (decoded <<< 4) + c - 'a'.toUInt8 + 10
      if type &&& typeUri ≠ 0 then
        if value = '?'.toUInt8 then ⟨[value], none⟩ else ⟨[value], some (.swUsual, decoded)⟩
      else if type &&& typeRedirect ≠ 0 then
        if value = '?'.toUInt8 then ⟨[value], none⟩
        else ⟨redirected first ch value, some (.swUsual, decoded)⟩
      else ⟨[value], some (.swUsual, decoded)⟩
    else ⟨[], some (.swUsual, decoded)⟩

def turn (type : Nat) (state : State) (decoded first ch : Byte) : Turn :=
  match state with
  | .swUsual => swUsual type decoded ch
  | .swQuoted => swQuoted decoded ch
  | .swQuotedSecond => swQuotedSecond type decoded first ch

/-- The bytes written and what is left of the source. -/
def loop (type : Nat) : State → Byte → Byte → Bytes → Bytes × Bytes
  | _, _, _, [] => ([], [])
  | state, decoded, first, ch :: s =>
    let result := turn type state decoded first ch
    match result.next with
    | none => (result.written, s)
    | some (state, decoded) =>
      let behind := loop type state decoded ch s
      (result.written ++ behind.1, behind.2)

end Unescape

/-- `*dst` gains the first list, `*src` is left at the second one. -/
def ngxUnescapeUri (src : Bytes) (type : Nat) : Bytes × Bytes :=
  Unescape.loop type .swUsual 0 0 src

inductive ReturnCode where
  | ngxOk
  | ngxError
  deriving DecidableEq

/-- The return value, `*uri` and `*args` after the call, and the error logged. -/
structure Outcome where
  code : ReturnCode
  uri : Bytes
  args : Bytes
  log : Option Bytes

def ngxHttpLogUnsafe : Nat := 1

def textBytes (text : String) : Bytes := text.toList.map Char.toUInt8

/-- The label `unsafe`. -/
def gotoUnsafe (uri args : Bytes) (flags : Nat) : Outcome :=
  { code := .ngxError, uri := uri, args := args,
    log :=
      if flags &&& ngxHttpLogUnsafe ≠ 0 then
        some (textBytes "unsafe URI \"" ++ uri ++ textBytes "\" was detected")
      else none }

def ngxPathSeparator (ch : Byte) : Bool := ch == '/'.toUInt8

/-- Two dots at `p`, with the end or a separator behind them. -/
def dotsAhead : Bytes → Bool
  | first :: second :: behind =>
    first == '.'.toUInt8 && second == '.'.toUInt8 &&
      match behind with
      | [] => true
      | third :: _ => ngxPathSeparator third
  | _ => false

/-- How the first loop is left: by `goto unsafe`, at the end, or at a `?` with the
bytes behind it. -/
inductive Scan where
  | refused
  | finished (quoted : Bool)
  | cut (quoted : Bool) (args : Bytes)

def scanRaw (quoted : Bool) : Bytes → Scan
  | [] => .finished quoted
  | ch :: p =>
    if ch = '%'.toUInt8 then scanRaw true p
    else if isUsual ch then scanRaw quoted p
    else if ch = '?'.toUInt8 then .cut quoted p
    else if ch = 0 then .refused
    else if ngxPathSeparator ch && dotsAhead p then .refused
    else scanRaw quoted p

/-- The second loop, over the unescaped bytes: whether it goes to `unsafe`. -/
def scanUnescaped : Bytes → Bool
  | [] => false
  | ch :: p =>
    if ch = 0 then true
    else if ngxPathSeparator ch && dotsAhead p then true
    else scanUnescaped p

/-- The part under `if (quoted)`. The memory for the unescaped bytes may be missing. -/
def checkUnescaped (alloc : Bool) (uri args : Bytes) (flags : Nat) : Outcome :=
  if alloc then
    let unescaped := (ngxUnescapeUri uri 0).1
    if dotsAhead unescaped then gotoUnsafe unescaped args flags
    else if scanUnescaped unescaped then gotoUnsafe unescaped args flags
    else { code := .ngxOk, uri := unescaped, args := args, log := none }
  else { code := .ngxError, uri := uri, args := args, log := none }

def finish (alloc quoted : Bool) (uri args : Bytes) (flags : Nat) : Outcome :=
  if quoted then checkUnescaped alloc uri args flags
  else { code := .ngxOk, uri := uri, args := args, log := none }

def ngxHttpParseUnsafeUri (alloc : Bool) (uri args : Bytes) (flags : Nat) : Outcome :=
  if uri.length = 0 ∨ uri.head? = some '?'.toUInt8 then gotoUnsafe uri args flags
  else if dotsAhead uri then gotoUnsafe uri args flags
  else
    match scanRaw false uri with
    | .refused => gotoUnsafe uri args flags
    | .finished quoted => finish alloc quoted uri args flags
    | .cut quoted behind =>
      finish alloc quoted (uri.take (uri.length - (behind.length + 1))) behind flags

def slash : Byte := '/'.toUInt8

def dotDot : Bytes := ['.'.toUInt8, '.'.toUInt8]

def Safe (uri : Bytes) : Prop := 0 ∉ uri ∧ dotDot ∉ uri.splitOn slash

theorem slash_code : slash = 47 := rfl

theorem dot_dot_codes : dotDot = [46, 46] := rfl

theorem path_separator_iff (ch : Byte) : ngxPathSeparator ch = true ↔ ch = slash := beq_iff_eq

theorem dots_ahead_iff (p : Bytes) : dotsAhead p = true ↔ p.takeWhile (· ≠ slash) = dotDot := by
  have dotCode : '.'.toUInt8 = 46 := rfl
  rw [slash_code, dot_dot_codes]
  match p with
  | [] => simp [dotsAhead]
  | [first] =>
    by_cases same : first = 47 <;> simp [dotsAhead, same]
  | first :: second :: behind =>
    simp only [dotsAhead, dotCode, Bool.and_eq_true, beq_iff_eq]
    by_cases isFirst : first = 46
    · by_cases isSecond : second = 46
      · cases behind with
        | nil => simp [isFirst, isSecond]
        | cons third rest =>
          by_cases same : third = 47
          · simp [isFirst, isSecond, path_separator_iff, slash_code, same]
          · simp [isFirst, isSecond, path_separator_iff, slash_code, same]
      · by_cases same : second = 47 <;> simp [isFirst, isSecond, same]
    · by_cases same : first = 47 <;> simp [isFirst, same]

theorem scan_unescaped_iff (uri : Bytes) :
    scanUnescaped uri = true ↔ 0 ∈ uri ∨ dotDot ∈ (uri.splitOn slash).tail := by
  induction uri with
  | nil => simp [scanUnescaped]
  | cons ch p ih =>
    rw [tail_split_cons, scanUnescaped, mem_cons]
    by_cases isNul : ch = 0
    · simp [isNul]
    · have notNul : ¬ (0 : Byte) = ch := Ne.symm isNul
      rw [if_neg isNul]
      by_cases isSlash : ch = slash
      · rw [if_pos isSlash, mem_split_iff, ← dots_ahead_iff]
        by_cases ahead : dotsAhead p = true
        · simp [path_separator_iff, isSlash, ahead]
        · rw [if_neg (by simp [ahead]), ih]
          simp [notNul, ahead]
      · rw [if_neg isSlash, if_neg (by simp [path_separator_iff, isSlash]), ih]
        simp [notNul]

theorem check_unescaped_safe (passed : (checkUnescaped alloc uri args flags).code = .ngxOk) :
    Safe (checkUnescaped alloc uri args flags).uri := by
  unfold checkUnescaped at passed ⊢
  cases alloc with
  | false => exact absurd passed (by simp)
  | true =>
    simp only [if_true] at passed ⊢
    by_cases ahead : dotsAhead (ngxUnescapeUri uri 0).1 = true
    · rw [if_pos ahead] at passed
      exact absurd passed (by simp [gotoUnsafe])
    · by_cases found : scanUnescaped (ngxUnescapeUri uri 0).1 = true
      · rw [if_neg ahead, if_pos found] at passed
        exact absurd passed (by simp [gotoUnsafe])
      · rw [if_neg ahead, if_neg found]
        rw [scan_unescaped_iff, not_or] at found
        rw [dots_ahead_iff] at ahead
        apply And.intro found.1
        rw [mem_split_iff]
        exact not_or.mpr ⟨ahead, found.2⟩

theorem usual_plain {ch : Byte} (isPlain : isUsual ch = true) :
    ch ≠ '%'.toUInt8 ∧ ch ≠ '?'.toUInt8 ∧ ch ≠ 0 ∧ ch ≠ slash := by
  have special : isUsual '%'.toUInt8 = false ∧ isUsual '?'.toUInt8 = false ∧
      isUsual 0 = false ∧ isUsual slash = false := by decide
  rcases special with ⟨percent, question, nul, sep⟩
  constructor
  · rintro rfl
    exact absurd isPlain (by rw [percent]; decide)
  constructor
  · rintro rfl
    exact absurd isPlain (by rw [question]; decide)
  constructor
  · rintro rfl
    exact absurd isPlain (by rw [nul]; decide)
  · rintro rfl
    exact absurd isPlain (by rw [sep]; decide)

/-- The first loop runs over `path` as it would over `path ++ shown`, where `shown` is
what a look ahead can tell of the bytes behind it. -/
theorem scan_raw_append {shown : Bytes} (noSlash : slash ∉ shown)
    (sameSight : ∀ rest, dotsAhead (rest ++ behind) = dotsAhead (rest ++ shown)) (quoted : Bool)
    (noArgs : '?'.toUInt8 ∉ path) : scanRaw quoted (path ++ behind) =
      if 0 ∈ path ∨ dotDot ∈ ((path ++ shown).splitOn slash).tail then .refused
      else scanRaw (quoted || decide ('%'.toUInt8 ∈ path)) behind := by
  induction path generalizing quoted with
  | nil =>
    simp [splitOn_eq_singleton noSlash]
  | cons ch p ih =>
    have noArgsBehind : '?'.toUInt8 ∉ p := fun mem => noArgs (mem_cons_of_mem _ mem)
    have notArgs : ch ≠ '?'.toUInt8 := fun same => noArgs (by simp [same])
    rw [cons_append, cons_append, tail_split_cons, scanRaw]
    by_cases isPercent : ch = '%'.toUInt8
    · have notNul : ¬ (0 : Byte) = '%'.toUInt8 := by decide
      have notSlash : ¬ '%'.toUInt8 = slash := by decide
      rw [if_pos isPercent, ih true noArgsBehind, isPercent, if_neg notSlash]
      simp [notNul]
    · have notPercent : ¬ '%'.toUInt8 = ch := Ne.symm isPercent
      rw [if_neg isPercent]
      simp only [mem_cons, notPercent, false_or]
      by_cases isPlain : isUsual ch = true
      · rcases usual_plain isPlain with ⟨-, -, notNul, notSlash⟩
        rw [if_pos isPlain, ih quoted noArgsBehind, if_neg notSlash]
        simp [Ne.symm notNul]
      · rw [if_neg isPlain, if_neg notArgs]
        by_cases isNul : ch = 0
        · simp [isNul]
        · have notNul : ¬ (0 : Byte) = ch := Ne.symm isNul
          rw [if_neg isNul]
          simp only [notNul, false_or]
          by_cases isSlash : ch = slash
          · simp only [if_pos isSlash, mem_split_iff, ← dots_ahead_iff, ← sameSight]
            by_cases ahead : dotsAhead (p ++ behind) = true
            · simp [path_separator_iff, isSlash, ahead]
            · rw [if_neg (by simp [ahead]), ih quoted noArgsBehind]
              simp [ahead]
          · rw [if_neg isSlash, if_neg (by simp [path_separator_iff, isSlash]),
              ih quoted noArgsBehind]

theorem sight_of_args {rest : Bytes} (args : Bytes) :
    dotsAhead (rest ++ '?'.toUInt8 :: args) = dotsAhead (rest ++ ['?'.toUInt8]) := by
  match rest with
  | [] => cases args <;> rfl
  | [first] =>
    have differs : ('?'.toUInt8 == '.'.toUInt8) = false := by decide
    simp [dotsAhead, differs]
  | [first, second] => rfl
  | first :: second :: third :: rest => rfl

theorem dots_before_args (path : Bytes) : dotDot ∈ (path ++ ['?'.toUInt8]).splitOn slash ↔
      dotDot ∈ (path.splitOn slash).dropLast := by
  have differs : '?'.toUInt8 ≠ slash := by decide
  rcases split_concat_other path differs with ⟨closed, last, before, after⟩
  have longer : ¬ dotDot = last ++ ['?'.toUInt8] := by
    intro same
    have ends := congrArg List.getLast? same
    rw [getLast?_concat] at ends
    exact absurd ends (by decide)
  rw [before, after, dropLast_concat, mem_append, mem_singleton]
  simp only [longer, or_false]

section Parsing

variable (alloc : Bool) (args : Bytes) (flags : Nat)

theorem parse_without_args (noArgs : '?'.toUInt8 ∉ uri) :
    ngxHttpParseUnsafeUri alloc uri args flags =
      if uri = [] ∨ 0 ∈ uri ∨ dotDot ∈ uri.splitOn slash then gotoUnsafe uri args flags
      else finish alloc (decide ('%'.toUInt8 ∈ uri)) uri args flags := by
  have noShown : slash ∉ ([] : Bytes) := by simp
  have scanned := scan_raw_append noShown (fun _ => rfl) false noArgs
  rw [append_nil] at scanned
  have notArgs : ¬ uri.head? = some '?'.toUInt8 := fun isHead =>
    noArgs (mem_of_mem_head? isHead)
  unfold ngxHttpParseUnsafeUri
  rw [scanned]
  simp only [mem_split_iff dotDot uri, ← dots_ahead_iff, length_eq_zero_iff, notArgs, or_false,
    Bool.false_or]
  by_cases isEmpty : uri = []
  · simp [isEmpty]
  · by_cases ahead : dotsAhead uri = true
    · simp [ahead]
    · by_cases found : 0 ∈ uri ∨ dotDot ∈ (uri.splitOn slash).tail
      · simp [isEmpty, ahead, found]
      · simp [isEmpty, ahead, found, scanRaw]

theorem parse_with_args (noArgs : '?'.toUInt8 ∉ path) :
    ngxHttpParseUnsafeUri alloc (path ++ '?'.toUInt8 :: behind) args flags =
      if path = [] ∨ 0 ∈ path ∨ dotDot ∈ (path.splitOn slash).dropLast then
        gotoUnsafe (path ++ '?'.toUInt8 :: behind) args flags
      else finish alloc (decide ('%'.toUInt8 ∈ path)) path behind flags := by
  have scanned := scan_raw_append (by decide) (fun rest => sight_of_args behind) false
    noArgs
  have notEmpty : ¬ (path ++ '?'.toUInt8 :: behind).length = 0 := by simp
  have isCut : (path ++ '?'.toUInt8 :: behind).take
      ((path ++ '?'.toUInt8 :: behind).length - (behind.length + 1)) = path := by
    simp
  have atArgs : ∀ quoted, scanRaw quoted ('?'.toUInt8 :: behind) = .cut quoted behind :=
    fun _ => rfl
  have firstIs : (path ++ '?'.toUInt8 :: behind).head? = some '?'.toUInt8 ↔ path = [] := by
    cases path with
    | nil => simp
    | cons first rest => simpa using fun same : first = '?'.toUInt8 => noArgs (by simp [same])
  unfold ngxHttpParseUnsafeUri
  rw [scanned, sight_of_args]
  simp only [← dots_before_args, mem_split_iff dotDot (path ++ ['?'.toUInt8]), ← dots_ahead_iff,
    notEmpty, false_or, firstIs, Bool.false_or, atArgs]
  by_cases isEmpty : path = []
  · simp [isEmpty]
  · by_cases ahead : dotsAhead (path ++ ['?'.toUInt8]) = true
    · simp [ahead]
    · by_cases found : 0 ∈ path ∨ dotDot ∈ ((path ++ ['?'.toUInt8]).splitOn slash).tail
      · simp [isEmpty, ahead, found]
      · simp [ahead, found]

end Parsing

/-- The bytes before the first `?`, where there is one, end in a segment of two dots that
nothing else gives away: there is no escape and no NUL byte, and the other segments are fine. -/
def DotsBeforeArgs (uri : Bytes) : Prop :=
  let path := uri.takeWhile (· ≠ '?'.toUInt8)
  path ≠ uri ∧ '%'.toUInt8 ∉ path ∧ 0 ∉ path ∧ dotDot ∉ (path.splitOn slash).dropLast ∧
    (path.splitOn slash).getLast? = some dotDot

instance (uri : Bytes) : Decidable (DotsBeforeArgs uri) :=
  inferInstanceAs (Decidable (_ ∧ _ ∧ _ ∧ _ ∧ _))

theorem finish_safe {quoted : Bool}
    (passed : (finish alloc quoted uri args flags).code = .ngxOk)
    (isSafe : quoted = false → Safe uri) : Safe (finish alloc quoted uri args flags).uri := by
  cases quoted with
  | true => exact check_unescaped_safe passed
  | false => exact isSafe rfl

/-- A URI that passes the filter is safe, unless it is one of those that hide two dots
before the arguments. -/
theorem unsafe_uri_filtered (alloc : Bool) (uri args : Bytes) (flags : Nat) :
    ((ngxHttpParseUnsafeUri alloc uri args flags).code = .ngxOk →
        Safe (ngxHttpParseUnsafeUri alloc uri args flags).uri) ↔ ¬ DotsBeforeArgs uri := by
  by_cases hasArgs : '?'.toUInt8 ∈ uri
  · rcases eq_append_cons_of_mem hasArgs with ⟨path, behind, isUri, noArgs⟩
    have isPath : uri.takeWhile (· ≠ '?'.toUInt8) = path := by
      rw [isUri, takeWhile_append_of_pos (by
        intro byte mem
        simpa using fun same : byte = '?'.toUInt8 => noArgs (same ▸ mem))]
      simp
    have longer : path ≠ uri := by
      intro same
      have lengths := congrArg List.length (same.trans isUri)
      simp at lengths
    have hidden : DotsBeforeArgs uri ↔ '%'.toUInt8 ∉ path ∧ 0 ∉ path ∧
        dotDot ∉ (path.splitOn slash).dropLast ∧
        (path.splitOn slash).getLast? = some dotDot := by
      unfold DotsBeforeArgs
      simp only [isPath, ne_eq, longer, not_false_eq_true, true_and]
    rw [hidden, isUri, parse_with_args alloc args flags noArgs]
    constructor
    · rintro isSafe ⟨noPercent, noNul, others, last⟩
      have notEmpty : path ≠ [] := by
        rintro rfl
        exact absurd last (by decide)
      rw [if_neg (by simp [notEmpty, noNul, others]), decide_eq_false noPercent] at isSafe
      exact (isSafe rfl).2 (mem_of_mem_getLast? last)
    · intro shown passed
      split_ifs at passed ⊢ with bad
      · exact absurd passed (by simp [gotoUnsafe])
      · rcases not_or.mp bad with ⟨-, fine⟩
        rcases not_or.mp fine with ⟨noNul, others⟩
        apply finish_safe passed
        intro unquoted
        have noPercent := of_decide_eq_false unquoted
        apply And.intro noNul
        intro found
        have notLast : (path.splitOn slash).getLast? ≠ some dotDot := fun last =>
          shown ⟨noPercent, noNul, others, last⟩
        rw [← dropLast_append_getLast (splitOn_ne_nil slash path), mem_append,
          mem_singleton] at found
        rcases found with before | atEnd
        · exact others before
        · exact notLast (by rw [atEnd, getLast?_eq_getLast_of_ne_nil])
  · have isPath : uri.takeWhile (· ≠ '?'.toUInt8) = uri := by
      rw [takeWhile_eq_self_iff]
      intro byte mem
      simpa using fun same : byte = '?'.toUInt8 => hasArgs (same ▸ mem)
    apply iff_of_true
    · rw [parse_without_args alloc args flags hasArgs]
      intro passed
      split_ifs at passed ⊢ with bad
      · exact absurd passed (by simp [gotoUnsafe])
      · rcases not_or.mp bad with ⟨-, noNul⟩
        exact finish_safe passed fun _ => not_or.mp noNul
    · exact fun hidden => hidden.1 isPath

/-- `/..?x` passes, and its path is two dots up. -/
theorem dots_before_args_pass : (ngxHttpParseUnsafeUri true (textBytes "/..?x") [] 0).code = .ngxOk ∧
      ¬ Safe (ngxHttpParseUnsafeUri true (textBytes "/..?x") [] 0).uri := by
  unfold Safe
  decide

end ServerCore.NginxHttpUnsafeUri
