import Mathlib.Algebra.Group.Nat.Defs
import ServerCore.ResumableScan

/-!
# The request line and header line parsers of nginx

`ngx_http_parse_request_line` and `ngx_http_parse_header_line`, one definition
for each state of their switches. Pointers into the buffer are offsets from its
start, and NULL is `none`. A parser works on a local copy of `r->state` (and of
`r->header_hash` and `r->lowcase_index`) that it stores back only on some of
its returns, so these are kept apart from the fields that it writes at once.
Falling through to the next case is a call of it with the same byte, and so is
`p--` at the end of a case, because the loop's `p++` brings the byte back. The
branches for `NGX_WIN32` are left out.
-/

namespace ServerCore.NginxHttpParse

open ResumableScan

abbrev Byte := UInt8

abbrev Bytes := List Byte

def cr : Byte := '\r'.toUInt8

def lf : Byte := '\n'.toUInt8

/-- The bytes at `start` are those of `text`. -/
def ngxStrCmp (input : Nat → Byte) (start : Nat) (text : String) : Bool :=
  text.toList.zipIdx.all fun entry => input (start + entry.2) == entry.1.toUInt8

inductive ReturnCode where
  | ngxOk
  | ngxAgain
  | ngxHttpParseInvalidMethod
  | ngxHttpParseInvalidRequest
  | ngxHttpParseInvalid09Method
  | ngxHttpParseHeaderDone
  | ngxHttpParseInvalidHeader
  deriving DecidableEq

inductive HttpMethod where
  | unknown
  | get
  | head
  | post
  | put
  | delete
  | mkcol
  | copy
  | move
  | options
  | propfind
  | proppatch
  | lock
  | unlock
  | patch
  | trace
  deriving DecidableEq

/-- `b->pos` and the bytes from `b->start` to `b->last`. -/
structure Buf where
  pos : Nat
  data : Bytes

namespace RequestLine

inductive State where
  | swStart
  | swMethod
  | swSpacesBeforeUri
  | swSchema
  | swSchemaSlash
  | swSchemaSlashSlash
  | swHostStart
  | swHost
  | swHostEnd
  | swHostIpLiteral
  | swPort
  | swHostHttp09
  | swAfterSlashInUri
  | swCheckUri
  | swCheckUriHttp09
  | swUri
  | swHttp09
  | swHttpH
  | swHttpHT
  | swHttpHTT
  | swHttpHTTP
  | swFirstMajorDigit
  | swMajorDigit
  | swFirstMinorDigit
  | swMinorDigit
  | swSpacesAfterDigit
  | swAlmostDone
  deriving DecidableEq

/-- The fields of `ngx_http_request_t` that the parser writes through `r`. -/
structure Fields where
  method : HttpMethod := .unknown
  requestStart : Option Nat := none
  requestEnd : Option Nat := none
  methodEnd : Option Nat := none
  schemaStart : Option Nat := none
  schemaEnd : Option Nat := none
  hostStart : Option Nat := none
  hostEnd : Option Nat := none
  portEnd : Option Nat := none
  uriStart : Option Nat := none
  uriEnd : Option Nat := none
  uriExt : Option Nat := none
  argsStart : Option Nat := none
  httpProtocol : Option Nat := none
  complexUri : Bool := false
  quotedUri : Bool := false
  plusInUri : Bool := false
  spaceInUri : Bool := false
  httpMajor : Nat := 0
  httpMinor : Nat := 0
  httpVersion : Nat := 0
  deriving DecidableEq

structure Request where
  state : State := .swStart
  fields : Fields := {}

/-- How the loop is left before the end of the buffer: by `goto done` or by one
of the two error returns. -/
inductive Stop where
  | done (fields : Fields)
  | invalidMethod (fields : Fields)
  | invalidRequest (fields : Fields)

abbrev Outcome := Verdict Request Stop

def usual : List Nat :=
  [0xffffdbfe, 0x7fff37d6, 0xffffffff, 0xffffffff, 0xffffffff, 0xffffffff, 0xffffffff, 0xffffffff]

def isUsual (ch : Byte) : Bool :=
  usual.getD (ch.toNat >>> 5) 0 &&& (1 <<< (ch.toNat &&& 0x1f)) != 0

def isLetter (ch : Byte) : Bool :=
  'a'.toUInt8 ≤ ch ||| 0x20 && ch ||| 0x20 ≤ 'z'.toUInt8

def isDigit (ch : Byte) : Bool := '0'.toUInt8 ≤ ch && ch ≤ '9'.toUInt8

def isMethodChar (ch : Byte) : Bool :=
  !((ch < 'A'.toUInt8 || ch > 'Z'.toUInt8) && ch != '_'.toUInt8 && ch != '-'.toUInt8)

def go (state : State) (r : Fields) : Outcome := .more ⟨state, r⟩

def done (r : Fields) : Outcome := .stop (.done r)

def invalidMethod (r : Fields) : Outcome := .stop (.invalidMethod r)

def invalidRequest (r : Fields) : Outcome := .stop (.invalidRequest r)

def swStart (r : Fields) (p : Nat) (ch : Byte) : Outcome :=
  let r := { r with requestStart := some p }
  if ch = cr ∨ ch = lf then go .swStart r
  else if !isMethodChar ch then invalidMethod r
  else go .swMethod r

def methodOf (input : Nat → Byte) (m length : Nat) (method : HttpMethod) : HttpMethod :=
  if length = 3 then
    if ngxStrCmp input m "GET " then .get
    else if ngxStrCmp input m "PUT " then .put
    else method
  else if length = 4 then
    if input (m + 1) = 'O'.toUInt8 then
      if ngxStrCmp input m "POST" then .post
      else if ngxStrCmp input m "COPY" then .copy
      else if ngxStrCmp input m "MOVE" then .move
      else if ngxStrCmp input m "LOCK" then .lock
      else method
    else if ngxStrCmp input m "HEAD" then .head
    else method
  else if length = 5 then
    if ngxStrCmp input m "MKCOL" then .mkcol
    else if ngxStrCmp input m "PATCH" then .patch
    else if ngxStrCmp input m "TRACE" then .trace
    else method
  else if length = 6 then
    if ngxStrCmp input m "DELETE" then .delete
    else if ngxStrCmp input m "UNLOCK" then .unlock
    else method
  else if length = 7 then
    if ngxStrCmp input m "OPTIONS " then .options else method
  else if length = 8 then
    if ngxStrCmp input m "PROPFIND" then .propfind else method
  else if length = 9 then
    if ngxStrCmp input m "PROPPATCH" then .proppatch else method
  else method

def swMethod (input : Nat → Byte) (r : Fields) (p : Nat) (ch : Byte) : Outcome :=
  if ch = ' '.toUInt8 then
    let m := r.requestStart.getD 0
    go .swSpacesBeforeUri
      { r with methodEnd := some (p - 1), method := methodOf input m (p - m) r.method }
  else if !isMethodChar ch then invalidMethod r
  else go .swMethod r

section

variable (r : Fields) (p : Nat) (ch : Byte)

def swSpacesBeforeUri : Outcome :=
  if ch = '/'.toUInt8 then go .swAfterSlashInUri { r with uriStart := some p }
  else if isLetter ch then go .swSchema { r with schemaStart := some p }
  else if ch = ' '.toUInt8 then go .swSpacesBeforeUri r
  else invalidRequest r

def swSchema : Outcome :=
  if isLetter ch then go .swSchema r
  else if ch = ':'.toUInt8 then go .swSchemaSlash { r with schemaEnd := some p }
  else invalidRequest r

def expect (wanted : Char) (next : State) (r : Fields) (ch : Byte) : Outcome :=
  if ch = wanted.toUInt8 then go next r else invalidRequest r

def swSchemaSlash : Outcome := expect '/' .swSchemaSlashSlash r ch

def swSchemaSlashSlash : Outcome := expect '/' .swHostStart r ch

/-- The single slash of the schema serves as the URI of a request without one. -/
def slashOfSchema (r : Fields) : Fields :=
  { r with uriStart := r.schemaEnd.map (· + 1), uriEnd := r.schemaEnd.map (· + 2) }

def swHostEnd : Outcome :=
  let r := { r with hostEnd := some p }
  if ch = ':'.toUInt8 then go .swPort r
  else if ch = '/'.toUInt8 then go .swAfterSlashInUri { r with uriStart := some p }
  else if ch = ' '.toUInt8 then go .swHostHttp09 (slashOfSchema r)
  else invalidRequest r

def swHost : Outcome :=
  if isLetter ch then go .swHost r
  else if isDigit ch || ch == '.'.toUInt8 || ch == '-'.toUInt8 then go .swHost r
  else swHostEnd r p ch

def swHostStart : Outcome :=
  let r := { r with hostStart := some p }
  if ch = '['.toUInt8 then go .swHostIpLiteral r else swHost r p ch

def swHostIpLiteral : Outcome :=
  if isDigit ch then go .swHostIpLiteral r
  else if isLetter ch then go .swHostIpLiteral r
  else if ch = ':'.toUInt8 then go .swHostIpLiteral r
  else if ch = ']'.toUInt8 then go .swHostEnd r
  else if "-._~".toList.any fun wanted => ch == wanted.toUInt8 then go .swHostIpLiteral r
  else if "!$&'()*+,;=".toList.any fun wanted => ch == wanted.toUInt8 then go .swHostIpLiteral r
  else invalidRequest r

def swPort : Outcome :=
  if isDigit ch then go .swPort r
  else if ch = '/'.toUInt8 then
    go .swAfterSlashInUri { r with portEnd := some p, uriStart := some p }
  else if ch = ' '.toUInt8 then go .swHostHttp09 (slashOfSchema { r with portEnd := some p })
  else invalidRequest r

/-- The spaces between the URI and the protocol: `stay` goes on with them and
`other` handles a byte that belongs to neither. -/
def beforeProtocol (stay : State) (other : Fields → Outcome) (r : Fields) (p : Nat) (ch : Byte) :
    Outcome :=
  if ch = ' '.toUInt8 then go stay r
  else if ch = cr then go .swAlmostDone { r with httpMinor := 9 }
  else if ch = lf then done { r with httpMinor := 9 }
  else if ch = 'H'.toUInt8 then go .swHttpH { r with httpProtocol := some p }
  else other r

def swHostHttp09 : Outcome :=
  beforeProtocol .swHostHttp09 invalidRequest r p ch

def swAfterSlashInUri : Outcome :=
  if isUsual ch then go .swCheckUri r
  else if ch = ' '.toUInt8 then go .swCheckUriHttp09 { r with uriEnd := some p }
  else if ch = cr then go .swAlmostDone { r with uriEnd := some p, httpMinor := 9 }
  else if ch = lf then done { r with uriEnd := some p, httpMinor := 9 }
  else if ch = '.'.toUInt8 then go .swUri { r with complexUri := true }
  else if ch = '%'.toUInt8 then go .swUri { r with quotedUri := true }
  else if ch = '/'.toUInt8 then go .swUri { r with complexUri := true }
  else if ch = '?'.toUInt8 then go .swUri { r with argsStart := some (p + 1) }
  else if ch = '#'.toUInt8 then go .swUri { r with complexUri := true }
  else if ch = '+'.toUInt8 then go .swAfterSlashInUri { r with plusInUri := true }
  else if ch = 0 then invalidRequest r
  else go .swCheckUri r

def swCheckUri : Outcome :=
  if isUsual ch then go .swCheckUri r
  else if ch = '/'.toUInt8 then go .swAfterSlashInUri { r with uriExt := none }
  else if ch = '.'.toUInt8 then go .swCheckUri { r with uriExt := some (p + 1) }
  else if ch = ' '.toUInt8 then go .swCheckUriHttp09 { r with uriEnd := some p }
  else if ch = cr then go .swAlmostDone { r with uriEnd := some p, httpMinor := 9 }
  else if ch = lf then done { r with uriEnd := some p, httpMinor := 9 }
  else if ch = '%'.toUInt8 then go .swUri { r with quotedUri := true }
  else if ch = '?'.toUInt8 then go .swUri { r with argsStart := some (p + 1) }
  else if ch = '#'.toUInt8 then go .swUri { r with complexUri := true }
  else if ch = '+'.toUInt8 then go .swCheckUri { r with plusInUri := true }
  else if ch = 0 then invalidRequest r
  else go .swCheckUri r

def swCheckUriHttp09 : Outcome :=
  beforeProtocol .swCheckUriHttp09 (fun r => swCheckUri { r with spaceInUri := true } p ch) r p ch

def swUri : Outcome :=
  if isUsual ch then go .swUri r
  else if ch = ' '.toUInt8 then go .swHttp09 { r with uriEnd := some p }
  else if ch = cr then go .swAlmostDone { r with uriEnd := some p, httpMinor := 9 }
  else if ch = lf then done { r with uriEnd := some p, httpMinor := 9 }
  else if ch = '#'.toUInt8 then go .swUri { r with complexUri := true }
  else if ch = 0 then invalidRequest r
  else go .swUri r

def swHttp09 : Outcome :=
  beforeProtocol .swHttp09 (fun r => swUri { r with spaceInUri := true } p ch) r p ch

def swHttpH : Outcome := expect 'T' .swHttpHT r ch

def swHttpHT : Outcome := expect 'T' .swHttpHTT r ch

def swHttpHTT : Outcome := expect 'P' .swHttpHTTP r ch

def swHttpHTTP : Outcome := expect '/' .swFirstMajorDigit r ch

def digitOf (ch : Byte) : Nat := ch.toNat - '0'.toNat

def swFirstMajorDigit : Outcome :=
  if ch < '1'.toUInt8 ∨ ch > '9'.toUInt8 then invalidRequest r
  else go .swMajorDigit { r with httpMajor := digitOf ch }

def swMajorDigit : Outcome :=
  if ch = '.'.toUInt8 then go .swFirstMinorDigit r
  else if !isDigit ch then invalidRequest r
  else if r.httpMajor > 99 then invalidRequest r
  else go .swMajorDigit { r with httpMajor := r.httpMajor * 10 + digitOf ch }

def swFirstMinorDigit : Outcome :=
  if !isDigit ch then invalidRequest r
  else go .swMinorDigit { r with httpMinor := digitOf ch }

def swMinorDigit : Outcome :=
  if ch = cr then go .swAlmostDone r
  else if ch = lf then done r
  else if ch = ' '.toUInt8 then go .swSpacesAfterDigit r
  else if !isDigit ch then invalidRequest r
  else if r.httpMinor > 99 then invalidRequest r
  else go .swMinorDigit { r with httpMinor := r.httpMinor * 10 + digitOf ch }

def swSpacesAfterDigit : Outcome :=
  if ch = ' '.toUInt8 then go .swSpacesAfterDigit r
  else if ch = cr then go .swAlmostDone r
  else if ch = lf then done r
  else invalidRequest r

def swAlmostDone : Outcome :=
  let r := { r with requestEnd := some (p - 1) }
  if ch = lf then done r else invalidRequest r

end

/-- The body of the loop for the byte `ch` at `p`. -/
def step (input : Nat → Byte) (r : Request) (p : Nat) (ch : Byte) : Outcome :=
  match r.state with
  | .swStart => swStart r.fields p ch
  | .swMethod => swMethod input r.fields p ch
  | .swSpacesBeforeUri => swSpacesBeforeUri r.fields p ch
  | .swSchema => swSchema r.fields p ch
  | .swSchemaSlash => swSchemaSlash r.fields ch
  | .swSchemaSlashSlash => swSchemaSlashSlash r.fields ch
  | .swHostStart => swHostStart r.fields p ch
  | .swHost => swHost r.fields p ch
  | .swHostEnd => swHostEnd r.fields p ch
  | .swHostIpLiteral => swHostIpLiteral r.fields ch
  | .swPort => swPort r.fields p ch
  | .swHostHttp09 => swHostHttp09 r.fields p ch
  | .swAfterSlashInUri => swAfterSlashInUri r.fields p ch
  | .swCheckUri => swCheckUri r.fields p ch
  | .swCheckUriHttp09 => swCheckUriHttp09 r.fields p ch
  | .swUri => swUri r.fields p ch
  | .swHttp09 => swHttp09 r.fields p ch
  | .swHttpH => swHttpH r.fields ch
  | .swHttpHT => swHttpHT r.fields ch
  | .swHttpHTT => swHttpHTT r.fields ch
  | .swHttpHTTP => swHttpHTTP r.fields ch
  | .swFirstMajorDigit => swFirstMajorDigit r.fields ch
  | .swMajorDigit => swMajorDigit r.fields ch
  | .swFirstMinorDigit => swFirstMinorDigit r.fields ch
  | .swMinorDigit => swMinorDigit r.fields ch
  | .swSpacesAfterDigit => swSpacesAfterDigit r.fields ch
  | .swAlmostDone => swAlmostDone r.fields p ch

/-- A call's return code, and the request and `b->pos` after it. -/
structure Parsed where
  rc : ReturnCode
  r : Request
  pos : Nat

/-- The code behind the label `done`, reached at `p`. -/
def finishDone (r : Fields) (p : Nat) : Parsed :=
  let requestEnd := if r.requestEnd = none then some p else r.requestEnd
  let httpVersion := r.httpMajor * 1000 + r.httpMinor
  let r := { r with requestEnd := requestEnd, httpVersion := httpVersion }
  if r.httpVersion = 9 ∧ r.method ≠ .get then
    ⟨.ngxHttpParseInvalid09Method, ⟨.swStart, r⟩, p + 1⟩
  else ⟨.ngxOk, ⟨.swStart, r⟩, p + 1⟩

/-- The end of a call that started with `r` and `b->pos`. An error return
stores neither the local state nor the position. -/
def conclude (r : Request) (pos : Nat) : Outcome × Nat → Parsed
  | (.more saved, p) => ⟨.ngxAgain, saved, p⟩
  | (.stop (.done fields), p) => finishDone fields p
  | (.stop (.invalidMethod fields), _) =>
    ⟨.ngxHttpParseInvalidMethod, { r with fields := fields }, pos⟩
  | (.stop (.invalidRequest fields), _) =>
    ⟨.ngxHttpParseInvalidRequest, { r with fields := fields }, pos⟩

def ngxHttpParseRequestLine (r : Request) (b : Buf) : Parsed :=
  conclude r b.pos (scanRest step 0 r b.pos b.data)

/-- The buffer as it stands, then piece after piece as long as the parser
returns `NGX_AGAIN`. -/
def feedPieces (r : Request) (b : Buf) : List Bytes → Parsed
  | [] => ngxHttpParseRequestLine r b
  | piece :: pieces =>
    let parsed := ngxHttpParseRequestLine r b
    if parsed.rc = .ngxAgain then feedPieces parsed.r ⟨parsed.pos, b.data ++ piece⟩ pieces
    else parsed

end RequestLine

namespace HeaderLine

inductive State where
  | swStart
  | swName
  | swSpaceBeforeValue
  | swValue
  | swSpaceAfterValue
  | swIgnoreLine
  | swAlmostDone
  | swHeaderAlmostDone
  deriving DecidableEq

/-- The fields of `ngx_http_request_t` that the parser writes through `r`.
`upstream` is only read: whether `r->upstream` is not NULL. -/
structure Fields where
  upstream : Bool := false
  headerNameStart : Option Nat := none
  headerNameEnd : Option Nat := none
  headerStart : Option Nat := none
  headerEnd : Option Nat := none
  invalidHeader : Bool := false
  lowcaseHeader : Bytes := List.replicate 32 0
  deriving DecidableEq

/-- `headerHash` and `lowcaseIndex` are `hash` and `i` inside the loop. -/
structure Request where
  state : State := .swStart
  headerHash : Nat := 0
  lowcaseIndex : Nat := 0
  fields : Fields := {}
  deriving DecidableEq

inductive Stop where
  | done (r : Request)
  | headerDone (fields : Fields)
  | error (fields : Fields)
  deriving DecidableEq

abbrev Outcome := Verdict Request Stop

def ngxHttpLcHeaderLen : Nat := 32

def ngxHash (key : Nat) (c : Byte) : Nat := (key * 31 + c.toNat) % 2 ^ 64

/-- The table of the bytes allowed in names, in lower case; zero elsewhere. -/
def lowcase (ch : Byte) : Byte :=
  if ch = '-'.toUInt8 then ch
  else if '0'.toUInt8 ≤ ch ∧ ch ≤ '9'.toUInt8 then ch
  else if 'A'.toUInt8 ≤ ch ∧ ch ≤ 'Z'.toUInt8 then ch ||| 0x20
  else if 'a'.toUInt8 ≤ ch ∧ ch ≤ 'z'.toUInt8 then ch
  else 0

def go (state : State) (r : Request) (fields : Fields) : Outcome :=
  .more { r with state := state, fields := fields }

def done (r : Request) (fields : Fields) : Outcome := .stop (.done { r with fields := fields })

def invalidHeader (fields : Fields) : Outcome := .stop (.error fields)

def firstByte (fields : Fields) (c : Byte) : Outcome :=
  .more {
    state := .swName
    headerHash := ngxHash 0 c
    lowcaseIndex := 1
    fields := { fields with lowcaseHeader := fields.lowcaseHeader.set 0 c } }

def nextByte (r : Request) (c : Byte) : Outcome :=
  .more {
    state := .swName
    headerHash := ngxHash r.headerHash c
    lowcaseIndex := (r.lowcaseIndex + 1) &&& (ngxHttpLcHeaderLen - 1)
    fields := { r.fields with lowcaseHeader := r.fields.lowcaseHeader.set r.lowcaseIndex c } }

section

variable (allowUnderscores : Bool)

def swStart (r : Request) (p : Nat) (ch : Byte) : Outcome :=
  let fields := { r.fields with headerNameStart := some p, invalidHeader := false }
  if ch = cr then go .swHeaderAlmostDone r { fields with headerEnd := some p }
  else if ch = lf then .stop (.headerDone { fields with headerEnd := some p })
  else if lowcase ch ≠ 0 then firstByte fields (lowcase ch)
  else if ch = '_'.toUInt8 then
    if allowUnderscores then firstByte fields ch
    else go .swName r { fields with invalidHeader := true }
  else if ch = 0 then invalidHeader fields
  else go .swName r { fields with invalidHeader := true }

def swName (input : Nat → Byte) (r : Request) (p : Nat) (ch : Byte) : Outcome :=
  let fields := r.fields
  if lowcase ch ≠ 0 then nextByte r (lowcase ch)
  else if ch = '_'.toUInt8 then
    if allowUnderscores then nextByte r ch
    else go .swName r { fields with invalidHeader := true }
  else if ch = ':'.toUInt8 then go .swSpaceBeforeValue r { fields with headerNameEnd := some p }
  else if ch = cr then
    go .swAlmostDone r
      { fields with headerNameEnd := some p, headerStart := some p, headerEnd := some p }
  else if ch = lf then
    done r { fields with headerNameEnd := some p, headerStart := some p, headerEnd := some p }
  else if ch = '/'.toUInt8 ∧ fields.upstream = true ∧ p - fields.headerNameStart.getD 0 = 4 ∧
      ngxStrCmp input (fields.headerNameStart.getD 0) "HTTP" = true then go .swIgnoreLine r fields
  else if ch = 0 then invalidHeader fields
  else go .swName r { fields with invalidHeader := true }

end

section

variable (r : Request) (p : Nat) (ch : Byte)

def swSpaceBeforeValue : Outcome :=
  let fields := r.fields
  if ch = ' '.toUInt8 then go .swSpaceBeforeValue r fields
  else if ch = cr then go .swAlmostDone r { fields with headerStart := some p, headerEnd := some p }
  else if ch = lf then done r { fields with headerStart := some p, headerEnd := some p }
  else if ch = 0 then invalidHeader fields
  else go .swValue r { fields with headerStart := some p }

def swValue : Outcome :=
  let fields := r.fields
  if ch = ' '.toUInt8 then go .swSpaceAfterValue r { fields with headerEnd := some p }
  else if ch = cr then go .swAlmostDone r { fields with headerEnd := some p }
  else if ch = lf then done r { fields with headerEnd := some p }
  else if ch = 0 then invalidHeader fields
  else go .swValue r fields

def swSpaceAfterValue : Outcome :=
  if ch = ' '.toUInt8 then go .swSpaceAfterValue r r.fields
  else if ch = cr then go .swAlmostDone r r.fields
  else if ch = lf then done r r.fields
  else if ch = 0 then invalidHeader r.fields
  else go .swValue r r.fields

def swIgnoreLine : Outcome :=
  if ch = lf then go .swStart r r.fields else go .swIgnoreLine r r.fields

def swAlmostDone : Outcome :=
  if ch = lf then done r r.fields
  else if ch = cr then go .swAlmostDone r r.fields
  else invalidHeader r.fields

def swHeaderAlmostDone : Outcome :=
  if ch = lf then .stop (.headerDone r.fields) else invalidHeader r.fields

end

/-- The body of the loop for the byte `ch` at `p`. -/
def step (allowUnderscores : Bool) (input : Nat → Byte) (r : Request) (p : Nat) (ch : Byte) :
    Outcome :=
  match r.state with
  | .swStart => swStart allowUnderscores r p ch
  | .swName => swName allowUnderscores input r p ch
  | .swSpaceBeforeValue => swSpaceBeforeValue r p ch
  | .swValue => swValue r p ch
  | .swSpaceAfterValue => swSpaceAfterValue r ch
  | .swIgnoreLine => swIgnoreLine r ch
  | .swAlmostDone => swAlmostDone r ch
  | .swHeaderAlmostDone => swHeaderAlmostDone r ch

structure Parsed where
  rc : ReturnCode
  r : Request
  pos : Nat
  deriving DecidableEq

/-- The end of a call that started with `r` and `b->pos`. The label
`header_done` stores neither the hash nor the index, and an error return
stores no local at all. -/
def conclude (r : Request) (pos : Nat) : Outcome × Nat → Parsed
  | (.more saved, p) => ⟨.ngxAgain, saved, p⟩
  | (.stop (.done saved), p) => ⟨.ngxOk, { saved with state := .swStart }, p + 1⟩
  | (.stop (.headerDone fields), p) =>
    ⟨.ngxHttpParseHeaderDone, { r with state := .swStart, fields := fields }, p + 1⟩
  | (.stop (.error fields), _) => ⟨.ngxHttpParseInvalidHeader, { r with fields := fields }, pos⟩

def ngxHttpParseHeaderLine (r : Request) (b : Buf) (allowUnderscores : Bool) : Parsed :=
  conclude r b.pos (scanRest (step allowUnderscores) 0 r b.pos b.data)

def feedPieces (allowUnderscores : Bool) (r : Request) (b : Buf) : List Bytes → Parsed
  | [] => ngxHttpParseHeaderLine r b allowUnderscores
  | piece :: pieces =>
    let parsed := ngxHttpParseHeaderLine r b allowUnderscores
    if parsed.rc = .ngxAgain then
      feedPieces allowUnderscores parsed.r ⟨parsed.pos, b.data ++ piece⟩ pieces
    else parsed

end HeaderLine

end ServerCore.NginxHttpParse
