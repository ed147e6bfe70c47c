import ServerCore.NginxHttpParse
import ServerCore.PositionalText

/-!
# Socket addresses as text

`ngx_sock_ntop` with `ngx_inet6_ntop`, and `ngx_parse_addr_port` with
`ngx_parse_addr`, `ngx_inet_addr`, `ngx_inet6_addr` and `ngx_atoi`. A pointer
with a length is the list of the bytes. An address in network byte order is
given by its bytes in memory, so that `htonl` writes the bytes of a number from
the highest one on. The number formats of `ngx_sprintf` are those that occur
here.
-/

namespace ServerCore.NginxInet

open NginxHttpParse (Byte Bytes)
open PositionalText

/-- `in_addr_t` in network byte order. -/
structure InAddr where
  b0 : Byte
  b1 : Byte
  b2 : Byte
  b3 : Byte
  deriving DecidableEq

def htonl (addr : Nat) : InAddr :=
  ⟨UInt8.ofNat (addr >>> 24), UInt8.ofNat (addr >>> 16), UInt8.ofNat (addr >>> 8), UInt8.ofNat addr⟩

def ntohl (addr : InAddr) : Nat :=
  addr.b0.toNat * 2 ^ 24 + addr.b1.toNat * 2 ^ 16 + addr.b2.toNat * 2 ^ 8 + addr.b3.toNat

def inaddrNone : InAddr := ⟨255, 255, 255, 255⟩

abbrev In6Addr := { bytes : Bytes // bytes.length = 16 }

def colon : Byte := ':'.toUInt8

def dot : Byte := '.'.toUInt8

def isDigit (c : Byte) : Bool := '0'.toUInt8 ≤ c && c ≤ '9'.toUInt8

def digitOf (c : Byte) : Nat := c.toNat - '0'.toUInt8.toNat

def inetLoop (addr octet n : Nat) : Bytes → InAddr
  | [] => if n = 3 then htonl (((addr <<< 8) + octet) % 2 ^ 32) else inaddrNone
  | c :: p =>
    if isDigit c then
      let octet := octet * 10 + digitOf c
      if octet > 255 then inaddrNone else inetLoop addr octet n p
    else if c = dot then inetLoop (((addr <<< 8) + octet) % 2 ^ 32) 0 (n + 1) p
    else inaddrNone

def ngxInetAddr (text : Bytes) : InAddr := inetLoop 0 0 0 text

/-- The locals of `ngx_inet6_addr`. `addr` is what has been written, `zero` an offset in it,
and `digit` the text from that pointer on. -/
structure Inet6 where
  addr : Bytes := []
  zero : Option Nat := none
  digit : Option Bytes := none
  nibbles : Nat := 0
  word : Nat := 0
  n : Nat := 8

def wordBytes (word : Nat) : Bytes := [UInt8.ofNat (word >>> 8), UInt8.ofNat (word &&& 0xff)]

/-- The value of a hexadecimal digit of either case. -/
def hexValue (c : Byte) : Option Nat :=
  if isDigit c then some (digitOf c)
  else
    let c := c ||| 0x20
    if 'a'.toUInt8 ≤ c ∧ c ≤ 'f'.toUInt8 then some (c.toNat - 'a'.toUInt8.toNat + 10) else none

/-- The rest of an address in dotted form, which ends the loop. -/
def dottedRest (st : Inet6) : Option Inet6 :=
  match st.digit with
  | none => none
  | some text =>
    if st.n < 2 then none
    else
      let addr := ngxInetAddr text
      if addr = inaddrNone then none
      else
        let word := ntohl addr
        some { st with
          addr := st.addr ++ [UInt8.ofNat ((word >>> 24) &&& 0xff),
            UInt8.ofNat ((word >>> 16) &&& 0xff)]
          word := word
          n := st.n - 1 }

/-- `none` is `NGX_ERROR`. -/
def inet6Loop (st : Inet6) : Bytes → Option Inet6
  | [] => some st
  | c :: p =>
    if c = colon then
      if st.nibbles ≠ 0 then
        if st.n - 1 ≠ 0 then
          inet6Loop { st with
            digit := some p
            addr := st.addr ++ wordBytes st.word
            n := st.n - 1
            nibbles := 0
            word := 0 } p
        else none
      else if st.zero = none then
        inet6Loop { st with digit := some p, zero := some st.addr.length } p
      else none
    else if c = dot ∧ st.nibbles ≠ 0 then dottedRest st
    else if st.nibbles + 1 > 4 then none
    else
      match hexValue c with
      | some value =>
        inet6Loop { st with nibbles := st.nibbles + 1, word := st.word * 16 + value } p
      | none => none

/-- The part behind the loop: the last word is written, and the bytes from `zero` on are
moved to the end. -/
def inet6Finish (st : Inet6) : Option Bytes :=
  if st.nibbles = 0 ∧ st.zero = none then none
  else
    let addr := st.addr ++ wordBytes st.word
    let n := st.n - 1
    if n ≠ 0 then
      match st.zero with
      | some zero => some (addr.take zero ++ List.replicate (n * 2) 0 ++ addr.drop zero)
      | none => none
    else if st.zero = none then some addr
    else none

def ngxInet6Addr (text : Bytes) : Option Bytes :=
  if text.length = 0 then none
  else
    let p := if text.head? = some colon then text.tail else text
    (inet6Loop {} p).bind inet6Finish

def decimalDigit (value : Nat) : Byte := UInt8.ofNat (value + '0'.toUInt8.toNat)

def hexDigits : Bytes := "0123456789abcdef".toList.map Char.toUInt8

def hexDigit (value : Nat) : Byte := hexDigits.getD value 0

def ngxInt64Len : Nat := 20

/-- The format `%ud`, and `%d` of a number that is not negative. -/
def decimal (number : Nat) : Bytes := numeral 10 decimalDigit ngxInt64Len number

/-- The format `%xd`. -/
def hexadecimal (number : Nat) : Bytes := numeral 16 hexDigit ngxInt64Len number

def dotted (b0 b1 b2 b3 : Byte) : Bytes :=
  decimal b0.toNat ++ dot :: decimal b1.toNat ++ dot :: decimal b2.toNat ++ dot :: decimal b3.toNat

/-- The search for the longest run of zero words. `zero` and `last` are byte offsets, and
`none` is -1. -/
structure Runs where
  zero : Option Nat := none
  last : Option Nat := none
  max : Nat := 1
  n : Nat := 0

def closeRun (runs : Runs) : Runs :=
  if runs.max < runs.n then { runs with zero := runs.last, max := runs.n } else runs

def runTurn (p : Bytes) (runs : Runs) (i : Nat) : Runs :=
  if p.getD i 0 ≠ 0 ∨ p.getD (i + 1) 0 ≠ 0 then { closeRun runs with n := 0 }
  else { runs with n := runs.n + 1, last := if runs.n = 0 then some i else runs.last }

def findRun (p : Bytes) : Runs :=
  closeRun ([0, 2, 4, 6, 8, 10, 12, 14].foldl (runTurn p) {})

/-- The loop that prints the words before `n`, from the one at `i` on. Each turn goes at
least two bytes further, so that eight turns are enough. -/
def printWords (p : Bytes) (zero : Option Nat) (max n : Nat) : Nat → Nat → Bytes
  | 0, _ => []
  | turns + 1, i =>
    if i < n then
      if some i = zero then colon :: printWords p zero max n turns (i + (max - 1) * 2 + 2)
      else
        hexadecimal ((p.getD i 0).toNat * 256 + (p.getD (i + 1) 0).toNat) ++
          (if i < 14 then [colon] else []) ++ printWords p zero max n turns (i + 2)
    else []

def ngxInet6Addrstrlen : Nat := "ffff:ffff:ffff:ffff:ffff:ffff:255.255.255.255".length

def ngxInet6Ntop (p : Bytes) (len : Nat) : Bytes :=
  if len < ngxInet6Addrstrlen then []
  else
    let runs := findRun p
    let n :=
      if runs.zero = some 0 ∧
          ((runs.max = 5 ∧ p.getD 10 0 = 0xff ∧ p.getD 11 0 = 0xff) ∨ runs.max = 6 ∨
            (runs.max = 7 ∧ p.getD 14 0 ≠ 0 ∧ p.getD 15 0 ≠ 1)) then 12
      else 16
    (if runs.zero = some 0 then [colon] else []) ++ printWords p runs.zero runs.max n 8 0 ++
      (if n = 12 then dotted (p.getD 12 0) (p.getD 13 0) (p.getD 14 0) (p.getD 15 0) else [])

/-- The kinds of `struct sockaddr`. A name of the third one may be missing. -/
inductive Sockaddr where
  | inet (addr : InAddr) (port : Nat)
  | inet6 (addr : In6Addr) (port : Nat)
  | unix (path : Option Bytes)
  | other
  deriving DecidableEq

def textBytes (text : String) : Bytes := text.toList.map Char.toUInt8

/-- The text written; `port` is whether to write the port. -/
def ngxSockNtop (sa : Sockaddr) (len : Nat) (port : Bool) : Bytes :=
  match sa with
  | .inet addr number =>
    let text := dotted addr.b0 addr.b1 addr.b2 addr.b3
    if port then (text ++ colon :: decimal number).take len else text.take len
  | .inet6 addr number =>
    if port then
      textBytes "[" ++ ngxInet6Ntop addr.val len ++ textBytes "]:" ++ decimal number
    else ngxInet6Ntop addr.val len
  | .unix none => ((textBytes "unix:" ++ [0]).take len).dropLast
  | .unix (some path) => ((textBytes "unix:" ++ path ++ [0]).take len).dropLast
  | .other => []

inductive Parsed where
  | ngxOk (sockaddr : Sockaddr)
  | ngxDeclined
  | ngxError
  deriving DecidableEq

/-- The sixteen bytes of `inaddr6`, which are zero where the parser has not written. -/
def copyInaddr6 (bytes : Bytes) : In6Addr :=
  ⟨(bytes ++ List.replicate 16 0).take 16, by simp⟩

def ngxParseAddr (alloc : Bool) (text : Bytes) : Parsed :=
  let inaddr := ngxInetAddr text
  if inaddr ≠ inaddrNone then if alloc then .ngxOk (.inet inaddr 0) else .ngxError
  else
    match ngxInet6Addr text with
    | some bytes => if alloc then .ngxOk (.inet6 (copyInaddr6 bytes) 0) else .ngxError
    | none => .ngxDeclined

def maxIntT : Nat := 2 ^ 63 - 1

def atoiLoop (value : Nat) : Bytes → Option Nat
  | [] => some value
  | c :: line =>
    if !isDigit c then none
    else if value ≥ maxIntT / 10 ∧ (value > maxIntT / 10 ∨ digitOf c > maxIntT % 10) then none
    else atoiLoop (value * 10 + digitOf c) line

/-- `none` is `NGX_ERROR`. -/
def ngxAtoi (line : Bytes) : Option Nat := if line.length = 0 then none else atoiLoop 0 line

/-- The text from the first `c` on, empty where there is none. -/
def ngxStrlchr (text : Bytes) (c : Byte) : Bytes := text.dropWhile (· ≠ c)

def ngxInetSetPort (sa : Sockaddr) (port : Nat) : Sockaddr :=
  match sa with
  | .inet addr _ => .inet addr port
  | .inet6 addr _ => .inet6 addr port
  | sa => sa

/-- The part of `ngx_parse_addr_port` behind the search: `text` is followed by the text of
the port and by one byte more. -/
def parsePort (alloc : Bool) (text port : Bytes) : Parsed :=
  match ngxAtoi port with
  | none => .ngxDeclined
  | some number =>
    if number < 1 ∨ number > 65535 then .ngxDeclined
    else
      match ngxParseAddr alloc (text.take (text.length - (port.length + 1))) with
      | .ngxOk sockaddr => .ngxOk (ngxInetSetPort sockaddr number)
      | .ngxDeclined => .ngxDeclined
      | .ngxError => .ngxError

def ngxParseAddrPort (alloc : Bool) (text : Bytes) : Parsed :=
  match ngxParseAddr alloc text with
  | .ngxOk sockaddr => .ngxOk sockaddr
  | .ngxError => .ngxError
  | .ngxDeclined =>
    if text.head? = some '['.toUInt8 then
      match ngxStrlchr text ']'.toUInt8 with
      | _ :: second :: port =>
        if second ≠ colon then .ngxDeclined
        else parsePort alloc (text.tail.take (text.length - 2)) port
      | _ => .ngxDeclined
    else
      match ngxStrlchr text colon with
      | [] => .ngxDeclined
      | _ :: port => parsePort alloc text port

end ServerCore.NginxInet
