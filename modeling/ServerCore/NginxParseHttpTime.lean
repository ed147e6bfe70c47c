import Mathlib.Algebra.Group.Nat.Defs
import ServerCore.ExactReader
import ServerCore.NginxNumbers

/-!
# Reading a date of HTTP

`ngx_parse_http_time`. The pointer `p` is what is left of the value from it on, and a
read behind the value stops the run, as does the return of `NGX_ERROR`. The sum of the
seconds is a number of 64 bits without a sign, which is returned with one. The day 32
and the year 2038 are what the code gives these variables before they are read.
-/

namespace ServerCore.NginxParseHttpTime

open ExactReader (Reader)
open NginxNumbers (Byte Bytes isDigit ngxError)

inductive Stop where
  | outside
  | error
  deriving DecidableEq

/-- `no` stands for a value that is not read as one of the formats yet. -/
inductive Fmt where
  | no
  | rfc822
  | rfc850
  | isoc
  deriving DecidableEq

structure Fields where
  day : Nat
  month : Nat
  year : Nat
  hour : Nat
  min : Nat
  sec : Nat
  deriving DecidableEq

/-- `p` is the state. -/
abbrev Read := Reader Byte Stop

/-- `*(p + index)` -/
def byteAt (index : Nat) : Read Byte := fun p =>
  match p[index]? with
  | none => .error .outside
  | some c => .ok (c, p)

/-- `p += count` -/
def advance (count : Nat) : Read Unit := fun p => .ok ((), p.drop count)

/-- `end - p` -/
def left : Read Nat := fun p => .ok (p.length, p)

/-- The return of `NGX_ERROR` unless this holds. -/
def check (cond : Bool) : Read Unit := fun p => if cond then .ok ((), p) else .error .error

/-- `*p++`, which has to be this byte. -/
def expect (c : Byte) : Read Unit := do
  let first ← byteAt 0
  check (first == c)
  advance 1

/-- `*p++ - '0'` of a digit. -/
def digit : Read Nat := do
  let c ← byteAt 0
  check (isDigit c)
  advance 1
  return c.toNat - '0'.toNat

def twoDigits : Read Nat := do
  let tens ← digit
  let ones ← digit
  return tens * 10 + ones

def fourDigits : Read Nat := do
  let thousands ← digit
  let hundreds ← digit
  let tens ← digit
  let ones ← digit
  return thousands * 1000 + hundreds * 100 + tens * 10 + ones

/-- The first loop: the separator and the format that it stands for. -/
def findSeparator : Bytes → Fmt × Bytes
  | [] => (.no, [])
  | c :: p =>
    if c = ','.toUInt8 then (.no, c :: p)
    else if c = ' '.toUInt8 then (.isoc, c :: p)
    else findSeparator p

def skipWeekday : Read Fmt := fun p =>
  let (fmt, p) := findSeparator p
  .ok (fmt, (p.drop 1).dropWhile (· == ' '.toUInt8))

def dayFirst : Read (Fmt × Nat) := do
  let day ← twoDigits
  let c ← byteAt 0
  if c = ' '.toUInt8 then do
    let rest ← left
    check (18 ≤ rest)
    advance 1
    return (.rfc822, day)
  else if c = '-'.toUInt8 then do
    advance 1
    return (.rfc850, day)
  else do
    check false
    return (.no, day)

/-- The `switch` over the first byte of the month. -/
def monthSwitch : Read Nat := do
  let c ← byteAt 0
  if c = 'J'.toUInt8 then do
    let c1 ← byteAt 1
    if c1 = 'a'.toUInt8 then return 0
    else do
      let c2 ← byteAt 2
      return if c2 = 'n'.toUInt8 then 5 else 6
  else if c = 'F'.toUInt8 then return 1
  else if c = 'M'.toUInt8 then do
    let c2 ← byteAt 2
    return if c2 = 'r'.toUInt8 then 2 else 4
  else if c = 'A'.toUInt8 then do
    let c1 ← byteAt 1
    return if c1 = 'p'.toUInt8 then 3 else 7
  else if c = 'S'.toUInt8 then return 8
  else if c = 'O'.toUInt8 then return 9
  else if c = 'N'.toUInt8 then return 10
  else if c = 'D'.toUInt8 then return 11
  else do
    check false
    return 0

def monthName : Read Nat := do
  let month ← monthSwitch
  advance 3
  return month

def behindMonth (fmt : Fmt) : Read Unit :=
  match fmt with
  | .rfc822 => expect ' '.toUInt8
  | .rfc850 => expect '-'.toUInt8
  | _ => advance 1

def yearMiddle (fmt : Fmt) (year : Nat) : Read Nat :=
  match fmt with
  | .rfc822 => fourDigits
  | .rfc850 => do
    let year ← twoDigits
    return year + if year < 70 then 2000 else 1900
  | _ => return year

def secondDigit (day : Nat) : Read Nat := do
  let c ← byteAt 0
  if c = ' '.toUInt8 then return day
  else do
    let ones ← digit
    return day * 10 + ones

def dayMiddle (fmt : Fmt) (day : Nat) : Read Nat :=
  match fmt with
  | .isoc => do
    let c ← byteAt 0
    advance (if c = ' '.toUInt8 then 1 else 0)
    let day ← digit
    let day ← secondDigit day
    let rest ← left
    check (14 ≤ rest)
    return day
  | _ => return day

/-- The time of the day, with the space in front of it. -/
def clock : Read (Nat × Nat × Nat) := do
  expect ' '.toUInt8
  let hour ← twoDigits
  expect ':'.toUInt8
  let min ← twoDigits
  expect ':'.toUInt8
  let sec ← twoDigits
  return (hour, min, sec)

def yearLast (fmt : Fmt) (year : Nat) : Read Nat :=
  match fmt with
  | .isoc => do
    expect ' '.toUInt8
    fourDigits
  | _ => return year

def mday : List Nat := [31, 28, 31, 30, 31, 30, 31, 31, 30, 31, 30, 31]

def inRange (fields : Fields) : Bool :=
  !(fields.hour > 23 || fields.min > 59 || fields.sec > 59) &&
    if fields.day = 29 ∧ fields.month = 1 then
      !(fields.year % 4 != 0 || (fields.year % 100 == 0 && fields.year % 400 != 0))
    else !(fields.day > mday.getD fields.month 0)

/-- From the month on; the day and the year are already there in two formats each. -/
def readRest (fmt : Fmt) (day : Nat) : Read Fields := do
  let month ← monthName
  behindMonth fmt
  let year ← yearMiddle fmt 2038
  let day ← dayMiddle fmt day
  let time ← clock
  let year ← yearLast fmt year
  return ⟨day, month, year, time.1, time.2.1, time.2.2⟩

def dateBody (fmt : Fmt) : Read Fields := do
  let first ← (if fmt ≠ .isoc then dayFirst else return (fmt, 32))
  readRest first.1 first.2

def readFields : Read Fields := do
  let fmt ← skipWeekday
  let rest ← left
  check (18 ≤ rest)
  let fields ← dateBody fmt
  check (inRange fields)
  return fields

def wrapped (value : Int) : Int := value % 2 ^ 64

/-- The sum, with the year that begins with March. -/
def timeOf (fields : Fields) : Int :=
  let month : Int := fields.month - 1
  let year : Int := if month ≤ 0 then wrapped (fields.year - 1) else fields.year
  let month := if month ≤ 0 then month + 12 else month
  wrapped ((365 * year + year / 4 - year / 100 + year / 400 + (367 * month / 12 - 30) + fields.day - 1
    - 719527 + 31 + 28) * 86400 + fields.hour * 3600 + fields.min * 60 + fields.sec)

/-- `none` if the run reads behind the value. -/
def ngxParseHttpTime (value : Bytes) : Option Int :=
  match readFields.run value with
  | .error .outside => none
  | .error .error => some ngxError
  | .ok (fields, _) => some ((timeOf fields).bmod (2 ^ 64))

end ServerCore.NginxParseHttpTime
