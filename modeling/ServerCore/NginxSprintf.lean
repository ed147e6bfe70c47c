import ServerCore.BoundedWriter
import ServerCore.NginxNumbers
import ServerCore.PositionalText

/-!
# Formatting

`ngx_vslprintf` and `ngx_sprintf_num`. Addresses are numbers, `buf` and what has been
written from it on are a writer, and the format is the list of its bytes with the
NUL behind them. A string argument is its bytes, or the memory from a pointer on;
reading behind the format or the memory, and an argument of another kind than the
conversion takes, give no result. The conversion `%f` is left out.
-/

namespace ServerCore.NginxSprintf

open NginxNumbers (Byte Bytes isDigit)
open BoundedWriter

inductive Arg where
  | integer (value : Int)
  | str (v : Bytes)
  | variableValue (vv : Bytes)
  | chars (p : Bytes)

abbrev Buffer := TextWriter Byte

def signedType (bits : Nat) (value : Int) : Int := value.bmod (2 ^ bits)

def unsignedType (bits : Nat) (value : Int) : Nat := (value % 2 ^ bits).toNat

def sizeMax : Nat := 2 ^ 64 - 1

def ngxInt64Len : Nat := 20

def ngxIntTLen : Nat := 20

def ngxAtomicTLen : Nat := 20

def decimalDigit (value : Nat) : Byte := (value + '0'.toNat).toUInt8

def hexTable : Bytes := "0123456789abcdef".toList.map Char.toUInt8

def upperHexTable : Bytes := "0123456789ABCDEF".toList.map Char.toUInt8

/-- What the loops over `ui64` leave in `temp`. -/
def digitsOf (ui64 hexadecimal : Nat) : Bytes :=
  if hexadecimal = 0 then PositionalText.numeral 10 decimalDigit ngxInt64Len ui64
  else if hexadecimal =
    1 then PositionalText.numeral 16 (fun value => hexTable.getD value 0) ngxInt64Len ui64
  else PositionalText.numeral 16 (fun value => upperHexTable.getD value 0) ngxInt64Len ui64

/-- The padding loop, where `width` exceeds `len` by the given number. -/
def padding (last : Nat) (zero : Byte) : Nat → Buffer → Buffer
  | 0, buf => buf
  | missing + 1, buf => if buf.position < last then padding last zero missing (buf.put zero) else buf

def ngxSprintfNum (last ui64 : Nat) (zero : Byte) (hexadecimal width : Nat) (buf : Buffer) : Buffer :=
  let p := digitsOf ui64 hexadecimal
  let buf := padding last zero (width - p.length) buf
  let len := if buf.position + p.length > last then last - buf.position else p.length
  buf.copy (p.take len)

structure Spec where
  zero : Byte
  width : Nat
  sign : Bool
  hex : Nat
  maxWidth : Bool
  slen : Nat

def readWidth (width : Nat) : Bytes → Nat × Bytes
  | [] => (width, [])
  | c :: fmt =>
    if isDigit c then readWidth ((width * 10 + (c.toNat - '0'.toNat)) % 2 ^ 64) fmt else (width, c :: fmt)

/-- The loop over the flags; a `.` with its digits ends it. -/
def readFlags (spec : Spec) : Bytes → List Arg → Option (Spec × Bytes × List Arg)
  | [], _ => none
  | c :: fmt, args =>
    if c = 'u'.toUInt8 then readFlags { spec with sign := false } fmt args
    else if c = 'm'.toUInt8 then readFlags { spec with maxWidth := true } fmt args
    else if c = 'X'.toUInt8 then readFlags { spec with hex := 2, sign := false } fmt args
    else if c = 'x'.toUInt8 then readFlags { spec with hex := 1, sign := false } fmt args
    else if c = '.'.toUInt8 then some (spec, fmt.dropWhile isDigit, args)
    else if c = '*'.toUInt8 then
      match args with
      | .integer slen :: args => readFlags { spec with slen := unsignedType 64 slen } fmt args
      | _ => none
    else some (spec, c :: fmt, args)

/-- What is read in front of the letter of a conversion. -/
def readSpec (fmt : Bytes) (args : List Arg) : Option (Spec × Bytes × List Arg) :=
  let zero := if fmt.head? = some '0'.toUInt8 then '0'.toUInt8 else ' '.toUInt8
  let (width, fmt) := readWidth 0 fmt
  readFlags ⟨zero, width, true, 0, false, sizeMax⟩ fmt args

/-- `sign`, `i64` and `ui64` with the rest of the specification, when the number is read. -/
structure Number where
  spec : Spec
  i64 : Int
  ui64 : Nat

def Spec.signedNumber (spec : Spec) (bits : Nat) (value : Int) : Number :=
  ⟨{ spec with sign := true }, signedType bits value, 0⟩

def Spec.eitherNumber (spec : Spec) (bits : Nat) (value : Int) : Number :=
  if spec.sign then ⟨spec, signedType bits value, 0⟩ else ⟨spec, 0, unsignedType bits value⟩

/-- The letters that take an integer and print it. -/
def readNumber (spec : Spec) (c : Byte) : Option (Int → Number) :=
  if c = 'O'.toUInt8 then some (spec.signedNumber 64)
  else if c = 'P'.toUInt8 then some (spec.signedNumber 32)
  else if c = 'T'.toUInt8 then some (spec.signedNumber 64)
  else if c = 'M'.toUInt8 then
    some (fun ms =>
      if signedType 64 ms = -1 then ⟨{ spec with sign := true }, -1, 0⟩
      else ⟨{ spec with sign := false }, 0, unsignedType 64 ms⟩)
  else if c = 'z'.toUInt8 then some (spec.eitherNumber 64)
  else if c = 'i'.toUInt8 then
    some ({ spec with width := if spec.maxWidth then ngxIntTLen else spec.width }.eitherNumber 64)
  else if c = 'd'.toUInt8 then some (spec.eitherNumber 32)
  else if c = 'l'.toUInt8 then some (spec.eitherNumber 64)
  else if c = 'D'.toUInt8 then some (spec.eitherNumber 32)
  else if c = 'L'.toUInt8 then some (spec.eitherNumber 64)
  else if c = 'A'.toUInt8 then
    some ({ spec with width := if spec.maxWidth then ngxAtomicTLen else spec.width }.eitherNumber 64)
  else if c = 'r'.toUInt8 then some (spec.signedNumber 64)
  else if c = 'p'.toUInt8 then
    some (fun p => ⟨{ spec with hex := 2, sign := false, zero := '0'.toUInt8, width := 16 }, 0,
      unsignedType 64 p⟩)
  else none

/-- The end of a conversion of a number. `-i64` of the least number has its own bits. -/
def printNumber (last : Nat) (number : Number) (buf : Buffer) : Buffer :=
  let spec := number.spec
  if spec.sign then
    if number.i64 < 0 then
      ngxSprintfNum last number.i64.natAbs spec.zero spec.hex spec.width (buf.put '-'.toUInt8)
    else ngxSprintfNum last number.i64.toNat spec.zero spec.hex spec.width buf
  else ngxSprintfNum last number.ui64 spec.zero spec.hex spec.width buf

/-- `ngx_cpymem` of the smaller of the room and the length, from memory that may end before. -/
def copyLen (last len : Nat) (p : Bytes) (buf : Buffer) : Option Buffer :=
  let len := min (last - buf.position) len
  if len ≤ p.length then some (buf.copy (p.take len)) else none

def copyChars (last : Nat) : Bytes → Buffer → Option Buffer
  | [], _ => none
  | c :: p, buf => if c ≠ 0 && buf.position < last then copyChars last p (buf.put c) else some buf

def convert (last : Nat) (spec : Spec) (c : Byte) (args : List Arg) (buf : Buffer) :
    Option (Buffer × List Arg) :=
  if c = 'V'.toUInt8 then
    match args with
    | .str v :: args => (copyLen last v.length v buf).map (·, args)
    | _ => none
  else if c = 'v'.toUInt8 then
    match args with
    | .variableValue vv :: args => (copyLen last vv.length vv buf).map (·, args)
    | _ => none
  else if c = 's'.toUInt8 then
    match args with
    | .chars p :: args =>
      if spec.slen = sizeMax then (copyChars last p buf).map (·, args)
      else (copyLen last spec.slen p buf).map (·, args)
    | _ => none
  else if c = 'f'.toUInt8 then none
  else if c = 'c'.toUInt8 then
    match args with
    | .integer d :: args => some (buf.put (unsignedType 8 d).toUInt8, args)
    | _ => none
  else if c = 'Z'.toUInt8 then some (buf.put 0, args)
  else if c = 'N'.toUInt8 then some (buf.put '\n'.toUInt8, args)
  else if c = '%'.toUInt8 then some (buf.put '%'.toUInt8, args)
  else
    match readNumber spec c with
    | some read =>
      match args with
      | .integer value :: args => some (printNumber last (read value) buf, args)
      | _ => none
    | none => some (buf.put c, args)

/-- The loop over the format; `fuel` is its length. -/
def formatLoop (last : Nat) : Nat → Bytes → List Arg → Buffer → Option Buffer
  | 0, _, _, _ => none
  | _, [], _, _ => none
  | fuel + 1, first :: fmt, args, buf =>
    if first ≠ 0 && buf.position < last then
      if first = '%'.toUInt8 then
        match readSpec fmt args with
        | some (spec, c :: fmt, args) => do
          let (buf, args) ← convert last spec c args buf
          formatLoop last fuel fmt args buf
        | _ => none
      else formatLoop last fuel fmt args (buf.put first)
    else some buf

/-- What is written from `buf` on, and the returned pointer. -/
def ngxVslprintf (buf last : Nat) (fmt : Bytes) (args : List Arg) : Option (Bytes × Nat) :=
  (formatLoop last fmt.length fmt args ⟨[], buf⟩).map (fun writer => (writer.written, writer.position))

def ngxSprintf (buf : Nat) (fmt : Bytes) (args : List Arg) : Option (Bytes × Nat) :=
  ngxVslprintf buf sizeMax fmt args

end ServerCore.NginxSprintf
