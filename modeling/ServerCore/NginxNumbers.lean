import Mathlib.Algebra.Group.Int.Defs
import Mathlib.Data.List.Basic

/-!
# Numbers in configurations and requests

`ngx_atoi`, `ngx_atosz`, `ngx_atoof`, `ngx_atotm`, `ngx_hextoi`, `ngx_atofp`,
`ngx_parse_size` and `ngx_parse_offset`. A pointer with a length is the list of
the bytes. The signed types of the code have 64 bits; an operation on them whose
result does not fit has no result here.
-/

namespace ServerCore.NginxNumbers

abbrev Byte := UInt8

abbrev Bytes := List Byte

def ngxError : Int := -1

def ngxMaxIntTValue : Int := 9223372036854775807

def ngxMaxSizeTValue : Int := 9223372036854775807

def ngxMaxOffTValue : Int := 9223372036854775807

def ngxMaxTimeTValue : Int := 9223372036854775807

/-- The result of a signed operation, `none` where it overflows. -/
def signed (result : Int) : Option Int :=
  if -2 ^ 63 ≤ result ∧ result < 2 ^ 63 then some result else none

def isDigit (c : Byte) : Bool := '0'.toUInt8 ≤ c && c ≤ '9'.toUInt8

def digitOf (c : Byte) : Int := c.toNat - '0'.toNat

/-- The test in front of `value = value * 10 + (*line - '0')`. -/
def cutOff (max value : Int) (c : Byte) : Bool :=
  value ≥ max / 10 && (value > max / 10 || digitOf c > max % 10)

/-- `value * 10 + (*line - '0')`. -/
def nextValue (value : Int) (c : Byte) : Option Int := do
  let tens ← signed (value * 10)
  signed (tens + digitOf c)

def atoLoop (max : Int) : Int → Bytes → Option Int
  | value, [] => some value
  | value, c :: line =>
    if !isDigit c then some ngxError
    else if cutOff max value c then some ngxError
    else do
      let value ← nextValue value c
      atoLoop max value line

/-- The functions that read a decimal number, by the largest number of their type. -/
def ngxAto (max : Int) (line : Bytes) : Option Int :=
  if line.length = 0 then some ngxError else atoLoop max 0 line

def ngxAtoi (line : Bytes) : Option Int := ngxAto ngxMaxIntTValue line

def ngxAtosz (line : Bytes) : Option Int := ngxAto ngxMaxSizeTValue line

def ngxAtoof (line : Bytes) : Option Int := ngxAto ngxMaxOffTValue line

def ngxAtotm (line : Bytes) : Option Int := ngxAto ngxMaxTimeTValue line

def hextoiLoop : Int → Bytes → Option Int
  | value, [] => some value
  | value, ch :: line =>
    if value > ngxMaxIntTValue / 16 then some ngxError
    else if '0'.toUInt8 ≤ ch && ch ≤ '9'.toUInt8 then do
      let shifted ← signed (value * 16)
      let value ← signed (shifted + (ch.toNat - '0'.toNat))
      hextoiLoop value line
    else
      let c := ch ||| 0x20
      if 'a'.toUInt8 ≤ c && c ≤ 'f'.toUInt8 then do
        let shifted ← signed (value * 16)
        let value ← signed (shifted + (c.toNat - 'a'.toNat + 10))
        hextoiLoop value line
      else some ngxError

def ngxHextoi (line : Bytes) : Option Int :=
  if line.length = 0 then some ngxError else hextoiLoop 0 line

def dot : Byte := '.'.toUInt8

/-- The loop `while (point--)` of `ngx_atofp`. -/
def pointLoop : Nat → Int → Option Int
  | 0, value => some value
  | point + 1, value =>
    if value > ngxMaxIntTValue / 10 then some ngxError
    else do
      let value ← signed (value * 10)
      pointLoop point value

def atofpLoop : Int → Nat → Bool → Bytes → Option Int
  | value, point, _, [] => pointLoop point value
  | value, point, seen, c :: line =>
    if point = 0 then some ngxError
    else if c = dot then
      if seen then some ngxError else atofpLoop value point true line
    else if !isDigit c then some ngxError
    else if cutOff ngxMaxIntTValue value c then some ngxError
    else do
      let value ← nextValue value c
      atofpLoop value (point - seen.toNat) seen line

def ngxAtofp (line : Bytes) (point : Nat) : Option Int :=
  if line.length = 0 then some ngxError else atofpLoop 0 point false line

def isUnit (unit : Byte) (upper lower : Char) : Bool := unit = upper.toUInt8 || unit = lower.toUInt8

/-- The end of `ngx_parse_size` and `ngx_parse_offset`. -/
def scaleNumber (number : Option Int) (max scale : Int) : Option Int := do
  let size ← number
  if size = ngxError || size > max then some ngxError else signed (size * scale)

def ngxParseSize (line : Bytes) : Option Int :=
  match line.getLast? with
  | none => some ngxError
  | some unit =>
    if isUnit unit 'K' 'k' then
      scaleNumber (ngxAtosz (line.take (line.length - 1))) (ngxMaxSizeTValue / 1024) 1024
    else if isUnit unit 'M' 'm' then
      scaleNumber (ngxAtosz (line.take (line.length - 1))) (ngxMaxSizeTValue / (1024 * 1024))
        (1024 * 1024)
    else scaleNumber (ngxAtosz line) ngxMaxSizeTValue 1

def ngxParseOffset (line : Bytes) : Option Int :=
  match line.getLast? with
  | none => some ngxError
  | some unit =>
    if isUnit unit 'K' 'k' then
      scaleNumber (ngxAtoof (line.take (line.length - 1))) (ngxMaxOffTValue / 1024) 1024
    else if isUnit unit 'M' 'm' then
      scaleNumber (ngxAtoof (line.take (line.length - 1))) (ngxMaxOffTValue / (1024 * 1024))
        (1024 * 1024)
    else if isUnit unit 'G' 'g' then
      scaleNumber (ngxAtoof (line.take (line.length - 1))) (ngxMaxOffTValue / (1024 * 1024 * 1024))
        (1024 * 1024 * 1024)
    else scaleNumber (ngxAtoof line) ngxMaxOffTValue 1

end ServerCore.NginxNumbers
