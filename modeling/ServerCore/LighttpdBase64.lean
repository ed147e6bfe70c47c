import ServerCore.LighttpdBuffer

/-!
# Base64 in buffers

`buffer_append_base64_decode`, `buffer_append_base64_encode` and
`buffer_append_base64_encode_no_padding`. A failed assertion and a store behind the
reserved bytes have no result.
-/

namespace ServerCore.LighttpdBase64

open LighttpdBuffer

inductive Base64Charset where
  | standard
  | url

def base64StandardTable : Bytes :=
  "ABCDEFGHIJKLMNOPQRSTUVWXYZabcdefghijklmnopqrstuvwxyz0123456789+/=".toList.map Char.toUInt8

def base64StandardReverseTable : List Int := [
  -1, -2, -2, -2, -2, -2, -2, -2, -2, -2, -2, -2, -2, -2, -2, -2,
  -2, -2, -2, -2, -2, -2, -2, -2, -2, -2, -2, -2, -2, -2, -2, -2,
  -2, -1, -1, -1, -1, -1, -1, -1, -1, -1, -1, 62, -1, -1, -1, 63,
  52, 53, 54, 55, 56, 57, 58, 59, 60, 61, -1, -1, -1, -3, -1, -1,
  -1, 0, 1, 2, 3, 4, 5, 6, 7, 8, 9, 10, 11, 12, 13, 14,
  15, 16, 17, 18, 19, 20, 21, 22, 23, 24, 25, -1, -1, -1, -1, -1,
  -1, 26, 27, 28, 29, 30, 31, 32, 33, 34, 35, 36, 37, 38, 39, 40,
  41, 42, 43, 44, 45, 46, 47, 48, 49, 50, 51, -1, -1, -1, -1, -1]

def base64UrlTable : Bytes :=
  "ABCDEFGHIJKLMNOPQRSTUVWXYZabcdefghijklmnopqrstuvwxyz0123456789-_.".toList.map Char.toUInt8

def base64UrlReverseTable : List Int := [
  -1, -2, -2, -2, -2, -2, -2, -2, -2, -2, -2, -2, -2, -2, -2, -2,
  -2, -2, -2, -2, -2, -2, -2, -2, -2, -2, -2, -2, -2, -2, -2, -2,
  -2, -1, -1, -1, -1, -1, -1, -1, -1, -1, -1, -1, -1, 62, -3, -1,
  52, 53, 54, 55, 56, 57, 58, 59, 60, 61, -1, -1, -1, -1, -1, -1,
  -1, 0, 1, 2, 3, 4, 5, 6, 7, 8, 9, 10, 11, 12, 13, 14,
  15, 16, 17, 18, 19, 20, 21, 22, 23, 24, 25, -1, -1, -1, -1, 63,
  -1, 26, 27, 28, 29, 30, 31, 32, 33, 34, 35, 36, 37, 38, 39, 40,
  41, 42, 43, 44, 45, 46, 47, 48, 49, 50, 51, -1, -1, -1, -1, -1]

def Base64Charset.table : Base64Charset → Bytes
  | .standard => base64StandardTable
  | .url => base64UrlTable

def Base64Charset.reverseTable : Base64Charset → List Int
  | .standard => base64StandardReverseTable
  | .url => base64UrlReverseTable

def Base64Charset.char (charset : Base64Charset) (index : Nat) : Byte := charset.table.getD index 0

def Base64Charset.reverse (charset : Base64Charset) (c : Byte) : Int := charset.reverseTable.getD c.toNat 0

structure Decoder where
  memory : Nat → Byte
  outPos : Nat
  group : Nat

section Decoding

variable (charset : Base64Charset) (start reserve : Nat)

/-- `result[out_pos] = value` -/
def Decoder.store (value : Byte) (d : Decoder) : Option Decoder := do
  guard (d.outPos < reserve)
  some { d with memory := Function.update d.memory (start + d.outPos) value }

/-- `result[out_pos++] |= value` -/
def Decoder.orStore (value : Byte) (d : Decoder) : Option Decoder := do
  let d ← d.store start reserve (d.memory (start + d.outPos) ||| value)
  some { d with outPos := d.outPos + 1 }

def takeDigit (d : Decoder) (ch : Nat) : Option Decoder :=
  match d.group with
  | 0 => do
    let d ← d.store start reserve (UInt8.ofNat (ch <<< 2))
    some { d with group := 1 }
  | 1 => do
    let d ← d.orStore start reserve (UInt8.ofNat (ch >>> 4))
    let d ← d.store start reserve (UInt8.ofNat ((ch &&& 0x0f) <<< 4))
    some { d with group := 2 }
  | 2 => do
    let d ← d.orStore start reserve (UInt8.ofNat (ch >>> 2))
    let d ← d.store start reserve (UInt8.ofNat ((ch &&& 0x03) <<< 6))
    some { d with group := 3 }
  | 3 => do
    let d ← d.orStore start reserve (UInt8.ofNat ch)
    some { d with group := 0 }
  | _ => some d

/-- The loop, and whether it ends without `return NULL`. -/
def decodeLoop : Bytes → Decoder → Option (Decoder × Bool)
  | [], d => some (d, true)
  | c :: input, d =>
    if c = 0 then some (d, true)
    else if c ≥ 128 then some (d, false)
    else
      let ch := charset.reverse c
      if ch = -3 then some (d, decide (2 ≤ d.group))
      else if ch = -2 then decodeLoop input d
      else if ch < 0 then some (d, false)
      else do
        let d ← takeDigit start reserve d ch.toNat
        decodeLoop input d

def groupEnded (d : Decoder) : Bool :=
  match d.group with
  | 0 => true
  | 1 => false
  | _ => d.memory (start + d.outPos) == 0

end Decoding

/-- The buffer, and whether the result is not `NULL`. -/
def bufferAppendBase64Decode (fresh : Nat → Byte) (charset : Base64Charset) (input : Bytes) (out : Buffer) :
    Option (Buffer × Bool) := do
  let reserve := 3 * (input.length / 4) + 3
  let out := bufferStringPrepareAppend fresh out reserve
  let start := out.used - 1
  let (d, ended) ← decodeLoop charset start reserve input ⟨out.ptr, 0, 0⟩
  let out := { out with ptr := d.memory }
  if ended && groupEnded start d then
    let out ← bufferCommit out d.outPos
    some (out, true)
  else some (out, false)

def encodeTuples (charset : Base64Charset) : Bytes → Bytes
  | x :: y :: z :: input =>
    let v := x.toNat <<< 16 ||| y.toNat <<< 8 ||| z.toNat
    charset.char (v >>> 6 >>> 6 >>> 6 &&& 0x3f) :: charset.char (v >>> 6 >>> 6 &&& 0x3f) ::
      charset.char (v >>> 6 &&& 0x3f) :: charset.char (v &&& 0x3f) :: encodeTuples charset input
  | [x, y] =>
    let v := x.toNat <<< 10 ||| y.toNat <<< 2
    [charset.char (v >>> 6 >>> 6 &&& 0x3f), charset.char (v >>> 6 &&& 0x3f), charset.char (v &&& 0x3f)]
  | [x] =>
    let v := x.toNat <<< 4
    [charset.char (v >>> 6 &&& 0x3f), charset.char (v &&& 0x3f)]
  | [] => []

def liToBase64NoPadding (charset : Base64Charset) (outLength : Nat) (input : Bytes) : Option Bytes := do
  let inTupleRemainder := input.length % 3
  let outTupleRemainder := if inTupleRemainder = 0 then 0 else 1 + inTupleRemainder
  guard (4 * (input.length / 3) + outTupleRemainder ≤ outLength)
  let text := encodeTuples charset input
  guard (text.length ≤ outLength)
  some text

def liToBase64 (charset : Base64Charset) (outLength : Nat) (input : Bytes) : Option Bytes := do
  let inTupleRemainder := input.length % 3
  let paddingLength := if inTupleRemainder = 0 then 0 else 3 - inTupleRemainder
  guard (outLength ≥ paddingLength)
  let text ← liToBase64NoPadding charset (outLength - paddingLength) input
  let text := text ++ List.replicate paddingLength (charset.char 64)
  guard (text.length ≤ outLength)
  some text

def appendEncoded (fresh : Nat → Byte) (encode : Nat → Bytes → Option Bytes) (input : Bytes)
    (out : Buffer) : Option Buffer := do
  let reserve := 4 * (input.length / 3) + 4
  let out := bufferStringPrepareAppend fresh out reserve
  let text ← encode reserve input
  bufferCommit { out with ptr := fill out.ptr (out.used - 1) text } text.length

def bufferAppendBase64EncodeNoPadding (fresh : Nat → Byte) (charset : Base64Charset)
    (input : Bytes) (out : Buffer) :
    Option Buffer :=
  appendEncoded fresh (liToBase64NoPadding charset) input out

def bufferAppendBase64Encode (fresh : Nat → Byte) (charset : Base64Charset) (input : Bytes) (out : Buffer) :
    Option Buffer :=
  appendEncoded fresh (liToBase64 charset) input out

end ServerCore.LighttpdBase64
