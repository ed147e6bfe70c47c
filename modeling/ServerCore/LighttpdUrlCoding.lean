import Mathlib.Algebra.GroupWithZero.Nat
import ServerCore.ByteTable
import ServerCore.LighttpdBuffer

/-!
# Encoding of strings and decoding of URLs

`buffer_append_string_encoded`, `buffer_urldecode_path` and `buffer_urldecode_query`.
The encoder counts and writes in two passes over one of six tables; a row of sixteen
entries of a table is one number here, its first entry the highest bit. The decoder
works in place: `src` reads what `dst`, which is never ahead of it, has not
overwritten.
-/

namespace ServerCore.LighttpdUrlCoding

open LighttpdBuffer Function

inductive BufferEncoding where
  | relUri
  | relUriPart
  | html
  | minimalXml
  | hex
  | httpHeader

def encodedCharsRelUriPart : List Nat :=
  [0xffff, 0xffff, 0b1011111100011001, 0b0000000000111111, 0b1000000000000000, 0b0000000000011110,
    0b1000000000000000, 0b0000000000011101] ++ List.replicate 8 0xffff

def encodedCharsRelUri : List Nat :=
  [0xffff, 0xffff, 0b1011111100011000, 0b0000000000111111, 0b1000000000000000, 0b0000000000011110,
    0b1000000000000000, 0b0000000000011101] ++ List.replicate 8 0xffff

def encodedCharsHtml : List Nat :=
  [0xffff, 0xffff, 0b0010001100000000, 0b0000000000001010, 0, 0, 0b1000000000000000, 1] ++
    List.replicate 8 0xffff

def encodedCharsMinimalXml : List Nat :=
  [0xffff, 0xffff, 0b0010001100000000, 0b0000000000001010, 0, 0, 0b1000000000000000, 1] ++ List.replicate 8 0

def encodedCharsHex : List Nat := List.replicate 16 0xffff

def encodedCharsHttpHeader : List Nat := 0b0000000000100000 :: List.replicate 15 0

def BufferEncoding.map : BufferEncoding → List Nat
  | .relUri => encodedCharsRelUri
  | .relUriPart => encodedCharsRelUriPart
  | .html => encodedCharsHtml
  | .minimalXml => encodedCharsMinimalXml
  | .hex => encodedCharsHex
  | .httpHeader => encodedCharsHttpHeader

def BufferEncoding.encodes (encoding : BufferEncoding) (c : Byte) : Bool :=
  (encoding.map.getD (c.toNat / 16) 0).testBit (15 - c.toNat % 16)

def hexChars : Bytes := "0123456789abcdef".toList.map Char.toUInt8

def hexChar (value : Byte) : Byte := hexChars.getD (value &&& 0x0f).toNat 0

/-- What the first pass adds to `d_len`. -/
def encodedLength (encoding : BufferEncoding) (c : Byte) : Nat :=
  if encoding.encodes c then
    match encoding with
    | .relUri | .relUriPart => 3
    | .html | .minimalXml => 6
    | .httpHeader | .hex => 2
  else 1

/-- What the second pass writes. -/
def encodeByte (encoding : BufferEncoding) (c : Byte) : Bytes :=
  if encoding.encodes c then
    match encoding with
    | .relUri | .relUriPart => ['%'.toUInt8, hexChar (c >>> 4), hexChar c]
    | .html | .minimalXml =>
      ['&'.toUInt8, '#'.toUInt8, 'x'.toUInt8, hexChar (c >>> 4), hexChar c, ';'.toUInt8]
    | .hex => [hexChar (c >>> 4), hexChar c]
    | .httpHeader => [c, '\t'.toUInt8]
  else [c]

def bufferAppendStringEncoded (fresh : Nat → Byte) (encoding : BufferEncoding) (s : Bytes) (b : Buffer) :
    Option Buffer :=
  if s = [] then some b
  else do
    let dLen := (s.map (encodedLength encoding)).sum
    let b := bufferStringPrepareAppend fresh b dLen
    let d := b.used - 1
    let b ← bufferCommit b dLen
    guard (b.ptr d = 0)
    some { b with ptr := fill b.ptr d (s.flatMap (encodeByte encoding)) }

def hex2int (hex : Byte) : Byte :=
  let value := hex - '0'.toUInt8
  let value :=
    if value > 9 then
      let value := (hex ||| 0x20) - 'a'.toUInt8 + 10
      if value < 10 then 0xff else value
    else value
  if value > 15 then 0xff else value

/-- The byte of an escape, without control characters. -/
def unescaped (high low : Byte) : Byte :=
  let value := high <<< 4 ||| low
  if value < 32 ∨ value = 127 then '_'.toUInt8 else value

section Decoding

variable (isQuery : Bool)

/-- The loop up to the first `%`. -/
def plainLoop : Nat → (Nat → Byte) → Nat → Option ((Nat → Byte) × Nat)
  | 0, _, _ => none
  | fuel + 1, memory, src =>
    if memory src = 0 then some (memory, src)
    else if memory src = '%'.toUInt8 then some (memory, src)
    else if isQuery ∧ memory src = '+'.toUInt8 then plainLoop fuel (update memory src ' '.toUInt8) (src + 1)
    else plainLoop fuel memory (src + 1)

def decodeLoop : Nat → (Nat → Byte) → Nat → Nat → Option ((Nat → Byte) × Nat)
  | 0, _, _, _ => none
  | fuel + 1, memory, src, dst =>
    if memory src = 0 then some (memory, dst)
    else if isQuery ∧ memory src = '+'.toUInt8 then
      decodeLoop fuel (update memory dst ' '.toUInt8) (src + 1) (dst + 1)
    else if memory src = '%'.toUInt8 then
      let memory := update memory dst '%'.toUInt8
      let high := hex2int (memory (src + 1))
      if high ≠ 0xff then
        let low := hex2int (memory (src + 2))
        if low ≠ 0xff then
          decodeLoop fuel (update memory dst (unescaped high low)) (src + 3) (dst + 1)
        else decodeLoop fuel memory (src + 1) (dst + 1)
      else decodeLoop fuel memory (src + 1) (dst + 1)
    else decodeLoop fuel (update memory dst (memory src)) (src + 1) (dst + 1)

/-- The loops are over after `used` turns, as the last byte is zero. -/
def bufferUrldecodeInternal (url : Buffer) : Option Buffer :=
  if url.used < 2 then some url
  else do
    guard (url.ptr (url.used - 1) = 0)
    let (memory, src) ← plainLoop isQuery url.used url.ptr 0
    let (memory, dst) ← decodeLoop isQuery url.used memory src src
    some { url with ptr := update memory dst 0, used := dst + 1 }

end Decoding

def bufferUrldecodePath (url : Buffer) : Option Buffer := bufferUrldecodeInternal false url

def bufferUrldecodeQuery (url : Buffer) : Option Buffer := bufferUrldecodeInternal true url

end ServerCore.LighttpdUrlCoding
