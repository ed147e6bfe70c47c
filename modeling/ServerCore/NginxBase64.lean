import Mathlib.Data.List.Basic

/-!
# Base64

`ngx_encode_base64`, `ngx_encode_base64url`, `ngx_decode_base64` and
`ngx_decode_base64url` with the internal functions that they share. The decoder
is given the memory that `src->data` points to and `src->len`; where it would
read behind that memory, it has no result.
-/

namespace ServerCore.NginxBase64

abbrev Byte := UInt8

abbrev Bytes := List Byte

def equalSign : Byte := '='.toUInt8

/-- `basis64` of `ngx_encode_base64`. -/
def encodeBasis : Bytes :=
  "ABCDEFGHIJKLMNOPQRSTUVWXYZabcdefghijklmnopqrstuvwxyz0123456789+/".toList.map Char.toUInt8

/-- `basis64` of `ngx_encode_base64url`. -/
def encodeUrlBasis : Bytes :=
  "ABCDEFGHIJKLMNOPQRSTUVWXYZabcdefghijklmnopqrstuvwxyz0123456789-_".toList.map Char.toUInt8

/-- `basis64` of `ngx_decode_base64`. -/
def decodeBasis : Bytes := List.replicate 32 77 ++ [
    77, 77, 77, 77, 77, 77, 77, 77, 77, 77, 77, 62, 77, 77, 77, 63,
    52, 53, 54, 55, 56, 57, 58, 59, 60, 61, 77, 77, 77, 77, 77, 77,
    77, 0, 1, 2, 3, 4, 5, 6, 7, 8, 9, 10, 11, 12, 13, 14,
    15, 16, 17, 18, 19, 20, 21, 22, 23, 24, 25, 77, 77, 77, 77, 77,
    77, 26, 27, 28, 29, 30, 31, 32, 33, 34, 35, 36, 37, 38, 39, 40,
    41, 42, 43, 44, 45, 46, 47, 48, 49, 50, 51, 77, 77, 77, 77, 77] ++
  List.replicate 128 77

/-- `basis64` of `ngx_decode_base64url`. -/
def decodeUrlBasis : Bytes := List.replicate 32 77 ++ [
    77, 77, 77, 77, 77, 77, 77, 77, 77, 77, 77, 77, 77, 62, 77, 77,
    52, 53, 54, 55, 56, 57, 58, 59, 60, 61, 77, 77, 77, 77, 77, 77,
    77, 0, 1, 2, 3, 4, 5, 6, 7, 8, 9, 10, 11, 12, 13, 14,
    15, 16, 17, 18, 19, 20, 21, 22, 23, 24, 25, 77, 77, 77, 77, 63,
    77, 26, 27, 28, 29, 30, 31, 32, 33, 34, 35, 36, 37, 38, 39, 40,
    41, 42, 43, 44, 45, 46, 47, 48, 49, 50, 51, 77, 77, 77, 77, 77] ++
  List.replicate 128 77

def entry (basis : Bytes) (index : Byte) : Byte := basis.getD index.toNat 0

def ngxEncodeBase64Internal (basis : Bytes) (padding : Bool) : Bytes → Bytes
  | s0 :: s1 :: s2 :: s =>
    entry basis ((s0 >>> 2) &&& 0x3f) ::
    entry basis (((s0 &&& 3) <<< 4) ||| (s1 >>> 4)) ::
    entry basis (((s1 &&& 0x0f) <<< 2) ||| (s2 >>> 6)) ::
    entry basis (s2 &&& 0x3f) :: ngxEncodeBase64Internal basis padding s
  | [s0] =>
    entry basis ((s0 >>> 2) &&& 0x3f) ::
    entry basis ((s0 &&& 3) <<< 4) ::
    (if padding then [equalSign] else []) ++ (if padding then [equalSign] else [])
  | [s0, s1] =>
    entry basis ((s0 >>> 2) &&& 0x3f) ::
    entry basis (((s0 &&& 3) <<< 4) ||| (s1 >>> 4)) ::
    entry basis ((s1 &&& 0x0f) <<< 2) :: (if padding then [equalSign] else [])
  | [] => []

def ngxEncodeBase64 (src : Bytes) : Bytes := ngxEncodeBase64Internal encodeBasis true src

def ngxEncodeBase64url (src : Bytes) : Bytes := ngxEncodeBase64Internal encodeUrlBasis false src

/-- The first loop, where `left` bytes of the string remain: `len`, or `NGX_ERROR`. -/
def lengthLoop (basis : Bytes) : Nat → Bytes → Nat → Option (Option Nat)
  | 0, _, len => some (some len)
  | _ + 1, [], _ => none
  | left + 1, c :: data, len =>
    if c = equalSign then some (some len)
    else if entry basis c = 77 then some none
    else lengthLoop basis left data (len + 1)

def decodeTail (basis : Bytes) (s : Bytes) (len : Nat) : Option Bytes := do
  let first ← (if len > 1 then
      match s with
      | s0 :: s1 :: _ => some [entry basis s0 <<< 2 ||| entry basis s1 >>> 4]
      | _ => none
    else some [])
  let second ← (if len > 2 then
      match s with
      | _ :: s1 :: s2 :: _ => some [entry basis s1 <<< 4 ||| entry basis s2 >>> 2]
      | _ => none
    else some [])
  some (first ++ second)

def decodeLoop (basis : Bytes) : Bytes → Nat → Option Bytes
  | s0 :: s1 :: s2 :: s3 :: s, len =>
    if len > 3 then do
      let rest ← decodeLoop basis s (len - 4)
      some ((entry basis s0 <<< 2 ||| entry basis s1 >>> 4) ::
        (entry basis s1 <<< 4 ||| entry basis s2 >>> 2) ::
        (entry basis s2 <<< 6 ||| entry basis s3) :: rest)
    else decodeTail basis (s0 :: s1 :: s2 :: s3 :: s) len
  | s, len => if len > 3 then none else decodeTail basis s len

/-- What is written to `dst`, or `NGX_ERROR`. -/
def ngxDecodeBase64Internal (basis : Bytes) (data : Bytes) (srcLen : Nat) :
    Option (Option Bytes) := do
  match ← lengthLoop basis srcLen data 0 with
  | none => some none
  | some len =>
    if len % 4 = 1 then some none
    else
      let dst ← decodeLoop basis data len
      some (some dst)

def ngxDecodeBase64 (data : Bytes) (srcLen : Nat) : Option (Option Bytes) :=
  ngxDecodeBase64Internal decodeBasis data srcLen

def ngxDecodeBase64url (data : Bytes) (srcLen : Nat) : Option (Option Bytes) :=
  ngxDecodeBase64Internal decodeUrlBasis data srcLen

end ServerCore.NginxBase64
