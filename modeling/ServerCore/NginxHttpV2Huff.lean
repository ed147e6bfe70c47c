import Mathlib.Algebra.Group.Nat.Defs
import ServerCore.NginxHttpV2HuffTables

/-!
# The HPACK Huffman coder of nginx

`ngx_http_v2_huff_encode` packs codes into a 64-bit register and writes the
register out in big-endian order when it is full. `ngx_http_v2_huff_decode` is
an automaton that reads four bits at a time; its caller
`ngx_http_v2_state_field_huff` runs it over the pieces in which a field
arrives. A destination is the list of the bytes written to it, so `hlen` of the
source is its length.
-/

namespace ServerCore.NginxHttpV2Huff

open NginxHttpV2HuffTables

abbrev Byte := UInt8

abbrev Bytes := List Byte

inductive NgxInt where
  | ngxOk
  | ngxError
  deriving DecidableEq

/-- `ngx_http_v2_huff_encode_code_t` and the element at `index` of a table. -/
structure HuffEncodeCode where
  code : Nat
  len : Nat

def HuffEncodeCode.at (table : List (Nat × Nat)) (symbol : Byte) : HuffEncodeCode :=
  let entry := table.getD symbol.toNat (0, 0)
  ⟨entry.1, entry.2⟩

/-- `sizeof(buf) * 8`. -/
def bufBits : Nat := 64

def ngxAlign (value alignment : Nat) : Nat :=
  (value + (alignment - 1)) &&& (2 ^ bufBits - 1 - (alignment - 1))

/-- The low `count` bytes of `buf`, the highest first. Eight of them are
`ngx_http_v2_huff_encode_buf`, and the closing `do` loop of the encoder writes
`pending / 8` of them. -/
def encodeBuf (buf : Nat) : Nat → Bytes
  | 0 => []
  | count + 1 => UInt8.ofNat (buf >>> (8 * count)) :: encodeBuf buf count

structure HuffEncoder where
  buf : Nat
  pending : Nat
  dst : Bytes

/-- The body of the encoder's loop for one source byte; `none` is `return 0`. -/
def ngxHttpV2HuffEncodeStep (table : List (Nat × Nat)) (len : Nat) (enc : HuffEncoder)
    (symbol : Byte) : Option HuffEncoder :=
  let next := HuffEncodeCode.at table symbol
  let pending := enc.pending + next.len
  if pending < bufBits then
    some { enc with
      buf := enc.buf ||| (next.code <<< (bufBits - pending)) % 2 ^ bufBits
      pending := pending }
  else if enc.dst.length + bufBits / 8 ≥ len then
    none
  else
    let pending := pending - bufBits
    some {
      buf := if pending = 0 then 0 else (next.code <<< (bufBits - pending)) % 2 ^ bufBits
      pending := pending
      dst := enc.dst ++ encodeBuf (enc.buf ||| next.code >>> pending) 8 }

def ngxHttpV2HuffEncodeFinish (len : Nat) (enc : HuffEncoder) : Option Bytes :=
  if enc.pending = 0 then
    some enc.dst
  else
    let buf := enc.buf ||| (2 ^ bufBits - 1) >>> enc.pending
    let pending := ngxAlign enc.pending 8
    if enc.dst.length + pending / 8 ≥ len then
      none
    else
      some (enc.dst ++ encodeBuf (buf >>> (bufBits - pending)) (pending / 8))

/-- The bytes written when the encoder returns their number, and no bytes when
it gives up and returns zero. -/
def ngxHttpV2HuffEncode (src : Bytes) (lower : Bool) : Bytes :=
  let table := if lower then ngxHttpV2HuffEncodeTableLc else ngxHttpV2HuffEncodeTable
  ((src.foldlM (ngxHttpV2HuffEncodeStep table src.length) ⟨0, 0, []⟩).bind
    (ngxHttpV2HuffEncodeFinish src.length)).getD []

structure HuffDecodeCode where
  next : Nat
  emit : Nat
  sym : Nat
  ending : Nat

def HuffDecodeCode.ofWord (word : Nat) : HuffDecodeCode :=
  ⟨word >>> 12 % 256, word >>> 1 % 2, word >>> 4 % 256, word % 2⟩

def HuffDecodeCode.at (state bits : Nat) : HuffDecodeCode :=
  HuffDecodeCode.ofWord ((ngxHttpV2HuffDecodeCodes.getD state []).getD bits 0)

/-- `*state`, `*ending` and the bytes before `*dst`. -/
structure HuffDecoder where
  state : Nat
  ending : Nat
  dst : Bytes

def ngxHttpV2HuffDecodeBits (dec : HuffDecoder) (bits : Nat) : NgxInt × HuffDecoder :=
  let code := HuffDecodeCode.at dec.state bits
  if code.next = dec.state then
    (.ngxError, dec)
  else
    (.ngxOk,
      { state := code.next
        ending := code.ending
        dst := if code.emit ≠ 0 then dec.dst ++ [UInt8.ofNat code.sym] else dec.dst })

def ngxHttpV2HuffDecodeLoop (dec : HuffDecoder) : Bytes → NgxInt × HuffDecoder
  | [] => (.ngxOk, dec)
  | ch :: src =>
    match ngxHttpV2HuffDecodeBits dec (ch.toNat >>> 4) with
    | (.ngxError, dec) => (.ngxError, dec)
    | (.ngxOk, dec) =>
      match ngxHttpV2HuffDecodeBits dec (ch.toNat &&& 0xf) with
      | (.ngxError, dec) => (.ngxError, dec)
      | (.ngxOk, dec) => ngxHttpV2HuffDecodeLoop dec src

/-- What a call of the decoder leaves: its return code, `*state` and the bytes
before `*dst`. -/
structure HuffDecoded where
  rc : NgxInt
  state : Nat
  dst : Bytes

def ngxHttpV2HuffDecode (state : Nat) (src : Bytes) (dst : Bytes) (last : Bool) :
    HuffDecoded :=
  match ngxHttpV2HuffDecodeLoop ⟨state, 1, dst⟩ src with
  | (.ngxError, dec) => ⟨.ngxError, dec.state, dec.dst⟩
  | (.ngxOk, dec) =>
    if last then
      if dec.ending = 0 then ⟨.ngxError, dec.state, dec.dst⟩
      else ⟨.ngxOk, 0, dec.dst⟩
    else ⟨.ngxOk, dec.state, dec.dst⟩

/-- `ngx_http_v2_state_field_huff` over the pieces of a field in the order of
their arrival, `fieldRest` bytes of it still missing: a piece is cut to the
rest of the field, the call that leaves no rest is the last one, and an error
closes the connection. -/
def ngxHttpV2StateFieldHuff (fieldRest state : Nat) (dst : Bytes) (piece : Bytes) :
    List Bytes → HuffDecoded
  | [] =>
    let fieldRest' := fieldRest - piece.length
    ngxHttpV2HuffDecode state (piece.take fieldRest) dst (fieldRest' = 0)
  | more :: pieces =>
    let fieldRest' := fieldRest - piece.length
    let decoded := ngxHttpV2HuffDecode state (piece.take fieldRest) dst (fieldRest' = 0)
    if decoded.rc = .ngxError ∨ fieldRest' = 0 then decoded
    else ngxHttpV2StateFieldHuff fieldRest' decoded.state decoded.dst more pieces

end ServerCore.NginxHttpV2Huff
