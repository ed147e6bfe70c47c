import ServerCore.NginxHttpV2Huff
import ServerCore.NginxHttpV2Table

/-!
# Header blocks of an HTTP/2 connection

A HEADERS frame with its continuations, from `ngx_http_v2_state_headers` to
`ngx_http_v2_state_header_complete`. The octets of a string come in the pieces
in which they arrive, none is missing, and the integers in front of them are
read already. What request processing makes of a header that it is given is a
part of the field: whether the stream is gone afterwards. So are the number of
streams and the acknowledgement of the settings when a block arrives. Frames
that are skipped after GOAWAY begin no block, every allocation succeeds, and of
a connection error only its reason is kept.
-/

namespace ServerCore.NginxHttpV2HeaderBlock

open NginxHttpV2Huff NginxHttpV2Table

abbrev Byte := UInt8

abbrev Bytes := List Byte

/-- A string literal; `piece` is what the first call finds of it. -/
structure HpackString where
  huff : Bool
  piece : Bytes
  pieces : List Bytes

def HpackString.octets (text : HpackString) : Bytes := (text.piece :: text.pieces).flatten

/-- A field representation. The `name` of a literal is there if `nameIndex` is
zero; `drops` is whether `ngx_http_v2_state_process_header` ends at `error`. -/
inductive Field where
  | indexed (index : Nat) (drops : Bool)
  | sizeUpdate (size : Nat)
  | literal (incr : Bool) (nameIndex : Nat) (name value : HpackString) (drops : Bool)

structure Block where
  sid : Nat
  depend : Nat
  endStream : Bool
  processing : Nat
  settingsAck : Bool
  fields : List Field

structure SrvConf where
  concurrentStreams : Nat
  prereadSize : Nat
  maxFieldSize : Nat
  maxHeaderSize : Nat

def defaultWindow : Nat := 65535

/-- Why a connection is closed; `unfinished` stands for a loop of the table that
takes more turns than a table has entries. -/
inductive ConnectionError where
  | maxHeaderSizeExceeded
  | maxFieldSizeExceeded
  | compError
  | protocolError
  | unfinished

/-- `h2c->state` with `h2c->hpack` and `h2c->last_sid`. `field` is what lies between
`field_start` and `field_end`, and `stream` is `h2c->state.stream != NULL`. -/
structure State where
  hpack : Hpack
  lastSid : Nat
  parseName : Bool
  parseValue : Bool
  index : Bool
  header : Header
  headerLimit : Nat
  fieldState : Nat
  field : Bytes
  stream : Bool

def zeroedState (entries : Nat → Nat) (records : Nat → Entry) (storage : Nat → Byte) : State where
  hpack := zeroed entries records storage
  lastSid := 0
  parseName := false
  parseValue := false
  index := false
  header := ⟨[], []⟩
  headerLimit := 0
  fieldState := 0
  field := []
  stream := false

/-- `ngx_http_v2_state_headers`. A stream that is reset has no `h2c->state.stream`. -/
def ngxHttpV2StateHeaders (conf : SrvConf) (block : Block) (state : State) : Except ConnectionError State :=
  if block.sid % 2 = 0 ∨ block.sid ≤ state.lastSid then .error .protocolError
  else
    let state := { state with lastSid := block.sid }
    if block.depend = block.sid then .ok state
    else
      let state := { state with headerLimit := conf.maxHeaderSize }
      if block.processing ≥ conf.concurrentStreams then .ok state
      else if !block.settingsAck && !block.endStream && conf.prereadSize < defaultWindow then .ok state
      else .ok { state with stream := true }

end ServerCore.NginxHttpV2HeaderBlock
