import ServerCore.NginxHttpV2HeaderBlock
import ServerCore.NginxHttpV2HuffDecoding
import ServerCore.NginxHttpV2TableLimit

/-!
# The size limit of a header block

A block is charged for the headers that are decoded from it. The charge is right
as long as the strings of a literal are read: `ngx_http_v2_state_field_skip`
leaves the lengths of the string before, and a literal that is skipped is charged
with these.
-/

namespace ServerCore.NginxHttpV2HeaderLimit

open NginxHttpV2Huff NginxHttpV2HuffDecoding NginxHttpV2Table
open NginxHttpV2HeaderBlock List

variable {after : Hpack}

variable {headers : List Header} {state : State} {hpack : Hpack}
variable {field : Field} {fields : List Field} {block : Block}

abbrev Byte := NginxHttpV2HeaderBlock.Byte

abbrev Bytes := NginxHttpV2HeaderBlock.Bytes

def headerSize (header : Header) : Nat := header.name.length + header.value.length

def headersSize (headers : List Header) : Nat := (headers.map headerSize).sum

def opens (conf : SrvConf) (block : Block) : Bool :=
  block.depend ≠ block.sid && block.processing < conf.concurrentStreams &&
    (block.settingsAck || block.endStream || conf.prereadSize ≥ defaultWindow)

def keeps : Field → Bool
  | .indexed _ drops => !drops
  | .sizeUpdate _ => true
  | .literal _ _ _ _ drops => !drops

def IsRead (stream : Bool) : Field → Prop
  | .literal incr _ _ _ _ => stream = true ∨ incr = true
  | _ => True

/-- How many headers a field carries. -/
def carried : Field → Nat
  | .sizeUpdate _ => 0
  | _ => 1

def nameLength (headers : List Header) : Nat := (headers.map fun header => header.name.length).sum

def valueLength (headers : List Header) : Nat := (headers.map fun header => header.value.length).sum

/-- What a field is charged with that carries `headers`; `stale` is the length of the string
that was read last. -/
def fieldCharge (stale : Nat) (stream : Bool) (headers : List Header) : Field → Nat
  | .literal incr nameIndex _ _ _ =>
    if stream || incr then headersSize headers
    else (if nameIndex = 0 then stale else nameLength headers) + stale
  | _ => headersSize headers

def staleAfter (stale : Nat) (stream : Bool) (headers : List Header) : Field → Nat
  | .literal incr _ _ _ _ => if stream || incr then valueLength headers else stale
  | _ => stale

def charged : Nat → Bool → List Field → List Header → Nat
  | _, _, [], _ => 0
  | stale, stream, field :: fields, headers =>
    let own := headers.take (carried field)
    fieldCharge stale stream own field +
      charged (staleAfter stale stream own field) (stream && keeps field) fields
        (headers.drop (carried field))

/-- No literal is skipped up to the field with which the headers exceed the limit. -/
def Reads : Nat → Bool → List Field → List Header → Prop
  | _, _, [], _ => True
  | limit, stream, field :: fields, headers =>
    let own := headersSize (headers.take (carried field))
    IsRead stream field ∧ (own ≤ limit →
      Reads (limit - own) (stream && keeps field) fields (headers.drop (carried field)))

variable {conf : SrvConf}

structure Between (state : State) : Prop where
  parseName : state.parseName = false
  parseValue : state.parseValue = false
  index : state.index = false
  fieldState : state.fieldState = 0

section

variable {after : Hpack} {incr drops : Bool} {nameIndex : Nat} {name value : HpackString}
  {header : Header}

end

theorem data_allowed (settingsAck endStream : Bool) (prereadSize : Nat) :
    (settingsAck || endStream || decide (prereadSize ≥ defaultWindow)) =
      !(!settingsAck && !endStream && decide (prereadSize < defaultWindow)) := by
  cases settingsAck <;> cases endStream <;> simp [← decide_not]

/-- What is left of the limit when the first field comes. -/
def limitOf (conf : SrvConf) (block : Block) (left : Nat) : Nat :=
  if block.depend = block.sid then left else conf.maxHeaderSize

theorem state_headers_spec (between : Between state)
    (noStream : state.stream = false) (odd : block.sid % 2 = 1) (newer : state.lastSid < block.sid) :
    ∃ begun, ngxHttpV2StateHeaders conf block state = .ok begun ∧ Between begun ∧
      begun.hpack = state.hpack ∧ begun.stream = opens conf block ∧
      begun.field = state.field ∧ begun.headerLimit = limitOf conf block state.headerLimit := by
  obtain ⟨noName, noValue, noIndex, fresh⟩ := between
  unfold ngxHttpV2StateHeaders opens limitOf
  rw [if_neg (by omega)]
  by_cases itself : block.depend = block.sid
  · rw [if_pos itself, if_pos itself]
    exact ⟨_, rfl, ⟨noName, noValue, noIndex, fresh⟩, rfl, by simp [itself, noStream], rfl, rfl⟩
  · rw [if_neg itself, if_neg itself]
    by_cases many : block.processing ≥ conf.concurrentStreams
    · rw [if_pos many]
      exact ⟨_, rfl, ⟨noName, noValue, noIndex, fresh⟩, rfl, by simp [noStream, many], rfl, rfl⟩
    · rw [if_neg many]
      rw [data_allowed]
      cases (!block.settingsAck && !block.endStream && conf.prereadSize < defaultWindow) with
      | true => exact ⟨_, rfl, ⟨noName, noValue, noIndex, fresh⟩, rfl, by simp [noStream], rfl, rfl⟩
      | false =>
        refine ⟨_, rfl, ⟨noName, noValue, noIndex, fresh⟩, rfl, ?_, rfl, rfl⟩
        simp [itself, Nat.lt_of_not_ge many]

end ServerCore.NginxHttpV2HeaderLimit
