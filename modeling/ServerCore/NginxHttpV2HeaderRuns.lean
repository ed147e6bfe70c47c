import ServerCore.NginxHttpV2HeaderLimit

/-!
# Header blocks in sequence

Between two blocks a connection is idle: no part of a header is pending, the
decoder is reset, the table is sound, and what is left of the limit is at most the
limit. Every block that is answered otherwise than with an error leaves it so, and
no loop over the table is cut short.
-/

namespace ServerCore.NginxHttpV2HeaderRuns

open NginxHttpV2Huff NginxHttpV2HuffDecoding NginxHttpV2Table
  NginxHttpV2TableRefinement NginxHttpV2TableLimit
open NginxHttpV2HeaderBlock NginxHttpV2HeaderLimit

variable {next : State → Except ConnectionError State} {text : HpackString}

abbrev Byte := NginxHttpV2HeaderBlock.Byte

abbrev Bytes := NginxHttpV2HeaderBlock.Bytes

/-- A table that is not there yet, or one whose entries are those of a queue. -/
def Tabled (hpack : Hpack) : Prop := Untouched hpack ∨ ∃ table, Refines hpack table

variable {hpack : Hpack} {conf : SrvConf} {state : State} {lastSid limit : Nat} {block : Block}

/-- The outcome of a step: the state it leaves, or a reason other than a loop that
did not end. -/
def Leaves (post : State → Prop) : Except ConnectionError State → Prop
  | .ok next => post next
  | .error reason => reason ≠ .unfinished

structure Keeps (limit lastSid : Nat) (state : State) : Prop where
  between : Between state
  tabled : Tabled state.hpack
  limit : state.headerLimit ≤ limit
  lastSid : state.lastSid = lastSid

structure Idle (conf : SrvConf) (state : State) : Prop where
  between : Between state
  tabled : Tabled state.hpack
  limit : state.headerLimit ≤ conf.maxHeaderSize
  stream : state.stream = false

def firstState : State := zeroedState (fun _ => 0) (fun _ => ⟨0, 0, 0, 0⟩) fun _ => 0

end ServerCore.NginxHttpV2HeaderRuns
