import ServerCore.LighttpdFastcgi
import ServerCore.PositionalText

/-!
# Requests to SCGI and uwsgi backends

The callbacks of `mod_scgi.c`, and `scgi_create_env` up to the head of the
request, on a little-endian machine. `pairs` are the keys and values that
`http_cgi_headers` hands to its callback, none of them NULL.
-/

namespace ServerCore.LighttpdScgi

open LighttpdChunk LighttpdFastcgi PositionalText

abbrev Pair := Bytes × Bytes

/-- `http_cgi_header_append_cb`, with the code it returns and what the buffer is then. -/
abbrev HeaderAppend := Bytes → Pair → Int × Bytes

def fcgiEnvAppend : HeaderAppend := fun env pair =>
  match fcgiEnvAdd env pair.1 pair.2 with
  | none => (-1, env)
  | some env => (0, env)

def scgiEnvAddScgi : HeaderAppend := fun env pair => (0, env ++ pair.1 ++ [0] ++ pair.2 ++ [0])

def ushrtMax : Nat := 0xffff

/-- A number in memory. -/
def memoryBytes : Nat → Nat → Bytes
  | 0, _ => []
  | size + 1, number => UInt8.ofNat number :: memoryBytes size (number / 256)

def scgiEnvAddUwsgi : HeaderAppend := fun env pair =>
  if pair.1.length > ushrtMax ∨ pair.2.length > ushrtMax then (-1, env)
  else (0, env ++ memoryBytes 2 pair.1.length ++ pair.1 ++ memoryBytes 2 pair.2.length ++ pair.2)

/-- The first component is whether a call has failed. The calls go on behind it. -/
def cgiHeaders (append : HeaderAppend) (pairs : List Pair) : Bool × Bytes :=
  pairs.foldl (fun state pair =>
    (state.1 || (append state.2 pair).1 ≠ 0, (append state.2 pair).2)) (false, [])

inductive Protocol where
  | scgi
  | uwsgi

def Protocol.append : Protocol → HeaderAppend
  | .scgi => scgiEnvAddScgi
  | .uwsgi => scgiEnvAddUwsgi

/-- The text is long enough for any length. -/
def utostr (number : Nat) : Bytes :=
  numeral 10 (fun digit => UInt8.ofNat ('0'.toNat + digit)) (number + 1) number

def scgiOne : Pair := ("SCGI".toList.map Char.toUInt8, "1".toList.map Char.toUInt8)

/-- The head of the request, or the status. -/
def scgiCreateEnv (proto : Protocol) (pairs : List Pair) : Except Nat Bytes :=
  let result := cgiHeaders proto.append pairs
  if result.1 then .error 400
  else
    match proto with
    | .scgi =>
      let env := (proto.append result.2 scgiOne).2
      .ok (utostr env.length ++ [':'.toUInt8] ++ env ++ [','.toUInt8])
    | .uwsgi =>
      let len := result.2.length
      if len > ushrtMax then .error 431 else .ok (memoryBytes 4 (len <<< 8) ++ result.2)

/-- The pairs that are accepted one after the other, and the buffer behind them. -/
def appendAll (append : HeaderAppend) : Bytes → List Pair → List Pair × Bytes
  | env, [] => ([], env)
  | env, pair :: pairs =>
    let later := appendAll append (append env pair).2 pairs
    (if (append env pair).1 = 0 then pair :: later.1 else later.1, later.2)

end ServerCore.LighttpdScgi
