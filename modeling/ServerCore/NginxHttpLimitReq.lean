import Mathlib.Algebra.Group.Nat.Defs
import Mathlib.Logic.Function.Basic
import Mathlib.Data.Int.DivMod

/-!
# The request limits of nginx

`ngx_http_limit_req_module.c` with the clock and the counters in words of `w` bits. A zone
keeps its nodes in a queue, the one used last in front; the red-black tree over the same
nodes is an index of them, so a search in it is a search for the hash and the key. Whether
an allocation, an evaluation of a key or `ngx_handle_read_event` succeeds is an input.
-/

namespace ServerCore.NginxHttpLimitReq

open Function

abbrev Byte := UInt8

abbrev Bytes := List Byte

/-- The cast of a word to `ngx_int_t` or `ngx_msec_int_t`. -/
def ngxInt (w : Nat) (value : Int) : Int := value.bmod (2 ^ w)

/-- `ngx_http_limit_req_node_t` with the hash that is the key of its tree node. -/
structure Node where
  hash : Nat
  data : Bytes
  last : Nat
  excess : Nat
  count : Nat

abbrev Key := Nat × Bytes

def Node.key (lr : Node) : Key := (lr.hash, lr.data)

/-- `ngx_http_limit_req_ctx_t`: `queue` holds the nodes of `sh`, and `node` says which of
them the request has taken. -/
structure Context where
  rate : Nat
  queue : List Node
  node : Option Key

/-- `ngx_http_limit_req_limit_t`; `zone` is the number of the zone. -/
structure Limit where
  zone : Nat
  burst : Nat
  nodelay : Bool

inductive Rc where
  | ok
  | busy
  | again
  | error
  | declined
  deriving DecidableEq

/-- What a node has leaked since it was used last. -/
def leak (w rate now : Nat) (lr : Node) : Nat :=
  let ms := ngxInt w ((now : Int) - lr.last)
  rate * ms.natAbs % 2 ^ w / 1000

def nextExcess (w rate now : Nat) (lr : Node) : Nat :=
  let excess := ngxInt w ((lr.excess : Int) - leak w rate now lr + 1000)
  if excess < 0 then 0 else excess.toNat

/-- The loop of `ngx_http_limit_req_expire`, with `3 - n` turns left. -/
def expireLoop (w rate now : Nat) : Nat → List Node → List Node
  | 0, queue => queue
  | turns + 1, queue =>
    match queue.getLast? with
    | none => queue
    | some lr =>
      let ms := (ngxInt w ((now : Int) - lr.last)).natAbs
      let excess := ngxInt w ((lr.excess : Int) - (rate * ms % 2 ^ w / 1000 : Nat))
      if lr.count ≠ 0 then queue
      else if turns ≠ 2 ∧ (ms < 60000 ∨ 0 < excess) then queue
      else expireLoop w rate now turns queue.dropLast

def ngxHttpLimitReqExpire (w now : Nat) (ctx : Context) (n : Nat) : Context :=
  { ctx with queue := expireLoop w ctx.rate now (3 - n) ctx.queue }

/-- The part of `ngx_http_limit_req_lookup` for a key without a node. `allocs` says whether
the first and the second `ngx_slab_alloc_locked` succeed. -/
def createNode (w now : Nat) (ctx : Context) (key : Key) (account : Bool)
    (allocs : Bool × Bool) : Rc × Nat × Context :=
  let ctx := ngxHttpLimitReqExpire w now ctx 1
  let ctx := if allocs.1 then ctx else ngxHttpLimitReqExpire w now ctx 0
  if ¬allocs.1 ∧ ¬allocs.2 then (.error, 0, ctx)
  else if account then
    (.ok, 0, { ctx with queue := ⟨key.1, key.2, now, 0, 0⟩ :: ctx.queue })
  else (.again, 0, { ctx with queue := ⟨key.1, key.2, 0, 0, 1⟩ :: ctx.queue, node := some key })

/-- The code that is returned, `*ep`, and the zone. -/
def ngxHttpLimitReqLookup (w now : Nat) (limit : Limit) (ctx : Context) (key : Key) (account : Bool)
    (allocs : Bool × Bool) : Rc × Nat × Context :=
  match ctx.queue.find? (fun lr => lr.key = key) with
  | some lr =>
    let rest := ctx.queue.eraseP fun lr => lr.key = key
    let excess := nextExcess w ctx.rate now lr
    if excess > limit.burst then (.busy, excess, { ctx with queue := lr :: rest })
    else if account then
      (.ok, excess, { ctx with queue := { lr with excess := excess, last := now } :: rest })
    else
      (.again, excess, { ctx with queue := { lr with count := lr.count + 1 } :: rest, node := some key })
  | none => createNode w now ctx key account allocs

def changeNode (key : Key) (change : Node → Node) : List Node → List Node
  | [] => []
  | lr :: rest => if lr.key = key then change lr :: rest else lr :: changeNode key change rest

/-- A node that was taken is given back where a request is rejected. -/
def releaseNode (ctx : Context) : Context :=
  match ctx.node with
  | none => ctx
  | some key => { ctx with
      queue := changeNode key (fun lr => { lr with count := lr.count - 1 }) ctx.queue, node := none }

/-- The body of the loop of `ngx_http_limit_req_account`; the excess is that of the node. -/
def accountNode (w now : Nat) (ctx : Context) : Context × Option Nat :=
  match ctx.node with
  | none => (ctx, none)
  | some key =>
    let charge := fun lr : Node =>
      { lr with last := now, excess := nextExcess w ctx.rate now lr, count := lr.count - 1 }
    ({ ctx with queue := changeNode key charge ctx.queue, node := none },
      (ctx.queue.find? fun lr => lr.key = key).map (nextExcess w ctx.rate now))

/-- One limit of a location as a request meets it: the value of its key, if it can be
evaluated, and whether the allocations for it succeed. -/
structure Check where
  limit : Limit
  value : Option Bytes
  allocs : Bool × Bool

abbrev Zones := Nat → Context

def delayOf (w rate excess : Nat) : Nat := excess * 1000 % 2 ^ w / rate

/-- The loop of `ngx_http_limit_req_account` over the limits from the last to the first. -/
def accountLoop (w now : Nat) : List Check → Zones → Nat → Zones × Nat
  | [], zones, maxDelay => (zones, maxDelay)
  | check :: rest, zones, maxDelay =>
    let (ctx, charged) := accountNode w now (zones check.limit.zone)
    let zones := update zones check.limit.zone ctx
    match charged with
    | none => accountLoop w now rest zones maxDelay
    | some excess =>
      if check.limit.nodelay then accountLoop w now rest zones maxDelay
      else accountLoop w now rest zones (max maxDelay (delayOf w ctx.rate excess))

/-- `limit` is the limit with which the loop of the handler ended. -/
def ngxHttpLimitReqAccount (w now : Nat) (limits : List Check) (excess : Nat) (limit : Limit)
    (zones : Zones) : Zones × Nat :=
  let maxDelay := if excess = 0 ∨ limit.nodelay then 0 else delayOf w (zones limit.zone).rate excess
  accountLoop w now limits.reverse zones maxDelay

/-- How the loop of the handler ends: a key could not be evaluated, or `rc`, `n`, `excess`
and `limit` have these values. -/
inductive LoopEnd where
  | failed
  | ended (rc : Rc) (n excess : Nat) (limit : Option Limit)

/-- An empty key and one of more than 65535 bytes are passed over. -/
def limited (key : Bytes) : Bool := key.length ≠ 0 ∧ key.length ≤ 65535

/-- The loop of `ngx_http_limit_req_handler`; `crc` is `ngx_crc32_short`. -/
def limitLoop (crc : Bytes → Nat) (w now : Nat) :
    List Check → Rc → Nat → Nat → Option Limit → Zones → Zones × LoopEnd
  | [], rc, n, excess, limit, zones => (zones, .ended rc n excess limit)
  | check :: rest, rc, n, excess, _, zones =>
    match check.value with
    | none => (zones, .failed)
    | some key =>
      if limited key then
        let (rc, excess, ctx) :=
          ngxHttpLimitReqLookup w now check.limit (zones check.limit.zone) (crc key, key)
          rest.isEmpty check.allocs
        let zones := update zones check.limit.zone ctx
        if rc ≠ .again then (zones, .ended rc n excess (some check.limit))
        else limitLoop crc w now rest rc (n + 1) excess (some check.limit) zones
      else limitLoop crc w now rest rc (n + 1) excess (some check.limit) zones

/-- What the handler returns; `again` with the delay of the timer. -/
inductive Result where
  | declined
  | again (delay : Nat)
  | statusCode
  | internalServerError

def releaseLoop : List Check → Zones → Zones
  | [], zones => zones
  | check :: rest, zones =>
    releaseLoop rest (update zones check.limit.zone (releaseNode (zones check.limit.zone)))

/-- The zones, `r->main->limit_req_set` and the result. `readEvent` says whether
`ngx_handle_read_event` succeeds. -/
def ngxHttpLimitReqHandler (crc : Bytes → Nat) (w now : Nat)
    (limitReqSet readEvent : Bool) (checks : List Check)
    (zones : Zones) : Zones × Bool × Result :=
  if limitReqSet then (zones, limitReqSet, .declined)
  else
    match limitLoop crc w now checks .declined 0 0 none zones with
    | (zones, .failed) => (zones, limitReqSet, .internalServerError)
    | (zones, .ended rc n excess limit) =>
      if rc = .declined then (zones, limitReqSet, .declined)
      else if rc = .busy ∨ rc = .error then
        (releaseLoop (checks.take n).reverse zones, true, .statusCode)
      else
        match limit with
        | none => (zones, true, .declined)
        | some limit =>
          let excess := if rc = .again then 0 else excess
          let (zones, delay) := ngxHttpLimitReqAccount w now (checks.take n) excess limit zones
          if delay = 0 then (zones, true, .declined)
          else if readEvent then (zones, true, .again delay)
          else (zones, true, .internalServerError)

end ServerCore.NginxHttpLimitReq
