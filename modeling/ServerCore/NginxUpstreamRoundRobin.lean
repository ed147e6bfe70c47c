import Mathlib.Algebra.BigOperators.Group.List.Basic
import Mathlib.Tactic.Linarith

/-!
# The nginx round robin balancer

`ngx_http_upstream_init_round_robin` builds one list of peers from the servers
of an upstream and a second one from its backup servers; every request keeps
its own `ngx_http_upstream_rr_peer_data_t` (the list it is on, its current peer
and the bitmap of the peers it has tried). Addresses, names and the sessions of
TLS are left out: no decision of the balancer reads them. Sums of weights wrap as
`ngx_int_t` does, counters are naturals.
-/

namespace ServerCore.NginxUpstreamRoundRobin

abbrev Word := BitVec 64

/-- What an `ngx_int_t` holds of a sum. -/
def ngxInt (value : Int) : Int := value.bmod (2 ^ 64)

structure Peer where
  currentWeight : Int
  effectiveWeight : Int
  weight : Int
  conns : Nat
  maxConns : Nat
  fails : Nat
  accessed : Int
  checked : Int
  maxFails : Nat
  failTimeout : Int
  down : Bool
  deriving DecidableEq

/-- `ngx_http_upstream_rr_peers_t`; `number` is the length of the list. -/
structure Peers where
  single : Bool
  peer : List Peer

/-- The primary list and, in its `next` field, the list of backup servers. -/
structure Upstream where
  primary : Peers
  backup : Option Peers

/-- The value of `rrp->peers`. -/
inductive ListId
  | primary
  | backup
  deriving DecidableEq

def Upstream.peers (upstream : Upstream) : ListId → Peers
  | .primary => upstream.primary
  | .backup => upstream.backup.getD { single := false, peer := [] }

def Upstream.next (upstream : Upstream) : ListId → Option Peers
  | .primary => upstream.backup
  | .backup => none

def Upstream.setPeer (upstream : Upstream) (list : List Peer) : ListId → Upstream
  | .primary => { upstream with primary := { upstream.primary with peer := list } }
  | .backup => { upstream with backup := upstream.backup.map fun peers => { peers with peer := list } }

/-- `ngx_http_upstream_rr_peer_data_t`, with `pc->tries` of the connection it
belongs to. -/
structure PeerData where
  peers : ListId
  current : Option (ListId × Nat)
  tried : List Word
  tries : Nat

/-- One `server` directive. `ngx_http_upstream_server` rejects a zero weight, and `ngx_atoi`
one that is no `ngx_int_t`. -/
structure Server where
  naddrs : Nat
  weight : Int
  maxConns : Nat
  maxFails : Nat
  failTimeout : Int
  down : Bool
  backup : Bool
  weight_pos : 1 ≤ weight
  weight_fits : weight < 2 ^ 63

def Server.toPeer (server : Server) : Peer where
  currentWeight := 0
  effectiveWeight := server.weight
  weight := server.weight
  conns := 0
  maxConns := server.maxConns
  fails := 0
  accessed := 0
  checked := 0
  maxFails := server.maxFails
  failTimeout := server.failTimeout
  down := server.down

def peersOf (servers : List Server) (backup : Bool) : List Peer :=
  (servers.filter fun server => server.backup = backup).flatMap fun server =>
    List.replicate server.naddrs server.toPeer

/-- The branch of `ngx_http_upstream_init_round_robin` for a configured upstream;
`none` is the error "no servers in upstream". -/
def ngxHttpUpstreamInitRoundRobin (servers : List Server) : Option Upstream :=
  let primary := peersOf servers false
  let backup := peersOf servers true
  if primary.length = 0 then none
  else if backup.length = 0 then
    some { primary := { single := primary.length = 1, peer := primary }, backup := none }
  else
    some { primary := { single := false, peer := primary },
           backup := some { single := false, peer := backup } }

/-- An upstream defined implicitly by `proxy_pass`: `naddrs` resolved addresses,
every peer with the defaults of a server. -/
def implicitUpstream (naddrs : Nat) : Upstream :=
  let peer : Peer :=
    { currentWeight := 0, effectiveWeight := 1, weight := 1, conns := 0, maxConns := 0, fails := 0,
      accessed := 0, checked := 0, maxFails := 1, failTimeout := 10, down := false }
  { primary := { single := naddrs = 1, peer := List.replicate naddrs peer }, backup := none }

/-- `8 * sizeof(uintptr_t)`. -/
def wordBits : Nat := 64

/-- The words `ngx_http_upstream_init_round_robin_peer` clears for the bitmap: the
field `data` of the request when the larger list fits in one word, an array
otherwise. -/
def triedWords (upstream : Upstream) : Nat :=
  let primary := upstream.primary.peer.length
  let number := match upstream.backup with
    | some backup => if backup.peer.length > primary then backup.peer.length else primary
    | none => primary
  if number ≤ wordBits then 1 else (number + (wordBits - 1)) / wordBits

def ngxHttpUpstreamInitRoundRobinPeer (upstream : Upstream) : PeerData where
  peers := .primary
  current := none
  tried := List.replicate (triedWords upstream) 0
  tries := upstream.primary.peer.length +
    match upstream.backup with
    | some backup => backup.peer.length
    | none => 0

def isTried (tried : List Word) (index : Nat) : Bool :=
  (tried.getD (index / wordBits) 0 &&& 1 <<< (index % wordBits)) != 0

def markTried (tried : List Word) (index : Nat) : List Word :=
  tried.set (index / wordBits)
    (tried.getD (index / wordBits) 0 ||| 1 <<< (index % wordBits))

/-- The four `continue` conditions of `ngx_http_upstream_get_peer`. -/
def skipped (now : Int) (tried : List Word) (index : Nat) (peer : Peer) : Bool :=
  isTried tried index || peer.down ||
    (peer.maxFails != 0 && decide (peer.fails ≥ peer.maxFails) &&
      decide (now - peer.checked ≤ peer.failTimeout)) ||
    (peer.maxConns != 0 && decide (peer.conns ≥ peer.maxConns))

/-- What the loop does to a peer it does not skip. The effective weight enters
the sums before it creeps up. -/
def Peer.bump (peer : Peer) : Peer :=
  { peer with
    currentWeight := ngxInt (peer.currentWeight + peer.effectiveWeight)
    effectiveWeight :=
      if peer.effectiveWeight < peer.weight then peer.effectiveWeight + 1
      else peer.effectiveWeight }

/-- The running choice: the index `p` of `best` and its current weight. -/
structure Best where
  p : Nat
  currentWeight : Int

def Best.improve (best : Option Best) (index : Nat) (peer : Peer) : Option Best :=
  match best with
  | none => some ⟨index, peer.currentWeight⟩
  | some best =>
    if peer.currentWeight > best.currentWeight then some ⟨index, peer.currentWeight⟩
    else some best

structure Scan where
  peer : List Peer
  best : Option Best
  total : Int

/-- The loop of `ngx_http_upstream_get_peer` from the peer with number `index` on. -/
def scan (now : Int) (tried : List Word) : Nat → List Peer → Option Best → Int → Scan
  | _, [], best, total => ⟨[], best, total⟩
  | index, peer :: rest, best, total =>
    if skipped now tried index peer then
      let tail := scan now tried (index + 1) rest best total
      { tail with peer := peer :: tail.peer }
    else
      let tail := scan now tried (index + 1) rest (Best.improve best index peer.bump)
        (ngxInt (total + peer.effectiveWeight))
      { tail with peer := peer.bump :: tail.peer }

/-- What happens to the chosen peer after the loop. -/
def Peer.settle (now total : Int) (peer : Peer) : Peer :=
  { peer with
    currentWeight := ngxInt (peer.currentWeight - total)
    checked := if now - peer.checked > peer.failTimeout then now else peer.checked }

structure Selection where
  chosen : Option Nat
  tried : List Word
  peer : List Peer

def ngxHttpUpstreamGetPeer (now : Int) (tried : List Word) (list : List Peer) : Selection :=
  let scanned := scan now tried 0 list none 0
  match scanned.best with
  | none => ⟨none, tried, scanned.peer⟩
  | some best =>
    ⟨some best.p, markTried tried best.p,
      scanned.peer.modify best.p (Peer.settle now scanned.total)⟩

def Peer.acquire (peer : Peer) : Peer := { peer with conns := peer.conns + 1 }

/-- How a locked section of `ngx_http_upstream_get_round_robin_peer` ends: with a
peer, with the request moved to the backup list, or with `NGX_BUSY`. -/
inductive Outcome
  | ok
  | retry
  | busy
  deriving DecidableEq

structure Section where
  outcome : Outcome
  upstream : Upstream
  data : PeerData

/-- The choice a section makes on its list, before `failed` is considered. -/
def choose (now : Int) (peers : Peers) (tried : List Word) : Selection :=
  if peers.single then
    match peers.peer with
    | [] => ⟨none, tried, []⟩
    | peer :: rest =>
      if peer.down || (peer.maxConns != 0 && decide (peer.conns ≥ peer.maxConns)) then
        ⟨none, tried, peer :: rest⟩
      else ⟨some 0, tried, peer :: rest⟩
  else ngxHttpUpstreamGetPeer now tried peers.peer

/-- The part of `ngx_http_upstream_get_round_robin_peer` that runs under the lock
of one list. -/
def getSection (now : Int) (upstream : Upstream) (data : PeerData) : Section :=
  let selection := choose now (upstream.peers data.peers) data.tried
  match selection.chosen with
  | some index =>
    let held := selection.peer.modify index Peer.acquire
    ⟨.ok, upstream.setPeer held data.peers,
      { data with current := some (data.peers, index), tried := selection.tried }⟩
  | none =>
    match upstream.next data.peers with
    | some backup =>
      let words := (backup.peer.length + (wordBits - 1)) / wordBits
      ⟨.retry, upstream,
        { data with
          peers := .backup
          tried := List.replicate words 0 ++ data.tried.drop words }⟩
    | none => ⟨.busy, upstream, data⟩

/-- `ngx_http_upstream_get_round_robin_peer`: `true` is `NGX_OK` and `false` is
`NGX_BUSY`. The backup list has no next list, so the call nests once. -/
def ngxHttpUpstreamGetRoundRobinPeer (now : Int) (upstream : Upstream) (data : PeerData) :
    Bool × Upstream × PeerData :=
  let first := getSection now upstream data
  match first.outcome with
  | .ok => (true, first.upstream, first.data)
  | .busy => (false, first.upstream, first.data)
  | .retry =>
    let second := getSection now first.upstream first.data
    (second.outcome = .ok, second.upstream, second.data)

/-- A failure of the peer: its effective weight drops by a `max_fails`-th of its
weight and is held at zero. -/
def Peer.fail (now : Int) (peer : Peer) : Peer :=
  let lowered :=
    if peer.maxFails ≠ 0 then peer.effectiveWeight - peer.weight / peer.maxFails
    else peer.effectiveWeight
  { peer with
    fails := peer.fails + 1
    accessed := now
    checked := now
    effectiveWeight := if lowered < 0 then 0 else lowered }

/-- A success of the peer: it counts as live again if its check passed. -/
def Peer.pass (peer : Peer) : Peer :=
  { peer with fails := if peer.accessed < peer.checked then 0 else peer.fails }

def Peer.release (peer : Peer) : Peer := { peer with conns := peer.conns - 1 }

/-- `ngx_http_upstream_free_round_robin_peer`; `failed` is `state & NGX_PEER_FAILED`. -/
def ngxHttpUpstreamFreeRoundRobinPeer (now : Int) (failed : Bool) (upstream : Upstream)
    (data : PeerData) : Upstream × PeerData :=
  match data.current with
  | none => (upstream, data)
  | some (list, index) =>
    if (upstream.peers data.peers).single then
      (upstream.setPeer ((upstream.peers list).peer.modify index Peer.release) list,
        { data with tries := 0 })
    else
      let judge := fun peer : Peer => if failed then peer.fail now else peer.pass
      (upstream.setPeer
          ((upstream.peers list).peer.modify index fun peer => (judge peer).release) list,
        { data with tries := data.tries - 1 })

end ServerCore.NginxUpstreamRoundRobin
