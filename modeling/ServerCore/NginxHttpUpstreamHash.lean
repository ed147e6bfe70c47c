import ServerCore.NginxUpstreamRoundRobin
import Mathlib.Data.List.Sort

/-!
# The consistent hash balancer of nginx

`hash ... consistent` puts 160 points for each unit of a peer's weight on a
ring and sends a key to the peer whose point comes next. The CRC-32 is a
parameter, `ngx_crc32_update` with the state it starts from. A point holds the
name that its pointer leads to. The number of points is a natural: a ring that
overflows a word has equal hashes. The points of a ring stand in memory as a
function from their indexes, and `ngx_qsort` is a stable sort.
-/

namespace ServerCore.NginxHttpUpstreamHash

open NginxUpstreamRoundRobin

abbrev Byte := UInt8

abbrev Bytes := List Byte

abbrev Hash := BitVec 32

/-- `ngx_crc32_update`. -/
abbrev Update := Hash → Bytes → Hash

structure ChashPeer where
  server : Bytes
  peer : Peer

structure ChashPoint where
  hash : Hash
  server : Bytes

structure ChashPoints where
  number : Nat
  point : Nat → ChashPoint

def ngxTolower (c : Byte) : Byte := if 'A'.toUInt8 ≤ c ∧ c ≤ 'Z'.toUInt8 then c ||| 0x20 else c

/-- `server->len >= 5 && ngx_strncasecmp(server->data, "unix:", 5) == 0`. -/
def isUnix (server : Bytes) : Bool :=
  (server.take 5).map ngxTolower = "unix:".toList.map fun c => c.toUInt8

/-- The loop that reads a name from its end: digits, and a colon before them. -/
def splitPort : Bytes → Bytes → Option (Bytes × Bytes)
  | [], _ => none
  | c :: before, port =>
    if c = ':'.toUInt8 then some (before.reverse, port)
    else if c < '0'.toUInt8 ∨ c > '9'.toUInt8 then none
    else splitPort before (c :: port)

def hostPort (server : Bytes) : Bytes × Bytes :=
  if isUnix server then (server.drop 5, [])
  else (splitPort server.reverse []).getD (server, [])

def crc32Init : Hash := 0xffffffff

def crc32Final (hash : Hash) : Hash := hash ^^^ 0xffffffff

def baseHash (update : Update) (server : Bytes) : Hash :=
  let (host, port) := hostPort server
  update (update (update crc32Init host) [0]) port

/-- `prev_hash.byte`, the lowest byte first. -/
def hashBytes (hash : Hash) : Bytes :=
  [⟨hash.extractLsb' 0 8⟩, ⟨hash.extractLsb' 8 8⟩, ⟨hash.extractLsb' 16 8⟩, ⟨hash.extractLsb' 24 8⟩]

def chainPoints (update : Update) (server : Bytes) : Nat → Hash → List ChashPoint
  | 0, _ => []
  | npoints + 1, prevHash =>
    let hash := crc32Final (update (baseHash update server) (hashBytes prevHash))
    ⟨hash, server⟩ :: chainPoints update server npoints hash

def peerPoints (update : Update) (peer : ChashPeer) : List ChashPoint :=
  chainPoints update peer.server (peer.peer.weight * 160).toNat 0

def ringPoints (update : Update) (peers : List ChashPeer) : List ChashPoint :=
  peers.flatMap (peerPoints update)

/-- `ngx_http_upstream_chash_cmp_points(one, two) <= 0`. -/
def cmpPoints (one two : ChashPoint) : Bool := one.hash ≤ two.hash

def noPoint : ChashPoint := ⟨0, []⟩

/-- One turn of the loop that drops repeated hashes, for the given `j`. -/
def dropRepeat (cells : Nat → ChashPoint) (i j : Nat) : (Nat → ChashPoint) × Nat :=
  if (cells i).hash ≠ (cells j).hash then (Function.update cells (i + 1) (cells j), i + 1)
  else (cells, i)

/-- The loop from `j` on, with the number of turns it has left. -/
def dropRepeats : Nat → (Nat → ChashPoint) → Nat → Nat → (Nat → ChashPoint) × Nat
  | 0, cells, i, _ => (cells, i)
  | turns + 1, cells, i, j =>
    let next := dropRepeat cells i j
    dropRepeats turns next.1 next.2 (j + 1)

/-- `ngx_http_upstream_init_chash`; `none` is an upstream without peers, which
`ngx_http_upstream_init_round_robin` refuses. -/
def ngxHttpUpstreamInitChash (update : Update) (peers : List ChashPeer) : Option ChashPoints :=
  if peers.length = 0 then none
  else
    let points := (ringPoints update peers).mergeSort cmpPoints
    let (cells, i) := dropRepeats (points.length - 1) (fun k => points.getD k noPoint) 0 1
    some { number := i + 1, point := cells }

/-- The loop of `ngx_http_upstream_find_chash_point`, which needs no more turns
than there are points between `i` and `j`. -/
def findFrom (points : ChashPoints) (hash : Hash) : Nat → Nat → Nat → Nat
  | 0, i, _ => i
  | turns + 1, i, j =>
    if i < j then
      let k := (i + j) / 2
      if hash > (points.point k).hash then findFrom points hash turns (k + 1) j
      else if hash < (points.point k).hash then findFrom points hash turns i k
      else k
    else i

def ngxHttpUpstreamFindChashPoint (points : ChashPoints) (hash : Hash) : Nat :=
  findFrom points hash points.number 0 points.number

/-- What `ngx_http_upstream_hash_peer_data_t` has of its own, and the bitmap of
the peers that were tried. -/
structure ChashData where
  tried : List Word
  hash : Hash
  tries : Nat

/-- `ngx_http_upstream_init_chash_peer` for a key with the given hash; the bitmap
comes from the balancer. -/
def ngxHttpUpstreamInitChashPeer (points : ChashPoints) (tried : List Word) (hash : Hash) :
    ChashData where
  tried := tried
  hash := BitVec.ofNat 32 (ngxHttpUpstreamFindChashPoint points hash)
  tries := 0

/-- `ngx_strncmp(one, two, n) == 0`: a zero byte ends both. -/
def ngxStrncmp : Nat → Bytes → Bytes → Bool
  | 0, _, _ => true
  | n + 1, c :: one, d :: two => c = d && (c = 0 || ngxStrncmp n one two)
  | _ + 1, _, _ => false

def sameServer (one two : Bytes) : Bool :=
  one.length = two.length && ngxStrncmp two.length one two

/-- The five `continue` conditions of `ngx_http_upstream_get_chash_peer`. -/
def chashSkipped (now : Int) (tried : List Word) (server : Bytes) (index : Nat)
    (peer : ChashPeer) : Bool :=
  skipped now tried index peer.peer || !sameServer peer.server server

def ChashPeer.change (step : Peer → Peer) (peer : ChashPeer) : ChashPeer :=
  { peer with peer := step peer.peer }

structure ChashScan where
  peer : List ChashPeer
  best : Option Best
  total : Int

/-- The loop over the peers from the one with number `index` on. -/
def chashScan (now : Int) (tried : List Word) (server : Bytes) :
    Nat → List ChashPeer → Option Best → Int → ChashScan
  | _, [], best, total => ⟨[], best, total⟩
  | index, peer :: rest, best, total =>
    if chashSkipped now tried server index peer then
      let tail := chashScan now tried server (index + 1) rest best total
      { tail with peer := peer :: tail.peer }
    else
      let tail := chashScan now tried server (index + 1) rest
        (Best.improve best index peer.peer.bump) (ngxInt (total + peer.peer.effectiveWeight))
      { tail with peer := peer.change Peer.bump :: tail.peer }

/-- How the request goes on: `chosen` is the number of the peer, none for `NGX_BUSY`. -/
structure ChashChoice where
  chosen : Option Nat
  data : ChashData
  peer : List ChashPeer

/-- The loop over the points; `none` is a loop that takes more than `fuel` turns. -/
def getFrom (now : Int) (points : ChashPoints) : Nat → ChashData → List ChashPeer → Option ChashChoice
  | 0, _, _ => none
  | fuel + 1, data, peers =>
    let server := (points.point (data.hash.toNat % points.number)).server
    let scanned := chashScan now data.tried server 0 peers none 0
    match scanned.best with
    | some best =>
      some
        { chosen := some best.p
          data := { data with tried := markTried data.tried best.p }
          peer := scanned.peer.modify best.p
            (ChashPeer.change fun peer => (peer.settle now scanned.total).acquire) }
    | none =>
      let data := { data with hash := data.hash + 1, tries := data.tries + 1 }
      if data.tries ≥ points.number then some ⟨none, data, scanned.peer⟩
      else getFrom now points fuel data scanned.peer

def ngxHttpUpstreamGetChashPeer (now : Int) (points : ChashPoints) (data : ChashData)
    (peers : List ChashPeer) : Option ChashChoice :=
  getFrom now points (points.number + 1) data peers

end ServerCore.NginxHttpUpstreamHash
