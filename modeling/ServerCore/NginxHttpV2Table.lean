import ServerCore.RingBuffer

/-!
# The HPACK dynamic table of nginx

`h2c->hpack` is two rings: `entries`, an array of pointers to entry records
addressed by the counters `added`, `deleted` and `reused` modulo `allocated`,
and `storage`, 4096 bytes into which names and values are copied around the
end. An entry record is allocated once and reused after its entry is evicted,
so records are modelled as a heap of their own and `entries` holds their
addresses. The counters are naturals; all of their uses are differences and
remainders. Memory from `ngx_palloc` keeps whatever it held before, and every
allocation succeeds.
-/

namespace ServerCore.NginxHttpV2Table

open RingBuffer Function

abbrev Byte := UInt8

abbrev Bytes := List Byte

/-- `ngx_http_v2_header_t` as the callers see it: a name and a value. -/
structure Header where
  name : Bytes
  value : Bytes
  deriving DecidableEq

def ngxHttpV2TableSizeLimit : Nat := 4096

/-- The bytes of `ngx_string(text)`. -/
def ngxString (text : String) : Bytes := text.toList.map fun char => UInt8.ofNat char.toNat

def staticHeader (name value : String) : Header := ⟨ngxString name, ngxString value⟩

def ngxHttpV2StaticTable : List Header :=
  [staticHeader ":authority" "",
   staticHeader ":method" "GET",
   staticHeader ":method" "POST",
   staticHeader ":path" "/",
   staticHeader ":path" "/index.html",
   staticHeader ":scheme" "http",
   staticHeader ":scheme" "https",
   staticHeader ":status" "200",
   staticHeader ":status" "204",
   staticHeader ":status" "206",
   staticHeader ":status" "304",
   staticHeader ":status" "400",
   staticHeader ":status" "404",
   staticHeader ":status" "500",
   staticHeader "accept-charset" "",
   staticHeader "accept-encoding" "gzip, deflate",
   staticHeader "accept-language" "",
   staticHeader "accept-ranges" "",
   staticHeader "accept" "",
   staticHeader "access-control-allow-origin" "",
   staticHeader "age" "",
   staticHeader "allow" "",
   staticHeader "authorization" "",
   staticHeader "cache-control" "",
   staticHeader "content-disposition" "",
   staticHeader "content-encoding" "",
   staticHeader "content-language" "",
   staticHeader "content-length" "",
   staticHeader "content-location" "",
   staticHeader "content-range" "",
   staticHeader "content-type" "",
   staticHeader "cookie" "",
   staticHeader "date" "",
   staticHeader "etag" "",
   staticHeader "expect" "",
   staticHeader "expires" "",
   staticHeader "from" "",
   staticHeader "host" "",
   staticHeader "if-match" "",
   staticHeader "if-modified-since" "",
   staticHeader "if-none-match" "",
   staticHeader "if-range" "",
   staticHeader "if-unmodified-since" "",
   staticHeader "last-modified" "",
   staticHeader "link" "",
   staticHeader "location" "",
   staticHeader "max-forwards" "",
   staticHeader "proxy-authenticate" "",
   staticHeader "proxy-authorization" "",
   staticHeader "range" "",
   staticHeader "referer" "",
   staticHeader "refresh" "",
   staticHeader "retry-after" "",
   staticHeader "server" "",
   staticHeader "set-cookie" "",
   staticHeader "strict-transport-security" "",
   staticHeader "transfer-encoding" "",
   staticHeader "user-agent" "",
   staticHeader "vary" "",
   staticHeader "via" "",
   staticHeader "www-authenticate" ""]

/-- An entry record: `data` fields are offsets from `storage`, up to and
including its end. -/
structure Entry where
  nameLen : Nat
  nameData : Nat
  valueLen : Nat
  valueData : Nat

/-- `h2c->hpack`. `records` is the heap of entry records, `next` the address of
the next one that `ngx_palloc` returns, `ready` is `entries != NULL`. -/
structure Hpack where
  ready : Bool
  entries : Nat → Nat
  records : Nat → Entry
  next : Nat
  added : Nat
  deleted : Nat
  reused : Nat
  allocated : Nat
  size : Nat
  free : Nat
  storage : Nat → Byte
  pos : Nat

/-- A connection before its first header block; the contents of memory not yet
allocated are arbitrary. -/
def zeroed (entries : Nat → Nat) (records : Nat → Entry) (storage : Nat → Byte) : Hpack where
  ready := false
  entries := entries
  records := records
  next := 0
  added := 0
  deleted := 0
  reused := 0
  allocated := 0
  size := 0
  free := 0
  storage := storage
  pos := 0

def bytesAt (storage : Nat → Byte) (data len : Nat) : Bytes :=
  (List.range len).map fun offset => storage (data + offset)

/-- The copy out of `storage` that continues at its start when a string crosses
the end. -/
def copyOut (storage : Nat → Byte) (data len : Nat) : Bytes :=
  let rest := ngxHttpV2TableSizeLimit - data
  if len > rest then bytesAt storage data rest ++ bytesAt storage 0 (len - rest)
  else bytesAt storage data len

/-- `ngx_http_v2_get_indexed_header`: the new `h2c->state.header`, or `none` for
`NGX_ERROR`. -/
def ngxHttpV2GetIndexedHeader (hpack : Hpack) (header : Header) (index : Nat) (nameOnly : Bool) :
    Option Header :=
  if index = 0 then none
  else
    match ngxHttpV2StaticTable[index - 1]? with
    | some entry => some entry
    | none =>
      let index := index - 1 - ngxHttpV2StaticTable.length
      if index < hpack.added - hpack.deleted then
        let entry := hpack.records (hpack.entries ((hpack.added - index - 1) % hpack.allocated))
        let name := copyOut hpack.storage entry.nameData entry.nameLen
        if nameOnly then some { header with name := name }
        else some ⟨name, copyOut hpack.storage entry.valueData entry.valueLen⟩
      else none

def evictOne (hpack : Hpack) : Hpack :=
  let entry := hpack.records (hpack.entries (hpack.deleted % hpack.allocated))
  { hpack with
    deleted := hpack.deleted + 1
    free := hpack.free + (32 + entry.nameLen + entry.valueLen) }

/-- `while (needed > free)`; `none` is a loop that needs more than `fuel`
iterations. -/
def evictWhile : Nat → Int → Hpack → Option Hpack
  | fuel, needed, hpack =>
    if needed > hpack.free then
      match fuel with
      | 0 => none
      | fuel + 1 => evictWhile fuel needed (evictOne hpack)
    else some hpack

/-- `ngx_http_v2_table_account`: `true` is `NGX_OK`, `false` is `NGX_DECLINED`. -/
def ngxHttpV2TableAccount (fuel : Nat) (hpack : Hpack) (size : Nat) : Option (Bool × Hpack) :=
  let size := size + 32
  if size ≤ hpack.free then some (true, { hpack with free := hpack.free - size })
  else if size > hpack.size then
    some (false, { hpack with deleted := hpack.added, free := hpack.size })
  else
    match fuel with
    | 0 => none
    | fuel + 1 => do
      let evicted ← evictWhile fuel size (evictOne hpack)
      some (true, { evicted with free := evicted.free - size })

/-- The first part of `ngx_http_v2_add_header`, on a connection without a table. -/
def prepare (hpack : Hpack) : Hpack :=
  if hpack.ready then hpack
  else
    { hpack with
      ready := true
      allocated := 64
      size := ngxHttpV2TableSizeLimit
      free := ngxHttpV2TableSizeLimit
      pos := 0 }

/-- The record of the new entry: a fresh one, or the oldest that was evicted and
not yet reused. -/
def takeRecord (hpack : Hpack) : Nat × Hpack :=
  if hpack.reused = hpack.deleted then (hpack.next, { hpack with next := hpack.next + 1 })
  else
    (hpack.entries (hpack.reused % hpack.allocated), { hpack with reused := hpack.reused + 1 })

/-- A string copied into `storage` at `pos`, of which `avail` bytes are left
before the end: the new storage and the new `pos`. -/
def copyIn (storage : Nat → Byte) (pos avail : Nat) (text : Bytes) : (Nat → Byte) × Nat :=
  if avail ≥ text.length then (copyTo storage pos text, pos + text.length)
  else
    (copyTo (copyTo storage pos (text.take avail)) 0 (text.drop avail), text.length - avail)

/-- Both copies of `ngx_http_v2_add_header`. After a name that crossed the end,
`avail` is taken as the whole table less the name. -/
def store (hpack : Hpack) (record : Nat) (header : Header) : Hpack :=
  let avail := ngxHttpV2TableSizeLimit - hpack.pos
  let named := copyIn hpack.storage hpack.pos avail header.name
  let rest := (if avail ≥ header.name.length then avail else ngxHttpV2TableSizeLimit) -
    header.name.length
  let valued := copyIn named.1 named.2 rest header.value
  { hpack with
    records := update hpack.records record
      { nameLen := header.name.length, nameData := hpack.pos,
        valueLen := header.value.length, valueData := named.2 }
    storage := valued.1
    pos := valued.2 }

/-- A full array of entries moves to one with 64 more slots, its oldest live
entry first. -/
def grow (hpack : Hpack) : Hpack :=
  if hpack.allocated = hpack.added - hpack.deleted then
    let index := hpack.deleted % hpack.allocated
    let moved := fun slot =>
      if slot < hpack.allocated - index then hpack.entries (index + slot)
      else if slot < hpack.allocated then hpack.entries (slot - (hpack.allocated - index))
      else hpack.entries slot
    { hpack with
      entries := moved
      added := hpack.allocated
      deleted := 0
      reused := 0
      allocated := hpack.allocated + 64 }
  else hpack

def push (hpack : Hpack) (record : Nat) : Hpack :=
  { hpack with
    entries := update hpack.entries (hpack.added % hpack.allocated) record
    added := hpack.added + 1 }

def ngxHttpV2AddHeader (fuel : Nat) (hpack : Hpack) (header : Header) : Option Hpack := do
  let (fits, accounted) ← ngxHttpV2TableAccount fuel (prepare hpack)
    (header.name.length + header.value.length)
  if fits then
    let (record, taken) := takeRecord accounted
    some (push (grow (store taken record header)) record)
  else some accounted

/-- `ngx_http_v2_table_size`: `false` is `NGX_ERROR`, for a size above the limit. -/
def ngxHttpV2TableSize (fuel : Nat) (hpack : Hpack) (size : Nat) : Option (Bool × Hpack) :=
  if size > ngxHttpV2TableSizeLimit then some (false, hpack)
  else do
    let needed : Int := hpack.size - size
    let evicted ← evictWhile fuel needed hpack
    some (true, { evicted with size := size, free := (evicted.free - needed : Int).toNat })

end ServerCore.NginxHttpV2Table
