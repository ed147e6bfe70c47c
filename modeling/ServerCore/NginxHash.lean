import ServerCore.BlockMemory

/-!
# The static hashes of nginx

`ngx_hash_init` chooses a number of buckets, counts the bytes of every bucket in
an array of 16-bit numbers, cuts one block of memory into the buckets and fills
them; a bucket is a row of elements behind which a NULL value stands. Pointers
are naturals, memory is a function to bytes, and every allocation succeeds.
-/

namespace ServerCore.NginxHash

open BlockMemory Function

abbrev Byte := UInt8

abbrev Bytes := List Byte

/-- `ngx_hash_key_t`; `null` is `key.data == NULL`, where `key.len` is still set. -/
structure HashKey where
  null : Bool
  key : Bytes
  keyHash : Nat
  value : Nat
  deriving DecidableEq

/-- `ngx_hash_init_t`, with `ngx_cacheline_size`. -/
structure HashInit where
  maxSize : Nat
  bucketSize : Nat
  cacheline : Nat

/-- `hinit->hash` and the memory behind it. -/
structure Hash where
  buckets : Nat → Nat
  size : Nat
  memory : Nat → Byte

/-- The values of a `u_short`. -/
def shortLimit : Nat := 65536

/-- `ngx_align`, for a power of two. -/
def ngxAlign (d a : Nat) : Nat := (d + (a - 1)) / a * a

def hashEltSize (name : HashKey) : Nat := 8 + ngxAlign (name.key.length + 2) 8

def ngxTolower (c : Byte) : Byte := if 'A'.toUInt8 ≤ c ∧ c ≤ 'Z'.toUInt8 then c ||| 0x20 else c

def ngxStrlow (text : Bytes) : Bytes := text.map ngxTolower

/-- `test[key] = (u_short) (test[key] + NGX_HASH_ELT_SIZE(&names[n]))`. -/
def addTest (size : Nat) (test : Nat → Nat) (name : HashKey) : Nat → Nat :=
  if name.null then test
  else
    update test (name.keyHash % size)
      ((test (name.keyHash % size) + hashEltSize name) % shortLimit)

/-- Whether the loop over the names reaches `found` for a number of buckets. -/
def trySize (size bucketSize : Nat) : List HashKey → (Nat → Nat) → Bool
  | [], _ => true
  | name :: rest, test =>
    let test' := addTest size test name
    if !name.null ∧ test' (name.keyHash % size) > bucketSize % shortLimit then false
    else trySize size bucketSize rest test'

/-- `bucket_size`, a `size_t`. -/
def innerSize (hinit : HashInit) : Nat := (hinit.bucketSize + 2 ^ 64 - 8) % 2 ^ 64

def startSize (hinit : HashInit) (nelts : Nat) : Nat :=
  let start := nelts / (innerSize hinit / 16)
  let start := if start ≠ 0 then start else 1
  if hinit.maxSize > 10000 ∧ nelts ≠ 0 ∧ hinit.maxSize / nelts < 100 then hinit.maxSize - 1000
  else start

/-- The number of buckets: the first one that the loop finds, or `max_size`. -/
def chooseSize (hinit : HashInit) (names : List HashKey) : Nat :=
  let start := startSize hinit names.length
  ((List.range' start (hinit.maxSize + 1 - start)).find? fun size =>
    trySize size (innerSize hinit) names fun _ => 0).getD hinit.maxSize

/-- The bytes of every bucket, the word of its end included. -/
def countBytes (size : Nat) (names : List HashKey) : Nat → Nat :=
  names.foldl (addTest size) fun _ => 8

/-- `test[i]` after the loop that aligns it; an empty bucket keeps its 8. -/
def allotted (hinit : HashInit) (size : Nat) (names : List HashKey) (i : Nat) : Nat :=
  let test := countBytes size names i
  if test = 8 then 8 else ngxAlign test hinit.cacheline % shortLimit

/-- `elts` and `buckets` after the first buckets got their place. -/
def placeBuckets (test : Nat → Nat) (elts : Nat) : Nat → Nat × (Nat → Nat)
  | 0 => (elts, fun _ => 0)
  | i + 1 =>
    let (elts, buckets) := placeBuckets test elts i
    if test i = 8 then (elts, buckets) else (elts + test i, update buckets i elts)

/-- Where an element is put: its bucket and `test[key]`. -/
structure Placement where
  bucket : Nat
  offset : Nat
  name : HashKey

def placements (size : Nat) : (Nat → Nat) → List HashKey → List Placement
  | _, [] => []
  | test, name :: rest =>
    if name.null then placements size test rest
    else
      ⟨name.keyHash % size, test (name.keyHash % size), name⟩ ::
        placements size (addTest size test name) rest

/-- `value`, `len` and `name` of an element, one behind the other. -/
def eltBytes (name : HashKey) : Bytes :=
  littleEndian 8 name.value ++ (littleEndian 2 name.key.length ++ ngxStrlow name.key)

/-- The elements and, behind those of a bucket, a NULL value. -/
def hashBlocks (size : Nat) (buckets : Nat → Nat) (names : List HashKey) : List (Block Byte) :=
  ((placements size (fun _ => 0) names).map fun placement =>
      (buckets placement.bucket + placement.offset, eltBytes placement.name)) ++
    ((List.range size).filter fun i => buckets i ≠ 0).map fun i =>
      (buckets i + names.foldl (addTest size) (fun _ => 0) i, littleEndian 8 0)

/-- `ngx_hash_init`, with the address that `ngx_palloc` returns for the elements;
`none` is every end but `NGX_OK`: an error, a division by zero, an element
written to a NULL bucket. -/
def ngxHashInit (hinit : HashInit) (names : List HashKey) (elts : Nat) (memory : Nat → Byte) :
    Option Hash :=
  if hinit.maxSize = 0 then none
  else if ∃ name ∈ names, hinit.bucketSize < hashEltSize name + 8 then none
  else if innerSize hinit / 16 = 0 then none
  else
    let size := chooseSize hinit names
    let test := allotted hinit size names
    let buckets := (placeBuckets test (ngxAlign elts hinit.cacheline) size).2
    if ∃ placement ∈ placements size (fun _ => 0) names, buckets placement.bucket = 0 then none
    else
      some
        { buckets := buckets
          size := size
          memory := writeAll memory (hashBlocks size buckets names) }

/-- The loop of `ngx_hash_find`; `none` is a loop that takes more than `fuel` turns. -/
def findElt (memory : Nat → Byte) (name : Bytes) : Nat → Nat → Option Nat
  | 0, _ => none
  | fuel + 1, elt =>
    let value := readNumber memory 8 elt
    let len := readNumber memory 2 (elt + 8)
    if value = 0 then some 0
    else if name.length = len ∧ ∀ i < len, name.getD i 0 = memory (elt + 10 + i) then some value
    else findElt memory name fuel (ngxAlign (elt + 10 + len) 8)

/-- `ngx_hash_find`; zero is NULL. -/
def ngxHashFind (fuel : Nat) (hash : Hash) (key : Nat) (name : Bytes) : Option Nat :=
  let elt := hash.buckets (key % hash.size)
  if elt = 0 then some 0 else findElt hash.memory name fuel elt

end ServerCore.NginxHash
