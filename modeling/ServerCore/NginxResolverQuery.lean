import ServerCore.NginxResolverCopy

/-!
# Questions about names

`ngx_resolver_create_name_query` and `ngx_resolver_create_srv_query`. A query is filled from
its end on: `p` goes down by one with each byte, so that what has been written is a list
that grows at its front, with the question type and class at the end of it. `ident` is a
random number, and `memory` what the memory of the second query holds.
-/

namespace ServerCore.NginxResolverQuery

open CompressedNames (Byte Bytes)
open NginxResolverCopy (dot)

/-- `NGX_RESOLVE_A`, `NGX_RESOLVE_AAAA` and `NGX_RESOLVE_SRV`. -/
def ngxResolveA : Byte := 1

def ngxResolveAaaa : Byte := 28

def ngxResolveSrv : Byte := 33

/-- `sizeof(ngx_resolver_hdr_t)` and `sizeof(ngx_resolver_qs_t)`. -/
def hdrSize : Nat := 12

def qsSize : Nat := 4

/-- The members of `ngx_resolver_node_t` that are set. -/
structure Node where
  qlen : Nat
  query : Bytes
  query6 : Option Bytes

inductive Answer where
  | ngxError
  | ngxDeclined
  | ngxOk (rn : Node)

def identBytes (ident : Nat) : Bytes := [UInt8.ofNat ((ident >>> 8) &&& 0xff), UInt8.ofNat (ident &&& 0xff)]

/-- The header with the flag of a recursion query and one question. -/
def header (ident : Nat) : Bytes := identBytes ident ++ [1, 0, 0, 1, 0, 0, 0, 0, 0, 0]

/-- `ngx_resolver_qs_t` with the class IN. -/
def qs (type : Byte) : Bytes := [0, type, 0, 1]

def nameSize (name : Bytes) : Nat := if name.length ≠ 0 then 1 + name.length + 1 else 1

/-- The loop over the name, from its last byte to its first one. -/
def nameLoop : Bytes → Nat → Bytes → Option (Nat × Bytes)
  | [], len, p => some (len, p)
  | c :: s, len, p =>
    if c ≠ dot then nameLoop s (len + 1) (c :: p)
    else if len = 0 ∨ len > 255 then none
    else nameLoop s 0 (UInt8.ofNat len :: p)

/-- The name in front of the given bytes; `none` is `NGX_DECLINED`. -/
def writeName (name behind : Bytes) : Option Bytes :=
  let p := 0 :: behind
  if name.length = 0 then none
  else
    match nameLoop name.reverse 0 p with
    | none => none
    | some (len, p) => if len = 0 ∨ len > 255 then none else some (UInt8.ofNat len :: p)

/-- The part that the two functions share; the length is not yet a `u_short`. -/
def createQuery (type : Byte) (ident : Nat) (name : Bytes) : Option (Nat × Bytes) :=
  let len := hdrSize + nameSize name + qsSize
  (writeName name (qs type)).map fun question => (len, header ident ++ question)

/-- The second query: `qlen` bytes of the first one, with another number and type. -/
def copyQuery (memory : Nat → Byte) (query : Bytes) (len qlen ident6 nlen : Nat) : Bytes :=
  let p := query.take qlen ++ (List.range' qlen (len - qlen)).map memory
  (identBytes ident6 ++ p.drop 2).set (hdrSize + nlen + 1) ngxResolveAaaa

def ngxResolverCreateNameQuery (ipv6 alloc : Bool) (memory : Nat → Byte)
    (ident ident6 : Nat) (name : Bytes) :
    Answer :=
  if !alloc then .ngxError
  else
    match createQuery ngxResolveA ident name with
    | none => .ngxDeclined
    | some (len, query) =>
      let qlen := len % 2 ^ 16
      if !ipv6 then .ngxOk ⟨qlen, query, none⟩
      else .ngxOk ⟨qlen, query, some (copyQuery memory query len qlen ident6 (nameSize name))⟩

def ngxResolverCreateSrvQuery (alloc : Bool) (ident : Nat) (name : Bytes) : Answer :=
  if !alloc then .ngxError
  else
    match createQuery ngxResolveSrv ident name with
    | none => .ngxDeclined
    | some (len, query) => .ngxOk ⟨len % 2 ^ 16, query, none⟩

end ServerCore.NginxResolverQuery
