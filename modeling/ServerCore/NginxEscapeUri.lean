import ServerCore.NginxHttpUnsafeUri

/-!
# Escaping of URIs

`ngx_escape_uri` with its maps. Without a destination it counts the characters
that are to be escaped; with one it writes the text. `ngx_unescape_uri` is
modelled with the filter for unsafe URIs.
-/

namespace ServerCore.NginxEscapeUri

open NginxHttpParse (Byte Bytes)

/-- `NGX_ESCAPE_URI` and the other types, by their numbers from zero on. -/
inductive EscapeType where
  | uri
  | args
  | uriComponent
  | html
  | refresh
  | memcached
  | mailAuth
  deriving DecidableEq

def uri : List UInt32 :=
  [0xffffffff, 0x80000029, 0x00000000, 0x80000000, 0xffffffff, 0xffffffff, 0xffffffff, 0xffffffff]

def args : List UInt32 :=
  [0xffffffff, 0x88000869, 0x00000000, 0x80000000, 0xffffffff, 0xffffffff, 0xffffffff, 0xffffffff]

def uriComponent : List UInt32 :=
  [0xffffffff, 0xfc009fff, 0x78000001, 0xb8000001, 0xffffffff, 0xffffffff, 0xffffffff, 0xffffffff]

def html : List UInt32 :=
  [0xffffffff, 0x000000ad, 0x00000000, 0x80000000, 0xffffffff, 0xffffffff, 0xffffffff, 0xffffffff]

/-- `" ", """, "%", "'", %00-%1F, %7F-%FF` by its comment. -/
def refresh : List UInt32 :=
  [0xffffffff, 0x00000085, 0x00000000, 0x80000000, 0xffffffff, 0xffffffff, 0xffffffff, 0xffffffff]

def memcached : List UInt32 :=
  [0xffffffff, 0x00000021, 0x00000000, 0x00000000, 0x00000000, 0x00000000, 0x00000000, 0x00000000]

/-- `map[type]`. -/
def map : EscapeType → List UInt32
  | .uri => uri
  | .args => args
  | .uriComponent => uriComponent
  | .html => html
  | .refresh => refresh
  | .memcached => memcached
  | .mailAuth => memcached

def hex : Bytes := "0123456789ABCDEF".toList.map Char.toUInt8

/-- `escape[*src >> 5] & (1U << (*src & 0x1f))`. -/
def isEscaped (escape : List UInt32) (c : Byte) : Bool :=
  escape.getD (c >>> 5).toNat 0 &&& (1 <<< (c &&& 0x1f).toUInt32) ≠ 0

/-- The loop that finds the number of the characters to be escaped. -/
def countLoop (escape : List UInt32) : Nat → Bytes → Nat
  | n, [] => n
  | n, c :: src => countLoop escape (if isEscaped escape c then n + 1 else n) src

def writeLoop (escape : List UInt32) : Bytes → Bytes
  | [] => []
  | c :: src =>
    if isEscaped escape c then
      '%'.toUInt8 :: hex.getD (c >>> 4).toNat 0 :: hex.getD (c &&& 0xf).toNat 0 :: writeLoop escape src
    else c :: writeLoop escape src

/-- `ngx_escape_uri(NULL, src, size, type)`. -/
def ngxEscapeUriCount (src : Bytes) (type : EscapeType) : Nat := countLoop (map type) 0 src

/-- What `ngx_escape_uri(dst, src, size, type)` writes. -/
def ngxEscapeUri (src : Bytes) (type : EscapeType) : Bytes := writeLoop (map type) src

end ServerCore.NginxEscapeUri
