import ServerCore.NginxInet

/-!
# Blocks of addresses

`ngx_ptocidr` and `ngx_cidr_match`. An address in network byte order is the bytes of it,
and so is a mask.
-/

namespace ServerCore.NginxCidr

open NginxHttpParse (Byte Bytes)
open NginxInet

/-- `ngx_cidr_t`, with the part of the union that belongs to the family. -/
inductive Cidr where
  | inet (addr mask : InAddr)
  | inet6 (addr mask : In6Addr)
  | unix

inductive ReturnCode where
  | ngxOk
  | ngxDone
  | ngxDeclined
  | ngxError
  deriving DecidableEq

/-- `&` of two `in_addr_t`. -/
def InAddr.land (left right : InAddr) : InAddr :=
  ⟨left.b0 &&& right.b0, left.b1 &&& right.b1, left.b2 &&& right.b2, left.b3 &&& right.b3⟩

/-- `(u_char) (0xffu << (8 - s))` -/
def maskByte (s : Nat) : Byte := UInt8.ofNat (0xff <<< (8 - s))

/-- The mask that the loop of the IPv6 case writes for so many bytes. -/
def maskBytes (shift : Nat) : Nat → Bytes
  | 0 => []
  | count + 1 =>
    let s := if shift > 8 then 8 else shift
    maskByte s :: maskBytes (shift - s) count

theorem mask_bytes_length {shift count : Nat} : (maskBytes shift count).length = count := by
  induction count generalizing shift with
  | zero => rfl
  | succ count ih => rw [maskBytes, List.length_cons, ih]

/-- `mask` of the IPv6 case. -/
def mask6 (shift : Nat) : In6Addr := ⟨maskBytes shift 16, mask_bytes_length⟩

/-- `addr[i] &= mask[i]` in every byte. -/
def In6Addr.land (left right : In6Addr) : In6Addr :=
  ⟨List.zipWith (· &&& ·) left.val right.val, by simp [left.property, right.property]⟩

/-- `ngx_memset(cidr->u.in6.mask.s6_addr, 0xff, 16)` -/
def full6 : In6Addr := ⟨List.replicate 16 0xff, rfl⟩

def mask4 (shift : Nat) : InAddr :=
  if shift ≠ 0 then htonl ((0xffffffff <<< (32 - shift)) % 2 ^ 32) else ⟨0, 0, 0, 0⟩

def applyMask (shift : Nat) : Cidr → ReturnCode × Cidr
  | .inet6 addr _ =>
    if shift > 128 then (.ngxError, .inet6 addr full6)
    else
      let mask := mask6 shift
      if addr ≠ In6Addr.land addr mask then (.ngxDone, .inet6 (In6Addr.land addr mask) mask)
      else (.ngxOk, .inet6 addr mask)
  | .inet addr _ =>
    if shift > 32 then (.ngxError, .inet addr inaddrNone)
    else
      let mask := mask4 shift
      if addr = InAddr.land addr mask then (.ngxOk, .inet addr mask)
      else (.ngxDone, .inet (InAddr.land addr mask) mask)
  | .unix => (.ngxError, .unix)

/-- What stands before the slash, with a mask of ones only. -/
def readAddress (text : Bytes) : Option Cidr :=
  if ngxInetAddr text ≠ inaddrNone then some (.inet (ngxInetAddr text) inaddrNone)
  else (ngxInet6Addr text).map fun bytes => .inet6 (copyInaddr6 bytes) full6

/-- There is nothing stored where the address or the number is not one. -/
def ngxPtocidr (text : Bytes) : ReturnCode × Option Cidr :=
  let mask := ngxStrlchr text '/'.toUInt8
  match readAddress (text.take (text.length - mask.length)) with
  | none => (.ngxError, none)
  | some cidr =>
    match mask with
    | [] => (.ngxOk, some cidr)
    | _ :: mask =>
      match ngxAtoi mask with
      | none => (.ngxError, none)
      | some shift =>
        let (rc, cidr) := applyMask shift cidr
        (rc, if rc = .ngxError then none else some cidr)

def in6IsAddrV4mapped (addr : In6Addr) : Bool :=
  addr.val.take 12 = List.replicate 10 0 ++ [0xff, 0xff]

/-- The IPv4 address in the last bytes of a mapped one. -/
def mappedAddr (addr : In6Addr) : InAddr :=
  let inaddr := (addr.val.getD 12 0).toNat <<< 24
  let inaddr := inaddr + (addr.val.getD 13 0).toNat <<< 16
  let inaddr := inaddr + (addr.val.getD 14 0).toNat <<< 8
  htonl (inaddr + (addr.val.getD 15 0).toNat)

/-- The peer as the loop compares it: a mapped address is one of IPv4. -/
def peer (sa : Sockaddr) : Sockaddr :=
  match sa with
  | .inet6 addr port => if in6IsAddrV4mapped addr then .inet (mappedAddr addr) port else sa
  | sa => sa

def cidrMatches (sa : Sockaddr) (cidr : Cidr) : Bool :=
  match sa, cidr with
  | .inet6 inaddr6 _, .inet6 addr mask => In6Addr.land inaddr6 mask = addr
  | .unix _, .unix => true
  | .inet inaddr _, .inet addr mask => InAddr.land inaddr mask = addr
  | _, _ => false

def ngxCidrMatch (sa : Sockaddr) (cidrs : List Cidr) : ReturnCode :=
  if cidrs.any (cidrMatches (peer sa)) then .ngxOk else .ngxDeclined

end ServerCore.NginxCidr
