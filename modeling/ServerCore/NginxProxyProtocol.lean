import ServerCore.CheckedReads
import ServerCore.NginxInet
import ServerCore.NginxSprintf

/-!
# The header of the PROXY protocol

`ngx_proxy_protocol_write` and `ngx_proxy_protocol_read`. The reader has the bytes between
`buf` and `last` as its input and gives its pointers as distances from `buf`; the writer
gives what it has written from `buf` on and the pointer that it returns. The texts that
are compared have no NUL, which therefore ends a comparison like any other byte.
-/

namespace ServerCore.NginxProxyProtocol

open CheckedReads
open NginxHttpParse (Byte Bytes)
open NginxInet

def ngxProxyProtocolMaxHeader : Nat := 107

def space : Byte := ' '.toUInt8

def carriageReturn : Byte := '\r'.toUInt8

def lineFeed : Byte := '\n'.toUInt8

def ngxInetGetPort : Sockaddr → Nat
  | .inet _ port => port
  | .inet6 _ port => port
  | _ => 0

def portsFormat : Bytes := textBytes " %ui %ui\r\n" ++ [0]

def writeAddresses (sockaddr localSockaddr : Sockaddr) (name : String)
    (buf last : Nat) : Option (Bytes × Nat) :=
  let text := textBytes name
  let text := text ++ ngxSockNtop sockaddr (last - (buf + text.length)) false
  let text := text ++ [space]
  let text := text ++ ngxSockNtop localSockaddr (last - (buf + text.length)) false
  let port := ngxInetGetPort sockaddr
  let lport := ngxInetGetPort localSockaddr
  (NginxSprintf.ngxVslprintf (buf + text.length) last portsFormat [.integer port, .integer lport]).map
    fun (ports, p) => (text ++ ports, p)

/-- `none` is `NULL`. The address of the own end may be unknown. -/
def ngxProxyProtocolWrite (sockaddr : Sockaddr) (localSockaddr : Option Sockaddr) (buf last : Nat) :
    Option (Bytes × Nat) :=
  if last - buf < ngxProxyProtocolMaxHeader then none
  else
    match localSockaddr with
    | none => none
    | some localSockaddr =>
      match sockaddr with
      | .inet _ _ => writeAddresses sockaddr localSockaddr "PROXY TCP4 " buf last
      | .inet6 _ _ => writeAddresses sockaddr localSockaddr "PROXY TCP6 " buf last
      | _ => some (textBytes "PROXY UNKNOWN\r\n", buf + (textBytes "PROXY UNKNOWN\r\n").length)

/-- `goto invalid`. -/
inductive Refusal where
  | invalid

abbrev Step := Run Refusal

/-- The two members of `ngx_connection_t` that are set. -/
structure Connection where
  proxyProtocolAddr : Bytes
  proxyProtocolPort : Nat

/-- The result of a run. `position` is the returned pointer and `logged` the text of an error. -/
structure Answer where
  position : Option Nat
  connection : Connection
  logged : Option Bytes

def ngxStrncmp (input : Bytes) (p : Nat) : Bytes → Step Bool
  | [] => .ok true
  | c :: text => do
    let ch ← readAt input p
    if ch = c then ngxStrncmp input (p + 1) text else .ok false

inductive Protocol where
  | unknown (p : Nat)
  | tcp (p : Nat)

def unknownProtocol (input : Bytes) (p len : Nat) : Step Bool :=
  if len ≥ 7 then ngxStrncmp input p (textBytes "UNKNOWN") else .ok false

/-- `PROXY ` and the name of the protocol. -/
def readProtocol (input : Bytes) : Step Protocol :=
  let len := input.length
  if len < 8 then refuse .invalid
  else do
    let isProxy ← ngxStrncmp input 0 (textBytes "PROXY ")
    if !isProxy then refuse .invalid
    else do
      let p := 6
      let len := len - 6
      let isUnknown ← unknownProtocol input p len
      if isUnknown then return .unknown (p + 7)
      else if len < 5 then refuse .invalid
      else do
        let isTcp ← ngxStrncmp input p (textBytes "TCP")
        if !isTcp then refuse .invalid
        else do
          let version ← readAt input (p + 3)
          if version ≠ '4'.toUInt8 ∧ version ≠ '6'.toUInt8 then refuse .invalid
          else do
            let behind ← readAt input (p + 4)
            if behind ≠ space then refuse .invalid
            else return .tcp (p + 5)

/-- The bytes in front of the space that the first loop lets pass. -/
def isAddressByte (ch : Byte) : Bool :=
  !(ch ≠ ':'.toUInt8 ∧ ch ≠ '.'.toUInt8 ∧ (ch < 'a'.toUInt8 ∨ ch > 'f'.toUInt8) ∧
    (ch < 'A'.toUInt8 ∨ ch > 'F'.toUInt8) ∧ (ch < '0'.toUInt8 ∨ ch > '9'.toUInt8))

/-- The loop that goes on to a space, and gives the position behind it. -/
def fieldLoop (passes : Byte → Bool) (input : Bytes) : Nat → Nat → Step Nat
  | 0, _ => .error .endless
  | fuel + 1, p =>
    if p = input.length then refuse .invalid
    else do
      let ch ← readAt input p
      let p := p + 1
      if ch = space then return p
      else if passes ch then fieldLoop passes input fuel p
      else refuse .invalid

/-- The address and the position behind its space. -/
def readAddress (input : Bytes) (addr : Nat) : Step (Bytes × Nat) := do
  let p ← fieldLoop isAddressByte input (input.length + 1) addr
  let text ← readMany input addr (p - addr - 1)
  return (text, p)

/-- The loops over the address and the port of the own end, and the port. -/
def readPort (input : Bytes) (p : Nat) : Step (Nat × Nat) := do
  let port ← fieldLoop (fun _ => true) input (input.length + 1) p
  let p ← fieldLoop (fun _ => true) input (input.length + 1) port
  let line ← readMany input port (p - port - 1)
  match ngxAtoi line with
  | none => refuse .invalid
  | some n => if n > 65535 then refuse .invalid else return (n, p)

/-- The loop at `skip`. -/
def skipLoop (input : Bytes) : Nat → Nat → Step Nat
  | 0, _ => .error .endless
  | fuel + 1, p =>
    if p + 1 < input.length then do
      let first ← readAt input p
      if first = carriageReturn then
        let second ← readAt input (p + 1)
        if second = lineFeed then return p + 2
        else skipLoop input fuel (p + 1)
      else skipLoop input fuel (p + 1)
    else refuse .invalid

def skip (input : Bytes) (p : Nat) : Step Nat := skipLoop input (input.length + 1) p

/-- A step with what follows it; `invalid` logs the input and returns `NULL`. -/
def orInvalid {Value : Type} (input : Bytes) (c : Connection) (step : Step Value)
    (next : Value → Except (Stop Empty) Answer) : Except (Stop Empty) Answer :=
  match step with
  | .ok value => next value
  | .error (.refused .invalid) => .ok ⟨none, c, some input⟩
  | .error .outside => .error .outside
  | .error .endless => .error .endless

/-- `allocated` is whether there is memory for the address. -/
def ngxProxyProtocolRead (alloc : Bool) (c : Connection) (input : Bytes) : Except (Stop Empty) Answer :=
  orInvalid input c (readProtocol input) fun protocol =>
    match protocol with
    | .unknown p => orInvalid input c (skip input p) fun p => .ok ⟨some p, c, none⟩
    | .tcp p =>
      orInvalid input c (readAddress input p) fun (text, p) =>
        if alloc then
          let c := { c with proxyProtocolAddr := text }
          orInvalid input c (readPort input p) fun (n, p) =>
            let c := { c with proxyProtocolPort := n }
            orInvalid input c (skip input p) fun p => .ok ⟨some p, c, none⟩
        else .ok ⟨none, c, none⟩

end ServerCore.NginxProxyProtocol
