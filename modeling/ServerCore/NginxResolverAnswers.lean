import ServerCore.CheckedReads
import ServerCore.CompressedNames

/-!
# Answers

`ngx_resolver_process_response` up to its call of `ngx_resolver_process_a`, and this function up
to the addresses. The response is the input, and `n` its length; a read behind it stops the
run. The node that is looked up for the name of the question is given, as is whether there is
memory for several addresses. An address is its bytes in network order, as `htonl` leaves them.
The message about records of other types is left out.
-/

namespace ServerCore.NginxResolverAnswers

open CheckedReads
open CompressedNames (Bytes isPointer)

inductive Refusal where
  | err (text : String)
  | invalidResponse (ident flags : Nat)
  | dnsError (code ident : Nat)
  | queryClass (qclass : Nat)
  | queryType (qtype : Nat)

inductive Handler where
  | ngxResolverProcessA
  | ngxResolverProcessSrv
  | ngxResolverProcessPtr

structure Call where
  handler : Handler
  ident : Nat
  code : Nat
  qtype : Nat
  nan : Nat
  trunc : Bool
  ans : Nat

def readWord {Reason : Type} (input : Bytes) (i : Nat) : Run Reason Nat := do
  let hi ← readAt input i
  let lo ← readAt input (i + 1)
  return (hi.toNat <<< 8) + lo.toNat

def questionLoop (input : Bytes) : Nat → Nat → Run Refusal Nat
  | 0, _ => .error .endless
  | fuel + 1, i =>
    if i < input.length then do
      let length ← readAt input i
      if length = 0 then return i else questionLoop input fuel (i + (1 + length.toNat))
    else refuse (.err "short DNS response")

def handlerOf (qtype : Nat) : Run Refusal Handler :=
  if qtype = 1 ∨ qtype = 28 then return .ngxResolverProcessA
  else if qtype = 33 then return .ngxResolverProcessSrv
  else if qtype = 12 then return .ngxResolverProcessPtr
  else refuse (.queryType qtype)

/-- The part at `found`. -/
def readQuestion (input : Bytes) (ident code nan : Nat) (trunc : Bool) (i : Nat) : Run Refusal Call :=
  if i = 12 then refuse (.err "zero-length domain name in DNS response")
  else
    let i := i + 1
    if i + 4 + nan * (2 + 10) > input.length then refuse (.err "short DNS response")
    else do
      let qtype ← readWord input i
      let qclass ← readWord input (i + 2)
      if qclass ≠ 1 then refuse (.queryClass qclass)
      else do
        let handler ← handlerOf qtype
        return ⟨handler, ident, code, qtype, nan, trunc, i + 4⟩

def ngxResolverProcessResponse (tcp : Bool) (input : Bytes) : Run Refusal Call :=
  if input.length < 12 then refuse (.err "short DNS response")
  else do
    let ident ← readWord input 0
    let flags ← readWord input 2
    let nqs ← readWord input 4
    let nan ← readWord input 6
    let trunc := flags &&& 0x0200 != 0
    if flags &&& 0xf870 ≠ 0x8000 ∨ (trunc ∧ tcp) then refuse (.invalidResponse ident flags)
    else
      let code := flags &&& 0xf
      if code = 1 ∨ code > 5 then refuse (.dnsError code ident)
      else if nqs ≠ 1 then refuse (.err "invalid number of questions in DNS response")
      else do
        let i ← questionLoop input (input.length + 1) 12
        readQuestion input ident code nan trunc i

/-- The members of `ngx_resolver_node_t` that are used. -/
structure Node where
  query : Option Bytes
  query6 : Option Bytes
  tcp : Bool
  tcp6 : Bool
  code : Nat
  naddrs : Nat
  naddrs6 : Nat
  ttl : Nat
  addrs : List Bytes
  addrs6 : List Bytes
  deriving DecidableEq

/-- `(u_short) -1`. -/
def unknown : Nat := 2 ^ 16 - 1

/-- The two cases of the switches on `qtype`. -/
inductive Family where
  | a
  | aaaa
  deriving DecidableEq

def familyOf (qtype : Nat) : Family := if qtype = 28 then .aaaa else .a

def Family.other : Family → Family
  | .a => .aaaa
  | .aaaa => .a

def Family.type : Family → Nat
  | .a => 1
  | .aaaa => 28

def Family.size : Family → Nat
  | .a => 4
  | .aaaa => 16

def Node.queryOf (rn : Node) : Family → Option Bytes
  | .a => rn.query
  | .aaaa => rn.query6

def Node.tcpOf (rn : Node) : Family → Bool
  | .a => rn.tcp
  | .aaaa => rn.tcp6

def Node.count (rn : Node) : Family → Nat
  | .a => rn.naddrs
  | .aaaa => rn.naddrs6

def Node.stored (rn : Node) : Family → List Bytes
  | .a => rn.addrs
  | .aaaa => rn.addrs6

def Node.setCount (rn : Node) (naddrs : Nat) : Family → Node
  | .a => { rn with naddrs := naddrs }
  | .aaaa => { rn with naddrs6 := naddrs }

def Node.setStored (rn : Node) (addrs : List Bytes) : Family → Node
  | .a => { rn with addrs := addrs }
  | .aaaa => { rn with addrs6 := addrs }

def Node.setTcp (rn : Node) : Family → Node
  | .a => { rn with tcp := true }
  | .aaaa => { rn with tcp6 := true }

def qident (query : Bytes) : Nat := ((query.getD 0 0).toNat <<< 8) + (query.getD 1 0).toNat

inductive Err where
  | text (text : String)
  | rrClass (class_ : Nat)
  deriving DecidableEq

/-- A record that is refused, with what `rn->ttl` is then. -/
structure Refused where
  err : Err
  ttl : Nat

abbrev Step := Run Refused

/-- The locals of the first pass, and `rn->ttl`. -/
structure Pass where
  i : Nat
  naddrs : Nat
  cname : Option Nat
  ttl : Nat

def short {Value : Type} (ttl : Nat) : Step Value := refuse ⟨.text "short DNS response", ttl⟩

/-- The loop over a name; the result says whether it ends at `test_length`. -/
def skipName (input : Bytes) (ttl : Nat) : Nat → Nat → Step (Nat × Bool)
  | 0, _ => .error .endless
  | fuel + 1, i =>
    if i < input.length then do
      let first ← readAt input i
      if isPointer first then return (i + 2, false)
      else if first = 0 then return (i + 1, true)
      else skipName input ttl fuel (i + (1 + first.toNat))
    else short ttl

/-- `ttl` of a record, a number with a sign. -/
def readTtl (input : Bytes) (i : Nat) : Step Int := do
  let hi ← readWord input i
  let lo ← readWord input (i + 2)
  return (((hi <<< 16) + lo : Nat) : Int).bmod (2 ^ 32)

/-- The switch on the type of a record whose data is at `i`. -/
def checkRecord (input : Bytes) (family : Family) (type len i : Nat) (pass : Pass) : Step Pass :=
  let address (own : Family) (unexpected invalid : String) : Step Pass :=
    if family ≠ own then refuse ⟨.text unexpected, pass.ttl⟩
    else if len ≠ own.size then refuse ⟨.text invalid, pass.ttl⟩
    else if i + own.size > input.length then short pass.ttl
    else .ok { pass with i := i + len, naddrs := pass.naddrs + 1 }
  if type = 1 then address .a "unexpected A record in DNS response" "invalid A record in DNS response"
  else if type = 28 then
    address .aaaa "unexpected AAAA record in DNS response" "invalid AAAA record in DNS response"
  else if type = 5 then .ok { pass with i := i + len, cname := some i }
  else .ok { pass with i := i + len }

def checkAnswer (input : Bytes) (family : Family) (pass : Pass) : Step Pass := do
  let start := pass.i
  let (i, zero) ← skipName input pass.ttl (input.length + 1) start
  if zero ∧ i - start < 2 then refuse ⟨.text "invalid name in DNS response", pass.ttl⟩
  else if i + 10 ≥ input.length then short pass.ttl
  else do
    let type ← readWord input i
    let class_ ← readWord input (i + 2)
    let ttl ← readTtl input (i + 4)
    let len ← readWord input (i + 8)
    if class_ ≠ 1 then refuse ⟨.rrClass class_, pass.ttl⟩
    else
      let ttl := if ttl < 0 then 0 else ttl
      let pass := { pass with ttl := min pass.ttl ttl.toNat }
      checkRecord input family type len (i + 10) pass

def checkAnswers (input : Bytes) (family : Family) : Nat → Pass → Step Pass
  | 0, pass => .ok pass
  | nan + 1, pass => do
    let pass ← checkAnswer input family pass
    checkAnswers input family nan pass

def walkName (input : Bytes) : Nat → Nat → Step Nat
  | 0, _ => .error .endless
  | fuel + 1, i => do
    let first ← readAt input i
    if isPointer first then return i + 2
    else if first = 0 then return i + 1
    else walkName input fuel (i + (1 + first.toNat))

/-- The second pass; `stored` is what has been written, `j` of them. -/
def copyAnswers (input : Bytes) (naddrs : Nat) : Nat → Nat → List Bytes → Step (List Bytes)
  | 0, _, stored => .ok stored
  | nan + 1, i, stored => do
    let i ← walkName input (input.length + 1) i
    let type ← readWord input i
    let len ← readWord input (i + 8)
    let i := i + 10
    if type = 1 then do
      let addr ← readMany input i 4
      let stored := stored ++ [addr]
      if stored.length = naddrs then return stored else copyAnswers input naddrs nan (i + len) stored
    else if type = 28 then do
      let addr6 ← readMany input i 16
      let stored := stored ++ [addr6]
      if stored.length = naddrs then return stored else copyAnswers input naddrs nan (i + len) stored
    else copyAnswers input naddrs nan (i + len) stored

/-- How the function ends. A response that is dropped leaves the node as it is, one that asks
again over TCP only marks it, and one with an error or without answers ends with a code. -/
inductive Answer where
  | dropped (reason : String)
  | resent (rn : Node)
  | empty (rn : Node) (code : Nat)
  | failed (rn : Node) (err : Option Err)
  | accepted (rn : Node) (naddrs : Nat) (cname : Option Nat)
  deriving DecidableEq

/-- The part behind the lookup and in front of the passes; `none` goes on with these. -/
def beforePasses (call : Call) (family : Family) (rn : Node) : Option Answer :=
  match rn.queryOf family with
  | none => some (.dropped "unexpected response")
  | some query =>
    if rn.count family ≠ unknown then some (.dropped "unexpected response")
    else if call.trunc ∧ rn.tcpOf family then some (.dropped "truncated")
    else if call.ident ≠ qident query then some (.dropped "wrong ident")
    else if call.trunc then some (.resent (rn.setTcp family))
    else
      let code := if call.code = 0 ∧ rn.code ≠ 0 then rn.code else call.code
      if code = 0 ∧ call.nan = 0 then
        let rn := rn.setCount 0 family
        if rn.count family.other = unknown ∨ rn.count family.other ≠ 0 then some (.empty rn 0)
        else some (.empty rn 3)
      else if code ≠ 0 then
        let rn := rn.setCount 0 family
        if rn.count family.other = unknown then some (.empty { rn with code := code } code)
        else some (.empty rn code)
      else none

/-- The last switch. -/
def Node.known (rn : Node) (family : Family) : Node :=
  if rn.count family = unknown then rn.setCount 0 family else rn

/-- Where the other family is not known yet, the loop goes to `next` and not to the last switch. -/
def storeAnswers (alloc : Bool) (input : Bytes) (call : Call) (family : Family) (rn : Node) (pass : Pass) :
    Except (Stop Empty) Answer :=
  if pass.naddrs = 0 then .ok (.accepted (rn.known family) pass.naddrs pass.cname)
  else if pass.naddrs ≠ 1 ∧ !alloc then .ok (.failed rn none)
  else
    let rn := rn.setCount (pass.naddrs % 2 ^ 16) family
    match copyAnswers input pass.naddrs call.nan call.ans [] with
    | .ok stored =>
      let rn := rn.setStored stored family
      .ok (.accepted (if rn.count family.other = unknown then rn else
        rn.known family) pass.naddrs pass.cname)
    | .error (.refused refused) => .ok (.failed rn (some refused.err))
    | .error .outside => .error .outside
    | .error .endless => .error .endless

/-- `found` is the node, if there is one. -/
def ngxResolverProcessA (alloc : Bool) (found : Option Node) (input : Bytes) (call : Call) :
    Except (Stop Empty) Answer :=
  let family := familyOf call.qtype
  match found with
  | none => .ok (.dropped "unexpected response")
  | some rn =>
    match beforePasses call family rn with
    | some answer => .ok answer
    | none =>
      match checkAnswers input family call.nan ⟨call.ans, 0, none, rn.ttl⟩ with
      | .ok pass => storeAnswers alloc input call family { rn with ttl := pass.ttl } pass
      | .error (.refused refused) => .ok (.failed { rn with ttl := refused.ttl } (some refused.err))
      | .error .outside => .error .outside
      | .error .endless => .error .endless

end ServerCore.NginxResolverAnswers
