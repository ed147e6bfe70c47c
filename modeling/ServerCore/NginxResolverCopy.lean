import ServerCore.CheckedReads
import ServerCore.CompressedNames
import ServerCore.NginxHash

/-!
# Names in responses

`ngx_resolver_copy`. The bytes between `buf` and `last` are the input, and a pointer is its
distance from `buf`; a read from `last` on stops the run. The first pass sums up the lengths
and is limited to 128 turns; the second one writes the name to memory of that size. Its `dst`
is what has been written, which may be more than there is room for.
-/

namespace ServerCore.NginxResolverCopy

open CheckedReads
open CompressedNames (Byte Bytes isPointer target)
open NginxHash (ngxStrlow)

/-- `err` and the jump to `invalid`. -/
inductive Refusal where
  | invalid (err : String)
  deriving DecidableEq

abbrev Step := Run Refusal

/-- The loop of the first pass, with the turns that are left; the result is `len`. -/
def sizeLoop (input : Bytes) : Nat → Nat → Int → Step Int
  | 0, _, _ => refuse (.invalid "compression pointers loop")
  | turns + 1, p, len => do
    let n ← readAt input p
    let p := p + 1
    if n = 0 then return len
    else if isPointer n then
      let low ← readAt input p
      let p := target n low
      if p ≥ input.length then refuse (.invalid "name is out of response") else sizeLoop input turns p len
    else
      let len := len + (1 + n.toNat)
      let p := p + n.toNat
      if p ≥ input.length then refuse (.invalid "name is out of response") else sizeLoop input turns p len

def dot : Byte := '.'.toUInt8

/-- The loop of the second pass; `fuel` stands for its turns, which are not limited. -/
def copyLoop (input : Bytes) : Nat → Byte → Nat → Bytes → Step Bytes
  | 0, _, _, _ => .error .endless
  | fuel + 1, n, src, dst =>
    if isPointer n then do
      let low ← readAt input src
      let src := target n low
      let n ← readAt input src
      let src := src + 1
      if n = 0 then return dst else copyLoop input fuel n src dst
    else do
      let text ← readMany input src n.toNat
      let dst := dst ++ ngxStrlow text
      let src := src + n.toNat
      let n ← readAt input src
      let src := src + 1
      let dst := if n ≠ 0 then dst ++ [dot] else dst
      if n = 0 then return dst else copyLoop input fuel n src dst

/-- `name`, with the size of the memory that it has been given. -/
structure Name where
  allocated : Nat
  written : Bytes
  deriving DecidableEq

/-- What is returned; `err` is what has been logged. -/
inductive Answer where
  | ngxError (err : Option String)
  | ngxOk (name : Option Name)
  deriving DecidableEq

/-- From `done` on. -/
def copyName (wanted alloc : Bool) (input : Bytes) (src : Nat) (len : Int) : Step Answer :=
  if !wanted then return .ngxOk none
  else if len = -1 then return .ngxOk (some ⟨0, []⟩)
  else if !alloc then return .ngxError none
  else do
    let n ← readAt input src
    let written ← copyLoop input 128 n (src + 1) []
    return .ngxOk (some ⟨len.toNat, written⟩)

/-- `wanted` is whether `name` is not `NULL`, and `allocated` whether there is memory for it. -/
def ngxResolverCopy (wanted alloc : Bool) (input : Bytes) (src : Nat) : Step Answer :=
  match sizeLoop input 128 src (-1) with
  | .ok len => copyName wanted alloc input src len
  | .error (.refused (.invalid err)) => .ok (.ngxError (some err))
  | .error stop => .error stop

end ServerCore.NginxResolverCopy
