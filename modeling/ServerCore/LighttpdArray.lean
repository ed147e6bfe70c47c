import Mathlib.Algebra.Group.Nat.Defs
import Mathlib.Logic.Function.Basic

/-!
# The array of lighttpd

`array.c` for `data_string` entries. Entries are cells behind pointers, and
`data` and `sorted` are two arrays of `size` cells, of which `sorted` may hold
anything before it is written. A read or write outside the arrays, through NULL
or of a freed entry, and a failed `force_assert`, is `none`.
-/

namespace ServerCore.LighttpdArray

open Function

abbrev Byte := UInt8

abbrev Bytes := List Byte

abbrev Ptr := Nat

/-- The text of a `buffer`; `none` is the state in which `used` is 0. -/
abbrev Buffer := Option Bytes

def Buffer.text (buffer : Buffer) : Bytes := buffer.getD []

/-- `data_string`; its `type` is `TYPE_STRING`. -/
structure DataString where
  key : Buffer
  value : Buffer
  isIndexKey : Bool

abbrev Heap := Ptr → Option DataString

structure Array where
  data : Nat → Option Ptr
  sorted : Nat → Nat
  used : Nat
  size : Nat
  uniqueNdx : Nat

structure Store where
  array : Array
  heap : Heap

/-- `ARRAY_NOT_FOUND` and `SSIZE_MAX`. -/
def arrayNotFound : Nat := 2 ^ 64 - 1
def ssizeMax : Nat := 2 ^ 63 - 1

def lowerByte (c : Byte) : Byte := if 'A'.toUInt8 ≤ c ∧ c ≤ 'Z'.toUInt8 then c ||| 32 else c

def bufferCaselessCompare : Bytes → Bytes → Int
  | [], [] => 0
  | [], _ :: _ => -1
  | _ :: _, [] => 1
  | a :: as, b :: bs =>
    if a = b then bufferCaselessCompare as bs
    else if lowerByte a = lowerByte b then bufferCaselessCompare as bs
    else (lowerByte a).toNat - (lowerByte b).toNat

/-- `array_init`; the cells behind `data` and `sorted` are not there yet. -/
def arrayInit (data : Nat → Option Ptr) (sorted : Nat → Nat) : Array := ⟨data, sorted, 0, 0, 0⟩

namespace Store

/-- `a->data[ndx]` for a cell that exists. -/
def cell (s : Store) (ndx : Nat) : Option (Option Ptr) :=
  if ndx < s.array.size then some (s.array.data ndx) else none

/-- `a->data[ndx]` where the code goes on to its fields. -/
def element (s : Store) (ndx : Nat) : Option (Ptr × DataString) := do
  let p ← (← s.cell ndx)
  let entry ← s.heap p
  some (p, entry)

def sortedAt (s : Store) (position : Nat) : Option Nat :=
  if position < s.array.size then some (s.array.sorted position) else none

def setData (s : Store) (ndx : Nat) (p : Option Ptr) : Option Store :=
  if ndx < s.array.size then
    some { s with array := { s.array with data := update s.array.data ndx p } }
  else none

def withSorted (s : Store) (sorted : Nat → Nat) : Store :=
  { s with array := { s.array with sorted := sorted } }

def setSorted (s : Store) (position ndx : Nat) : Option Store :=
  if position < s.array.size then some (s.withSorted (update s.array.sorted position ndx))
  else none

def setEntry (s : Store) (p : Ptr) (entry : DataString) : Store :=
  { s with heap := update s.heap p (some entry) }

def dataStringFree (s : Store) (p : Ptr) : Store := { s with heap := update s.heap p none }

def setUsed (s : Store) (used : Nat) : Store := { s with array := { s.array with used := used } }

/-- The loop of `array_get_index`: the index that is found, and the position. -/
def search (s : Store) (key : Bytes) : Nat → Nat → Nat → Option (Option Nat × Nat)
  | 0, _, _ => none
  | fuel + 1, lower, upper =>
    if lower = upper then some (none, lower)
    else do
      let probe := (lower + upper) / 2
      let ndx ← s.sortedAt probe
      let (_, entry) ← s.element ndx
      let cmp := bufferCaselessCompare key (Buffer.text entry.key)
      if cmp = 0 then some (some ndx, probe)
      else if cmp < 0 then s.search key fuel lower probe
      else s.search key fuel (probe + 1) upper

/-- The interval gets smaller with every turn, so the fuel is enough. -/
def arrayGetIndex (s : Store) (key : Bytes) : Option (Option Nat × Nat) :=
  if s.array.used ≤ ssizeMax then s.search key (s.array.used + 1) 0 s.array.used else none

def arrayGetElement (s : Store) (key : Bytes) : Option (Option Ptr) := do
  match ← s.arrayGetIndex key with
  | (some ndx, _) => s.cell ndx
  | (none, _) => some none

/-- The last element takes the place of the one at `ndx`. -/
def moveLast (s : Store) (ndx lastNdx : Nat) : Option Store :=
  if ndx ≠ lastNdx then do
    let (_, last) ← s.element lastNdx
    let (found, lastElemPos) ← s.arrayGetIndex (Buffer.text last.key)
    if found = some lastNdx then
      let s ← s.setData ndx (← s.cell lastNdx)
      let s ← s.setData lastNdx none
      s.setSorted lastElemPos ndx
    else none
  else s.setData ndx none

/-- `memmove(a->sorted + pos, a->sorted + pos + 1, (last_ndx - pos) * ...)`. -/
def closeGap (s : Store) (pos lastNdx : Nat) : Option Store :=
  if pos ≠ lastNdx then
    if lastNdx < s.array.size then
      some (s.withSorted fun position =>
        if pos ≤ position ∧ position < lastNdx then s.array.sorted (position + 1)
        else s.array.sorted position)
    else none
  else some s

def arrayExtractElement (s : Store) (key : Bytes) : Option (Store × Option Ptr) := do
  match ← s.arrayGetIndex key with
  | (some ndx, pos) =>
    let lastNdx := s.array.used - 1
    let entry ← s.cell ndx
    let s ← s.moveLast ndx lastNdx
    let s ← s.closeGap pos lastNdx
    let s ← s.setSorted lastNdx arrayNotFound
    some (s.setUsed (s.array.used - 1), entry)
  | (none, _) => some (s, none)

/-- The loop of `array_get_unused_element` with `unsigned int i`: the place of
an unused element. Out of fuel, it has come around and goes on for ever. -/
def unusedFrom (s : Store) : Nat → Nat → Option (Option Nat)
  | 0, _ => none
  | fuel + 1, i =>
    if i < s.array.size then
      match s.array.data i with
      | some p => if (s.heap p).isSome then some (some i) else none
      | none => s.unusedFrom fuel ((i + 1) % 2 ^ 32)
    else some none

/-- The first `i` is `a->used`, converted to 32 bits. -/
def arrayGetUnusedElement (s : Store) : Option (Store × Option Ptr) := do
  match ← s.unusedFrom (2 ^ 32 + 1) (s.array.used % 2 ^ 32) with
  | some i =>
    let ds := s.array.data i
    let s ← s.setData i (← s.cell s.array.used)
    let s ← s.setData s.array.used none
    some (s, ds)
  | none => some (s, none)

def bufferCopyInt (number : Nat) : Buffer := some ((toString number).toList.map Char.toUInt8)

section

variable (s : Store)

/-- A key is made from `unique_ndx` where there is none. -/
def uniqueKey (entry : Ptr) : Option Store := do
  let ds ← s.heap entry
  if ds.key = none ∨ ds.isIndexKey then
    let s := s.setEntry entry { ds with key := bufferCopyInt s.array.uniqueNdx, isIndexKey := true }
    let uniqueNdx := (s.array.uniqueNdx + 1) % 2 ^ 64
    if uniqueNdx ≠ 0 then some { s with array := { s.array with uniqueNdx := uniqueNdx } } else none
  else some s

/-- 16 more cells; those of `data` are NULL. -/
def grow : Store :=
  if s.array.size = 0 ∨ s.array.size = s.array.used then
    { s with array := { s.array with
        size := s.array.size + 16
        data := fun ndx =>
          if s.array.used ≤ ndx ∧ ndx < s.array.size + 16 then none else s.array.data ndx } }
  else s

/-- `if (a->data[ndx]) a->data[ndx]->free(a->data[ndx])`. -/
def clearSlot (ndx : Nat) : Option Store := do
  match ← s.cell ndx with
  | some old => if (s.heap old).isSome then some (s.dataStringFree old) else none
  | none => some s

/-- `memmove(a->sorted + (pos + 1), a->sorted + (pos), (ndx - pos) * ...)`. -/
def openGap (pos ndx : Nat) : Option Store :=
  if pos ≠ ndx then
    if ndx < s.array.size then
      some (s.withSorted fun position =>
        if pos < position ∧ position ≤ ndx then s.array.sorted (position - 1)
        else s.array.sorted position)
    else none
  else some s

/-- The place of an entry with the same key; where there is none, the entry is
inserted. -/
def arrayFindOrInsert (entry : Ptr) : Option (Store × Option Nat) := do
  let s ← s.uniqueKey entry
  let ds ← s.heap entry
  match ← s.arrayGetIndex (Buffer.text ds.key) with
  | (some ndx, _) => some (s, some ndx)
  | (none, pos) =>
    if s.array.used + 1 ≤ ssizeMax then
      let s := s.grow
      let ndx := s.array.used
      let s ← s.clearSlot ndx
      let s ← s.setData ndx (some entry)
      let s := s.setUsed (ndx + 1)
      let s ← s.openGap pos ndx
      let s ← s.setSorted pos ndx
      some (s, none)
    else none

def arrayReplace (entry : Ptr) : Option Store := do
  match ← s.arrayFindOrInsert entry with
  | (s, some old) =>
    let (p, _) ← s.element old
    if p ≠ entry then (s.dataStringFree p).setData old (some entry) else none
  | (s, none) => some s

def dataStringInsertDup (dst src : Ptr) : Option Store := do
  let dsDst ← s.heap dst
  let dsSrc ← s.heap src
  let value := match dsDst.value with
    | some text => some (text ++ [','.toUInt8, ' '.toUInt8] ++ Buffer.text dsSrc.value)
    | none => dsSrc.value
  some ((s.setEntry dst { dsDst with value := value }).dataStringFree src)

def arrayInsertUnique (entry : Ptr) : Option Store := do
  match ← s.arrayFindOrInsert entry with
  | (s, some old) =>
    let (p, _) ← s.element old
    s.dataStringInsertDup p entry
  | (s, none) => some s

/-- `fresh` is the address that `data_string_init` gets where it is called. -/
def arraySetKeyValue (key value : Bytes) (fresh : Ptr) : Option Store := do
  match ← s.arrayGetElement key with
  | some dst =>
    let ds ← s.heap dst
    some (s.setEntry dst { ds with value := some value })
  | none =>
    let (s, unused) ← s.arrayGetUnusedElement
    match unused with
    | some dst =>
      let ds ← s.heap dst
      (s.setEntry dst { ds with key := some key, value := some value }).arrayInsertUnique dst
    | none =>
      (s.setEntry fresh ⟨some key, some value, false⟩).arrayInsertUnique fresh

end

/-- `data_string_reset` of the first elements. -/
def resetElements : Nat → Store → Option Store
  | 0, s => some s
  | count + 1, s => do
    let s ← resetElements count s
    let (p, entry) ← s.element count
    some (s.setEntry p { entry with key := none, value := none })

def arrayReset (s : Store) : Option Store := do
  let s ← resetElements s.array.used s
  some { s with array := { s.array with used := 0, uniqueNdx := 0 } }

end Store

end ServerCore.LighttpdArray
