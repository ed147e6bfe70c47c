import ServerCore.NginxInetRoundTrip

/-!
# IPv6 addresses as RFC 4291 writes them

Section 2.2: eight groups of one to four hexadecimal digits between colons, or fewer with
one `::` for one or more groups of zeros, where the last two groups may be a dotted IPv4
address of four decimal numbers.
-/

namespace ServerCore.NginxInet6Grammar

open NginxHttpParse (Byte Bytes)
open NginxInet

def digitValue (c : Byte) : Option Nat :=
  if '0'.toUInt8 ≤ c ∧ c ≤ '9'.toUInt8 then some (c.toNat - '0'.toNat)
  else if 'a'.toUInt8 ≤ c ∧ c ≤ 'f'.toUInt8 then some (c.toNat - 'a'.toNat + 10)
  else if 'A'.toUInt8 ≤ c ∧ c ≤ 'F'.toUInt8 then some (c.toNat - 'A'.toNat + 10)
  else none

def IsGroup (group : Bytes) : Prop :=
  group ≠ [] ∧ group.length ≤ 4 ∧ ∀ c ∈ group, digitValue c ≠ none

instance (group : Bytes) : Decidable (IsGroup group) := inferInstanceAs (Decidable (_ ∧ _ ∧ _))

def groupValue (group : Bytes) : Nat := group.foldl (fun value c => value * 16 + (digitValue c).getD 0) 0

def groupBytes (groups : List Bytes) : Bytes := groups.flatMap fun group => wordBytes (groupValue group)

def decimalValue (octet : Bytes) : Nat := octet.foldl (fun value c => value * 10 + digitOf c) 0

/-- A number of eight bits in one to three decimal digits. -/
def IsOctet (octet : Bytes) : Prop :=
  octet ≠ [] ∧ octet.length ≤ 3 ∧ (∀ c ∈ octet, isDigit c = true) ∧ decimalValue octet ≤ 255

instance (octet : Bytes) : Decidable (IsOctet octet) := inferInstanceAs (Decidable (_ ∧ _ ∧ _ ∧ _))

def octetBytes (octets : List Bytes) : Bytes := octets.map fun octet => UInt8.ofNat (decimalValue octet)

def IsDotted (octets : List Bytes) : Prop := octets.length = 4 ∧ ∀ octet ∈ octets, IsOctet octet

instance (octets : List Bytes) : Decidable (IsDotted octets) := inferInstanceAs (Decidable (_ ∧ _))

/-- How an address is written: the groups in front of `::`, if that is there, the other
groups, and the numbers of a dotted end, if there is one. -/
structure Form where
  front : Option (List Bytes)
  groups : List Bytes
  octets : Option (List Bytes)

namespace Form

def dotted (octets : List Bytes) : Bytes := [dot].intercalate octets

section

variable (form : Form)

def fields : List Bytes := form.groups ++ (form.octets.map dotted).toList

def text : Bytes :=
  match form.front with
  | none => [colon].intercalate form.fields
  | some front => [colon].intercalate front ++ [colon, colon] ++ [colon].intercalate form.fields

/-- The number of groups that the fields stand for. -/
def size : Nat := form.groups.length + if form.octets.isSome then 2 else 0

def endBytes : Bytes := groupBytes form.groups ++ octetBytes (form.octets.getD [])

/-- The address, with zeros for `::`. -/
def bytes : Bytes :=
  match form.front with
  | none => form.endBytes
  | some front =>
    groupBytes front ++ List.replicate (2 * (8 - front.length - form.size)) 0 ++ form.endBytes

/-- There are eight groups, or fewer with `::`. -/
def Counted : Prop :=
  match form.front with
  | none => form.size = 8
  | some front => front.length + form.size ≤ 7

/-- The groups are groups, and the dotted end is of this kind. -/
def Made (end_ : List Bytes → Prop) : Prop :=
  (∀ group ∈ form.front.getD [] ++ form.groups, IsGroup group) ∧
  ∀ octets, form.octets = some octets → end_ octets

end

end Form

def IsAddress (text value : Bytes) : Prop :=
  ∃ form : Form, form.text = text ∧ form.Made IsDotted ∧ form.Counted ∧ form.bytes = value

/-- A dotted end that the code reads: a number may have no digit or more than three, but
the first one has one to four. The address 255.255.255.255 is the error value. -/
def Tolerable (octets : List Bytes) : Prop :=
  octets.length = 4 ∧ (∀ octet ∈ octets, (∀ c ∈ octet, isDigit c = true) ∧ decimalValue octet ≤ 255) ∧
    (∀ first ∈ octets.head?, first ≠ [] ∧ first.length ≤ 4) ∧ octetBytes octets ≠ [255, 255, 255, 255]

instance (octets : List Bytes) : Decidable (Tolerable octets) := inferInstanceAs (Decidable (_ ∧ _ ∧ _ ∧ _))

/-- Seven groups with a final `::`. -/
def Form.Closing (form : Form) : Prop :=
  ∃ front, form.front = some front ∧ front.length = 7 ∧ form.groups = [] ∧ form.octets = none

/-- The texts that the code reads otherwise. A single colon in front or, behind `::` and at
most six groups, at the end is let pass, and so is a dotted end with other numbers than
those of one to three digits. Seven groups with a final `::` and the end 255.255.255.255 are
refused. -/
inductive Odd : Bytes → Prop
  | leading (form : Form) (made : form.Made Tolerable) (notGap : form.front ≠ some [])
      (counted : form.Counted)
      (open_ : ¬form.Closing) : Odd (colon :: form.text)
  | trailing (form : Form) (before : Bytes) (front : List Bytes) (made : form.Made Tolerable)
      (isFront : form.front = some front) (some_ : form.groups ≠ []) (noEnd : form.octets = none)
      (few : front.length + form.groups.length ≤ 6) (single : before = [] ∨ before = [colon] ∧ front ≠ []) :
      Odd (before ++ form.text ++ [colon])
  | octets (form : Form) (made : form.Made Tolerable) (counted : form.Counted) (numbers : List Bytes)
      (isEnd : form.octets = some numbers) (other : ¬IsDotted numbers) : Odd form.text
  | broadcast (form : Form) (made : form.Made IsDotted) (counted : form.Counted) (numbers : List Bytes)
      (isEnd : form.octets = some numbers) (isNone : octetBytes numbers = [255, 255, 255, 255]) :
      Odd form.text
  | closing (form : Form) (made : form.Made IsDotted) (isClosing : form.Closing) : Odd form.text

end ServerCore.NginxInet6Grammar
