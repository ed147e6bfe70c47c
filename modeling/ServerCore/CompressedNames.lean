import Mathlib.Algebra.GroupWithZero.Nat
import ServerCore.ByteTable

/-!
# Names with compression

In a message a name is a sequence of labels, each behind its length, and a zero
byte. Where the two highest bits of a length are not both zero, the byte and the
next one are instead the position at which the name goes on.
-/

namespace ServerCore.CompressedNames

open List

abbrev Byte := UInt8

abbrev Bytes := List Byte

def isPointer (n : Byte) : Bool := n &&& 0xc0 ≠ 0

def target (n low : Byte) : Nat := ((n &&& 0x3f).toNat <<< 8) + low.toNat

inductive Turn where
  | label (text : Bytes)
  | pointer

inductive Path (input : Bytes) : Nat → List Turn → Nat → Prop
  | here (p : Nat) : Path input p [] p
  | label {p stop : Nat} {n : Byte} {turns : List Turn} (first : input[p]? = some n) (more : n ≠ 0)
      (isLabel : isPointer n = false) (rest : Path input (p + 1 + n.toNat) turns stop) :
      Path input p (.label ((input.drop (p + 1)).take n.toNat) :: turns) stop
  | pointer {p stop : Nat} {n low : Byte} {turns : List Turn} (first : input[p]? = some n)
      (jumps : isPointer n = true) (second : input[p + 1]? = some low)
      (rest : Path input (target n low) turns stop) :
      Path input p (.pointer :: turns) stop

def labelsOf (turns : List Turn) : List Bytes :=
  turns.filterMap fun
    | .label text => some text
    | .pointer => none

def joined (sep : Byte) (labels : List Bytes) : Bytes := [sep].intercalate labels

def wireLabels (labels : List Bytes) : Bytes :=
  labels.flatMap fun label => UInt8.ofNat label.length :: label

def labelSize : Turn → Nat
  | .label text => 1 + text.length
  | .pointer => 0

def size (turns : List Turn) : Nat := (turns.map labelSize).sum

theorem pointer_nonzero {n : Byte} (jumps : isPointer n = true) : n ≠ 0 := by
  intro isZero
  rw [isZero] at jumps
  exact absurd jumps (by decide)

theorem size_cons (turn : Turn) (turns : List Turn) :
    size (turn :: turns) = labelSize turn + size turns := rfl

theorem size_zero_iff {input : Bytes} {p stop : Nat} {turns : List Turn} (path : Path input p turns stop) :
    size turns = 0 ↔ labelsOf turns = [] := by
  induction path with
  | here p => exact ⟨fun _ => rfl, fun _ => rfl⟩
  | label first more isLabel rest ih =>
    rw [size_cons, labelSize]
    constructor
    · intro none_
      omega
    · nofun
  | pointer first jumps second rest ih =>
    rw [size_cons, labelSize, Nat.zero_add]
    exact ih

theorem small_length : ∀ length < 64, isPointer (UInt8.ofNat length) = false ∧
    (UInt8.ofNat length).toNat = length := by
  decide

theorem wire_labels_cons (label : Bytes) (labels : List Bytes) :
    wireLabels (label :: labels) = UInt8.ofNat label.length :: (label ++ wireLabels labels) := by
  rw [wireLabels, flatMap_cons, cons_append]
  rfl

theorem label_byte (n : Byte) (isLabel : isPointer n = false) : n.toNat ≤ 63 := by
  have each : ∀ n : Byte, isPointer n = false → n.toNat ≤ 63 := ByteTable.forall_byte (by decide)
  exact each n isLabel

theorem wire_labels_append (labels others : List Bytes) :
    wireLabels (labels ++ others) = wireLabels labels ++ wireLabels others := flatMap_append

variable {labels : List Bytes}

theorem wire_path (valid : ∀ label ∈ labels, 1 ≤ label.length ∧ label.length ≤ 63) (front rest : Bytes) :
    Path (front ++ (wireLabels labels ++ rest)) front.length (labels.map Turn.label)
      (front ++ wireLabels labels).length := by
  induction labels generalizing front with
  | nil =>
    change Path _ front.length [] (front ++ []).length
    rw [append_nil]
    exact .here _
  | cons label labels ih =>
    obtain ⟨some_, short⟩ := valid label mem_cons_self
    obtain ⟨isLabel, isLength⟩ := small_length label.length (by omega)
    have more : UInt8.ofNat label.length ≠ 0 := by
      intro isZero
      rw [isZero] at isLength
      exact absurd isLength.symm (Nat.ne_of_gt some_)
    have next := ih (fun other mem => valid other (mem_cons_of_mem label mem))
      (front ++ UInt8.ofNat label.length :: label)
    rw [wire_labels_cons]
    simp only [append_assoc, cons_append] at next ⊢
    have first : (front ++ UInt8.ofNat label.length ::
        (label ++ (wireLabels labels ++ rest)))[front.length]? =
        some (UInt8.ofNat label.length) := by
      rw [getElem?_append_right (Nat.le_refl _), Nat.sub_self]
      rfl
    have pos : (front ++ UInt8.ofNat label.length :: label).length =
        front.length + 1 + (UInt8.ofNat label.length).toNat := by
      rw [isLength, length_append, length_cons]
      omega
    have taken : ((front ++ UInt8.ofNat label.length :: (label ++ (wireLabels labels ++ rest))).drop
        (front.length + 1)).take (UInt8.ofNat label.length).toNat = label := by
      rw [isLength, ← drop_drop, drop_left, drop_one, tail_cons, take_left]
    rw [pos] at next
    have path := Path.label first more isLabel next
    rw [taken] at path
    exact path

theorem wire_labels_unique {others : List Bytes}
    (valid : ∀ label ∈ labels, 1 ≤ label.length ∧ label.length ≤ 255)
    (alsoValid : ∀ label ∈ others, 1 ≤ label.length ∧ label.length ≤ 255) {rest behind : Bytes}
    (same : wireLabels labels ++ 0 :: rest = wireLabels others ++ 0 :: behind) : labels = others := by
  have nonzero : ∀ label : Bytes, 1 ≤ label.length ∧ label.length ≤ 255 → UInt8.ofNat label.length ≠ 0 := by
    intro label ⟨some_, short⟩ isZero
    have value : (UInt8.ofNat label.length).toNat = label.length % 256 := UInt8.toNat_ofNat'
    rw [isZero, UInt8.toNat_zero] at value
    omega
  induction labels generalizing others with
  | nil =>
    cases others with
    | nil => rfl
    | cons other others =>
      injection same with isZero
      exact absurd isZero.symm (nonzero other (alsoValid other mem_cons_self))
  | cons label labels ih =>
    cases others with
    | nil =>
      injection same with isZero
      exact absurd isZero (nonzero label (valid label mem_cons_self))
    | cons other others =>
      have isValid := valid label mem_cons_self
      have isOther := alsoValid other mem_cons_self
      rw [wire_labels_cons, wire_labels_cons, cons_append, cons_append, append_assoc,
        append_assoc] at same
      injection same with sameByte sameRest
      have sameLen : label.length = other.length := by
        have value := congrArg UInt8.toNat sameByte
        rw [UInt8.toNat_ofNat', UInt8.toNat_ofNat'] at value
        omega
      obtain ⟨sameLabel, sameLabels⟩ := append_inj sameRest sameLen
      rw [sameLabel, ih (fun l mem => valid l (mem_cons_of_mem label mem))
        (fun l mem => alsoValid l (mem_cons_of_mem other mem)) sameLabels]

theorem joined_length (sep : Byte) (some_ : labels ≠ []) :
    (joined sep labels).length + 1 = (wireLabels labels).length := by
  induction labels with
  | nil => cases some_ rfl
  | cons label labels ih =>
    rw [wire_labels_cons, length_cons, length_append]
    by_cases more : labels = []
    · rw [more, joined, intercalate_singleton]
      rfl
    · have rest := ih more
      rw [joined] at rest ⊢
      rw [intercalate_cons_of_ne_nil more, length_append, length_append, length_singleton]
      omega

end ServerCore.CompressedNames
