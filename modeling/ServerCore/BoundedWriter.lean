import Mathlib.Data.List.Basic

/-!
# Writing before a limit

A writer puts elements one behind the other from a position on. An action writes
a text before a limit if it writes as much of the text as fits.
-/

namespace ServerCore.BoundedWriter

open List

variable {Element : Type*}

structure TextWriter (Element : Type*) where
  written : List Element
  position : Nat

def TextWriter.put (element : Element) (writer : TextWriter Element) : TextWriter Element where
  written := writer.written ++ [element]
  position := writer.position + 1

def TextWriter.copy (elements : List Element) (writer : TextWriter Element) : TextWriter Element where
  written := writer.written ++ elements
  position := writer.position + elements.length

def TextWriter.fill (last : Nat) (text : List Element) (writer : TextWriter Element) : TextWriter Element :=
  writer.copy (text.take (last - writer.position))

def Writes (last : Nat) (action : TextWriter Element → TextWriter Element) (text : List Element) : Prop :=
  ∀ writer : TextWriter Element, writer.position ≤ last → action writer = writer.fill last text

variable {last : Nat} {writer : TextWriter Element}

theorem copy_copy (front back : List Element) :
    (writer.copy front).copy back = writer.copy (front ++ back) := by
  simp [TextWriter.copy, Nat.add_assoc]

theorem copy_nil : writer.copy [] = writer := by
  rw [TextWriter.copy, append_nil]
  rfl

theorem fill_nil : writer.fill last [] = writer := by
  rw [TextWriter.fill, take_nil, copy_nil]

theorem fill_full (full : last ≤ writer.position) (text : List Element) :
    writer.fill last text = writer := by
  rw [TextWriter.fill, Nat.sub_eq_zero_of_le full, take_zero, copy_nil]

theorem fill_room {text : List Element} (room : text.length ≤ last - writer.position) :
    writer.fill last text = writer.copy text := by
  rw [TextWriter.fill, take_of_length_le room]

theorem put_eq_fill (room : writer.position < last) (element : Element) :
    writer.put element = writer.fill last [element] := by
  have enough : [element].length ≤ last - writer.position := by
    rw [length_singleton]
    omega
  rw [fill_room enough]
  rfl

theorem position_fill_le (inside : writer.position ≤ last) (text : List Element) :
    (writer.fill last text).position ≤ last := by
  have most := length_take_le (last - writer.position) text
  rw [TextWriter.fill, TextWriter.copy]
  dsimp only
  omega

theorem fill_fill (front back : List Element) :
    (writer.fill last front).fill last back = writer.fill last (front ++ back) := by
  have room : last - (writer.fill last front).position = last - writer.position - front.length := by
    rw [TextWriter.fill, TextWriter.copy, length_take]
    dsimp only
    omega
  rw [TextWriter.fill, room, TextWriter.fill, copy_copy, TextWriter.fill, take_append]

end ServerCore.BoundedWriter
