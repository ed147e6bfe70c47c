import Mathlib.Data.List.Basic

/-!
# Ring buffers

A ring of `capacity` cells is written at the position `stop % capacity` of a
counter that only grows, so the last `content.length` cells before `stop` hold
the content from the oldest to the newest value. Appending keeps what is there
as long as the old and the new values fit together.
-/

namespace ServerCore.RingBuffer

open List Function

variable {Value : Type*} {capacity stop : Nat}
variable {capacity start : Nat} {ring before after : Nat → Value} {content values : List Value}

structure Holds (ring : Nat → Value) (capacity stop : Nat) (content : List Value) : Prop where
  fits : content.length ≤ capacity
  written : content.length ≤ stop
  cell : ∀ (index : Nat) (value : Value), content[index]? = some value →
    ring ((stop - content.length + index) % capacity) = value

/-- `after` is `before` with the cells from `start` on, taken around the ring,
overwritten by `values`. -/
structure Overwrites (before after : Nat → Value) (capacity start : Nat) (values : List Value) :
    Prop where
  cell : ∀ (index : Nat) (value : Value), values[index]? = some value →
    after ((start + index) % capacity) = value
  frame : ∀ pos, (∀ index < values.length, pos ≠ (start + index) % capacity) →
    after pos = before pos

theorem mod_add_ne {first second : Nat} (order : first < second)
    (near : second < first + capacity) : first % capacity ≠ second % capacity := by
  intro same
  have gap : (second - first) % capacity = 0 := Nat.sub_mod_eq_zero_of_mod_eq same.symm
  rw [Nat.mod_eq_of_lt (by omega)] at gap
  omega

theorem holds_empty (ring : Nat → Value) (capacity stop : Nat) : Holds ring capacity stop [] :=
  ⟨Nat.zero_le _, Nat.zero_le _, by simp⟩

theorem holds_drop (holds : Holds ring capacity stop content) (count : Nat) :
    Holds ring capacity stop (content.drop count) := by
  have fits := holds.fits
  have written := holds.written
  refine ⟨by rw [length_drop]; omega, by rw [length_drop]; omega, ?_⟩
  intro index value found
  rw [getElem?_drop] at found
  have bound := (List.getElem?_eq_some_iff.mp found).1
  rw [← holds.cell (count + index) value found, length_drop]
  congr 2
  omega

theorem holds_append (holds : Holds before capacity stop content)
    (overwritten : Overwrites before after capacity stop values)
    (room : content.length + values.length ≤ capacity) :
    Holds after capacity (stop + values.length) (content ++ values) := by
  have written := holds.written
  refine ⟨by simpa using room, by rw [length_append]; omega, ?_⟩
  intro index value found
  have start : stop + values.length - (content ++ values).length + index =
      stop - content.length + index := by
    rw [length_append]
    omega
  rw [start]
  by_cases old : index < content.length
  · rw [getElem?_append_left old] at found
    rw [← holds.cell index value found]
    apply overwritten.frame
    intro offset bound
    exact mod_add_ne (by omega) (by omega)
  · rw [getElem?_append_right (by omega)] at found
    rw [← overwritten.cell (index - content.length) value found]
    congr 2
    omega

theorem holds_block {older block newer : List Value}
    (holds : Holds ring capacity stop (older ++ block ++ newer)) {index : Nat} {value : Value}
    (found : block[index]? = some value) :
    ring ((stop - (block ++ newer).length + index) % capacity) = value := by
  have bound := (List.getElem?_eq_some_iff.mp found).1
  have written := holds.written
  have place : (older ++ block ++ newer)[older.length + index]? = some value := by
    rw [append_assoc, getElem?_append_right (by omega), getElem?_append_left (by omega)]
    simpa using found
  rw [← holds.cell _ value place]
  simp only [length_append] at written ⊢
  congr 2
  omega

theorem overwrites_append {first second third : Nat → Value}
    {left right : List Value} (head : Overwrites first second capacity start left)
    (tail : Overwrites second third capacity (start + left.length) right)
    (room : left.length + right.length ≤ capacity) :
    Overwrites first third capacity start (left ++ right) := by
  constructor
  · intro index value found
    by_cases early : index < left.length
    · rw [getElem?_append_left early] at found
      rw [← head.cell index value found]
      apply tail.frame
      intro offset bound
      exact mod_add_ne (by omega) (by omega)
    · rw [getElem?_append_right (by omega)] at found
      rw [← tail.cell (index - left.length) value found]
      congr 2
      omega
  · intro pos untouched
    rw [tail.frame, head.frame]
    · intro index bound
      exact untouched index (by rw [length_append]; omega)
    · intro index bound
      rw [Nat.add_assoc]
      exact untouched (left.length + index) (by rw [length_append]; omega)

theorem overwrites_update (ring : Nat → Value) (capacity start : Nat) (value : Value) :
    Overwrites ring (update ring (start % capacity) value) capacity start [value] := by
  constructor
  · intro index found_ found
    cases index with
    | zero =>
      cases found
      simp
    | succ index => simp at found
  · intro pos untouched
    rw [update_of_ne]
    simpa using untouched 0 (by simp)

/-- `memcpy`: consecutive cells, not taken around the ring. -/
def copyTo (ring : Nat → Value) (offset : Nat) (values : List Value) : Nat → Value :=
  fun pos =>
    if offset ≤ pos then (values[pos - offset]?).getD (ring pos) else ring pos

theorem overwrites_copy (ring : Nat → Value) {offset : Nat}
    (room : offset + values.length ≤ capacity) :
    Overwrites ring (copyTo ring offset values) capacity offset values := by
  constructor
  · intro index value found
    have bound := (List.getElem?_eq_some_iff.mp found).1
    rw [Nat.mod_eq_of_lt (by omega)]
    simp [copyTo, found]
  · intro pos untouched
    simp only [copyTo]
    split_ifs with above
    · by_cases inside : pos - offset < values.length
      · exfalso
        apply untouched (pos - offset) inside
        rw [Nat.mod_eq_of_lt (by omega)]
        omega
      · rw [getElem?_eq_none (by omega)]
        rfl
    · rfl

theorem overwrites_congr {other : Nat} (overwritten : Overwrites before after capacity start values)
    (same : start % capacity = other % capacity) : Overwrites before after capacity other values := by
  have shift : ∀ index, (other + index) % capacity = (start + index) % capacity := by
    intro index
    rw [Nat.add_mod, ← same, ← Nat.add_mod]
  constructor
  · intro index value found
    rw [shift]
    exact overwritten.cell index value found
  · intro pos untouched
    apply overwritten.frame
    intro index bound
    rw [← shift]
    exact untouched index bound

end ServerCore.RingBuffer
