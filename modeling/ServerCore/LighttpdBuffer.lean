import Mathlib.Data.List.Basic
import Mathlib.Data.List.GetD
import Mathlib.Data.Option.Basic

/-!
# Buffers of lighttpd

What `buffer.c` does with the memory of a buffer that is appended to. The memory is a
function of which `size` bytes exist; `fresh` is what `malloc` and `realloc` find
there. A failed assertion has no result. Lengths are natural numbers, as no memory is
so large that their sums wrap around in `size_t`.
-/

namespace ServerCore.LighttpdBuffer

open List Function

variable {size : Nat}

abbrev Byte := UInt8

abbrev Bytes := List Byte

structure Buffer where
  ptr : Nat → Byte
  used : Nat
  size : Nat

def bufferAlignSize (size : Nat) : Nat := size + (64 - size % 64)

def Buffer.text (b : Buffer) : Bytes := (List.range (b.used - 1)).map b.ptr

def fill (memory : Nat → Byte) (start : Nat) : Bytes → Nat → Byte
  | [] => memory
  | byte :: bytes => fill (update memory start byte) (start + 1) bytes

def bufferCommit (b : Buffer) (size : Nat) : Option Buffer := do
  guard (b.size > 0)
  let used := if b.used = 0 then 1 else b.used
  guard (size > 0 → used + size ≤ b.size)
  some { b with ptr := update b.ptr (used + size - 1) 0, used := used + size }

section Allocation

variable (fresh : Nat → Byte)

def bufferAlloc (b : Buffer) (size : Nat) : Buffer :=
  let size := if size = 0 then 1 else size
  if size ≤ b.size then b else { ptr := fresh, used := 0, size := bufferAlignSize size }

def bufferRealloc (b : Buffer) (size : Nat) : Buffer :=
  let size := if size = 0 then 1 else size
  if size ≤ b.size then b
  else { b with
    ptr := fun index => if index < b.size then b.ptr index else fresh index
    size := bufferAlignSize size }

def bufferStringPrepareCopy (b : Buffer) (size : Nat) : Buffer :=
  let b := bufferAlloc fresh b (size + 1)
  { b with ptr := update b.ptr 0 0, used := 1 }

/-- What is returned points to `b->used - 1` in either case. -/
def bufferStringPrepareAppend (b : Buffer) (size : Nat) : Buffer :=
  if b.used < 2 then bufferStringPrepareCopy fresh b size else bufferRealloc fresh b (b.used + size)

end Allocation

def Holds (memory : Nat → Byte) (src : Nat) (rest : Bytes) : Prop :=
  ∀ index ≤ rest.length, memory (src + index) = rest.getD index 0

structure Sound (b : Buffer) : Prop where
  fits : b.used ≤ b.size
  ended : 0 < b.used → b.ptr (b.used - 1) = 0

variable {memory : Nat → Byte} {start : Nat}

theorem fill_before (bytes : Bytes) {index : Nat} (before : index < start) :
    fill memory start bytes index = memory index := by
  induction bytes generalizing memory start with
  | nil => rfl
  | cons byte bytes ih =>
    rw [fill, ih (Nat.lt_succ_of_lt before), update_of_ne (Nat.ne_of_lt before)]

theorem fill_at (bytes : Bytes) {index : Nat} (inside : index < bytes.length) :
    fill memory start bytes (start + index) = bytes[index] := by
  induction bytes generalizing memory start index with
  | nil => cases inside
  | cons byte bytes ih =>
    cases index with
    | zero => exact (fill_before bytes (Nat.lt_succ_self start)).trans (update_self start byte memory)
    | succ index =>
      have moved : start + (index + 1) = start + 1 + index := by omega
      rw [fill, moved, ih (Nat.lt_of_succ_lt_succ inside)]
      rfl

theorem fill_behind (bytes : Bytes) {index : Nat} (behind : start + bytes.length ≤ index) :
    fill memory start bytes index = memory index := by
  induction bytes generalizing memory start with
  | nil => rfl
  | cons byte bytes ih =>
    rw [length_cons] at behind
    rw [fill, ih (by omega), update_of_ne (by omega)]

variable {b : Buffer}

theorem text_append {c : Buffer} {bytes : Bytes} (used : c.used - 1 = b.used - 1 + bytes.length)
    (kept : ∀ index < b.used - 1, c.ptr index = b.ptr index)
    (written : ∀ index, (inside : index < bytes.length) → c.ptr (b.used - 1 + index) = bytes[index]) :
    c.text = b.text ++ bytes := by
  simp only [Buffer.text, used, range_add, map_append, map_map]
  congr 1
  · exact map_congr_left fun index mem => kept index (mem_range.mp mem)
  · apply ext_getElem (by simp)
    intro index inside bound
    simpa using written index bound

theorem commit_eq (used : 0 < b.used) (room : b.used + size ≤ b.size) : bufferCommit b size =
      some { b with ptr := update b.ptr (b.used + size - 1) 0, used := b.used + size } := by
  have inUse : b.used ≠ 0 := by omega
  have memory : b.size > 0 := by omega
  simp [bufferCommit, if_neg inUse, memory, room]

theorem commit_fill (bytes extra : Bytes) (used : 0 < b.used)
    (room : b.used + bytes.length ≤ b.size) :
    ∃ c, bufferCommit { b with ptr := fill b.ptr (b.used - 1) (bytes ++ extra) } bytes.length = some c ∧
      c.text = b.text ++ bytes ∧ Sound c := by
  refine ⟨_, commit_eq used room, ?_, room, fun _ => update_self _ _ _⟩
  have apart : ∀ index < b.used - 1 + bytes.length, index ≠ b.used + bytes.length - 1 := by omega
  apply text_append (Nat.sub_add_comm used)
  · intro index before
    exact (update_of_ne (apart index (by omega)) _ _).trans (fill_before _ before)
  · intro index inside
    have isByte := @fill_at b.ptr (b.used - 1) (bytes ++ extra) index
      (Nat.lt_of_lt_of_le inside (length_append ▸ Nat.le_add_right _ _))
    rw [getElem_append_left inside] at isByte
    exact (update_of_ne (apart _ (by omega)) _ _).trans isByte

theorem align_size_le : size ≤ bufferAlignSize size := Nat.le_add_right size _

theorem holds_drop {src : Nat} {rest : Bytes} (holds : Holds memory src rest) (count : Nat)
    (inside : count ≤ rest.length) : Holds memory (src + count) (rest.drop count) := by
  intro index bound
  rw [length_drop] at bound
  rw [Nat.add_assoc, holds (count + index) (by omega)]
  simp [getD_eq_getElem?_getD]

theorem text_length (b : Buffer) : b.text.length = b.used - 1 := by
  rw [Buffer.text, List.length_map, List.length_range]

theorem text_eq_nil (empty : b.used < 2) : b.text = [] := by
  apply List.eq_nil_of_length_eq_zero
  rw [text_length]
  omega

theorem holds_text (sound : Sound b) (used : 0 < b.used) : Holds b.ptr 0 b.text := by
  intro index inside
  have size := text_length b
  rw [Nat.zero_add]
  rcases Nat.lt_or_eq_of_le inside with before | last
  · rw [List.getD_eq_getElem _ _ before]
    simp [Buffer.text]
  · rw [last, List.getD_eq_default _ _ (Nat.le_refl _), size, sound.ended used]

theorem prepare_append_spec (fresh : Nat → Byte) (sound : Sound b) (size : Nat) :
    let c := bufferStringPrepareAppend fresh b size
    0 < c.used ∧ c.text = b.text ∧ c.ptr (c.used - 1) = 0 ∧ c.used + size ≤ c.size := by
  have fits := sound.fits
  by_cases empty : b.used < 2
  · simp only [bufferStringPrepareAppend, if_pos empty, bufferStringPrepareCopy, text_eq_nil empty]
    refine ⟨Nat.one_pos, rfl, update_self 0 0 _, ?_⟩
    simp only [bufferAlloc, Nat.add_one_ne_zero, if_false, Nat.add_comm 1 size]
    split_ifs with enough
    · exact enough
    · exact align_size_le
  · have ended := sound.ended (by omega)
    have asked : b.used + size ≠ 0 := by omega
    have inUse : 0 < b.used := by omega
    have inside : b.used - 1 < b.size := by omega
    simp only [bufferStringPrepareAppend, if_neg empty, bufferRealloc, if_neg asked]
    split_ifs with enough
    · exact ⟨inUse, rfl, ended, enough⟩
    · refine ⟨inUse, ?_, (if_pos inside).trans ended, align_size_le⟩
      exact map_congr_left fun index mem => if_pos (Nat.lt_trans (mem_range.mp mem) inside)

end ServerCore.LighttpdBuffer
