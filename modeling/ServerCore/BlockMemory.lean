import Mathlib.Algebra.Group.Nat.Defs
import ServerCore.RingBuffer

/-!
# Blocks written into memory

Values copied to consecutive addresses make a block. Blocks that do not touch
each other can be read back after all of them are written, in whatever order.
-/

namespace ServerCore.BlockMemory

open RingBuffer List

variable {addr : Nat}

section Blocks

variable {Value : Type*}

abbrev Block (Value : Type*) := Nat × List Value

variable {block : Block Value}

def Clear (one two : Block Value) : Prop :=
  one.1 + one.2.length ≤ two.1 ∨ two.1 + two.2.length ≤ one.1

def Reads (memory : Nat → Value) (block : Block Value) : Prop :=
  ∀ (index : Nat) (value : Value), block.2[index]? = some value → memory (block.1 + index) = value

def writeAll (memory : Nat → Value) (blocks : List (Block Value)) : Nat → Value :=
  blocks.foldl (fun memory block => copyTo memory block.1 block.2) memory

theorem copy_to_reads {memory : Nat → Value} (block : Block Value) :
    Reads (copyTo memory block.1 block.2) block := by
  intro index value found
  simp [copyTo, found]

theorem copy_to_frame (memory : Nat → Value) (block : Block Value)
    (outside : addr < block.1 ∨ block.1 + block.2.length ≤ addr) :
    copyTo memory block.1 block.2 addr = memory addr := by
  simp only [copyTo]
  split_ifs with above
  · rw [getElem?_eq_none (by omega)]
    rfl
  · rfl

variable {memory : Nat → Value}

theorem reads_copy_to {other : Block Value} (reads : Reads memory block)
    (clear : Clear block other) : Reads (copyTo memory other.1 other.2) block := by
  intro index value found
  have bound := (List.getElem?_eq_some_iff.mp found).1
  rw [copy_to_frame, reads index value found]
  unfold Clear at clear
  omega

theorem reads_write_all (blocks : List (Block Value)) (reads : Reads memory block)
    (clear : ∀ other ∈ blocks, Clear block other) : Reads (writeAll memory blocks) block := by
  induction blocks generalizing memory with
  | nil => exact reads
  | cons first blocks ih =>
    apply ih (reads_copy_to reads (clear first mem_cons_self))
    exact fun other mem => clear other (mem_cons_of_mem first mem)

theorem write_all_reads (memory : Nat → Value) (blocks : List (Block Value))
    (apart : blocks.Pairwise Clear) (mem : block ∈ blocks) :
    Reads (writeAll memory blocks) block := by
  induction blocks generalizing memory with
  | nil => simp at mem
  | cons first blocks ih =>
    rw [pairwise_cons] at apart
    cases mem with
    | head => exact reads_write_all blocks (copy_to_reads _) apart.1
    | tail _ later => exact ih _ apart.2 later

theorem reads_append {left right : List Value} (reads : Reads memory (addr, left ++ right)) :
    Reads memory (addr, left) ∧ Reads memory (addr + left.length, right) := by
  constructor
  · intro index value found
    have bound := (List.getElem?_eq_some_iff.mp found).1
    exact reads index value (by rw [getElem?_append_left bound]; exact found)
  · intro index value found
    have whole := reads (left.length + index) value (by
      rw [getElem?_append_right (by omega)]
      simpa using found)
    rwa [← Nat.add_assoc] at whole

end Blocks

def littleEndian : Nat → Nat → List UInt8
  | 0, _ => []
  | count + 1, number => UInt8.ofNat (number % 256) :: littleEndian count (number / 256)

def readNumber (memory : Nat → UInt8) : Nat → Nat → Nat
  | 0, _ => 0
  | count + 1, addr => (memory addr).toNat + 256 * readNumber memory count (addr + 1)

theorem little_endian_length (count number : Nat) : (littleEndian count number).length = count := by
  induction count generalizing number with
  | zero => rfl
  | succ count ih => rw [littleEndian, length_cons, ih]

theorem read_number {memory : Nat → UInt8} (count : Nat) {number : Nat}
    (reads : Reads memory (addr, littleEndian count number)) :
    readNumber memory count addr = number % 256 ^ count := by
  induction count generalizing addr number with
  | zero => simp [readNumber, Nat.mod_one]
  | succ count ih =>
    have first := reads 0 (UInt8.ofNat (number % 256)) rfl
    have rest : Reads memory (addr + 1, littleEndian count (number / 256)) :=
      (@reads_append _ _ _ [UInt8.ofNat (number % 256)] _ reads).2
    have byte : (UInt8.ofNat (number % 256)).toNat = number % 256 := by
      rw [UInt8.toNat_ofNat']
      omega
    dsimp only at first
    rw [Nat.add_zero] at first
    rw [readNumber, ih rest, first, byte, Nat.pow_succ', Nat.mod_mul]

end ServerCore.BlockMemory
