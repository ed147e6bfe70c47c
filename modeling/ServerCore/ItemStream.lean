import Mathlib.Data.List.Basic

/-!
# Items one behind the other

A reader that takes one encoded item from the front of a text, whatever stands
behind it, takes a sequence of them.
-/

namespace ServerCore.ItemStream

open List

variable {Symbol Item : Type*} (read : List Symbol → Option (Item × List Symbol))

/-- The items of a text that ends behind the last one. Each of them takes at least one symbol. -/
def readItems : Nat → List Symbol → Option (List Item)
  | _, [] => some []
  | 0, _ :: _ => none
  | fuel + 1, symbol :: rest =>
    (read (symbol :: rest)).bind fun taken => (readItems fuel taken.2).map (taken.1 :: ·)

def decode (text : List Symbol) : Option (List Item) := readItems read text.length text

variable {read} {encode : Item → List Symbol} {items : List Item}

section

variable (reads : ∀ item ∈ items, ∀ rest, read (encode item ++ rest) = some (item, rest))
    (nonempty : ∀ item, encode item ≠ [])
include reads nonempty

theorem read_items {fuel : Nat} (enough : (items.flatMap encode).length ≤ fuel) :
    readItems read fuel (items.flatMap encode) = some items := by
  induction items generalizing fuel with
  | nil => cases fuel <;> rfl
  | cons item items ih =>
    have some_ := length_pos_of_ne_nil (nonempty item)
    rw [flatMap_cons, length_append] at enough
    cases fuel with
    | zero => omega
    | succ fuel =>
      have rest := @ih (fun other mem => reads other (mem_cons_of_mem _ mem)) fuel (by omega)
      have first := reads item mem_cons_self (items.flatMap encode)
      rw [flatMap_cons]
      obtain ⟨symbol, back, isText⟩ :=
        exists_cons_of_ne_nil (append_ne_nil_of_left_ne_nil (nonempty item) (items.flatMap encode))
      rw [isText] at first ⊢
      rw [readItems, first, Option.bind_some, rest]
      rfl

theorem decode_encode : decode read (items.flatMap encode) = some items :=
  read_items reads nonempty (Nat.le_refl _)

end

end ServerCore.ItemStream
