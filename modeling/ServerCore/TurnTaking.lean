import Mathlib.Data.List.Rotate

/-!
# Turns in a circle

The first index that is ready takes a turn, and the search for the next one
begins behind it.
-/

namespace ServerCore.TurnTaking

open List

variable (ready : Nat → Bool) (count : Nat)

/-- The indexes that are ready, in the order of their turns. -/
def order (start : Nat) : List Nat := ((range count).rotate start).filter ready

variable {ready count}

end ServerCore.TurnTaking
