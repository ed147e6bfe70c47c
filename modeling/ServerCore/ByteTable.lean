import Mathlib.Data.List.Basic

/-!
# Facts about every byte

A property of bytes holds once it holds for the 256 codes; this turns facts about
tables and character classes into evaluations. The two halves of a code are bound one
by one, which keeps an evaluation shallow.
-/

namespace ServerCore.ByteTable

theorem forall_byte {property : UInt8 → Prop}
    (all : ∀ high low : Fin 16, property (UInt8.ofNat (16 * high.val + low.val)))
    (byte : UInt8) : property byte := by
  have bound := byte.toNat_lt
  have found := all ⟨byte.toNat / 16, by omega⟩ ⟨byte.toNat % 16, by omega⟩
  rwa [Nat.div_add_mod, UInt8.ofNat_toNat] at found

end ServerCore.ByteTable
