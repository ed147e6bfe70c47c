import Mathlib.Algebra.Group.Nat.Defs
import Mathlib.Data.List.Basic

/-!
# UTF-8

`ngx_utf8_decode` and `ngx_utf8_length`. A pointer is the list of the bytes that can
be read from it on; a function that would read behind them has no result. At most
three bytes of six bits are shifted into `u`, which holds three bits before, so that
no shift leaves `uint32_t`.
-/

namespace ServerCore.NginxUtf8

variable {valid len u n : Nat}

abbrev Byte := UInt8

abbrev Bytes := List Byte

/-- What `ngx_utf8_decode` returns, and by how much it moves `*p`. -/
structure Decoded where
  value : Nat
  consumed : Nat
  deriving DecidableEq

/-- The loop over the bytes that follow the first one, and the comparison behind it. -/
def followLoop (valid : Nat) : Nat → Nat → Nat → Bytes → Option Decoded
  | 0, u, consumed, _ => some (if u > valid then ⟨u, consumed⟩ else ⟨0xffffffff, consumed⟩)
  | _ + 1, _, _, [] => none
  | len + 1, u, consumed, i :: p =>
    if i < 0x80 then some ⟨0xffffffff, consumed + 1⟩
    else followLoop valid len ((u <<< 6) ||| (i.toNat &&& 0x3f)) (consumed + 1) p

/-- `n - 1 < len` in `size_t`, and then the loop. -/
def decodeFollowing (valid len u n : Nat) (p : Bytes) : Option Decoded :=
  if (if n = 0 then 2 ^ 64 - 1 else n - 1) < len then some ⟨0xfffffffe, 0⟩
  else followLoop valid len u 1 p

def ngxUtf8Decode (p : Bytes) (n : Nat) : Option Decoded :=
  match p with
  | [] => none
  | c :: p =>
    if c ≥ 0xf0 then decodeFollowing 0xffff 3 (c.toNat &&& 0x07) n p
    else if c ≥ 0xe0 then decodeFollowing 0x7ff 2 (c.toNat &&& 0x0f) n p
    else if c ≥ 0xc2 then decodeFollowing 0x7f 1 (c.toNat &&& 0x1f) n p
    else some ⟨0xffffffff, 1⟩

variable {p : Bytes} {decoded : Decoded}

theorem follow_loop_consumed {consumed : Nat}
    (found : followLoop valid len u consumed p = some decoded) : consumed ≤ decoded.consumed := by
  induction p generalizing len u consumed with
  | nil =>
    cases len with
    | zero =>
      rw [followLoop] at found
      split_ifs at found <;> cases found <;> exact Nat.le_refl _
    | succ len => cases found
  | cons i p ih =>
    cases len with
    | zero =>
      rw [followLoop] at found
      split_ifs at found <;> cases found <;> exact Nat.le_refl _
    | succ len =>
      rw [followLoop] at found
      split_ifs at found
      · cases found
        exact Nat.le_succ consumed
      · exact Nat.le_trans (Nat.le_succ consumed) (ih found)

theorem decode_following_moves (found : decodeFollowing valid len u n p = some decoded) :
    decoded.value = 0xfffffffe ∨ 1 ≤ decoded.consumed := by
  rw [decodeFollowing] at found
  split_ifs at found
  · cases found
    exact Or.inl rfl
  · exact Or.inr (follow_loop_consumed found)
  · cases found
    exact Or.inl rfl
  · exact Or.inr (follow_loop_consumed found)

theorem decode_moves (found : ngxUtf8Decode p n = some decoded)
    (small : ¬ decoded.value > 0x10ffff) : 1 ≤ decoded.consumed := by
  have moved : decoded.value = 0xfffffffe ∨ 1 ≤ decoded.consumed := by
    cases p with
    | nil => cases found
    | cons c p =>
      rw [ngxUtf8Decode] at found
      split_ifs at found
      · exact decode_following_moves found
      · exact decode_following_moves found
      · exact decode_following_moves found
      · cases found
        exact Or.inr (Nat.le_refl 1)
  rcases moved with incomplete | moves
  · omega
  · exact moves

/-- The loop of `ngx_utf8_length`, where `left` bytes remain up to `last`. -/
def lengthLoop (n : Nat) (p : Bytes) (left len : Nat) : Option Nat :=
  if left = 0 then some len
  else
    match p with
    | [] => none
    | c :: rest =>
      if c < 0x80 then lengthLoop n rest (left - 1) (len + 1)
      else
        match found : ngxUtf8Decode (c :: rest) n with
        | none => none
        | some decoded =>
          if small : decoded.value > 0x10ffff then some n
          else lengthLoop n ((c :: rest).drop decoded.consumed) (left - decoded.consumed) (len + 1)
termination_by p.length
decreasing_by
  · simp
  · have moves := decode_moves found small
    simp only [List.length_drop, List.length_cons]
    omega

def ngxUtf8Length (p : Bytes) (n : Nat) : Option Nat := lengthLoop n p n 0

end ServerCore.NginxUtf8
