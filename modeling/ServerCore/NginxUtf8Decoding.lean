import ServerCore.NginxUtf8
import Mathlib.Tactic.Ring

/-!
# When the UTF-8 decoder is exact

`ngx_utf8_decode` decodes every encoding of a character from U+0080 on. It also
takes some sequences that encode nothing: the bytes that follow are only
compared with 0x80, the first byte has no upper limit, and surrogates are not
refused.
-/

namespace ServerCore.NginxUtf8Decoding

open NginxUtf8 List

variable {number : Nat}
variable {valid u consumed len : Nat} {bound : Byte}

def encodeNat (number : Nat) : Bytes :=
  if number ≤ 0x7f then [UInt8.ofNat number]
  else if number ≤ 0x7ff then
    [UInt8.ofNat (number / 64 % 0x20 + 0xc0), UInt8.ofNat (number % 0x40 + 0x80)]
  else if number ≤ 0xffff then
    [UInt8.ofNat (number / 4096 % 0x10 + 0xe0), UInt8.ofNat (number / 64 % 0x40 + 0x80),
      UInt8.ofNat (number % 0x40 + 0x80)]
  else
    [UInt8.ofNat (number / 262144 % 0x08 + 0xf0), UInt8.ofNat (number / 4096 % 0x40 + 0x80),
      UInt8.ofNat (number / 64 % 0x40 + 0x80), UInt8.ofNat (number % 0x40 + 0x80)]

theorem encode_char (c : Char) : String.utf8EncodeChar c = encodeNat c.toNat := rfl

def Encodes (number : Nat) (bytes : Bytes) : Prop :=
  ∃ c : Char, c.toNat = number ∧ bytes = String.utf8EncodeChar c

theorem encodes_iff (number : Nat) (bytes : Bytes) :
    Encodes number bytes ↔ number.isValidChar ∧ bytes = encodeNat number := by
  constructor
  · intro encodes
    obtain ⟨c, isNumber, isBytes⟩ := encodes
    rw [encode_char, isNumber] at isBytes
    exact ⟨isNumber ▸ c.valid, isBytes⟩
  · intro both
    exact ⟨Char.ofNatAux number both.1, rfl, both.2⟩

/-- Sequences that are taken although they encode no character, by the number of bytes of their
form. -/
inductive Misread : Bytes → Nat → Prop where
  | two (c i : Byte) (rest : Bytes) (n : Nat) : 2 ≤ n → 0xc2 ≤ c → c < 0xe0 → 0xc0 ≤ i →
      Misread (c :: i :: rest) n
  | three (c i j : Byte) (rest : Bytes) (n : Nat) : 3 ≤ n → 0xe0 ≤ c → c < 0xf0 → 0x80 ≤ i → 0x80 ≤ j →
      (c = 0xe0 → 0x20 ≤ i.toNat % 64) → (0xc0 ≤ i ∨ 0xc0 ≤ j ∨ c = 0xed ∧ 0x20 ≤ i.toNat % 64) →
      Misread (c :: i :: j :: rest) n
  | four (c i j k : Byte) (rest : Bytes) (n : Nat) : 4 ≤ n → 0xf0 ≤ c → 0x80 ≤ i → 0x80 ≤ j → 0x80 ≤ k →
      0x10 ≤ c.toNat % 8 * 64 + i.toNat % 64 → c.toNat % 8 * 64 + i.toNat % 64 < 0x110 →
      (0xf8 ≤ c ∨ 0xc0 ≤ i ∨ 0xc0 ≤ j ∨ 0xc0 ≤ k) → Misread (c :: i :: j :: k :: rest) n

/-- What is wanted of a call: it reads inside the available bytes, a value that it returns is that
of the bytes that it consumed, and it finds an encoding that is there. -/
structure Exact (p : Bytes) (n : Nat) : Prop where
  sound : ∃ decoded, ngxUtf8Decode (p.take n) n = some decoded ∧ ngxUtf8Decode p n = some decoded ∧
    (0x80 ≤ decoded.value → decoded.value ≤ 0x10ffff →
      Encodes decoded.value (p.take decoded.consumed))
  complete : ∀ c : Char, 0x80 ≤ c.toNat → (String.utf8EncodeChar c).IsPrefix (p.take n) →
    ngxUtf8Decode p n = some ⟨c.toNat, (String.utf8EncodeChar c).length⟩

theorem shift_step (u : Nat) (i : Byte) : (u <<< 6) ||| (i.toNat &&& 0x3f) = u * 64 + i.toNat % 64 := by
  have low : i.toNat &&& 0x3f = i.toNat % 64 := Nat.and_two_pow_sub_one_eq_mod i.toNat 6
  have small : i.toNat % 64 < 2 ^ 6 := Nat.mod_lt _ (by decide)
  rw [low, ← Nat.shiftLeft_add_eq_or_of_lt small, Nat.shiftLeft_eq]

theorem lead_bits (c : Byte) :
    c.toNat &&& 0x07 = c.toNat % 8 ∧ c.toNat &&& 0x0f = c.toNat % 16 ∧ c.toNat &&& 0x1f = c.toNat % 32 :=
  ⟨Nat.and_two_pow_sub_one_eq_mod c.toNat 3, Nat.and_two_pow_sub_one_eq_mod c.toNat 4,
    Nat.and_two_pow_sub_one_eq_mod c.toNat 5⟩

theorem eq_of_nat_iff (c : Byte) (small : number < 256) :
    c = UInt8.ofNat number ↔ c.toNat = number := by
  rw [← UInt8.toNat_inj, UInt8.toNat_ofNat', Nat.mod_eq_of_lt small]

section Memory

variable {valid len u n consumed : Nat} {p more : Bytes} {decoded : Decoded}

theorem follow_loop_append (found : followLoop valid len u consumed p = some decoded) :
    followLoop valid len u consumed (p ++ more) = some decoded := by
  induction p generalizing len u consumed with
  | nil =>
    cases len with
    | zero =>
      rw [followLoop] at found ⊢
      exact found
    | succ len => cases found
  | cons i p ih =>
    cases len with
    | zero =>
      rw [followLoop] at found ⊢
      exact found
    | succ len =>
      rw [followLoop] at found
      rw [cons_append, followLoop]
      split_ifs at found ⊢
      · exact found
      · exact ih found

theorem follow_loop_total (enough : len ≤ p.length) :
    ∃ decoded, followLoop valid len u consumed p = some decoded := by
  induction p generalizing len u consumed with
  | nil =>
    obtain rfl : len = 0 := Nat.le_zero.mp enough
    exact ⟨_, rfl⟩
  | cons i p ih =>
    cases len with
    | zero => exact ⟨_, rfl⟩
    | succ len =>
      rw [followLoop]
      split_ifs
      · exact ⟨_, rfl⟩
      · exact ih (Nat.le_of_succ_le_succ enough)

theorem decode_following_append (found : decodeFollowing valid len u n p = some decoded) :
    decodeFollowing valid len u n (p ++ more) = some decoded := by
  rw [decodeFollowing] at found ⊢
  split_ifs at found ⊢
  · exact found
  · exact follow_loop_append found
  · exact found
  · exact follow_loop_append found

theorem decode_append (found : ngxUtf8Decode p n = some decoded) :
    ngxUtf8Decode (p ++ more) n = some decoded := by
  cases p with
  | nil => cases found
  | cons c p =>
    rw [ngxUtf8Decode] at found
    rw [cons_append, ngxUtf8Decode]
    split_ifs at found ⊢
    · exact decode_following_append found
    · exact decode_following_append found
    · exact decode_following_append found
    · exact found

theorem decode_following_total (pos : 1 ≤ n) (enough : n ≤ p.length + 1) :
    ∃ decoded, decodeFollowing valid len u n p = some decoded := by
  rw [decodeFollowing, if_neg (Nat.pos_iff_ne_zero.mp pos)]
  split_ifs with short
  · exact ⟨_, rfl⟩
  · exact follow_loop_total (by omega)

theorem decode_total (pos : 1 ≤ n) (enough : n ≤ p.length) :
    ∃ decoded, ngxUtf8Decode p n = some decoded := by
  cases p with
  | nil =>
    rw [length_nil] at enough
    omega
  | cons c p =>
    rw [ngxUtf8Decode]
    split_ifs
    · exact decode_following_total pos enough
    · exact decode_following_total pos enough
    · exact decode_following_total pos enough
    · exact ⟨_, rfl⟩

end Memory

inductive Taken : Bytes → Nat → Decoded → Prop where
  | two (c i : Byte) (rest : Bytes) (n : Nat) : 2 ≤ n → 0xc2 ≤ c → c < 0xe0 → 0x80 ≤ i →
      Taken (c :: i :: rest) n ⟨c.toNat % 32 * 64 + i.toNat % 64, 2⟩
  | three (c i j : Byte) (rest : Bytes) (n : Nat) : 3 ≤ n → 0xe0 ≤ c → c < 0xf0 → 0x80 ≤ i → 0x80 ≤ j →
      (c = 0xe0 → 0x20 ≤ i.toNat % 64) →
      Taken (c :: i :: j :: rest) n ⟨(c.toNat % 16 * 64 + i.toNat % 64) * 64 + j.toNat % 64, 3⟩
  | four (c i j k : Byte) (rest : Bytes) (n : Nat) : 4 ≤ n → 0xf0 ≤ c → 0x80 ≤ i → 0x80 ≤ j → 0x80 ≤ k →
      0x10 ≤ c.toNat % 8 * 64 + i.toNat % 64 → c.toNat % 8 * 64 + i.toNat % 64 < 0x110 →
      Taken (c :: i :: j :: k :: rest) n
        ⟨((c.toNat % 8 * 64 + i.toNat % 64) * 64 + j.toNat % 64) * 64 + k.toNat % 64, 4⟩

section Shapes

variable {p : Bytes} {n : Nat} {decoded : Decoded}

theorem follow_loop_cons (valid len u consumed : Nat) (i : Byte) (p : Bytes) :
    followLoop valid (len + 1) u consumed (i :: p) =
      if i < 0x80 then some ⟨0xffffffff, consumed + 1⟩
      else followLoop valid len (u * 64 + i.toNat % 64) (consumed + 1) p := by
  rw [followLoop, shift_step]

theorem follow_loop_end (found : followLoop valid 0 u consumed p = some decoded)
    (bounded : decoded.value ≤ 0x10ffff) : valid < u ∧ decoded = ⟨u, consumed⟩ := by
  rw [followLoop] at found
  split_ifs at found with larger
  · cases found
    exact ⟨larger, rfl⟩
  · cases found
    simp at bounded

theorem follow_loop_next (found : followLoop valid (len + 1) u consumed p = some decoded)
    (bounded : decoded.value ≤ 0x10ffff) : ∃ i rest, p = i :: rest ∧ 0x80 ≤ i ∧
      followLoop valid len (u * 64 + i.toNat % 64) (consumed + 1) rest = some decoded := by
  cases p with
  | nil => cases found
  | cons i rest =>
    rw [follow_loop_cons] at found
    split_ifs at found with low
    · cases found
      simp at bounded
    · exact ⟨i, rest, rfl, UInt8.not_lt.mp low, found⟩

theorem decode_following_next (pos : 1 ≤ n)
    (found : decodeFollowing valid len u n p = some decoded) (bounded : decoded.value ≤ 0x10ffff) :
    len + 1 ≤ n ∧ followLoop valid len u 1 p = some decoded := by
  rw [decodeFollowing, if_neg (Nat.pos_iff_ne_zero.mp pos)] at found
  split_ifs at found with short
  · cases found
    simp at bounded
  · exact ⟨by omega, found⟩

theorem decode_following_enough (enough : len + 1 ≤ n) :
    decodeFollowing valid len u n p = followLoop valid len u 1 p := by
  have nonzero : n ≠ 0 := by omega
  rw [decodeFollowing, if_neg nonzero, if_neg (by omega)]

theorem decode_taken (pos : 1 ≤ n) (found : ngxUtf8Decode p n = some decoded)
    (bounded : decoded.value ≤ 0x10ffff) : Taken p n decoded := by
  cases p with
  | nil => cases found
  | cons c p =>
    have bits := lead_bits c
    rw [ngxUtf8Decode] at found
    split_ifs at found with four three two
    · obtain ⟨enough, loop⟩ := decode_following_next pos found bounded
      obtain ⟨i, p, rfl, isTail, loop⟩ := follow_loop_next loop bounded
      obtain ⟨j, p, rfl, isTail', loop⟩ := follow_loop_next loop bounded
      obtain ⟨k, p, rfl, isTail'', loop⟩ := follow_loop_next loop bounded
      obtain ⟨larger, rfl⟩ := follow_loop_end loop bounded
      rw [bits.1] at larger bounded ⊢
      refine Taken.four c i j k p n enough four isTail isTail' isTail'' ?_ ?_
      · omega
      · simp only at bounded
        omega
    · obtain ⟨enough, loop⟩ := decode_following_next pos found bounded
      obtain ⟨i, p, rfl, isTail, loop⟩ := follow_loop_next loop bounded
      obtain ⟨j, p, rfl, isTail', loop⟩ := follow_loop_next loop bounded
      obtain ⟨larger, rfl⟩ := follow_loop_end loop bounded
      rw [bits.2.1] at larger bounded ⊢
      refine Taken.three c i j p n enough three (UInt8.not_le.mp four) isTail isTail' ?_
      rintro rfl
      have lead : (0xe0 : Byte).toNat % 16 = 0 := by decide
      omega
    · obtain ⟨enough, loop⟩ := decode_following_next pos found bounded
      obtain ⟨i, p, rfl, isTail, loop⟩ := follow_loop_next loop bounded
      obtain ⟨larger, rfl⟩ := follow_loop_end loop bounded
      rw [bits.2.2] at larger bounded ⊢
      exact Taken.two c i p n enough two (UInt8.not_le.mp three) isTail
    · cases found
      simp at bounded

theorem taken_decode (taken : Taken p n decoded) : ngxUtf8Decode p n = some decoded := by
  cases taken with
  | two c i rest n enough isLead below isTail =>
    have notFour : ¬ c ≥ 0xf0 := UInt8.not_le.mpr (UInt8.lt_trans below (by decide))
    have keep : ¬ i < 0x80 := UInt8.not_lt.mpr isTail
    have larger : c.toNat % 32 * 64 + i.toNat % 64 > 0x7f := by
      rw [UInt8.le_iff_toNat_le] at isLead
      rw [UInt8.lt_iff_toNat_lt] at below
      have low : (0xc2 : Byte).toNat = 194 := rfl
      have high : (0xe0 : Byte).toNat = 224 := rfl
      omega
    rw [ngxUtf8Decode, if_neg notFour, if_neg (UInt8.not_le.mpr below), if_pos isLead,
      decode_following_enough enough, (lead_bits c).2.2, follow_loop_cons, if_neg keep, followLoop,
      if_pos larger]
  | three c i j rest n enough isLead below isTail isTail' wide =>
    have keep : ¬ i < 0x80 := UInt8.not_lt.mpr isTail
    have keep' : ¬ j < 0x80 := UInt8.not_lt.mpr isTail'
    have larger : (c.toNat % 16 * 64 + i.toNat % 64) * 64 + j.toNat % 64 > 0x7ff := by
      have isZero : c.toNat = 224 → 0x20 ≤ i.toNat % 64 := fun same =>
        wide ((UInt8.toNat_inj.mp (same.trans rfl)))
      rw [UInt8.le_iff_toNat_le] at isLead
      rw [UInt8.lt_iff_toNat_lt] at below
      have low : (0xe0 : Byte).toNat = 224 := rfl
      have high : (0xf0 : Byte).toNat = 240 := rfl
      omega
    rw [ngxUtf8Decode, if_neg (UInt8.not_le.mpr below), if_pos isLead,
      decode_following_enough enough, (lead_bits c).2.1, follow_loop_cons, if_neg keep,
      follow_loop_cons, if_neg keep', followLoop, if_pos larger]
  | four c i j k rest n enough isLead isTail isTail' isTail'' wide bounded =>
    have larger : ((c.toNat % 8 * 64 + i.toNat % 64) * 64 + j.toNat % 64) * 64 + k.toNat % 64 > 0xffff := by
      omega
    rw [ngxUtf8Decode, if_pos isLead, decode_following_enough enough,
      (lead_bits c).1, follow_loop_cons, if_neg (UInt8.not_lt.mpr isTail), follow_loop_cons,
      if_neg (UInt8.not_lt.mpr isTail'), follow_loop_cons, if_neg (UInt8.not_lt.mpr isTail''), followLoop,
      if_pos larger]

end Shapes

section Exactness

variable {p : Bytes} {n : Nat} {decoded : Decoded}

theorem taken_in_range (taken : Taken p n decoded) : 0x80 ≤ decoded.value ∧ decoded.value ≤ 0x10ffff := by
  cases taken with
  | two c i rest n enough isLead below isTail =>
    rw [UInt8.le_iff_toNat_le] at isLead
    rw [UInt8.lt_iff_toNat_lt] at below
    have low : (0xc2 : Byte).toNat = 194 := rfl
    have high : (0xe0 : Byte).toNat = 224 := rfl
    dsimp only
    omega
  | three c i j rest n enough isLead below isTail isTail' wide =>
    have isZero : c.toNat = 224 → 0x20 ≤ i.toNat % 64 := fun same =>
      wide ((UInt8.toNat_inj.mp (same.trans rfl)))
    rw [UInt8.le_iff_toNat_le] at isLead
    rw [UInt8.lt_iff_toNat_lt] at below
    have low : (0xe0 : Byte).toNat = 224 := rfl
    have high : (0xf0 : Byte).toNat = 240 := rfl
    dsimp only
    omega
  | four c i j k rest n enough isLead isTail isTail' isTail'' wide bounded =>
    dsimp only
    omega

theorem misread_taken (misread : Misread p n) : ∃ decoded, Taken p n decoded := by
  cases misread with
  | two c i rest n enough isLead below isHigh =>
    exact ⟨_, Taken.two c i rest n enough isLead below (UInt8.le_trans (by decide) isHigh)⟩
  | three c i j rest n enough isLead below isTail isTail' wide _ =>
    exact ⟨_, Taken.three c i j rest n enough isLead below isTail isTail' wide⟩
  | four c i j k rest n enough isLead isTail isTail' isTail'' wide bounded _ =>
    exact ⟨_, Taken.four c i j k rest n enough isLead isTail isTail' isTail'' wide bounded⟩

theorem tail_byte_iff (i : Byte) (isTail : 0x80 ≤ i) : i = UInt8.ofNat (i.toNat % 64 + 0x80) ↔ i < 0xc0 := by
  rw [UInt8.le_iff_toNat_le] at isTail
  rw [UInt8.lt_iff_toNat_lt, eq_of_nat_iff i (by omega)]
  have low : (0x80 : Byte).toNat = 128 := rfl
  have high : (0xc0 : Byte).toNat = 192 := rfl
  omega

theorem encodes_two (c i : Byte) (isLead : 0xc2 ≤ c) (below : c < 0xe0) (isTail : 0x80 ≤ i) :
    Encodes (c.toNat % 32 * 64 + i.toNat % 64) [c, i] ↔ i < 0xc0 := by
  generalize isValue : c.toNat % 32 * 64 + i.toNat % 64 = v
  have tail := tail_byte_iff i isTail
  rw [UInt8.le_iff_toNat_le] at isLead
  rw [UInt8.lt_iff_toNat_lt] at below
  have low : (0xc2 : Byte).toNat = 194 := rfl
  have high : (0xe0 : Byte).toNat = 224 := rfl
  have lead : c = UInt8.ofNat (c.toNat % 32 + 0xc0) := (eq_of_nat_iff c (by omega)).mpr (by omega)
  have isValid : v.isValidChar := Or.inl (by omega)
  have first : v / 64 % 0x20 = c.toNat % 32 := by omega
  have second : v % 0x40 = i.toNat % 64 := by omega
  rw [encodes_iff, encodeNat, if_neg (by omega), if_pos (by omega), first, second, ← lead, ← tail]
  simp [isValid]

theorem encodes_three (c i j : Byte) (isLead : 0xe0 ≤ c) (below : c < 0xf0) (isTail : 0x80 ≤ i)
    (isTail' : 0x80 ≤ j) (wide : c = 0xe0 → 0x20 ≤ i.toNat % 64) :
    Encodes ((c.toNat % 16 * 64 + i.toNat % 64) * 64 + j.toNat % 64) [c, i, j] ↔
      i < 0xc0 ∧ j < 0xc0 ∧ ¬ (c = 0xed ∧ 0x20 ≤ i.toNat % 64) := by
  generalize isValue : (c.toNat % 16 * 64 + i.toNat % 64) * 64 + j.toNat % 64 = v
  have tail := tail_byte_iff i isTail
  have tail' := tail_byte_iff j isTail'
  have isZero : c.toNat = 224 → 0x20 ≤ i.toNat % 64 := fun same =>
    wide ((UInt8.toNat_inj.mp (same.trans rfl)))
  have isSurrogate : c = 0xed ↔ c.toNat = 237 := by
    rw [← UInt8.toNat_inj]
    rfl
  rw [UInt8.le_iff_toNat_le] at isLead
  rw [UInt8.lt_iff_toNat_lt] at below
  have low : (0xe0 : Byte).toNat = 224 := rfl
  have high : (0xf0 : Byte).toNat = 240 := rfl
  have lead : c = UInt8.ofNat (c.toNat % 16 + 0xe0) := (eq_of_nat_iff c (by omega)).mpr (by omega)
  have isValid : v.isValidChar ↔
      ¬ (c = 0xed ∧ 0x20 ≤ i.toNat % 64) := by
    rw [isSurrogate, Nat.isValidChar]
    omega
  have first : v / 4096 % 0x10 = c.toNat % 16 := by omega
  have second : v / 64 % 0x40 = i.toNat % 64 := by omega
  have third : v % 0x40 = j.toNat % 64 := by omega
  rw [encodes_iff, isValid, encodeNat, if_neg (by omega), if_neg (by omega),
    if_pos (by omega), first, second,
    third, ← lead, ← tail, ← tail']
  simp only [List.cons.injEq, true_and, and_true]
  exact and_comm.trans and_assoc

theorem encodes_four (c i j k : Byte) (isLead : 0xf0 ≤ c) (isTail : 0x80 ≤ i) (isTail' : 0x80 ≤ j)
    (isTail'' : 0x80 ≤ k) (wide : 0x10 ≤ c.toNat % 8 * 64 + i.toNat % 64)
    (bounded : c.toNat % 8 * 64 + i.toNat % 64 < 0x110) :
    Encodes (((c.toNat % 8 * 64 + i.toNat % 64) * 64 + j.toNat % 64) * 64 + k.toNat % 64) [c, i, j, k] ↔
      c < 0xf8 ∧ i < 0xc0 ∧ j < 0xc0 ∧ k < 0xc0 := by
  generalize isValue : ((c.toNat % 8 * 64 + i.toNat % 64) * 64 + j.toNat % 64) * 64 + k.toNat % 64 = v
  have tail := tail_byte_iff i isTail
  have tail' := tail_byte_iff j isTail'
  have tail'' := tail_byte_iff k isTail''
  rw [UInt8.le_iff_toNat_le] at isLead
  have low : (0xf0 : Byte).toNat = 240 := rfl
  have lead : c = UInt8.ofNat (c.toNat % 8 + 0xf0) ↔ c < 0xf8 := by
    rw [eq_of_nat_iff c (by omega), UInt8.lt_iff_toNat_lt]
    have high : (0xf8 : Byte).toNat = 248 := rfl
    omega
  have isValid : v.isValidChar := Or.inr (by omega)
  have first : v / 262144 % 0x08 = c.toNat % 8 := by omega
  have second : v / 4096 % 0x40 = i.toNat % 64 := by omega
  have third : v / 64 % 0x40 = j.toNat % 64 := by omega
  have last : v % 0x40 = k.toNat % 64 := by omega
  rw [encodes_iff, encodeNat, if_neg (by omega), if_neg (by omega), if_neg (by omega),
    first, second, third, last,
    ← lead, ← tail, ← tail', ← tail'']
  simp [isValid]

theorem taken_encodes (taken : Taken p n decoded) :
    Encodes decoded.value (p.take decoded.consumed) ↔ ¬ Misread p n := by
  cases taken with
  | two c i rest n enough isLead below isTail =>
    apply (encodes_two c i isLead below isTail).trans
    rw [← not_iff_not, not_not, UInt8.not_lt]
    constructor
    · exact fun isHigh => Misread.two c i rest n enough isLead below isHigh
    · intro misread
      cases misread with
      | two _ _ _ _ _ _ _ isHigh => exact isHigh
      | three _ _ _ _ _ _ lead => exact absurd lead (UInt8.not_le.mpr below)
      | four _ _ _ _ _ _ _ lead =>
        exact absurd (UInt8.le_trans (by decide) lead) (UInt8.not_le.mpr below)
  | three c i j rest n enough isLead below isTail isTail' wide =>
    apply (encodes_three c i j isLead below isTail isTail' wide).trans
    rw [← not_iff_not, not_not, not_and_or, not_and_or, not_not, UInt8.not_lt, UInt8.not_lt]
    constructor
    · exact fun wrong => Misread.three c i j rest n enough isLead below isTail isTail' wide wrong
    · intro misread
      cases misread with
      | two _ _ _ _ _ _ lead => exact absurd isLead (UInt8.not_le.mpr lead)
      | three _ _ _ _ _ _ _ _ _ _ _ wrong => exact wrong
      | four _ _ _ _ _ _ _ lead => exact absurd lead (UInt8.not_le.mpr below)
  | four c i j k rest n enough isLead isTail isTail' isTail'' wide bounded =>
    apply (encodes_four c i j k isLead isTail isTail' isTail'' wide bounded).trans
    rw [← not_iff_not, not_not, not_and_or, not_and_or, not_and_or, UInt8.not_lt, UInt8.not_lt, UInt8.not_lt,
      UInt8.not_lt]
    constructor
    · exact fun wrong =>
        Misread.four c i j k rest n enough isLead isTail isTail' isTail'' wide bounded wrong
    · intro misread
      cases misread with
      | two _ _ _ _ _ _ lead =>
        exact absurd (UInt8.le_trans (by decide) isLead) (UInt8.not_le.mpr lead)
      | three _ _ _ _ _ _ _ lead => exact absurd isLead (UInt8.not_le.mpr lead)
      | four _ _ _ _ _ _ _ _ _ _ _ _ _ wrong => exact wrong

theorem byte_of_nat (small : number < 256) : (UInt8.ofNat number).toNat = number := by
  rw [UInt8.toNat_ofNat', Nat.mod_eq_of_lt small]

theorem le_byte_of_nat (small : number < 256) (least : bound.toNat ≤ number) :
    bound ≤ UInt8.ofNat number := by
  rw [UInt8.le_iff_toNat_le, byte_of_nat small]
  exact least

theorem byte_of_nat_lt (less : number < bound.toNat) : UInt8.ofNat number < bound := by
  rw [UInt8.lt_iff_toNat_lt, byte_of_nat (less.trans bound.toNat_lt)]
  exact less

theorem encoding_taken (c : Char) (large : 0x80 ≤ c.toNat) (rest : Bytes)
    (enough : (String.utf8EncodeChar c).length ≤ n) :
    Taken (String.utf8EncodeChar c ++ rest) n ⟨c.toNat, (String.utf8EncodeChar c).length⟩ := by
  have isValid : c.toNat.isValidChar := c.valid
  rw [encode_char] at enough ⊢
  generalize c.toNat = v at *
  have last : v % 0x40 + 0x80 < 256 := by omega
  have isTail : (0x80 : Byte) ≤ UInt8.ofNat (v % 0x40 + 0x80) := le_byte_of_nat last (show 128 ≤ _ by omega)
  by_cases isTwo : v ≤ 0x7ff
  · have shape : encodeNat v = [UInt8.ofNat (v / 64 % 0x20 + 0xc0), UInt8.ofNat (v % 0x40 + 0x80)] := by
      rw [encodeNat, if_neg (by omega), if_pos isTwo]
    rw [shape] at enough ⊢
    have first : v / 64 % 0x20 + 0xc0 < 256 := by omega
    have taken := Taken.two (UInt8.ofNat (v / 64 % 0x20 + 0xc0))
      (UInt8.ofNat (v % 0x40 + 0x80)) rest n enough
      (le_byte_of_nat first (show 194 ≤ _ by omega)) (byte_of_nat_lt (show _ < 224 by omega)) isTail
    have value : (v / 64 % 0x20 + 0xc0) % 32 * 64 + (v % 0x40 + 0x80) % 64 = v := by omega
    rw [byte_of_nat first, byte_of_nat last, value] at taken
    exact taken
  · have third : v / 64 % 0x40 + 0x80 < 256 := by omega
    have isTail' : (0x80 : Byte) ≤ UInt8.ofNat (v / 64 % 0x40 + 0x80) :=
      le_byte_of_nat third (show 128 ≤ _ by omega)
    by_cases isThree : v ≤ 0xffff
    · have shape : encodeNat v = [UInt8.ofNat (v / 4096 % 0x10 + 0xe0), UInt8.ofNat (v / 64 % 0x40 + 0x80),
          UInt8.ofNat (v % 0x40 + 0x80)] := by
        rw [encodeNat, if_neg (by omega), if_neg isTwo, if_pos isThree]
      rw [shape] at enough ⊢
      have first : v / 4096 % 0x10 + 0xe0 < 256 := by omega
      have wide : UInt8.ofNat (v / 4096 % 0x10 + 0xe0) = 0xe0 →
          0x20 ≤ (UInt8.ofNat (v / 64 % 0x40 + 0x80)).toNat % 64 := by
        intro isZero
        have lead := congrArg UInt8.toNat isZero
        rw [byte_of_nat first] at lead
        rw [byte_of_nat third]
        have same : (0xe0 : Byte).toNat = 224 := rfl
        omega
      have taken := Taken.three (UInt8.ofNat (v / 4096 % 0x10 + 0xe0)) (UInt8.ofNat (v / 64 % 0x40 + 0x80))
        (UInt8.ofNat (v % 0x40 + 0x80)) rest n enough (le_byte_of_nat first (show 224 ≤ _ by omega))
        (byte_of_nat_lt (show _ < 240 by omega)) isTail' isTail wide
      have value : ((v / 4096 % 0x10 + 0xe0) % 16 * 64 + (v / 64 % 0x40 + 0x80) % 64) * 64 +
          (v % 0x40 + 0x80) % 64 = v := by omega
      rw [byte_of_nat first, byte_of_nat third, byte_of_nat last, value] at taken
      exact taken
    · have shape : encodeNat v =
          [UInt8.ofNat (v / 262144 % 0x08 + 0xf0), UInt8.ofNat (v / 4096 % 0x40 + 0x80),
          UInt8.ofNat (v / 64 % 0x40 + 0x80), UInt8.ofNat (v % 0x40 + 0x80)] := by
        rw [encodeNat, if_neg (by omega), if_neg isTwo, if_neg isThree]
      rw [shape] at enough ⊢
      have first : v / 262144 % 0x08 + 0xf0 < 256 := by omega
      have second : v / 4096 % 0x40 + 0x80 < 256 := by omega
      have isTail'' : (0x80 : Byte) ≤ UInt8.ofNat (v / 4096 % 0x40 + 0x80) :=
        le_byte_of_nat second (show 128 ≤ _ by omega)
      have wide : 0x10 ≤ (UInt8.ofNat (v / 262144 % 0x08 + 0xf0)).toNat % 8 * 64 +
          (UInt8.ofNat (v / 4096 % 0x40 + 0x80)).toNat % 64 := by
        rw [byte_of_nat first, byte_of_nat second]
        omega
      have bounded : (UInt8.ofNat (v / 262144 % 0x08 + 0xf0)).toNat % 8 * 64 +
          (UInt8.ofNat (v / 4096 % 0x40 + 0x80)).toNat % 64 < 0x110 := by
        rw [byte_of_nat first, byte_of_nat second]
        omega
      have taken := Taken.four (UInt8.ofNat (v / 262144 % 0x08 + 0xf0))
        (UInt8.ofNat (v / 4096 % 0x40 + 0x80))
        (UInt8.ofNat (v / 64 % 0x40 + 0x80)) (UInt8.ofNat (v % 0x40 + 0x80)) rest n enough
        (le_byte_of_nat first (show 240 ≤ _ by omega)) isTail'' isTail' isTail wide bounded
      have value : (((v / 262144 % 0x08 + 0xf0) % 8 * 64 + (v / 4096 % 0x40 + 0x80) % 64) * 64 +
          (v / 64 % 0x40 + 0x80) % 64) * 64 + (v % 0x40 + 0x80) % 64 = v := by omega
      rw [byte_of_nat first, byte_of_nat second, byte_of_nat third, byte_of_nat last, value] at taken
      exact taken

theorem decode_complete (c : Char) (large : 0x80 ≤ c.toNat)
    (isThere : (String.utf8EncodeChar c).IsPrefix (p.take n)) :
    ngxUtf8Decode p n = some ⟨c.toNat, (String.utf8EncodeChar c).length⟩ := by
  obtain ⟨rest, split⟩ := isThere
  have enough : (String.utf8EncodeChar c).length ≤ n := by
    have size := congrArg List.length split
    rw [length_append, length_take] at size
    omega
  have whole : p = String.utf8EncodeChar c ++ (rest ++ p.drop n) := by
    rw [← append_assoc, split, take_append_drop]
  rw [whole]
  exact taken_decode (encoding_taken c large _ enough)

end Exactness

/-- A call is exact unless the sequence is one of those that are misread. -/
theorem exact_iff_not_misread (p : Bytes) (n : Nat) (pos : 1 ≤ n) (available : n ≤ p.length) :
    Exact p n ↔ ¬ Misread p n := by
  constructor
  · intro isExact misread
    obtain ⟨decoded, _, found, sound⟩ := isExact.sound
    obtain ⟨taken, isTaken⟩ := misread_taken misread
    have same := (taken_decode isTaken).symm.trans found
    obtain rfl := Option.some.inj same
    have range := taken_in_range isTaken
    exact (taken_encodes isTaken).mp (sound range.1 range.2) misread
  · intro regular
    refine ⟨?_, fun c large isThere => decode_complete c large isThere⟩
    have full : n ≤ (p.take n).length := by
      rw [length_take]
      omega
    obtain ⟨decoded, inside⟩ := decode_total pos full
    have found := @decode_append n (p.take n) (p.drop n) decoded inside
    rw [take_append_drop] at found
    refine ⟨decoded, inside, found, ?_⟩
    intro _ bounded
    exact (taken_encodes (decode_taken pos found bounded)).mpr regular

theorem exact_euro_sign : Exact [0xe2, 0x82, 0xac] 3 := by
  apply (exact_iff_not_misread [0xe2, 0x82, 0xac] 3 (by decide) (by decide)).mpr
  intro misread
  cases misread with
  | two _ _ _ _ _ _ lead => exact absurd lead (by decide)
  | three _ _ _ _ _ _ _ _ _ _ _ wrong => exact absurd wrong (by decide)

theorem surrogate_inexact : ngxUtf8Decode [0xed, 0xa0, 0x80] 3 = some ⟨0xd800, 3⟩ ∧
    ¬ Exact [0xed, 0xa0, 0x80] 3 := by
  refine ⟨by decide, ?_⟩
  intro isExact
  obtain ⟨decoded, _, found, sound⟩ := isExact.sound
  have isValue : ngxUtf8Decode [0xed, 0xa0, 0x80] 3 = some ⟨0xd800, 3⟩ := by decide
  obtain rfl := Option.some.inj (isValue.symm.trans found)
  obtain ⟨c, isNumber, _⟩ := sound (by decide) (by decide)
  have isValid : c.toNat.isValidChar := c.valid
  rw [isNumber] at isValid
  exact absurd isValid (by decide)

end ServerCore.NginxUtf8Decoding
